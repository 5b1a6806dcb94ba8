import SofaBuffers.Walk.Session
import SofaBuffers.Walk.Chunk

/-!
# A message in pieces is the message

Feeding a string in chunks ends as feeding it whole does: with the same
outcome, the same deliveries, and the same storage once the message is
complete. A verdict, once reached, is repeated.
-/

set_option autoImplicit false

namespace SofaBuffers

open Resumable Dec

variable {V : Type}

/-- Feed chunks one after the other; `last` is the outcome so far. -/
def feedAll (c : Config V) (last : Status) : List (List UInt8) → DecM V Status
  | [] => pure last
  | chunk::chunks => do
    let last ← feed c chunk
    feedAll c last chunks

/-- Two decodes end alike: the same outcome or exception, the same deliveries,
and the same storage if they are complete. -/
inductive SameEnd : EStateM.Result Exn (Dec V) Status → EStateM.Result Exn (Dec V) Status → Prop
  /-- Both answer. -/
  | answered {st : Status} {d d' : Dec V} (heard : d.store.Heard d'.store)
      (stored : st=.complete →
        d.store.word=d'.store.word ∧ d.store.obj=d'.store.obj ∧ d.store.mem=d'.store.mem) :
      SameEnd (.ok st d) (.ok st d')
  /-- Both raise. -/
  | raised {e : Exn} {d d' : Dec V} (heard : d.store.Heard d'.store) :
      SameEnd (.error e d) (.error e d')

/-- A result is the answer to a run. -/
def Answers : Halt (Walk V) UInt8 Exn → EStateM.Result Exn (Dec V) Status → Prop
  | .wait s _, .ok st d => st=.incomplete ∧ s.store.Heard d.store
  | .stop s, .ok st d => st=.complete ∧ Agree ∅ ∅ s.store d.store
  | .fail why s _, .ok st d => st=.invalid ∧ why.cls=.decode ∧ s.store.Heard d.store
  | .fail why s _, .error e d => e=why ∧ why.cls≠.decode ∧ s.store.Heard d.store
  | _, _ => False

section Answers

variable {c : Config V} {h h' : Halt (Walk V) UInt8 Exn}
variable {r r' : EStateM.Result Exn (Dec V) Status}

/-- Runs that agree have the same answers. -/
theorem Answers.congr (hr : Answers h r) (hh : HaltEqv (Walk.Alike c) Walk.Heard h h')
    (hs : ∀ s, h=.stop s → ∃ skip, s.mode=.header none skip ∧ s.depth=0) : Answers h' r := by
  cases hh with
  | wait ha =>
    obtain ⟨τ,rfl,ha⟩ := ha
    cases r with
    | ok st d => exact ⟨hr.1,ha.log.symm.trans hr.2⟩
    | error e d => exact absurd hr id
  | stop ha =>
    obtain ⟨τ,rfl,ha⟩ := ha
    cases r with
    | ok st d =>
      obtain ⟨skip,hm,-⟩ := hs _ rfl
      rw [Walk.words,Walk.bytes,hm] at ha
      exact ⟨hr.1,ha.symm.trans hr.2⟩
    | error e d => exact absurd hr id
  | fail ha =>
    cases r with
    | ok st d => exact ⟨hr.1,hr.2.1,Eq.trans (Eq.symm ha) hr.2.2⟩
    | error e d => exact ⟨hr.1,hr.2.1,Eq.trans (Eq.symm ha) hr.2.2⟩

/-- The answers to a run are alike. -/
theorem Answers.same (hr : Answers h r) (hr' : Answers h r') : SameEnd r r' := by
  cases h with
  | wait s rest =>
    cases r with
    | error e d => exact absurd hr id
    | ok st d =>
      cases r' with
      | error e d' => exact absurd hr' id
      | ok st' d' =>
        obtain ⟨rfl,hd⟩ := hr
        obtain ⟨rfl,hd'⟩ := hr'
        exact .answered (Eq.trans (Eq.symm hd) hd') (by simp)
  | stop s =>
    cases r with
    | error e d => exact absurd hr id
    | ok st d =>
      cases r' with
      | error e d' => exact absurd hr' id
      | ok st' d' =>
        obtain ⟨rfl,hd⟩ := hr
        obtain ⟨rfl,hd'⟩ := hr'
        have ha := hd.symm.trans hd'
        exact .answered ha.log fun _ => ⟨funext fun i => ha.word i (Set.notMem_empty i),ha.obj,
          funext fun a => ha.mem a (Set.notMem_empty a)⟩
  | fail why s rest =>
    cases r with
    | ok st d =>
      cases r' with
      | error e d' => exact absurd hr.2.1 hr'.2.1
      | ok st' d' =>
        obtain ⟨rfl,-,hd⟩ := hr
        obtain ⟨rfl,-,hd'⟩ := hr'
        exact .answered (Eq.trans (Eq.symm hd) hd') (by simp)
    | error e d =>
      cases r' with
      | ok st' d' => exact absurd hr'.2.1 hr.2.1
      | error e' d' =>
        obtain ⟨rfl,-,hd⟩ := hr
        obtain ⟨rfl,-,hd'⟩ := hr'
        exact .raised (Eq.trans (Eq.symm hd) hd')

end Answers

/-- Bytes left over by a walk fit where its bytes did. -/
theorem concluded_answers {h : Halt (Walk V) UInt8 Exn} {room n : ℕ} {adopted : Prop}
    {r : EStateM.Result Exn (Dec V) Status} (hr : Concluded h room adopted n r)
    (hroom : ∀ s rest, h=.wait s rest → rest.length ≤ room) (hn : n ≤ room) : Answers h r := by
  cases hr with
  | suspended hh _ hat =>
    rw [hh,←hat.view]
    exact ⟨rfl,rfl⟩
  | lost hh _ hlost _ => exact absurd (hroom _ _ hh) (by omega)
  | complete hh hat =>
    rw [hh,←hat.view]
    exact ⟨rfl,Agree.refl _ _ _⟩
  | invalid hh hcls _ _ hstore =>
    rw [hh]
    refine ⟨rfl,hcls,?_⟩
    rw [hstore]
    rfl
  | limited hh hcls _ hstore =>
    rw [hh]
    refine ⟨rfl,by rw [hcls]; decide,?_⟩
    rw [hstore]
    rfl
  | raised hh h1 _ hstore he _ =>
    rw [hh]
    rcases he with rfl | ⟨-,hover,-⟩
    · refine ⟨rfl,h1,?_⟩
      rw [hstore]
      rfl
    · omega

/-- A feed answers the walk over what is held and the chunk, when both fit. -/
theorem feed_concluded {c : Config V} {d : Dec V} {room : ℕ} {s : Walk V} {xs data : List UInt8}
    (hat : d.At room s xs) (hfit : xs.length+data.length ≤ room) :
    Concluded (Walk.run c s (xs++data)) room (xs=[]) data.length (feed c data d) := by
  have hends := feed_ends c hat.idle hat.live data
  rw [FeedEnds,hat.size,hat.view,hat.held,if_neg (by omega)] at hends
  exact hends

/-- A verdict that something is malformed is repeated. -/
theorem feed_invalid {c : Config V} {d : Dec V} (hl : d.limit=none) (hs : d.status=.invalid)
    (data : List UInt8) : feed c data d=.ok .invalid d := by
  rw [feed,run_get_bind,hl]
  dsimp only
  rw [if_pos hs]
  rfl

/-- A limit that was reached is raised again. -/
theorem feed_limited {c : Config V} {d : Dec V} {e : Exn} (hl : d.limit=some e)
    (data : List UInt8) : feed c data d=.error e d := by
  rw [feed,run_get_bind,hl]
  rfl

/-- Chunks fed after the verdict do not change it. -/
theorem feedAll_invalid {c : Config V} {d : Dec V} (hl : d.limit=none) (hs : d.status=.invalid)
    (chunks : List (List UInt8)) : feedAll c .invalid chunks d=.ok .invalid d := by
  induction chunks with
  | nil => rfl
  | cons chunk chunks ih =>
    rw [feedAll,run_bind_ok (feed_invalid hl hs chunk)]
    exact ih

/-- Feeding chunks answers the walk over all of them. -/
theorem feedAll_answers {c : Config V} (hc : bindWords c=.ok ()) {chunks : List (List UInt8)}
    (hne : chunks≠[]) {d : Dec V} {room : ℕ} {s : Walk V} {xs : List UInt8}
    (hat : d.At room s xs) (hs : s.Sound c) (hfit : xs.length+chunks.flatten.length ≤ room)
    (last : Status) : Answers (Walk.run c s (xs++chunks.flatten)) (feedAll c last chunks d) := by
  induction chunks generalizing d s xs last with
  | nil => exact absurd rfl hne
  | cons chunk chunks ih =>
    rw [List.flatten_cons,List.length_append] at hfit
    have hcon := feed_concluded (c:=c) hat (show xs.length+chunk.length ≤ room by omega)
    have hroom : ∀ s' rest, Walk.run c s (xs++chunk)=.wait s' rest →
        rest.length ≤ xs.length+chunk.length := by
      intro s' rest hrun
      have hle := Walk.run_wait_length hrun
      rw [List.length_append] at hle
      exact hle
    have hans := concluded_answers hcon (fun s' rest hrun => by
      have := hroom s' rest hrun; omega) (by omega)
    rw [List.flatten_cons,←List.append_assoc,feedAll,run_bind]
    by_cases hmore : chunks=[]
    · subst hmore
      rw [List.flatten_nil,List.append_nil]
      generalize feed c chunk d=r at hans
      cases r with
      | ok st d' => exact hans
      | error e d' => exact hans
    · have hchunk := Walk.chunkable hc
      generalize feed c chunk d=r at hcon hans
      cases hcon with
      | suspended hh _ hat' =>
        rename_i s' rest d'
        have hle := hroom _ _ hh
        refine (ih hmore hat' (inv_of_wait hchunk hs hh) (by omega) _).congr
          (run_wait hchunk hs hh chunks.flatten) ?_
        exact fun _ hstop => Walk.run_stop_mode hstop
      | complete hh hat' =>
        refine (ih hmore hat' (inv_of_stop hchunk hs hh) (by rw [List.length_nil]; omega) _).congr
          (run_stop hchunk hs hh chunks.flatten) ?_
        exact fun _ hstop => Walk.run_stop_mode hstop
      | invalid hh hcls hlim hstatus _ =>
        rw [hh] at hans
        have hfail := run_fail hchunk hh chunks.flatten
        rw [show Walk.run c s ((xs++chunk)++chunks.flatten)=_ from hfail]
        dsimp only
        rw [feedAll_invalid hlim hstatus]
        exact hans
      | lost hh _ _ _ => rw [hh] at hans; exact absurd hans id
      | limited hh _ _ _ =>
        rw [hh] at hans
        have hfail := run_fail hchunk hh chunks.flatten
        rw [show Walk.run c s ((xs++chunk)++chunks.flatten)=_ from hfail]
        exact hans
      | raised hh _ _ _ _ _ =>
        rw [hh] at hans
        have hfail := run_fail hchunk hh chunks.flatten
        rw [show Walk.run c s ((xs++chunk)++chunks.flatten)=_ from hfail]
        exact hans

/-- What the verdict of a feed is told by. -/
def Verdict (r : EStateM.Result Exn (Dec V) Status) : Prop :=
  match r with
  | .ok .invalid d => d.limit=none ∧ d.status=.invalid
  | .ok _ d => d.Idle ∧ d.Live
  | .error e d => e.cls=.limit → d.limit=some e

/-- A feed that comes to a verdict leaves it on the decoder. -/
theorem feed_verdict {c : Config V} {d : Dec V} (hi : d.Idle) (hl : d.Live) (data : List UInt8) :
    Verdict (feed c data d) := by
  have harg : ∀ {room need : ℕ}, (tooLong room need).cls≠.limit := by
    intro room need
    rw [tooLong]
    exact fun h => by cases h
  have hends := feed_ends c hi hl data
  rw [FeedEnds] at hends
  generalize feed c data d=r at hends
  split at hends
  · obtain ⟨d',rfl,-⟩ := hends
    exact fun h => absurd h harg
  · cases hends with
    | suspended _ _ hat => exact ⟨hat.idle,hat.live⟩
    | lost _ _ _ _ => exact fun h => absurd h harg
    | complete _ hat => exact ⟨hat.idle,hat.live⟩
    | invalid _ _ hlim hstatus _ => exact ⟨hlim,hstatus⟩
    | limited _ _ hlim _ => exact fun _ => hlim
    | raised _ _ h2 _ he _ =>
      rcases he with rfl | ⟨_,_,_,rfl⟩
      · exact fun h => absurd h h2
      · exact fun h => absurd h harg

/-- Chunks that come to a verdict leave it on the decoder. -/
theorem feedAll_verdict {c : Config V} {d : Dec V} (hi : d.Idle) (hl : d.Live) (last : Status)
    (hlast : last≠.invalid) (chunks : List (List UInt8)) :
    Verdict (feedAll c last chunks d) := by
  induction chunks generalizing d last with
  | nil =>
    cases last with
    | invalid => exact absurd rfl hlast
    | complete | incomplete => exact ⟨hi,hl⟩
  | cons chunk chunks ih =>
    have hv := feed_verdict (c:=c) hi hl chunk
    rw [feedAll,run_bind]
    generalize feed c chunk d=r at hv
    cases r with
    | error e d₁ => exact hv
    | ok st d₁ =>
      cases st with
      | invalid =>
        dsimp only
        rw [feedAll_invalid hv.1 hv.2]
        exact hv
      | complete => exact ih hv.1 hv.2 _ (by decide)
      | incomplete => exact ih hv.1 hv.2 _ (by decide)

/-- One chunk is fed by one feed. -/
theorem feedAll_one (c : Config V) (last : Status) (data : List UInt8) (d : Dec V) :
    feedAll c last [data] d=feed c data d := by
  rw [feedAll,run_bind]
  cases feed c data d <;> rfl

/-- A decoder that could be built is fresh, over storage that was checked. -/
theorem init_ok {c : Config V} {r : Reassembly} {store : Store V} {d : Dec V}
    (h : Dec.init c r store=.ok d) :
    (∃ rbuf, r.buffer=.ok rbuf ∧ d=Dec.fresh c rbuf store) ∧ bindWords c=.ok () := by
  have hbind : ∀ {α β : Type} {m : Except Exn α} {f : α → Except Exn β} {b : β},
      (m >>= f)=.ok b → ∃ a, m=.ok a ∧ f a=.ok b := by
    intro α β m f b h
    cases m with
    | error e => cases h
    | ok a => exact ⟨a,rfl,h⟩
  rw [Dec.init] at h
  split at h
  · obtain ⟨_,h,-⟩ := hbind h
    cases h
  · obtain ⟨_,-,h⟩ := hbind h
    obtain ⟨_,-,h⟩ := hbind h
    obtain ⟨_,-,h⟩ := hbind h
    obtain ⟨rbuf,hr,h⟩ := hbind h
    obtain ⟨_,hb,h⟩ := hbind h
    cases h
    exact ⟨⟨rbuf,hr,rfl⟩,hb⟩

/-- Nothing fed to a fresh decoder is a complete message. -/
theorem fresh_nil (c : Config V) (rbuf : List UInt8) (store : Store V) :
    Walk.run c (Dec.fresh c rbuf store).view []=.stop (Dec.fresh c rbuf store).view :=
  Walk.run_stop rfl

/-- Chunks fed to a fresh decoder answer the walk over all of them. -/
theorem fresh_answers {c : Config V} {r : Reassembly} {store : Store V} {d : Dec V}
    (h : Dec.init c r store=.ok d) (chunks : List (List UInt8))
    (hfit : chunks.flatten.length ≤ d.rbuf.length) :
    Answers (Walk.run c d.view chunks.flatten) (feedAll c .complete chunks d) := by
  obtain ⟨⟨rbuf,-,rfl⟩,hc⟩ := init_ok h
  by_cases hne : chunks=[]
  · subst hne
    rw [List.flatten_nil,fresh_nil]
    exact ⟨rfl,Agree.refl _ _ _⟩
  · have hat := fresh_at c rbuf store
    have hsound : (Dec.fresh c rbuf store).view.Sound c := trivial
    have hroom : ([] : List UInt8).length+chunks.flatten.length ≤ rbuf.length := by
      rw [List.length_nil,Nat.zero_add]
      exact hfit
    exact feedAll_answers hc hne hat hsound hroom .complete

/-- Chunking independence: a fresh decoder fed a message in chunks ends as one fed
it whole does, and repeats a verdict whatever follows. -/
theorem feed_chunks {c : Config V} {r : Reassembly} {store : Store V} {d : Dec V}
    (h : Dec.init c r store=.ok d) :
    (∀ chunks : List (List UInt8), chunks.flatten.length ≤ d.rbuf.length →
      SameEnd (feedAll c .complete chunks d) (feed c chunks.flatten d)) ∧
    (∀ chunks d', feedAll c .complete chunks d=.ok .invalid d' →
      ∀ data, feed c data d'=.ok .invalid d') ∧
    ∀ chunks msg d', feedAll c .complete chunks d=.error (.limit msg) d' →
      ∀ data, feed c data d'=.error (.limit msg) d' := by
  have hanswers := fresh_answers h
  obtain ⟨⟨rbuf,-,rfl⟩,-⟩ := init_ok h
  have hat := fresh_at c rbuf store
  refine ⟨fun chunks hfit => ?_,fun chunks d' hd data => ?_,fun chunks msg d' hd data => ?_⟩
  · have hone := hanswers [chunks.flatten] (by rw [List.flatten_singleton]; exact hfit)
    rw [feedAll_one,List.flatten_singleton] at hone
    exact (hanswers chunks hfit).same hone
  · have hv := feedAll_verdict (c:=c) hat.idle hat.live .complete (by decide) chunks
    rw [hd] at hv
    exact feed_invalid hv.1 hv.2 data
  · have hv := feedAll_verdict (c:=c) hat.idle hat.live .complete (by decide) chunks
    rw [hd] at hv
    exact feed_limited (hv rfl) data

/-- A field of id 1 whose value comes in a chunk of its own. -/
theorem feed_chunks_split :
    SameEnd
      (feedAll listener .complete [[0x08],[],[0x05]]
        (Dec.fresh listener (List.replicate 16 0) blank))
      (feed listener [0x08,0x05] (Dec.fresh listener (List.replicate 16 0) blank)) := by
  have hsame := (feed_chunks init_listener).1 [[0x08],[],[0x05]]
  exact hsame (by decide)

end SofaBuffers
