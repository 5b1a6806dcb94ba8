import SofaBuffers.Native.Walks
import SofaBuffers.Stream.Safe

/-!
# A compiled decoder beside an interpreted one

A feed of the compiled decoder takes its chunk, walks it and keeps what is left as a feed of the
interpreted one does. The two decoders stay side by side over every run of feeds, those behind a
verdict included.
-/

set_option autoImplicit false

namespace SofaBuffers

open Resumable
open Dec

variable {V : Type}

namespace Native

/-- The buffers of two decoders have been changed in one way. -/
inductive Moved (d d' : Dec V) : Dec V → Dec V → Prop
  /-- Both hold the same buffers, at the same cursors, under the same status. -/
  | mk (buf rbuf : List UInt8) (b : Bool) (n pos keep keep' rstart rend : ℕ) (status : Status) :
      Moved d d'
        {d with
          buf := buf, bufIsR := b, n := n, pos := pos, keep := keep, rbuf := rbuf, rstart := rstart
          rend := rend, status := status}
        {d' with
          buf := buf, bufIsR := b, n := n, pos := pos, keep := keep', rbuf := rbuf
          rstart := rstart, rend := rend, status := status}

/-- The decoders mirror each other, or both have come to a verdict that stands. -/
inductive Beside (c : Config V) (k : Compiled) (d : Dec V) (s : Decoder V) : Prop
  /-- Neither decoder has come to a verdict. -/
  | going (h : Mirrors c k d s)
  /-- Both met something malformed. -/
  | invalid (hd : d.limit=none ∧ d.status=.invalid) (hs : s.limit=none ∧ s.status=.invalid)
      (hstore : d.store=s.store)
  /-- Both reached a limit. -/
  | limited {why why' : Exn} (hw : why.cls=why'.cls) (hd : d.limit=some why)
      (hs : s.limit=some why') (hstore : d.store=s.store)

/-- What they stored is the same. -/
theorem Beside.storage {c : Config V} {k : Compiled} {d : Dec V} {s : Decoder V}
    (h : Beside c k d s) : d.store=s.store := by
  cases h with
  | going h =>
    have ha := h.akin
    obtain ⟨d',wt,row⟩ := s
    cases ha
    rfl
  | invalid _ _ hstore => exact hstore
  | limited _ _ _ hstore => exact hstore

section Buffers

variable {c : Config V} {k : Compiled} {d d' e : Dec V} {s s' : Decoder V}
variable {X : Exn → Dec V → Prop}

/-- Decoders that mirror each other do so over buffers changed in one way. -/
theorem Mirrors.moved (h : Mirrors c k d s) (hm : Moved d s.toDec e s'.toDec)
    (hw : s'.curWtype=s.curWtype) (hr : s'.resumeRow=s.resumeRow) : Mirrors c k e s' := by
  obtain ⟨ha,hl,hpend,hvisit⟩ := h
  obtain ⟨d',wt,row⟩ := s
  obtain ⟨e',wt',row'⟩ := s'
  dsimp only at hm hw hr ha
  subst hw hr
  cases ha
  cases hm
  refine ⟨.mk _ _ _ _ _ _,hl,hpend,fun hk p hq => ?_⟩
  obtain ⟨hsound,hwt,hid,hroute⟩ := hvisit hk p hq
  exact ⟨hsound,hwt,hid,hroute⟩

/-- Both decoders put a chunk where the walk can reach it. -/
theorem reassemble_moved (h : Akin d d') (data : List UInt8) :
    Alongside X (fun _ e _ e' => Moved d d' e e')
      (fun why e why' e' => why=why' ∧ Moved d d' e e') (reassemble data d) (reassemble data d') := by
  cases h
  rw [reassemble,run_get_bind,run_get_bind]
  by_cases hheld : d.rend-d.rstart=0
  · rw [if_pos hheld,if_pos hheld]
    exact .ok (.mk _ _ _ _ _ _ _ _ _ _)
  rw [if_neg hheld,if_neg hheld,slide,run_modify_bind,run_modify_bind]
  by_cases hslide : d.rend+data.length > d.rbuf.length ∧ d.rstart≠0
  · rw [if_pos hslide,if_pos hslide,append,run_get_bind,run_get_bind]
    dsimp only
    split
    · exact .error ⟨rfl,.mk _ _ _ _ _ _ _ _ _ _⟩
    · exact .ok (.mk _ _ _ _ _ _ _ _ _ _)
  · rw [if_neg hslide,if_neg hslide,append,run_get_bind,run_get_bind]
    dsimp only
    split
    · exact .error ⟨rfl,.mk _ _ _ _ _ _ _ _ _ _⟩
    · exact .ok (.mk _ _ _ _ _ _ _ _ _ _)

/-- Both decoders keep what the walk left. -/
theorem retain_moved (h : Akin d d') :
    Alongside X (fun _ e _ e' => Moved d d' e e')
      (fun why e why' e' => why=why' ∧ Moved d d' e e') (retain d) (retain d') := by
  cases h
  rw [retain,run_get_bind,run_get_bind]
  dsimp only
  split
  · exact .ok (.mk _ _ _ _ _ _ _ _ _ _)
  · split
    · exact .ok (.mk _ _ _ _ _ _ _ _ _ _)
    · split
      · exact .ok (.mk _ _ _ _ _ _ _ _ _ _)
      · split
        · exact .error ⟨rfl,.mk _ _ _ _ _ _ _ _ _ _⟩
        · exact .ok (.mk _ _ _ _ _ _ _ _ _ _)

/-- Both decoders keep what the walk left, and answer. -/
theorem leave_moved (h : Akin d d') {out : DecM V Status} {st : Status} {f : Status → Status}
    (hout : ∀ e, out e=.ok st {e with status := f e.status}) :
    Alongside X (fun st e st' e' => st=st' ∧ Moved d d' e e')
      (fun why e why' e' => why=why' ∧ Moved d d' e e') (leave out d) (leave out d') := by
  rw [leave]
  refine (retain_moved h).bind fun _ e _ e' hm => ?_
  rw [hout,hout]
  cases hm
  exact .ok ⟨rfl,.mk _ _ _ _ _ _ _ _ _ _⟩

end Buffers

section Outcomes

variable {c : Config V} {k : Compiled} {d : Dec V} {s : Decoder V}

/-- Decoders that mirror each other are left so, with what their walk left. -/
theorem leave_mirrors {X : Exn → Dec V → Prop} (h : Mirrors c k d s) {out : DecM V Status}
    {st : Status} {f : Status → Status} (hout : ∀ e, out e=.ok st {e with status := f e.status}) :
    Alongside X (fun st e st' s' => st=st' ∧ Beside c k e s')
      (fun why e why' s' => why.cls=why'.cls ∧ Beside c k e s') (leave out d)
      (within (leave out) s) :=
  (Alongside.within (leave_moved h.akin hout)).imp
    (fun _ _ _ _ h' => ⟨h'.1.1,.going (h.moved h'.1.2 h'.2.1 h'.2.2)⟩)
    fun _ _ _ _ h' => ⟨by rw [h'.1.1],.going (h.moved h'.1.2 h'.2.1 h'.2.2)⟩

/-- Decoders that mirror each other do so whatever their status. -/
theorem Mirrors.status (h : Mirrors c k d s) (st : Status) :
    Mirrors c k {d with status := st} {s with status := st} := by
  refine h.moved ?_ rfl rfl
  have ha := h.akin
  obtain ⟨d',wt,row⟩ := s
  cases ha
  exact .mk _ _ _ _ _ _ _ _ _ _

/-- Decoders that mirror each other are armed where they are. -/
theorem Mirrors.armed (h : Mirrors c k d s) :
    Mirrors c k {d with keep := d.pos} {s with keep := s.pos} := by
  refine h.moved ?_ rfl rfl
  have ha := h.akin
  obtain ⟨d',wt,row⟩ := s
  cases ha
  exact .mk _ _ _ _ _ _ _ _ _ _

/-- What raises something else than a verdict raises, over the storage that left. -/
theorem leave_throw (why : Exn) (d : Dec V) :
    ∃ why' e, leave (throw why) d=.error why' e ∧ e.store=d.store := by
  rw [leave,run_bind]
  rcases retain_store d with ⟨e,hr,hs⟩ | ⟨hr,-⟩
  · rw [hr]
    exact ⟨_,_,rfl,hs⟩
  · rw [hr]
    exact ⟨_,_,rfl,rfl⟩

/-- A decoder with a verdict answers, or raises, over the storage it has. -/
theorem leave_verdict (out : DecM V Status) (h : d.status=.invalid ∨ d.limit.isSome) :
    ∃ e, leave out d=out e ∧ e.status=d.status ∧ e.limit=d.limit ∧ e.store=d.store := by
  obtain ⟨e,hr,hkept⟩ := retain_verdict h
  refine ⟨e,?_,hkept⟩
  rw [leave,run_bind,hr]

/-- Both decoders settle the outcome of their walks. -/
theorem conclude_beside {X : Store V → Prop} {walk : DecM V Bool} {walk' : NatM V Bool}
    (h : Alongside Excused (fun b e b' s' => b=b' ∧ Mirrors c k e s') (Halted c k) (walk d)
      (walk' s))
    (hfail : ∀ why e, walk d=.error why e →
      why.cls=.incomplete ∨ why.cls=.decode ∨ why.cls=.limit ∨ X e.store) :
    Alongside (fun _ e => X e.store) (fun st e st' s' => st=st' ∧ Beside c k e s')
      (fun why e why' s' => why.cls=why'.cls ∧ Beside c k e s') (SofaBuffers.conclude walk d)
      (Decoder.conclude walk' s) := by
  rw [SofaBuffers.conclude,Decoder.conclude]
  have other : ∀ {why : Exn} {e : Dec V} {r : EStateM.Result Exn (Decoder V) Status},
      walk d=.error why e → ¬(why.cls=.incomplete ∨ why.cls=.decode ∨ why.cls=.limit) →
      Alongside (fun _ e => X e.store) (fun st e st' s' => st=st' ∧ Beside c k e s')
        (fun why e why' s' => why.cls=why'.cls ∧ Beside c k e s') (leave (throw why) e) r := by
    intro why e r hw hcls
    obtain ⟨why',e',hr,hs⟩ := leave_throw why e
    have hx : X e.store := by
      rcases hfail why e hw with h | h | h | h
      · exact absurd (Or.inl h) hcls
      · exact absurd (Or.inr (Or.inl h)) hcls
      · exact absurd (Or.inr (Or.inr h)) hcls
      · exact h
    rw [hr]
    exact .excused (hs ▸ hx)
  generalize hw : walk d=r,walk' s=r' at h other
  cases h with
  | @ok a e b s' h =>
    obtain ⟨rfl,hm⟩ := h
    cases a with
    | true => exact leave_mirrors (f:=id) (hm.status .incomplete) fun _ => rfl
    | false => exact leave_mirrors (f:=fun _ => .complete) hm fun _ => rfl
  | @error why why' e s' h =>
    have hcls := h.cls
    cases why with
    | incomplete msg =>
      cases why' with
      | incomplete msg' =>
        exact leave_mirrors (f:=id) ((h.waits rfl).status .incomplete) fun _ => rfl
      | _ => cases hcls
    | limit msg =>
      cases why' with
      | limit msg' =>
        obtain ⟨e₁,hone,-,hl,hs⟩ := leave_verdict (throw (.limit msg))
          (d:={e with limit := some (.limit msg), error := some (.limit msg)}) (Or.inr rfl)
        obtain ⟨e₂,hother,-,hl',hs'⟩ := leave_verdict (throw (.limit msg'))
          (d:={s'.toDec with limit := some (.limit msg'), error := some (.limit msg')}) (Or.inr rfl)
        dsimp only
        rw [hone,within_error (e:=e₂) hother]
        exact .error ⟨rfl,.limited hcls hl hl' (hs.trans (h.store.trans hs'.symm))⟩
      | _ => cases hcls
    | decode msg =>
      cases why' with
      | decode msg' =>
        obtain ⟨e₁,hone,hst,hl,hs⟩ := leave_verdict (pure .invalid)
          (d:={e with status := .invalid, error := some (.decode msg)}) (Or.inl rfl)
        obtain ⟨e₂,hother,hst',hl',hs'⟩ := leave_verdict (pure .invalid)
          (d:={s'.toDec with status := .invalid, error := some (.decode msg')}) (Or.inl rfl)
        dsimp only
        rw [hone,within_ok (e:=e₂) hother]
        exact .ok ⟨rfl,.invalid ⟨hl.trans h.limit.1,hst⟩ ⟨hl'.trans h.limit.2,hst'⟩
          (hs.trans (h.store.trans hs'.symm))⟩
      | _ => cases hcls
    | _ => exact other rfl (by intro h; rcases h with h | h | h <;> cases h)
  | @excused why e r hx =>
    cases why with
    | incomplete | limit | decode => exact absurd hx id
    | _ => exact other rfl (by intro h; rcases h with h | h | h <;> cases h)

end Outcomes

section Feeds

variable {c : Config V} {kt : Option Compiled} {d : Dec V} {s : Decoder V}
variable {P : Walk V → Prop} {Q : Exn → Walk V → Prop} {X : Store V → Prop}

/-- What stops a walk is a verdict, or the storage it left is of a kind. -/
theorem drivePush_fails (hrun : ∀ s xs, P s → (Walk.run c s xs).Holds P Q)
    (hfail : ∀ why s, Q why s → why.cls=.decode ∨ why.cls=.limit ∨ X s.store) (hok : d.Ok)
    (hp : P d.view) {why : Exn} {e : Dec V} (h : SofaBuffers.drivePush c d=.error why e) :
    why.cls=.incomplete ∨ why.cls=.decode ∨ why.cls=.limit ∨ X e.store := by
  have hends := drivePush_ends c hok
  have hkeep := hrun d.view d.rest hp
  rw [h] at hends
  obtain ⟨-,hends⟩ := hends
  generalize Walk.run c d.view d.rest=r at hends hkeep
  cases r with
  | stop s => exact hends.elim
  | wait s rest =>
    obtain ⟨⟨msg,rfl⟩,-⟩ := hends
    exact Or.inl rfl
  | fail why' s rest =>
    obtain ⟨rfl,-,hs,-⟩ := hends
    rw [hs]
    exact Or.inr (hfail _ _ hkeep)

/-- Both decoders consume a chunk. -/
theorem feed_beside (swar : Bool) (hf : Fits c kt) (hc : ∀ v, Decoder.Plain (c.hooks v))
    (hrun : ∀ s xs, P s → (Walk.run c s xs).Holds P Q)
    (hfail : ∀ why s, Q why s → why.cls=.decode ∨ why.cls=.limit ∨ X s.store) (hg : d.Going P)
    (hm : Mirrors c (kt.getD {}) d s) (data : List UInt8) :
    Alongside (fun _ e => X e.store) (fun st e st' s' => st=st' ∧ Beside c (kt.getD {}) e s')
      (fun why e why' s' => why.cls=why'.cls ∧ Beside c (kt.getD {}) e s')
      (SofaBuffers.feed c data d) (Decoder.feed swar c kt data s) := by
  have hsame : s.limit=none ∧ s.status=d.status := by
    have ha := hm.akin
    have hl := hm.limit
    obtain ⟨d',wt,row⟩ := s
    cases ha
    exact ⟨hl,rfl⟩
  rw [SofaBuffers.feed,Decoder.feed,run_get_bind,run_get_bind,hm.limit,hsame.1]
  dsimp only
  rw [hsame.2,if_neg hg.live.status,if_neg hg.live.status]
  have hopens := reassemble_run hg.idle hg.live data
  have hmoved := Alongside.within (X:=fun _ e => X e.store) (reassemble_moved hm.akin data)
  rw [run_bind,run_bind]
  generalize reassemble data d=r,within (reassemble data) s=r' at hopens hmoved
  cases hmoved with
  | error h => exact .error ⟨by rw [h.1.1],.going (hm.moved h.1.2 h.2.1 h.2.2)⟩
  | excused hx => exact .excused hx
  | @ok a e b s' h =>
    have hmirror := (hm.moved h.1 h.2.1 h.2.2).armed
    have hopen : Opened d data e := by
      split at hopens
      · obtain ⟨d',hr,-⟩ := hopens
        cases hr
      · obtain ⟨d',hr,hopen⟩ := hopens
        cases hr
        exact hopen
    have harmed := hopen.arm
    have hview : P ({e with keep := e.pos} : Dec V).view := by
      rw [harmed.view]
      exact hg.kept
    exact conclude_beside (drivePush_level swar hf hc harmed.ok hmirror) fun why e' hw =>
      drivePush_fails hrun hfail harmed.ok hview hw

/-- Behind a verdict the compiled decoder answers it. -/
theorem Decoder.feed_invalid (swar : Bool) (hl : s.limit=none) (hs : s.status=.invalid)
    (data : List UInt8) : Decoder.feed swar c kt data s=.ok .invalid s := by
  rw [Decoder.feed,run_get_bind,hl]
  dsimp only
  rw [if_pos hs]
  rfl

/-- Behind a limit it raises that. -/
theorem Decoder.feed_limited (swar : Bool) {why : Exn} (hl : s.limit=some why)
    (data : List UInt8) : Decoder.feed swar c kt data s=.error why s := by
  rw [Decoder.feed,run_get_bind,hl]
  rfl

/-- Both decoders consume a chunk, whatever they have come to before. -/
theorem feed_alongside (swar : Bool) (hf : Fits c kt) (hc : ∀ v, Decoder.Plain (c.hooks v))
    (hrun : ∀ s xs, P s → (Walk.run c s xs).Holds P Q)
    (hfail : ∀ why s, Q why s → why.cls=.decode ∨ why.cls=.limit ∨ X s.store)
    (hd : d.Standing P Q) (hb : Beside c (kt.getD {}) d s) (data : List UInt8) :
    Alongside (fun _ e => X e.store)
      (fun st e st' s' => st=st' ∧ Beside c (kt.getD {}) e s' ∧ e.Standing P Q)
      (fun why e why' s' => why.cls=why'.cls ∧ Beside c (kt.getD {}) e s' ∧ e.Standing P Q)
      (SofaBuffers.feed c data d) (Decoder.feed swar c kt data s) := by
  have hbeside : Alongside (fun _ e => X e.store)
      (fun st e st' s' => st=st' ∧ Beside c (kt.getD {}) e s')
      (fun why e why' s' => why.cls=why'.cls ∧ Beside c (kt.getD {}) e s')
      (SofaBuffers.feed c data d) (Decoder.feed swar c kt data s) := by
    cases hb with
    | going hm =>
      have hsame : s.limit=none ∧ s.status=d.status := by
        have ha := hm.akin
        have hl := hm.limit
        obtain ⟨d',wt,row⟩ := s
        cases ha
        exact ⟨hl,rfl⟩
      cases hd with
      | going hg => exact feed_beside swar hf hc hrun hfail hg hm data
      | invalid hl hs =>
        rw [SofaBuffers.feed_invalid hl hs data,
          Decoder.feed_invalid swar hsame.1 (hsame.2.trans hs) data]
        exact .ok ⟨rfl,.going hm⟩
      | limited hw hl =>
        rw [hm.limit] at hl
        cases hl
    | invalid hd hs hstore =>
      rw [SofaBuffers.feed_invalid hd.1 hd.2 data,Decoder.feed_invalid swar hs.1 hs.2 data]
      exact .ok ⟨rfl,.invalid hd hs hstore⟩
    | limited hw hd hs hstore =>
      rw [SofaBuffers.feed_limited hd data,Decoder.feed_limited swar hs data]
      exact .error ⟨hw,.limited hw hd hs hstore⟩
  have hstands : (∃ st e, SofaBuffers.feed c data d=.ok st e ∧ e.Standing P Q) ∨
      ∃ why e, SofaBuffers.feed c data d=.error why e ∧ (e.Standing P Q ∨ X e.store) := by
    rcases feed_standing hrun hfail hd data with h | ⟨why,e,hr,h | h⟩
    · exact Or.inl h
    · exact Or.inr ⟨why,e,hr,Or.inl h.1⟩
    · exact Or.inr ⟨why,e,hr,Or.inr h.1⟩
  exact (hbeside.also hstands).imp (fun _ _ _ _ h => ⟨h.1.1,h.1.2,h.2⟩)
    fun _ _ _ _ h => ⟨h.1.1,h.1.2,h.2⟩

end Feeds

/-- The tables of a decoder, if it has any, were built through the binder methods. -/
inductive Tabled (c : Config V) : Prop
  /-- The decoder has no tables. -/
  | none (h : c.forest=none)
  /-- The tables were built through the binder methods. -/
  | built {narrow : BitVec 64 → Option (BitVec 32)} {heap : List Binder.Cell}
      (hb : Binder.Built narrow heap) {root : ℕ} (hr : root < heap.length)
      (h : c.forest=some (Binder.forest hb hr))

/-- The storage is real: Python counts the slots of a buffer and the entries of a list with a
`Py_ssize_t`. -/
structure Sized (c : Config V) : Prop where
  /-- The slots of the `words` buffer are counted so. -/
  words : c.nwords < 2^63
  /-- The entries of the `objects` list are counted so. -/
  objects : c.nobjects < 2^63

section Starting

variable {c : Config V}

/-- An array row keeps to the words it asks for. -/
theorem lookup_room (hb : bindWords c=.ok ()) {r id : ℕ} {e : Entry} (he : c.lookup r id=some e)
    (hk : e.kind.isArray=true) : e.slot+e.cap ≤ c.nwords := by
  obtain ⟨f,hf,hl⟩ := lookup_forest he
  have hneed := Forest.lookup_wordsNeeded hl
  have hvalue := e.value_le.1 hk
  have hwords := (bindWords_ok hf hb).1
  omega

/-- The tables of a decoder over storage that suffices can be compiled, and what is compiled
stands for them. -/
theorem compiledFor_fits (ht : Tabled c) (hz : Sized c) (hb : bindWords c=.ok ()) :
    ∃ kt, Decoder.compiledFor c=.ok kt ∧ Fits c kt := by
  cases ht with
  | none hf =>
    have hnone : ∀ r id, c.lookup r id=none := by
      intro r id
      rw [Config.lookup,hf]
      rfl
    refine ⟨none,by rw [Decoder.compiledFor,hf],by rw [hf]; rfl,fun r id => ?_,fun r => ?_,?_,?_⟩
    · rw [hnone]
      exact .none rfl
    · rw [Config.closed,hf]
      rfl
    · intro r id e he
      rw [hnone] at he
      cases he
    · exact fun r id e he => lookup_room hb he
  | built hbuilt hr hf =>
    have hworded := Binder.forest_worded hbuilt hr
    generalize Binder.forest hbuilt hr=f at hf hworded
    obtain ⟨hwords,hobjects⟩ := bindWords_ok hf hb
    obtain ⟨k,hk⟩ := build_isOk hworded (hwords.trans_lt hz.words) (hobjects.trans_lt hz.objects)
    have hlookup : ∀ r id, c.lookup r id=f.lookup r id := by
      intro r id
      rw [Config.lookup,hf]
      rfl
    refine ⟨some k,?_,by rw [hf]; rfl,fun r id => ?_,fun r => ?_,?_,?_⟩
    · rw [Decoder.compiledFor,hf]
      dsimp only
      rw [hk]
      rfl
    · rw [hlookup]
      exact (build_found hk r id).1
    · rw [Config.closed,hf]
      exact (build_found hk r 0).2
    · intro r id e he
      rw [hlookup] at he
      exact hworded.lookup he
    · exact fun r id e he => lookup_room hb he

/-- Where an interpreted decoder can be built a compiled one can, if its tables can be compiled. -/
theorem Decoder.init_eq {kt : Option Compiled} (hk : Decoder.compiledFor c=.ok kt) {r : Reassembly}
    {store : Store V} {d : Dec V} (hi : Dec.init c r store=.ok d) :
    Decoder.init c r store=.ok (kt,{toDec := d}) := by
  rw [Dec.init] at hi
  rw [Decoder.init,hk]
  generalize (c.forest.isNone && c.visitor.isNone)=nobody,statedLimit "max_dyn_array_count" c.maxDynArrayCount arrayMax=h₁,
    statedLimit "max_dyn_string_len" c.maxDynStringLen fixlenMax=h₂,
    statedLimit "max_dyn_blob_len" c.maxDynBlobLen fixlenMax=h₃,r.buffer=h₄,bindWords c=h₅ at hi ⊢
  cases nobody with
  | true => cases hi
  | false =>
    cases h₁ <;> cases h₂ <;> cases h₃ <;> cases h₄ <;> cases h₅ <;> cases hi
    rfl

/-- Where an interpreted decoder can be built a compiled one can, over the same storage. -/
theorem init_beside (ht : Tabled c) (hz : Sized c) {r : Reassembly} {store : Store V} {d : Dec V}
    (hi : Dec.init c r store=.ok d) :
    ∃ kt s, Decoder.init c r store=.ok (kt,s) ∧ Fits c kt ∧ Beside c (kt.getD {}) d s := by
  obtain ⟨⟨rbuf,-,hd⟩,hb⟩ := init_ok hi
  obtain ⟨kt,hk,hf⟩ := compiledFor_fits ht hz hb
  refine ⟨kt,{toDec := d},Decoder.init_eq hk hi,hf,?_⟩
  subst hd
  refine .going ⟨.mk _ _ _ _ _ _,rfl,?_,?_⟩
  · intro p hp
    cases hp
  · intro hkind
    cases hkind

end Starting

end Native

/-- Whatever both decoders are fed, and however the feeds end, they answer each of them alike and
store the same, over buffers that suffice and as long as no count of occurrences is full. -/
theorem decoder_parity (swar : Bool) {c : Config V} (ht : Native.Tabled c) (hz : Native.Sized c)
    {r : Reassembly} {store : Store V} {d : Dec V} (hi : Dec.init c r store=.ok d)
    (hh : ∀ v, (c.hooks v).Sufficient) (hc : ∀ v, Native.Decoder.Plain (c.hooks v))
    (hs : c.Sufficient store.obj) {chunks : List (List UInt8)}
    (hfull : ∀ pre, pre<+:chunks → ¬c.Full (replies (feed c) pre d).2.store) :
    ∃ kt s, Native.Decoder.init c r store=.ok (kt,s) ∧
      (replies (feed c) chunks d).1=(replies (Native.Decoder.feed swar c kt) chunks s).1 ∧
      (replies (feed c) chunks d).2.store=
        (replies (Native.Decoder.feed swar c kt) chunks s).2.store := by
  obtain ⟨⟨rbuf,-,hd⟩,hb⟩ := init_ok hi
  obtain ⟨kt,s,hn,hf,hbeside⟩ := Native.init_beside ht hz hi
  refine ⟨kt,s,hn,?_⟩
  have hcovers := safe_covers hb hh
  have hrun := fun s xs hs => @Walk.run_licensed _ _ _ s hcovers store trivial hs xs
  have hfail : ∀ why s, Walk.Refused (Licence.safe c) store why s →
      why.cls=.decode ∨ why.cls=.limit ∨ c.Full s.store := by
    intro why s hq
    refine (hq.raise why rfl).imp_right fun h => h.imp_right fun hshort => ?_
    refine hshort.resolve_right ?_
    rintro ⟨i,n,hasks,hn⟩
    obtain ⟨htakes,hstores⟩ := hs i n hasks
    rw [hq.obj i hstores] at hn
    exact hn htakes
  have hstanding : d.Standing (Walk.Licensed (Licence.safe c) c store)
      (Walk.Refused (Licence.safe c) store) := by
    subst hd
    exact .going ((fresh_at c rbuf store).going (fresh_licensed (Licence.safe c) c rbuf store))
  have hall := Alongside.replies (R:=fun (d : Dec V) (s : Native.Decoder V) =>
      Native.Beside c (kt.getD {}) d s ∧ d.Standing _ _) (X:=fun _ e => c.Full e.store)
    (fun data d s h => Native.feed_alongside swar hf hc hrun hfail h.2 h.1 data)
    ⟨hbeside,hstanding⟩ fun pre hpre _ => hfull pre hpre
  exact ⟨hall.1,hall.2.1.storage⟩

/-- A handler that declares no widths and no bounds means the same to both engines. -/
theorem plain_offering : Native.Decoder.Plain offering where
  array _ h := by cases h
  bound _ h := by cases h

/-- A text for a buffer, cut in its payload and behind a refused chunk, a blob for the handler and
a nested table. -/
def messageChunks : List (List UInt8) :=
  [[0x0A,0x1A,0x61],List.replicate 20 0,[0x62,0x63,0x4A,0x13,7],[8,0x26,0x08,0x05,0x07]]

/-- Both engines ask for more, refuse the long chunk, ask for more again and complete the message,
and store the same. -/
theorem decoder_parity_message :
    ∃ kt s, Native.Decoder.init messageConfig (.size 16) messageStore=.ok (kt,s) ∧
      (replies (Native.Decoder.feed true messageConfig kt) messageChunks s).1=
        [.ok .incomplete,.error .argument,.ok .incomplete,.ok .complete] ∧
      (replies (feed messageConfig) messageChunks
          (Dec.fresh messageConfig (List.replicate 16 0) messageStore)).2.store=
        (replies (Native.Decoder.feed true messageConfig kt) messageChunks s).2.store := by
  have hfull : ∀ pre, pre<+:messageChunks → ¬messageConfig.Full (replies (feed messageConfig) pre
      (Dec.fresh messageConfig (List.replicate 16 0) messageStore)).2.store := by
    have hword : ∀ pre ∈ messageChunks.inits, ((replies (feed messageConfig) pre
        (Dec.fresh messageConfig (List.replicate 16 0) messageStore)).2.store.word 3).toNat+1≠
          2^64 := by decide +kernel
    exact fun pre hpre => message_full (hword pre ((List.mem_inits _ _).mpr hpre))
  obtain ⟨kt,s,hinit,hsame,hstore⟩ := decoder_parity true
    (.built built_messageTables (show 0 < messageTables.length by decide) rfl)
    ⟨by decide,by decide⟩ init_message (fun _ => offering_sufficient) (fun _ => plain_offering)
    (fun i n hasks => message_asks (s:=messageStore) rfl hasks) hfull
  refine ⟨kt,s,hinit,?_,hstore⟩
  rw [← hsame]
  decide +kernel

end SofaBuffers
