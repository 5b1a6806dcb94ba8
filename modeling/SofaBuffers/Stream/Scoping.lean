import SofaBuffers.Built
import SofaBuffers.Stream.Kept
import SofaBuffers.Walk.Follows

/-!
# The scopes of a stream

However a stream is cut into chunks, its constructs settle the calls that are
made and the scopes that are open. Between any two feeds the handler, the table
and both stacks are those of these scopes, and while a chunk is walked too.
-/

set_option autoImplicit false

namespace SofaBuffers

open Resumable Dec

variable {V : Type}

/-- The decoder is in these scopes, with so many sequences open in a skip inside them, once
the bytes were fed. -/
structure Dec.InScopes (c : Config V) (before : List (Event V)) (fed : List UInt8)
    (fs : List (Enclosure V)) (k : ℕ) (d : Dec V) : Prop where
  /-- Every sequence that is open is a scope, or is inside the skip. -/
  level : d.depth=fs.length+k
  /-- A skip goes back to the innermost scope. -/
  skip : d.skipDepth=if k=0 then none else some fs.length
  /-- Outside a skip a table is suspended for each open sequence, where there are tables. -/
  height : c.forest.isSome=true → d.skipDepth=none → d.bstack.length=d.depth
  /-- No more are open than may be, and no more tables and handlers are suspended. -/
  bounded : d.bstack.length ≤ d.depth ∧ d.vstack.length ≤ d.depth ∧ d.depth ≤ maxDepth
  /-- The handler is the innermost scope's. -/
  visitor : d.visitor=(c.within fs).visitor
  /-- The table is the innermost scope's. -/
  table : d.bmap=(c.within fs).table
  /-- The tables of the scopes around it are suspended. -/
  tables : d.bstack=if c.forest.isSome then c.tables fs else []
  /-- The handlers that gave way are suspended. -/
  waiting : d.vstack=c.waiting fs
  /-- Whatever is fed next, every state the walk passes through is in the scopes that the
  constructs behind it come to, and has made the calls they lead to. -/
  onward : ∀ data t ys, Passes (Walk.step c) d.view (d.held++data) t ys →
    ∃ ms fs k es new rest, Account c before (fed++data) ms fs k es new rest t.store.log ∧
      Walk.Nests c fs k t ∧ ys<:+rest

/-- Chunks were fed, and the calls made and the scopes open are those their constructs come
to. -/
inductive Scoped (c : Config V) (before : List (Event V)) (chunks : List (List UInt8)) :
    EStateM.Result Exn (Dec V) Status → Prop
  /-- The bytes are those of whole constructs, and no scope is open behind them. -/
  | complete {d : Dec V} {ms : List Mark} {es : List (Event V)} (hm : Marked ms chunks.flatten)
      (ht : Told c ms [] 0 es) (hl : d.store.log=before++es)
      (hd : d.InScopes c before chunks.flatten [] 0) : Scoped c before chunks (.ok .complete d)
  /-- The construct behind them is not whole, and the decoder holds the end of it. -/
  | incomplete {d : Dec V} {ms : List Mark} {fs : List (Enclosure V)} {k : ℕ}
      {es new : List (Event V)} {rest : List UInt8}
      (h : Account c before chunks.flatten ms fs k es new rest d.store.log) (hu : Unfinished rest)
      (hh : d.held<:+rest) (hd : d.InScopes c before chunks.flatten fs k) :
      Scoped c before chunks (.ok .incomplete d)
  /-- In one of the chunks the construct behind them is refused as malformed. -/
  | invalid {d : Dec V} {pre later : List (List UInt8)} {chunk : List UInt8} {ms : List Mark}
      {fs : List (Enclosure V)} {k : ℕ} {es new : List (Event V)} {rest : List UInt8}
      (hc : chunks=pre++chunk::later)
      (h : Account c before (pre.flatten++chunk) ms fs k es new rest d.store.log)
      (hs : c.Stuck before fs k es rest) : Scoped c before chunks (.ok .invalid d)
  /-- In one of the chunks the construct behind them makes the walk raise. -/
  | raised {e : Exn} {d : Dec V} {pre later : List (List UInt8)} {chunk : List UInt8}
      {ms : List Mark} {fs : List (Enclosure V)} {k : ℕ} {es new : List (Event V)}
      {rest : List UInt8} (hc : chunks=pre++chunk::later)
      (h : Account c before (pre.flatten++chunk) ms fs k es new rest d.store.log)
      (hs : c.Stuck before fs k es rest) : Scoped c before chunks (.error e d)
  /-- One of the chunks does not fit beside what is held, and is not walked. -/
  | refused {d : Dec V} {pre later : List (List UInt8)} {chunk : List UInt8} {ms : List Mark}
      {fs : List (Enclosure V)} {k : ℕ} {es new : List (Event V)} {rest : List UInt8}
      (hc : chunks=pre++chunk::later) (hr : d.rbuf.length < d.held.length+chunk.length)
      (h : Account c before pre.flatten ms fs k es new rest d.store.log) (hu : Unfinished rest)
      (hh : d.held<:+rest) (hd : d.InScopes c before pre.flatten fs k) :
      Scoped c before chunks (.error (tooLong d.rbuf.length (d.held.length+chunk.length)) d)
  /-- One of the chunks is walked, and what that leaves does not fit. -/
  | lost {d : Dec V} {pre later : List (List UInt8)} {chunk : List UInt8} {ms : List Mark}
      {fs : List (Enclosure V)} {k : ℕ} {es new : List (Event V)} {rest ys : List UInt8}
      (hc : chunks=pre++chunk::later) (hr : d.rbuf.length < ys.length)
      (h : Account c before (pre.flatten++chunk) ms fs k es new rest d.store.log)
      (hu : Unfinished rest) (hh : ys<:+rest) :
      Scoped c before chunks (.error (tooLong d.rbuf.length ys.length) d)

section Scopes

variable {c : Config V} {before : List (Event V)} {d : Dec V} {fs : List (Enclosure V)} {k : ℕ}
variable {fed : List UInt8}

/-- The decoder follows the constructs of the bytes it was fed. -/
structure Dec.FedTo (c : Config V) (before : List (Event V)) (fed : List UInt8) (d : Dec V) :
    Prop where
  /-- It is between two feeds. -/
  idle : d.Idle
  /-- No verdict has been reached. -/
  live : d.Live
  /-- The walk is in scopes that a stream leads to. -/
  scoping : Walk.Scoping c d.view
  /-- The walk follows the constructs. -/
  follows : Walk.Follows c before fed d.view d.held
  /-- The walk is where the next construct is not whole. -/
  suspended : Walk.Suspended c before fed d.view d.held

/-- The skip of a decoder is that of its walk. -/
theorem view_skipping (hi : d.Idle) : d.view.skipping=d.skipDepth := by
  have hskip := hi.skip
  have hvisit := hi.visit
  rw [Walk.skipping,Dec.view,Dec.walk,Dec.mode]
  cases hk : d.resumeKind with
  | none =>
    rw [hk] at hskip
    exact (Option.not_isSome_iff_eq_none.mp fun hs => by simpa using hskip.mp hs).symm
  | skip => rfl
  | visit =>
    obtain ⟨p,hp,-⟩ := hvisit hk
    rw [hk] at hskip
    rw [hp]
    exact (Option.not_isSome_iff_eq_none.mp fun hs => by simpa using hskip.mp hs).symm

/-- A decoder whose walk is in scopes is in them. -/
theorem Dec.FedTo.inScopes (hc : bindWords c=.ok ()) (h : d.FedTo c before fed)
    (hn : Walk.Nests c fs k d.view) : d.InScopes c before fed fs k := by
  have hlevel : d.depth=fs.length+k := hn.level
  have hskip := (view_skipping h.idle).symm.trans hn.skip
  have htables : d.bstack=_ := hn.tables
  have hwaiting : d.vstack.length ≤ fs.length :=
    (congrArg List.length hn.waiting).trans_le (c.waiting_stacked fs).length_le
  have hheight : c.forest.isSome=true → d.bstack.length=fs.length := by
    intro hf
    rw [htables,if_pos hf,Config.tables_length]
  refine ⟨hlevel,hskip,?_,⟨?_,by omega,hn.depth⟩,hn.visitor,hn.table,htables,hn.waiting,?_⟩
  · intro hf hs
    rw [hs] at hskip
    by_cases hk : k=0
    · rw [hheight hf,hlevel,hk]
      rfl
    · rw [if_neg hk] at hskip
      cases hskip
  · by_cases hf : c.forest.isSome=true
    · rw [hheight hf]
      omega
    · rw [htables,if_neg hf]
      exact Nat.zero_le _
  · intro data t ys hp
    exact (Walk.follows_passes hc hp (h.follows.more data) h.scoping).1.account

/-- A decoder at a state that follows the constructs does. -/
theorem Dec.At.fedTo {room : ℕ} {s : Walk V} {xs : List UInt8} (h : d.At room s xs)
    (hs : Walk.Scoping c s) (hf : Walk.Follows c before fed s xs)
    (hu : Walk.Suspended c before fed s xs) : d.FedTo c before fed := by
  have hview := h.view
  have hheld := h.held
  subst hview hheld
  exact ⟨h.idle,h.live,hs,hf,hu⟩

/-- A decoder that is told of a verdict repeats it, and one without follows the constructs. -/
def Going (c : Config V) (before : List (Event V)) (fed : List UInt8) :
    EStateM.Result Exn (Dec V) Status → Prop
  | .ok .invalid d => d.limit=none ∧ d.status=.invalid
  | .ok _ d => d.FedTo c before fed
  | .error _ _ => True

/-- A feed keeps to the scopes of the constructs. -/
theorem feed_scoped (hc : bindWords c=.ok ()) {pre : List (List UInt8)}
    (h : d.FedTo c before pre.flatten) (chunk : List UInt8) :
    Scoped c before (pre++[chunk]) (feed c chunk d) ∧
      Going c before (pre.flatten++chunk) (feed c chunk d) := by
  have hends := feed_ends c h.idle h.live chunk
  have hflat : (pre++[chunk]).flatten=pre.flatten++chunk := by simp
  rw [FeedEnds] at hends
  generalize feed c chunk d=r at hends
  split at hends
  · next hbig =>
    obtain ⟨d',rfl,hat⟩ := hends
    have hfed := hat.fedTo h.scoping h.follows h.suspended
    obtain ⟨ms,fs,k,es,new,rest,hacc,hn,hu,hheld⟩ := hfed.suspended
    rw [←hat.size,←hat.held] at hbig ⊢
    exact ⟨.refused rfl hbig.2 hacc hu hheld (hfed.inScopes hc hn),trivial⟩
  · obtain ⟨hleaves,hkeeps⟩ := Walk.follows_run hc (h.follows.more chunk) h.scoping
    cases hends with
    | suspended hh _ hat =>
      rw [hh] at hleaves hkeeps
      have hfed := hat.fedTo hkeeps hleaves.1 hleaves.2
      obtain ⟨ms,fs,k,es,new,rest,hacc,hn,hu,hheld⟩ := hfed.suspended
      have hin := hfed.inScopes hc hn
      refine ⟨?_,hfed⟩
      rw [←hflat] at hacc hin
      exact .incomplete hacc hu hheld hin
    | lost hh _ hover hat =>
      rw [hh] at hleaves hkeeps
      obtain ⟨ms,fs,k,es,new,rest,hacc,hn,hu,hheld⟩ := hleaves.2
      have hview := hat.view
      subst hview
      rw [←hat.size] at hover ⊢
      exact ⟨.lost rfl hover hacc hu hheld,trivial⟩
    | complete hh hat =>
      rw [hh] at hleaves hkeeps
      obtain ⟨hfollows,ms,es,hacc,hn⟩ := hleaves
      have hfed := hat.fedTo hkeeps hfollows (Walk.suspended_stop hacc hn)
      have hview := hat.view
      subst hview
      have hin := hfed.inScopes hc hn
      obtain ⟨done,hdone,htotal⟩ := hacc.bytes
      have hlog := hacc.log
      rw [List.append_nil] at htotal hlog
      refine ⟨?_,hfed⟩
      rw [←hflat] at hin htotal
      exact .complete (htotal ▸ hdone) hacc.told hlog hin
    | invalid hh hcls hlim hstatus hstore =>
      rw [hh] at hleaves
      obtain ⟨ms,fs,k,es,new,rest,hacc,hs⟩ := hleaves
      rw [←hstore] at hacc
      exact ⟨.invalid rfl hacc hs,hlim,hstatus⟩
    | limited hh hcls hlim hstore =>
      rw [hh] at hleaves
      obtain ⟨ms,fs,k,es,new,rest,hacc,hs⟩ := hleaves
      rw [←hstore] at hacc
      exact ⟨.raised rfl hacc hs,trivial⟩
    | raised hh _ _ hstore _ _ =>
      rw [hh] at hleaves
      obtain ⟨ms,fs,k,es,new,rest,hacc,hs⟩ := hleaves
      rw [←hstore] at hacc
      exact ⟨.raised rfl hacc hs,trivial⟩

/-- What has raised or come to a verdict in a chunk has done so whatever chunks follow. -/
theorem Scoped.later {chunks : List (List UInt8)} {r : EStateM.Result Exn (Dec V) Status}
    (h : Scoped c before chunks r)
    (hr : ∀ st d, r=.ok st d → st=.invalid) (more : List (List UInt8)) :
    Scoped c before (chunks++more) r := by
  have hlater : ∀ {pre later : List (List UInt8)} {chunk : List UInt8}, chunks=pre++chunk::later →
      chunks++more=pre++chunk::(later++more) := by
    intro pre later chunk hc
    rw [hc,List.append_assoc,List.cons_append]
  cases h with
  | complete => cases hr _ _ rfl
  | incomplete => cases hr _ _ rfl
  | invalid hc h hs => exact .invalid (hlater hc) h hs
  | raised hc h hs => exact .raised (hlater hc) h hs
  | refused hc hr' h hu hh hd => exact .refused (hlater hc) hr' h hu hh hd
  | lost hc hr' h hu hh => exact .lost (hlater hc) hr' h hu hh

/-- Feeding chunks keeps to the scopes of the constructs. -/
theorem feedAll_scoped (hc : bindWords c=.ok ()) {pre : List (List UInt8)} {last : Status}
    (h : Scoped c before pre (.ok last d)) (hg : Going c before pre.flatten (.ok last d))
    (chunks : List (List UInt8)) : Scoped c before (pre++chunks) (feedAll c last chunks d) := by
  induction chunks generalizing pre last d with
  | nil =>
    rw [List.append_nil]
    exact h
  | cons chunk chunks ih =>
    by_cases hl : last=.invalid
    · subst hl
      rw [feedAll_invalid hg.1 hg.2]
      exact h.later (fun st d hr => by cases hr; rfl) _
    · have hfed : d.FedTo c before pre.flatten := by
        cases last with
        | invalid => exact absurd rfl hl
        | complete | incomplete => exact hg
      obtain ⟨hone,hgoing⟩ := feed_scoped hc hfed chunk
      have hsplit : pre++chunk::chunks=(pre++[chunk])++chunks := by simp
      rw [feedAll,run_bind,hsplit]
      cases hr : feed c chunk d with
      | error e d' =>
        rw [hr] at hone
        exact hone.later (fun st d hr => by cases hr) chunks
      | ok st d' =>
        rw [hr] at hone hgoing
        refine ih hone ?_
        rw [List.flatten_append,List.flatten_singleton]
        exact hgoing

/-- A fresh decoder is in no scope. -/
theorem fresh_nests (c : Config V) (rbuf : List UInt8) (store : Store V) :
    Walk.Nests c [] 0 (Dec.fresh c rbuf store).view := by
  refine ⟨rfl,rfl,Nat.zero_le _,rfl,rfl,?_,rfl⟩
  split <;> rfl

/-- No constructs lead to the scope a fresh decoder is in. -/
theorem fresh_scoping (c : Config V) (rbuf : List UInt8) (store : Store V) :
    Walk.Scoping c (Dec.fresh c rbuf store).view :=
  ⟨trivial,Walk.handled_header rfl,_,_,_,_,.start,fresh_nests c rbuf store⟩

/-- A fresh decoder was fed nothing. -/
theorem fresh_fedTo (c : Config V) (rbuf : List UInt8) (store : Store V) :
    (Dec.fresh c rbuf store).FedTo c store.log [] := by
  have hn := fresh_nests c rbuf store
  have hacc : Account c store.log [] [] [] 0 [] [] [] (Dec.fresh c rbuf store).view.store.log :=
    ⟨⟨[],.nil,rfl⟩,.start,fun hnew => absurd rfl hnew,mine_nil c [],(List.append_nil _).symm⟩
  exact (fresh_at c rbuf store).fedTo (fresh_scoping c rbuf store) (.between rfl hacc hn)
    (Walk.suspended_stop hacc hn)

/-- Scope discipline: whatever a decoder is fed in whatever chunks, its constructs settle the
calls that are made, the handler, the table and both stacks, and the constructs of a message
are those of its fields. -/
theorem feedAll_scopes {r : Reassembly} {store : Store V} (h : Dec.init c r store=.ok d)
    (chunks : List (List UInt8)) :
    Scoped c store.log chunks (feedAll c .complete chunks d) ∧
      ∀ t, Fields maxDepth t chunks.flatten → ∀ d', feedAll c .complete chunks d=.ok .complete d' →
        ∃ es, Told c t.marks [] 0 es ∧ d'.store.log=store.log++es := by
  obtain ⟨⟨rbuf,-,rfl⟩,hc⟩ := init_ok h
  have hfed := fresh_fedTo c rbuf store
  have hnone : Scoped c store.log [] (.ok .complete (Dec.fresh c rbuf store)) :=
    .complete .nil .start (List.append_nil _).symm (hfed.inScopes hc (fresh_nests c rbuf store))
  have hscoped := feedAll_scoped hc hnone hfed chunks
  rw [List.nil_append] at hscoped
  refine ⟨hscoped,fun t ht d' hr => ?_⟩
  rw [hr] at hscoped
  cases hscoped with
  | @complete _ ms es hm hold hl hd =>
    rw [hm.unique ht.marked] at hold
    exact ⟨es,hold,hl⟩

end Scopes

/-- A table that takes the sequences of id 3 into another, which takes a number. -/
def handoverTables : List Binder.Cell :=
  let bind := Binder.bind (fun _ => none)
  let heap := (bind [{table := {}},{table := {}}] 1
    (.unsigned (.int 1) (.int 0) none none none)).2
  (bind heap 0 (.sequence (.int 3) (some 1) none)).2

/-- The tables can be built. -/
theorem built_handover : Binder.Built (fun _ => none) handoverTables := by
  have hroot : Binder.Built (fun _ => none) [{table := {}}] :=
    .create (show Binder.create false none (.int 0)=.ok {} from rfl) .empty
  have hchild : Binder.Built (fun _ => none) [{table := {}},{table := {}}] :=
    .create (show Binder.create false none (.int 0)=.ok {} from rfl) hroot
  refine .bind ?_ (.bind ?_ hchild)
  · intro g hg
    cases hg
    decide
  · intro g hg
    cases hg

/-- A visitor that gives every sequence of id 1 to another and declines those of id 2; the
other asks about none. -/
def handover : Config Bool where
  forest := some (Binder.forest built_handover (show 0 < handoverTables.length by decide))
  hooks v := if v then {onSequenceBegin := some fun id =>
    if id=1 then .descend false else if id=2 then .skip else .stay} else {}
  visitor := some true
  nwords := 1

/-- Storage of the two. -/
def handoverStore : Store Bool where
  word := fun _ => 0
  obj := fun _ => .empty
  mem := fun _ => 0

/-- A decoder under the two can be built. -/
theorem init_handover : Dec.init handover (.size 16) handoverStore=
    .ok (Dec.fresh handover (List.replicate 16 0) handoverStore) :=
  rfl

/-- A row's sequence of a number and a sequence given to the other, with a number and a
sequence in it, and then a sequence that is declined, cut inside most of them. -/
def handoverChunks : List (List UInt8) :=
  [[0x1E,0x08],[0x05,0x0E,0x48,0xAC],[0x02,0x26,0x07],[0x07,0x07,0x16,0x08],[0x01,0x07]]

/-- A handler that is given a sequence hears its end and that of the sequence inside, and the
visitor no end. -/
theorem feedAll_scopes_handover :
    let r := feedAll handover .complete handoverChunks
      (Dec.fresh handover (List.replicate 16 0) handoverStore)
    Scoped handover [] handoverChunks r ∧ outcomeOf r=.inl .complete ∧
      (leftBy r).store.word 0=5 ∧
      (leftBy r).store.log=[.sequenceBegin true 1,.value false 9 (.unsigned 300),.sequenceEnd false,
        .sequenceEnd false,.sequenceBegin true 2] := by
  refine ⟨(feedAll_scopes init_handover handoverChunks).1,?_,?_,?_⟩ <;> decide +kernel

end SofaBuffers
