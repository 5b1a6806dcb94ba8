import SofaBuffers.Encoder.Courses

/-!
# A sink that calls the encoder

A flush sink may install a buffer and write through the encoder before it
returns, also while the headers held back are going out. The native engine
emits a copy of the run, the pure one the list of slots itself, which becomes
the spare one: after one commit of its own the sink opens sequences into it.
-/

set_option autoImplicit false

namespace SofaBuffers

/-- The two encoders. -/
inductive Engine
  /-- The one of `encoder.py`. -/
  | pure
  /-- The one of `_speedups.pyx`. -/
  | native
  deriving DecidableEq, Repr

/-- Emit the headers of these sequences, outermost first. -/
def emitStarts (o : Outlet) : List ℕ → EncM Unit
  | [] => pure ()
  | id::ids => do
    emitVarint o (id*8+WireType.sequenceStart.toNat)
    emitStarts o ids

/-- Emit the held-back sequence headers from a copy of the run (`_commit_pending` of the native
engine, which has one list of slots). -/
def commitCopy (o : Outlet) : EncM Unit := do
  let e ← get
  let run := (e.runs e.active).take e.npending
  set {e with npending := 0}
  emitStarts o run

/-- Emit the held-back sequence headers (`_commit_pending`). -/
def Engine.commit : Engine → Outlet → EncM Unit
  | .pure => commitPending
  | .native => commitCopy

/-- The call gets as far as the commit of what is held back: its arguments are in order, or it
closes a sequence that is open and kept. -/
def Call.commits (narrow : BitVec 64 → Option (BitVec 32)) (e : Enc) (c : Call) : Bool :=
  match c.move narrow with
  | .field .. => decide c.Sized
  | .stop keep => keep && decide (0 < e.depth)
  | _ => false

/-- Carry a call out natively. The writers differ in their commit alone, which is the first of
them that touches the encoder; what is held back is gone behind it. -/
def Call.runNative (o : Outlet) (narrow : BitVec 64 → Option (BitVec 32)) (c : Call) :
    EncM Unit := fun e =>
  if !e.latched && c.commits narrow e && e.npending≠0 then
    guarded (do
      commitCopy o
      c.run o narrow) e
  else c.run o narrow e

/-- Carry a call out. -/
def Engine.call (g : Engine) (o : Outlet) (narrow : BitVec 64 → Option (BitVec 32)) (c : Call) :
    EncM Unit :=
  match g with
  | .pure => c.run o narrow
  | .native => c.runNative o narrow

/-- Make calls one after the other. -/
def Engine.writeAll (g : Engine) (o : Outlet) (narrow : BitVec 64 → Option (BitVec 32)) :
    List Call → EncM Unit
  | [] => Pure.pure ()
  | c::calls => do
    g.call o narrow c
    g.writeAll o narrow calls

/-- Emit headers, each read when its turn comes, while the sink acts as it does at that turn;
which ids they were. -/
def headersBy (react : ℕ → EncM Unit) (id : ℕ → Enc → ℕ) : ℕ → ℕ → EncM (List ℕ)
  | 0, _ => pure []
  | left+1, i => do
    let v := id i (← get)
    emitVarint (.sink (react i)) (v*8+WireType.sequenceStart.toNat)
    let vs ← headersBy react id left (i+1)
    pure (v::vs)

/-- The commit, telling which ids it emitted headers of. -/
def Engine.headers (g : Engine) (react : ℕ → EncM Unit) : EncM (List ℕ) := do
  let e ← get
  match g with
  | .pure =>
    set {e with active := !e.active, npending := 0}
    headersBy react (fun i e' => (e'.runs e.active).getD i 0) e.npending 0
  | .native =>
    let run := (e.runs e.active).take e.npending
    set {e with npending := 0}
    headersBy react (fun i _ => run.getD i 0) run.length 0

/-- The calls open and close sequences in balance, so many being open before. -/
def Balanced : ℕ → List Call → Prop
  | k, [] => k=0
  | k, c::cs =>
    match c with
    | .sequenceBeginLazy _ => Balanced (k+1) cs
    | .sequenceEnd | .sequenceEndKeep => 0 < k ∧ Balanced (k-1) cs
    | _ => Balanced k cs

/-- What a sink does. -/
inductive Deed
  /-- The sink is called. -/
  | reaction
  /-- The sink makes calls. -/
  | calls (cs : List Call)

/-- An encoder as a sink finds it: nothing is held back, since a commit sets the run aside
before it writes, and no error is latched. -/
def Enc.Quiet (e : Enc) : Prop := e.npending=0 ∧ e.error=none

/-- What a sink may do to an encoder before it returns: it copies, or installs a buffer and
makes balanced calls that go well, each of them allowed where it is made, and a sink that is
called meanwhile does the same. -/
inductive Acts (g : Engine) (narrow : BitVec 64 → Option (BitVec 32))
    (allowed : Enc → Call → Prop) : Deed → Enc → Enc → Prop
  /-- The sink copies what it is handed. -/
  | copies {e : Enc} : Acts g narrow allowed .reaction e e
  /-- It installs a buffer and makes calls. -/
  | installs {e e₁ e' : Enc} {react : EncM Unit} {buffer : List UInt8} {offset : ℕ}
      {cs : List Call} (hset : bufferSet (.sink react) buffer offset e=.ok () e₁)
      (hcs : Balanced 0 cs) (h : Acts g narrow allowed (.calls cs) e₁ e') :
      Acts g narrow allowed .reaction e e'
  /-- No call is left. -/
  | done {e : Enc} : Acts g narrow allowed (.calls []) e e
  /-- It makes a call. -/
  | call {e e₁ e' : Enc} {react : EncM Unit} {c : Call} {cs : List Call} (hc : allowed e c)
      (hreact : ∀ x y, x.Quiet → react x=.ok () y → Acts g narrow allowed .reaction x y)
      (hrun : g.call (.sink react) narrow c e=.ok () e₁) (hwell : e₁.error=none)
      (h : Acts g narrow allowed (.calls cs) e₁ e') :
      Acts g narrow allowed (.calls (c::cs)) e e'

/-- No sequence is opened into a slot of the run in flight whose header is not out, unless that
very id is in it. -/
def Spares (side : Bool) (next last : ℕ) (e : Enc) (c : Call) : Prop :=
  ∀ id : ℕ, c=.sequenceBeginLazy (.int id) → e.active=side → next ≤ e.npending →
    e.npending < last → (e.runs side).getD e.npending 0=id

/-- What a sink may call while the header of a slot goes out. -/
def Engine.allows (g : Engine) (e : Enc) (i : ℕ) : Enc → Call → Prop :=
  match g with
  | .pure => Spares e.active (i+1) e.npending
  | .native => fun _ _ => True

/-- An encoder that a sink, or a write behind a commit, has returned from. -/
structure Returned (side : Bool) (next last : ℕ) (e e' : Enc) : Prop where
  /-- Nothing is held back. -/
  npending : e'.npending=0
  /-- No error is latched. -/
  error : e'.error=none
  /-- As many sequences are open. -/
  depth : e'.depth=e.depth
  /-- The slots whose headers are not out are as they were. -/
  slots : ∀ j, next ≤ j → j < last → (e'.runs side).getD j 0=(e.runs side).getD j 0

/-- What goes well where nothing is held back and no error is latched returns so. -/
def Returns (side : Bool) (next last : ℕ) (e : Enc) (w : Option Exn) (e' : Enc) : Prop :=
  w=none → e.npending=0 → e.error=none → Returned side next last e e'

section Writing

variable {side : Bool} {next last : ℕ} {e e' e'' : Enc} {react : EncM Unit}

/-- What returns twice has returned. -/
theorem Returned.trans (h : Returned side next last e e') (h' : Returned side next last e' e'') :
    Returned side next last e e'' :=
  ⟨h'.npending,h'.error,h'.depth.trans h.depth,
    fun j hn hl => (h'.slots j hn hl).trans (h.slots j hn hl)⟩

/-- The bookkeeping is as it was. -/
theorem Enc.Kept.returns (h : e.Kept e') (w : Option Exn) : Returns side next last e w e' :=
  fun _ hp he => ⟨h.npending.trans hp,h.error.trans he,h.depth,fun j _ _ => by rw [h.runs]⟩

/-- Writing and draining return so when the sink does. -/
theorem returns_writing
    (h : ∀ x y, react x=.ok () y → Returns side next last x none y) :
    Writing (.sink react) (Returns side next last) where
  refl e := Enc.Kept.returns (.refl e) none
  raise e why := Enc.Kept.returns (.refl e) (some why)
  trans := by
    intro a b c w hab hbc hw hp he
    have h1 := hab rfl hp he
    exact h1.trans (hbc hw h1.npending h1.error)
  write e fixed cursor result := fun _ hp he => ⟨hp,he,rfl,fun _ _ _ => rfl⟩
  drain e := by
    have hgo : drain (.sink react) e=
        (react >>= fun _ => do
          if (← get).installs=e.installs then rewind else pure ())
          {e with transfers := e.transfers++[.handed (e.fixed.take e.cursor)]} := rfl
    rw [hgo,run_bind]
    cases hr : react {e with transfers := e.transfers++[.handed (e.fixed.take e.cursor)]} with
    | error why y => exact .error fun hw => by cases hw
    | ok a y =>
      have hy := h _ y hr
      dsimp only
      rw [run_get_bind]
      split
      · refine .ok fun hw hp he => ?_
        have hret := hy rfl hp he
        exact ⟨hret.npending,hret.error,hret.depth,hret.slots⟩
      · refine .ok fun hw hp he => ?_
        have hret := hy rfl hp he
        exact ⟨hret.npending,hret.error,hret.depth,hret.slots⟩

/-- Nothing is held back behind a commit; the slots are as they were. -/
theorem committed_npending (e : Enc) : e.committed.npending=0 ∧ e.committed.runs=e.runs := by
  rw [Enc.committed]
  split
  · exact ⟨rfl,rfl⟩
  · next h => exact ⟨by omega,rfl⟩

/-- What returned behind a commit returned. -/
theorem Returned.of_committed (h : Returned side next last e.committed e') :
    Returned side next last e e' := by
  have hruns := (committed_npending e).2
  refine ⟨h.npending,h.error,h.depth.trans (committed_depth e),fun j hn hl => ?_⟩
  have hslot := h.slots j hn hl
  rwa [hruns] at hslot

/-- What takes the course behind a commit, no error being latched, has returned. -/
theorem Returns.committed (h : Returns side next last e.committed none e') (he : e.error=none) :
    Returned side next last e e' :=
  (h rfl (committed_npending e).1 ((committed_sticky e).2.trans he)).of_committed

/-- A writer that goes well is its body. -/
theorem guarded_ok {body : EncM Unit} (h : guarded body e=.ok () e') (he : e.error=none)
    (he' : e'.error=none) : body e=.ok () e' := by
  have hl : e.latched=false := by rw [Enc.latched,he,Option.isSome_none,Bool.and_false]
  rw [guarded_run body hl] at h
  cases hb : body e with
  | ok a m =>
    rw [hb] at h
    exact h
  | error why m =>
    rw [hb] at h
    have hgo : settle (.error why m)=if why.isSofa=true then fail why m else .error why m := rfl
    rw [hgo,fail_run] at h
    split at h
    · split at h
      · injection h with _ h
        rw [←h] at he'
        cases he'
      · cases h
    · cases h

/-- How a writer that goes well ends. -/
theorem Settles.well {B : Enc → Option Exn → Enc → Prop} (h : Settles B e (.ok () e'))
    (he : e.error=none) (he' : e'.error=none) : B e none e' := by
  have hl : e.latched=false := by rw [Enc.latched,he,Option.isSome_none,Bool.and_false]
  cases h with
  | skipped hl' =>
    rw [hl] at hl'
    cases hl'
  | done h => exact h
  | caught h => cases he'

end Writing

section Calls

variable {g : Engine} {narrow : BitVec 64 → Option (BitVec 32)} {side : Bool} {next last : ℕ}
variable {e e' : Enc} {react : EncM Unit}

/-- The headers of some sequences are emitted. -/
theorem along_emitStarts {S : Enc → Option Exn → Enc → Prop} {o : Outlet} (hS : Writing o S)
    (ids : List ℕ) : Along S (emitStarts o ids) := by
  induction ids with
  | nil => exact .pure hS.toCourse _
  | cons id ids ih => exact (along_emitVarint hS _).bind hS.toCourse fun _ => ih

/-- A native call that goes well is the call, perhaps behind a commit. -/
theorem runNative_ok (hS : Writing (.sink react) (Returns side next last)) {c : Call}
    (h : c.runNative (.sink react) narrow e=.ok () e') (he : e.error=none)
    (he' : e'.error=none) :
    c.run (.sink react) narrow e=.ok () e' ∨
      (c.commits narrow e=true ∧ ∃ m, Returned side next last e m ∧
        c.run (.sink react) narrow m=.ok () e') := by
  rw [Call.runNative] at h
  split at h
  · next hcond =>
    simp only [Bool.and_eq_true,decide_eq_true_eq] at hcond
    have hbody := guarded_ok h he he'
    have htakes : Takes (Returns side next last) {e with npending := 0}
        (commitCopy (.sink react) e) := along_emitStarts hS _ _
    rw [run_bind] at hbody
    cases hr : commitCopy (.sink react) e with
    | error why m =>
      rw [hr] at hbody
      cases hbody
    | ok a m =>
      rw [hr] at hbody htakes
      cases htakes with
      | ok hm =>
        have hm := hm rfl rfl he
        exact Or.inr ⟨hcond.1.2,m,⟨hm.npending,hm.error,hm.depth,hm.slots⟩,hbody⟩
  · exact Or.inl h

/-- A field that is written. -/
theorem field_returned (hS : Writing (.sink react) (Returns side next last)) {c : Call}
    (hc : (c.move narrow).Flat) (h : g.call (.sink react) narrow c e=.ok () e')
    (he : e.error=none) (he' : e'.error=none) : Returned side next last e e' := by
  have hrun : ∀ m, c.run (.sink react) narrow m=.ok () e' → m.error=none →
      Returned side next last m e' := by
    intro m hm herr
    have hs := field_settles hS narrow hc m
    rw [hm] at hs
    rcases hs.well herr he' with ⟨hne,_⟩ | hbehind
    · exact absurd rfl hne
    · exact hbehind.committed herr
  cases g with
  | pure => exact hrun e h he
  | native =>
    rcases runNative_ok hS h he he' with h | ⟨_,m,hm,h⟩
    · exact hrun e h he
    · exact hm.trans (hrun m h hm.error)

/-- A slot that is set to what is in it is as it was. -/
theorem getD_set_same {xs : List ℕ} {i j id : ℕ} (h : j=i → xs.getD i 0=id) :
    (xs.set i id).getD j 0=xs.getD j 0 := by
  rw [List.getD_eq_getElem?_getD,List.getD_eq_getElem?_getD,List.getElem?_set]
  by_cases hij : i=j
  · subst hij
    have hid := h rfl
    rw [List.getD_eq_getElem?_getD] at hid
    rw [if_pos rfl]
    by_cases hlt : i < xs.length
    · rw [if_pos hlt,hid]
      rfl
    · rw [if_neg hlt,List.getElem?_eq_none (by omega)]
  · rw [if_neg hij]

/-- A sequence that is opened. -/
theorem begin_returned (hS : Writing (.sink react) (Returns side next last)) {fieldId : Given}
    (hspares : Spares side next last e (.sequenceBeginLazy fieldId))
    (h : g.call (.sink react) narrow (.sequenceBeginLazy fieldId) e=.ok () e')
    (he : e.error=none) (he' : e'.error=none) :
    e'.npending=e.npending+1 ∧ e'.depth=e.depth+1 ∧
      ∀ j, next ≤ j → j < last → (e'.runs side).getD j 0=(e.runs side).getD j 0 := by
  have hrun : (Call.sequenceBeginLazy fieldId).run (.sink react) narrow e=.ok () e' := by
    cases g with
    | pure => exact h
    | native =>
      rcases runNative_ok hS h he he' with h | ⟨hno,_⟩
      · exact h
      · cases hno
  have hs := begin_settles fieldId e
  have hgo : writeSequenceBeginLazy fieldId e=.ok () e' := hrun
  rw [hgo] at hs
  rcases hs.well he he' with ⟨hne,_⟩ | ⟨id,hid,_,rfl⟩
  · exact absurd rfl hne
  · have hgiven := checkedId_given hid
    refine ⟨rfl,rfl,fun j hn hl => ?_⟩
    rw [Enc.holding]
    dsimp only
    by_cases hside : side=e.active
    · subst hside
      rw [Function.update_self]
      refine getD_set_same fun hj => ?_
      subst hj
      exact hspares id (by rw [hgiven]) rfl hn hl
    · rw [Function.update_of_ne hside]

/-- A sequence that is closed. -/
theorem closing_returned (hS : Writing (.sink react) (Returns side next last)) {keep : Bool}
    (h : g.call (.sink react) narrow (CallTree.closing keep) e=.ok () e') (he : e.error=none)
    (he' : e'.error=none) :
    e'.npending ≤ e.npending-1 ∧ e'.depth=e.depth-1 ∧
      ∀ j, next ≤ j → j < last → (e'.runs side).getD j 0=(e.runs side).getD j 0 := by
  have hrun : ∀ m, (CallTree.closing keep).run (.sink react) narrow m=.ok () e' → m.error=none →
      e'.npending ≤ m.npending-1 ∧ e'.depth=m.depth-1 ∧
        ∀ j, next ≤ j → j < last → (e'.runs side).getD j 0=(m.runs side).getD j 0 := by
    intro m hm herr
    have hs := closing_settles hS narrow keep m
    rw [hm] at hs
    rcases hs.well herr he' with ⟨hne,_⟩ | ⟨_,_,_,rfl⟩ | ⟨_,⟨hne,_⟩ | ⟨m',hm',_,rfl⟩⟩
    · exact absurd rfl hne
    · exact ⟨Nat.le_refl _,rfl,fun _ _ _ => rfl⟩
    · exact absurd rfl hne
    · have hret := hm'.committed herr
      refine ⟨?_,?_,hret.slots⟩
      · rw [Enc.shallower]
        dsimp only
        rw [hret.npending]
        exact Nat.zero_le _
      · rw [Enc.shallower]
        dsimp only
        rw [hret.depth]
  cases g with
  | pure => exact hrun e h he
  | native =>
    rcases runNative_ok hS h he he' with h | ⟨_,m,hm,h⟩
    · exact hrun e h he
    · obtain ⟨hp,hd,hslots⟩ := hrun m h hm.error
      have hzero := hm.npending
      refine ⟨by omega,by rw [hd,hm.depth],fun j hn hl => ?_⟩
      rw [hslots j hn hl,hm.slots j hn hl]

/-- Where a call stands to the nesting. -/
theorem balanced_kinds (narrow : BitVec 64 → Option (BitVec 32)) (c : Call) :
    (∃ fieldId, c=.sequenceBeginLazy fieldId) ∨
      (∃ keep, c=CallTree.closing keep ∧
        ∀ k cs, Balanced k (c::cs) ↔ 0 < k ∧ Balanced (k-1) cs) ∨
      ((c.move narrow).Flat ∧ ∀ k cs, Balanced k (c::cs) ↔ Balanced k cs) := by
  rcases call_kinds narrow c with ⟨fieldId,rfl⟩ | ⟨keep,rfl⟩ | ⟨_,hflat⟩
  · exact Or.inl ⟨fieldId,rfl⟩
  · refine Or.inr (Or.inl ⟨keep,rfl,fun k cs => ?_⟩)
    cases keep <;> rfl
  · refine Or.inr (Or.inr ⟨hflat,fun k cs => ?_⟩)
    cases c with
    | sequenceBeginLazy _ | sequenceEnd | sequenceEndKeep => cases hflat
    | _ => rfl

/-- What has become of the encoder when a sink did something. -/
def Done (side : Bool) (next last : ℕ) (e e' : Enc) : Deed → Prop
  | .reaction => Returns side next last e none e'
  | .calls cs => ∀ k, Balanced k cs → e.npending ≤ k → k ≤ e.depth → e.error=none →
      e'.npending=0 ∧ e'.error=none ∧ e'.depth+k=e.depth ∧
        ∀ j, next ≤ j → j < last → (e'.runs side).getD j 0=(e.runs side).getD j 0

/-- Installing a buffer is no bookkeeping. -/
theorem bufferSet_kept {o : Outlet} {buffer : List UInt8} {offset : ℕ}
    (h : bufferSet o buffer offset e=.ok () e') : e.Kept e' := by
  rcases bufferSet_cases o buffer offset e with ⟨why,hw⟩ | ⟨hin,hroom⟩
  · rw [hw] at h
    cases h
  · rw [bufferSet_run hin hroom] at h
    cases h
    exact ⟨rfl,rfl,rfl,rfl,rfl,rfl⟩

/-- A sink that spares the run in flight returns with nothing held back, as many sequences
open as before, and the slots whose headers are not out as they were. -/
theorem acts_done {allowed : Enc → Call → Prop}
    (hallowed : ∀ e c, allowed e c → Spares side next last e c) {d : Deed}
    (h : Acts g narrow allowed d e e') : Done side next last e e' d := by
  induction h with
  | copies => exact Enc.Kept.returns (.refl _) none
  | @installs e e₁ e' react buffer offset cs hset hcs _ ih =>
    intro _ hp he
    have hk := bufferSet_kept hset
    obtain ⟨hp',he',hd,hslots⟩ := ih 0 hcs (by rw [hk.npending,hp]) (Nat.zero_le _)
      (hk.error.trans he)
    refine ⟨hp',he',hd.trans hk.depth,fun j hn hl => ?_⟩
    rw [hslots j hn hl,hk.runs]
  | done =>
    intro k hk hp _ he
    have hzero : k=0 := hk
    exact ⟨by omega,he,by omega,fun _ _ _ => rfl⟩
  | @call e e₁ e' react c cs hc _ hrun hwell _ ihreact ih =>
    intro k hk hp hkd he
    have hS : Writing (.sink react) (Returns side next last) :=
      returns_writing fun x y hr hw hp hx => ihreact x y ⟨hp,hx⟩ hr hw hp hx
    rcases balanced_kinds narrow c with ⟨fieldId,rfl⟩ | ⟨keep,rfl,hbal⟩ | ⟨hflat,hbal⟩
    · obtain ⟨hp₁,hd₁,hs₁⟩ := begin_returned hS (hallowed _ _ hc) hrun he hwell
      have hk' : Balanced (k+1) cs := hk
      obtain ⟨hp',he',hd',hs'⟩ := ih (k+1) hk' (by omega) (by omega) hwell
      exact ⟨hp',he',by omega,fun j hn hl => (hs' j hn hl).trans (hs₁ j hn hl)⟩
    · obtain ⟨hp₁,hd₁,hs₁⟩ := closing_returned hS hrun he hwell
      obtain ⟨hpos,hk'⟩ := (hbal k cs).mp hk
      obtain ⟨hp',he',hd',hs'⟩ := ih (k-1) hk' (by omega) (by omega) hwell
      exact ⟨hp',he',by omega,fun j hn hl => (hs' j hn hl).trans (hs₁ j hn hl)⟩
    · have hret := field_returned hS hflat hrun he hwell
      have hp₁ := hret.npending
      have hd₁ := hret.depth
      obtain ⟨hp',he',hd',hs'⟩ := ih k ((hbal k cs).mp hk) (by omega) (by omega) hwell
      exact ⟨hp',he',by omega,fun j hn hl => (hs' j hn hl).trans (hret.slots j hn hl)⟩

end Calls

section Emission

variable {S : Enc → Option Exn → Enc → Prop} {react : EncM Unit} {e : Enc}

/-- What is written through a sink that leaves room is written, unless the sink raises. -/
inductive Emits (S : Enc → Option Exn → Enc → Prop) (react : EncM Unit) (e : Enc) :
    EStateM.Result Exn Enc Unit → Prop
  /-- The bytes are written. -/
  | done {e' : Enc} (h : S e none e') (hcap : 0 < e'.cap) : Emits S react e (.ok () e')
  /-- The sink raised. -/
  | raised {x e' : Enc} {why : Exn} (h : react x=.error why e') :
      Emits S react e (.error why e')

/-- The sink leaves a free byte, or the buffer as it was. -/
def Roomy (react : EncM Unit) : Prop :=
  ∀ x y, x.Quiet → react x=.ok () y → y=x ∨ y.cursor < y.cap

/-- What leads on from an encoder that a sink could be called on leads to another. -/
def Quieting (S : Enc → Option Exn → Enc → Prop) : Prop :=
  ∀ x y, S x none y → x.Quiet → y.Quiet

/-- A buffer is drained. -/
theorem drain_emits (hS : Writing (.sink react) S) (hroom : Roomy react) (hquiet : e.Quiet)
    (hcap : 0 < e.cap) :
    (∃ e', drain (.sink react) e=.ok () e' ∧ S e none e' ∧ e'.cursor < e'.cap) ∨
      ∃ x why e', react x=.error why e' ∧ drain (.sink react) e=.error why e' := by
  have hgo : drain (.sink react) e=
      (react >>= fun _ => do
        if (← get).installs=e.installs then rewind else pure ())
        {e with transfers := e.transfers++[.handed (e.fixed.take e.cursor)]} := rfl
  have htakes := hS.drain e
  cases hr : react {e with transfers := e.transfers++[.handed (e.fixed.take e.cursor)]} with
  | error why y =>
    refine Or.inr ⟨_,why,y,hr,?_⟩
    rw [hgo,run_bind_error hr]
  | ok a y =>
    refine Or.inl ?_
    rw [hgo,run_bind_ok hr,run_get_bind] at htakes ⊢
    by_cases hi : y.installs=e.installs
    · rw [if_pos hi] at htakes ⊢
      cases htakes with
      | ok h =>
        refine ⟨_,rfl,h,?_⟩
        rcases hroom {e with transfers := e.transfers++[.handed (e.fixed.take e.cursor)]} y hquiet
          hr with rfl | hlt
        · exact hcap
        · exact Nat.zero_lt_of_lt hlt
    · rw [if_neg hi] at htakes ⊢
      cases htakes with
      | ok h =>
        refine ⟨_,rfl,h,?_⟩
        rcases hroom {e with transfers := e.transfers++[.handed (e.fixed.take e.cursor)]} y hquiet
          hr with rfl | hlt
        · exact absurd rfl hi
        · exact hlt

/-- Bytes are copied through the buffer, at least one a turn. -/
theorem putLoop_emits (hS : Writing (.sink react) S) (hkeeps : Quieting S)
    (hroom : Roomy react) (hquiet : e.Quiet) (hcap : 0 < e.cap) (data : List UInt8) {turns : ℕ}
    (pos : ℕ) (ht : data.length-pos < turns) :
    Emits S react e (putLoop (.sink react) data turns pos e) := by
  induction turns generalizing e pos with
  | zero => omega
  | succ turns ih =>
    rw [putLoop]
    by_cases hend : pos < data.length
    · rw [if_pos hend]
      have hmake : (∃ e', makeRoom (.sink react) e=.ok () e' ∧ S e none e' ∧ e'.cursor < e'.cap) ∨
          ∃ x why e', react x=.error why e' ∧ makeRoom (.sink react) e=.error why e' := by
        have hgo : makeRoom (.sink react) e=(if e.cap ≤ e.cursor then (do
            drain (.sink react)
            let e ← get
            if e.cap ≤ e.cursor then throw bufferFull else pure ()) else pure ()) e := rfl
        rw [hgo]
        by_cases hfull : e.cap ≤ e.cursor
        · rw [if_pos hfull]
          rcases drain_emits hS hroom hquiet hcap with ⟨e',hd,hs,hlt⟩ | ⟨x,why,e',hx,hd⟩
          · have hnot : ¬e'.cap ≤ e'.cursor := by omega
            rw [run_bind_ok hd,run_get_bind,if_neg hnot]
            exact Or.inl ⟨e',rfl,hs,hlt⟩
          · exact Or.inr ⟨x,why,e',hx,run_bind_error hd⟩
        · rw [if_neg hfull]
          exact Or.inl ⟨e,rfl,hS.refl e,by omega⟩
      rcases hmake with ⟨e₁,hm,hs,hlt⟩ | ⟨x,why,e',hx,hm⟩
      · rw [run_bind_ok hm,run_get_bind]
        let e₂ : Enc := {e₁ with
          fixed := splice e₁.fixed e₁.cursor
            ((data.drop pos).take (min (e₁.cap-e₁.cursor) (data.length-pos)))
          cursor := e₁.cursor+
            ((data.drop pos).take (min (e₁.cap-e₁.cursor) (data.length-pos))).length}
        have hpoke : S e₁ none e₂ := hS.write e₁ _ _ e₁.result
        have hcap₂ : 0 < e₂.cap := Nat.zero_lt_of_lt hlt
        have hquiet₂ : e₂.Quiet := hkeeps e₁ e₂ hpoke (hkeeps e e₁ hs hquiet)
        have hnext := ih (e:=e₂) hquiet₂ hcap₂ (pos+min (e₁.cap-e₁.cursor) (data.length-pos)) (by omega)
        have hgo : (poke ((data.drop pos).take (min (e₁.cap-e₁.cursor) (data.length-pos))) >>=
            fun _ => putLoop (.sink react) data turns
              (pos+min (e₁.cap-e₁.cursor) (data.length-pos))) e₁=
            putLoop (.sink react) data turns
              (pos+min (e₁.cap-e₁.cursor) (data.length-pos)) e₂ := rfl
        rw [hgo]
        generalize putLoop (.sink react) data turns
          (pos+min (e₁.cap-e₁.cursor) (data.length-pos)) e₂=r at hnext
        cases hnext with
        | done h hc => exact .done (hS.trans hs (hS.trans hpoke h)) hc
        | raised h => exact .raised h
      · rw [run_bind_error hm]
        exact .raised hx
    · rw [if_neg hend]
      exact .done (hS.refl e) hcap

/-- A varint is written. -/
theorem emitVarint_emits (hS : Writing (.sink react) S) (hkeeps : Quieting S)
    (hroom : Roomy react) (hquiet : e.Quiet) (hcap : 0 < e.cap) (v : ℕ) :
    Emits S react e (emitVarint (.sink react) v e) := by
  rw [emitVarint,run_get_bind]
  split
  · exact .done (hS.write e _ _ e.result) hcap
  · exact putLoop_emits hS hkeeps hroom hquiet hcap _ 0 (by omega)

end Emission

/-- How a commit in flight ends. -/
inductive InFlight (react : ℕ → EncM Unit) (ids : List ℕ) (e : Enc) :
    EStateM.Result Exn Enc (List ℕ) → Prop
  /-- The headers are emitted, nothing is held back, and as many sequences are open. -/
  | emitted {e' : Enc} (hpending : e'.npending=0) (hdepth : e'.depth=e.depth) :
      InFlight react ids e (.ok ids e')
  /-- The sink raised. -/
  | raised {i : ℕ} {x e' : Enc} {why : Exn} (h : react i x=.error why e') :
      InFlight react ids e (.error why e')

/-- A commit in flight ends alike for encoders with as many sequences open. -/
theorem InFlight.since {react : ℕ → EncM Unit} {ids : List ℕ} {e e' : Enc}
    {r : EStateM.Result Exn Enc (List ℕ)} (h : InFlight react ids e r) (hd : e.depth=e'.depth) :
    InFlight react ids e' r := by
  cases h with
  | emitted hp hdepth => exact .emitted hp (hdepth.trans hd)
  | raised h => exact .raised h

section Headers

variable {react : ℕ → EncM Unit} {side : Bool} {most last : ℕ}

/-- The headers of the slots from one on are emitted as they were at first. -/
theorem headersBy_inFlight (id : ℕ → Enc → ℕ) (hroom : ∀ i, Roomy (react i))
    (hret : ∀ i x y, react i x=.ok () y → Returns side (i+1) most x none y)
    (hid : ∀ i x y, Returned side (i+1) most x y → ∀ j, i < j → j < last → id j y=id j x)
    (left i : ℕ) {e : Enc} (hi : i+left=last) (hcap : 0 < e.cap) (hp : e.npending=0)
    (he : e.error=none) :
    InFlight react ((List.range' i left).map fun j => id j e) e
      (headersBy react id left i e) := by
  induction left generalizing i e with
  | zero => exact .emitted hp rfl
  | succ left ih =>
    have hS := returns_writing (hret i)
    have hkeeps : Quieting (Returns side (i+1) most) := fun x y h hx =>
      ⟨(h rfl hx.1 hx.2).npending,(h rfl hx.1 hx.2).error⟩
    have hemit := emitVarint_emits hS hkeeps (hroom i) ⟨hp,he⟩ hcap (id i e*8+WireType.sequenceStart.toNat)
    rw [headersBy,run_get_bind,run_bind]
    generalize emitVarint (.sink (react i)) (id i e*8+WireType.sequenceStart.toNat) e=r at hemit
    cases hemit with
    | @done e₁ h hcap₁ =>
      have hr := h rfl hp he
      have hnext := ih (i+1) (by omega) hcap₁ hr.npending hr.error
      have hids : (List.range' (i+1) left).map (fun j => id j e₁)=
          (List.range' (i+1) left).map fun j => id j e := by
        refine List.map_congr_left fun j hj => ?_
        rw [List.mem_range'_1] at hj
        exact hid i e e₁ hr j (by omega) (by omega)
      rw [hids] at hnext
      dsimp only
      rw [run_bind,List.range'_succ,List.map_cons]
      generalize headersBy react id left (i+1) e₁=r at hnext
      cases hnext with
      | emitted hp' hd' => exact .emitted hp' (hd'.trans hr.depth)
      | raised h' => exact .raised h'
    | raised h => exact .raised h

/-- The slots of a run in order are the run. -/
theorem map_getD_range (xs : List ℕ) {n : ℕ} (h : n ≤ xs.length) :
    ((List.range' 0 n).map fun j => xs.getD j 0)=xs.take n := by
  refine List.ext_getElem ?_ fun j hj hj' => ?_
  · simp [Nat.min_eq_left h]
  · have hlt : j < xs.length := by
      rw [List.length_take] at hj'
      omega
    simp [hlt]

end Headers

/-- A sink that is called while a header goes out: it does what it may, and leaves a free
byte. -/
def Engine.Called (g : Engine) (narrow : BitVec 64 → Option (BitVec 32)) (e : Enc)
    (react : ℕ → EncM Unit) : Prop :=
  ∀ i x y, x.Quiet → react i x=.ok () y →
    Acts g narrow (g.allows e i) .reaction x y ∧ (y=x ∨ y.cursor < y.cap)

/-- The headers of slots that are read when their turn comes. -/
theorem headersBy_loop (react : EncM Unit) (side : Bool) (left i : ℕ) (e : Enc) :
    commitLoop (.sink react) side left i e=
      (headersBy (fun _ => react) (fun i e' => (e'.runs side).getD i 0) left i >>=
        fun _ => pure ()) e := by
  induction left generalizing i e with
  | zero => rfl
  | succ left ih =>
    rw [commitLoop,headersBy,run_get_bind,run_bind,run_bind,run_get_bind,run_bind]
    cases emitVarint (.sink react) ((e.runs side).getD i 0*8+WireType.sequenceStart.toNat) e with
    | error why e' => rfl
    | ok a e' =>
      dsimp only
      rw [ih,run_bind,run_bind]
      cases headersBy (fun _ => react) (fun i e' => (e'.runs side).getD i 0) left (i+1) e' <;> rfl

/-- The headers of a run that was copied. -/
theorem headersBy_copy (react : EncM Unit) (run : List ℕ) {left i : ℕ}
    (hi : i+left=run.length) (e : Enc) :
    emitStarts (.sink react) (run.drop i) e=
      (headersBy (fun _ => react) (fun i _ => run.getD i 0) left i >>= fun _ => pure ()) e := by
  induction left generalizing i e with
  | zero =>
    rw [List.drop_of_length_le (by omega)]
    rfl
  | succ left ih =>
    have hlt : i < run.length := by omega
    have hget : run[i]=run.getD i 0 := (List.getD_eq_getElem run 0 hlt).symm
    rw [List.drop_eq_getElem_cons hlt,hget,emitStarts,headersBy,run_bind,run_bind,run_get_bind,
      run_bind]
    cases emitVarint (.sink react) (run.getD i 0*8+WireType.sequenceStart.toNat) e with
    | error why e' => rfl
    | ok a e' =>
      dsimp only
      rw [ih (by omega),run_bind,run_bind]
      cases headersBy (fun _ => react) (fun i _ => run.getD i 0) left (i+1) e' <;> rfl

/-- The commit tells which ids it emitted headers of, and is the commit. -/
theorem headers_commit (g : Engine) (react : EncM Unit) (e : Enc) :
    g.commit (.sink react) e=(g.headers (fun _ => react) >>= fun _ => pure ()) e := by
  cases g with
  | pure => exact headersBy_loop react e.active e.npending 0 _
  | native => exact headersBy_copy react ((e.runs e.active).take e.npending) (Nat.zero_add _) _

/-- The slots a sink leaves as they were while a header goes out. -/
def Engine.spared (g : Engine) (e : Enc) : ℕ :=
  match g with
  | .pure => e.npending
  | .native => 0

/-- A sink that does what it may returns with those slots as they were. -/
theorem called_returns {g : Engine} {narrow : BitVec 64 → Option (BitVec 32)} {e : Enc}
    {react : ℕ → EncM Unit} (h : g.Called narrow e react) (i : ℕ) (x y : Enc)
    (hr : react i x=.ok () y) : Returns e.active (i+1) (g.spared e) x none y := by
  intro hw hp hx
  have hacts := (h i x y ⟨hp,hx⟩ hr).1
  cases g with
  | pure => exact acts_done (fun _ _ hc => hc) hacts hw hp hx
  | native =>
    exact acts_done (fun _ _ _ _ _ _ _ hlt => absurd hlt (Nat.not_lt_zero _)) hacts hw hp hx

/-- A commit in flight is immune to a sink that spares its run. Whatever the sink does while
a header goes out, installing a buffer and making balanced calls with commits of their own,
the headers that are emitted are those of the ids held back when the commit started, in order;
whenever the sink returns, and at the end, nothing is held back and as many sequences are
open. In the native engine the sink may open any sequences; in the pure one, while the list
that holds the run in flight is the pending one, only into slots whose headers are out. -/
theorem commit_in_flight (g : Engine) (narrow : BitVec 64 → Option (BitVec 32))
    (react : ℕ → EncM Unit) (e : Enc) (hcap : 0 < e.cap) (he : e.error=none)
    (hslots : e.npending ≤ (e.runs e.active).length) (hcalled : g.Called narrow e react) :
    InFlight react e.held e (g.headers react e) ∧
    ∀ i x y, react i x=.ok () y → x.npending=0 → x.error=none →
      y.npending=0 ∧ y.depth=x.depth := by
  have hroom : ∀ i, Roomy (react i) := fun i x y hx h => (hcalled i x y hx h).2
  have hret := called_returns hcalled
  constructor
  · cases g with
    | pure =>
      have hgo := headersBy_inFlight (fun i e' => (e'.runs e.active).getD i 0) hroom hret
        (fun i x y h j hij hj => h.slots j hij hj) e.npending 0
        (e:={e with active := !e.active, npending := 0}) (Nat.zero_add _) hcap rfl he
      rw [map_getD_range _ hslots] at hgo
      exact hgo.since rfl
    | native =>
      have hgo := headersBy_inFlight
        (fun i _ => ((e.runs e.active).take e.npending).getD i 0) hroom hret
        (fun _ _ _ _ _ _ _ => rfl) ((e.runs e.active).take e.npending).length 0
        (e:={e with npending := 0}) (Nat.zero_add _) hcap rfl he
      rw [map_getD_range _ (Nat.le_refl _),List.take_length] at hgo
      exact hgo.since rfl
  · intro i x y h hp hx
    have hy := hret i x y h rfl hp hx
    exact ⟨hy.npending,hy.depth⟩

section Sinks

variable {g : Engine} {narrow : BitVec 64 → Option (BitVec 32)}

/-- A sink that looks after each of its calls whether it went well. -/
def carefully (g : Engine) (narrow : BitVec 64 → Option (BitVec 32)) : List Call → EncM Unit
  | [] => do
    let e ← get
    if e.cap ≤ e.cursor then throw bufferFull else pure ()
  | c::cs => do
    g.call (.sink (pure ())) narrow c
    let e ← get
    if e.error≠none then throw bufferFull else carefully g narrow cs

/-- The calls open sequences no deeper than so many levels, so many being open before. -/
def Shallow (most : ℕ) : ℕ → List Call → Prop
  | _, [] => True
  | k, c::cs =>
    match c with
    | .sequenceBeginLazy _ => k < most ∧ Shallow most (k+1) cs
    | .sequenceEnd | .sequenceEndKeep => Shallow most (k-1) cs
    | _ => Shallow most k cs

/-- A sink whose calls nest no deeper than there are headers out does what it may: its openings
go into slots whose headers are out. It leaves a free byte. -/
theorem carefully_acts {e : Enc} {i : ℕ} {cs : List Call} {k : ℕ} {x y : Enc}
    (hcs : Balanced k cs) (hdeep : Shallow (i+1) k cs) (hp : x.npending ≤ k) (hx : x.error=none)
    (h : carefully g narrow cs x=.ok () y) :
    Acts g narrow (g.allows e i) (.calls cs) x y ∧ y.cursor < y.cap := by
  induction cs generalizing x k with
  | nil =>
    rw [carefully,run_get_bind] at h
    split at h
    · cases h
    · cases h
      exact ⟨.done,by omega⟩
  | cons c cs ih =>
    rw [carefully,run_bind] at h
    cases hc : g.call (.sink (pure ())) narrow c x with
    | error why m =>
      rw [hc] at h
      cases h
    | ok a m =>
      rw [hc] at h
      dsimp only at h
      rw [run_get_bind] at h
      have hcopies : ∀ x y : Enc, x.Quiet → (pure () : EncM Unit) x=.ok () y →
          Acts g narrow (g.allows e i) .reaction x y := by
        intro x y _ hxy
        cases hxy
        exact .copies
      have hS : Writing (.sink (pure ())) (Returns e.active 0 0) := by
        refine returns_writing fun x y hxy => ?_
        cases hxy
        exact Enc.Kept.returns (.refl _) none
      by_cases hm : m.error≠none
      · rw [if_pos hm] at h
        cases h
      · rw [if_neg hm] at h
        have hm : m.error=none := by simpa using hm
        rcases balanced_kinds narrow c with ⟨fieldId,rfl⟩ | ⟨keep,rfl,hbal⟩ | ⟨hflat,hbal⟩
        · obtain ⟨hlt,hdeep⟩ : k < i+1 ∧ Shallow (i+1) (k+1) cs := hdeep
          have hspares : Spares e.active 0 0 x (.sequenceBeginLazy fieldId) :=
            fun _ _ _ _ hlt => absurd hlt (Nat.not_lt_zero _)
          have hopened := (begin_returned hS hspares hc hx hm).1
          obtain ⟨hacts,hroom⟩ := ih (show Balanced (k+1) cs from hcs) hdeep (by omega) hm h
          refine ⟨.call ?_ hcopies hc hm hacts,hroom⟩
          cases g with
          | pure =>
            intro id _ _ hlo hhi
            omega
          | native => trivial
        · obtain ⟨hpos,hcs⟩ := (hbal k cs).mp hcs
          have hdeep : Shallow (i+1) (k-1) cs := by cases keep <;> exact hdeep
          have hclosed := (closing_returned hS hc hx hm).1
          obtain ⟨hacts,hroom⟩ := ih hcs hdeep (by omega) hm h
          refine ⟨.call ?_ hcopies hc hm hacts,hroom⟩
          cases g with
          | pure =>
            intro id hid
            cases keep <;> cases hid
          | native => trivial
        · have hdeep : Shallow (i+1) k cs := by
            cases c with
            | sequenceBeginLazy _ | sequenceEnd | sequenceEndKeep => cases hflat
            | _ => exact hdeep
          have hwritten := (field_returned hS hflat hc hx hm).npending
          obtain ⟨hacts,hroom⟩ := ih ((hbal k cs).mp hcs) hdeep (by omega) hm h
          refine ⟨.call ?_ hcopies hc hm hacts,hroom⟩
          cases g with
          | pure =>
            intro id hid
            rw [hid] at hflat
            cases hflat
          | native => trivial

/-- A sink that installs a buffer of so many bytes and makes calls. -/
def meddler (g : Engine) (size : ℕ) (cs : List Call) : EncM Unit := do
  bufferSet (.sink (pure ())) (List.replicate size 0) 0
  g.writeAll (.sink (pure ())) (fun _ => none) cs

/-- An encoder over two bytes that a field has filled, with some sequences held back. -/
def crowded (g : Engine) (react : EncM Unit) (ids : List ℕ) : Enc :=
  left (g.writeAll (.sink react) (fun _ => none)
    (.bool (.int 1) true::ids.map fun id : ℕ => .sequenceBeginLazy (.int id))
    (.over [0,0] 0 false))

/-- The ids headers were emitted of, or what the commit raised. -/
def outcome (r : EStateM.Result Exn Enc (List ℕ)) : List ℕ × Option Exn :=
  match r with
  | .ok ids _ => (ids,none)
  | .error why _ => ([],some why)

/-- A commit whose sink does not spare its run emits the header of an id it does not hold. The
sink installs a buffer, writes a field in a sequence, and then opens two sequences that vanish:
in the pure engine they take the slots of the run in flight, whose second header is not out
yet. The native engine emits what was held back. A sink that fills the buffer it installs to
the last byte makes the commit raise in either engine. -/
theorem commit_overwritten :
    (∀ g : Engine, (crowded g (pure ()) [1,2]).held=[1,2]) ∧
    (let cs : List Call := [.sequenceBeginLazy (.int 5),.bool (.int 1) true,.sequenceEnd,
      .sequenceBeginLazy (.int 6),.sequenceBeginLazy (.int 7),.sequenceEnd,.sequenceEnd]
    Balanced 0 cs ∧ ∀ g : Engine,
      let react := meddler g 64 cs
      outcome (g.headers (fun _ => react) (crowded g react [1,2]))=
        (match g with
        | .pure => [1,7]
        | .native => [1,2],none)) ∧
    Balanced 0 [.bool (.int 1) true] ∧ ∀ g : Engine,
      let react := meddler g 2 [.bool (.int 1) true]
      outcome (g.headers (fun _ => react) (crowded g react [1,2]))=([],some bufferFull) := by
  refine ⟨?_,⟨?_,?_⟩,?_,?_⟩
  · intro g
    cases g <;> decide +kernel
  · simp [Balanced]
  · intro g
    cases g <;> decide +kernel
  · simp [Balanced]
  · intro g
    cases g <;> decide +kernel

/-- A sink that installs a buffer and makes calls, looking after each of them. -/
def careful (g : Engine) (cs : List Call) : EncM Unit := do
  bufferSet (.sink (pure ())) (List.replicate 64 0) 0
  carefully g (fun _ => none) cs

/-- A careful sink whose calls never nest does what it may while any header goes out. -/
theorem careful_called (e : Enc) {cs : List Call} (hcs : Balanced 0 cs)
    (hdeep : ∀ i, Shallow (i+1) 0 cs) :
    g.Called (fun _ => none) e (fun _ => careful g cs) := by
  intro i x y hx h
  have h : (bufferSet (.sink (pure ())) (List.replicate 64 0) 0 >>= fun _ =>
      carefully g (fun _ => none) cs) x=.ok () y := h
  rw [run_bind] at h
  cases hset : bufferSet (.sink (pure ())) (List.replicate 64 0) 0 x with
  | error why x₁ =>
    rw [hset] at h
    cases h
  | ok a x₁ =>
    rw [hset] at h
    have hk := bufferSet_kept hset
    have hp : x₁.npending ≤ 0 := by rw [hk.npending,hx.1]
    obtain ⟨hacts,hroom⟩ := carefully_acts hcs (hdeep i) hp (hk.error.trans hx.2) h
    exact ⟨.installs hset hcs hacts,Or.inr hroom⟩

/-- A sink that writes a field in a sequence of id 5, and then opens one of id 6. -/
def busySink (g : Engine) : EncM Unit :=
  careful g [.sequenceBeginLazy (.int 5),.bool (.int 1) true,.sequenceEnd,
    .sequenceBeginLazy (.int 6),.sequenceEnd]

/-- Two ids are held back. While the header of the first goes out, the sink commits a run of its
own and then opens a sequence into the slot that header was read from, so that another id is in
it afterwards: both headers go out as they were held back. -/
theorem commit_in_flight_two :
    let e := crowded .pure (busySink .pure) [1,2]
    InFlight (fun _ => busySink .pure) [1,2] e (Engine.pure.headers (fun _ => busySink .pure) e) ∧
      outcome (Engine.pure.headers (fun _ => busySink .pure) e)=([1,2],none) ∧
      ((left (Engine.pure.headers (fun _ => busySink .pure) e)).runs e.active).take 2=[6,2] := by
  intro e
  have hcalled : Engine.pure.Called (fun _ => none) e (fun _ => busySink .pure) :=
    careful_called e (by simp [Balanced]) (by simp [Shallow])
  have hheld : e.held=[1,2] := by decide +kernel
  have hflight := commit_in_flight .pure (fun _ => none) (fun _ => busySink .pure) e
    (by decide +kernel) (by decide +kernel) (by decide +kernel) hcalled
  rw [hheld] at hflight
  exact ⟨hflight.1,by decide +kernel,by decide +kernel⟩

end Sinks

end SofaBuffers
