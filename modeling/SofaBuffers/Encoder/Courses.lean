import SofaBuffers.Course
import SofaBuffers.Encoder.Pruning

/-!
# What a call can do to an encoder

A call that writes swaps the lists of slots if something is held back, and then
does nothing but write into the buffer and drain it. So a course that writing
in the buffer and draining take is taken by every call behind its commit,
whatever the outlet does.
-/

set_option autoImplicit false

namespace SofaBuffers

variable {S : Enc → Option Exn → Enc → Prop} {o : Outlet}

/-- A course of writing in the buffer and draining it. -/
structure Writing (o : Outlet) (S : Enc → Option Exn → Enc → Prop) : Prop extends Course S where
  /-- Bytes are written. -/
  write : ∀ (e : Enc) (fixed : List UInt8) (cursor : ℕ) (result : Option (List (List UInt8))),
    S e none {e with fixed := fixed, cursor := cursor, result := result}
  /-- The buffer is drained. -/
  drain : Along S (drain o)

section Writing

theorem along_poke (hS : Writing o S) (bs : List UInt8) : Along S (poke bs) :=
  .modify fun e => hS.write e _ _ e.result

theorem along_setCursor (hS : Writing o S) (cursor : ℕ) : Along S (setCursor cursor) :=
  .modify fun e => hS.write e e.fixed _ e.result

theorem along_pokeAt (hS : Writing o S) (seen cursor : ℕ) (bs : List UInt8) :
    Along S (pokeAt seen cursor bs) := by
  refine .modify fun e => ?_
  split
  · exact hS.write e _ e.cursor e.result
  · exact hS.refl e

/-- A full buffer is drained. -/
theorem along_makeRoom (hS : Writing o S) : Along S (makeRoom o) := by
  refine .get_bind fun e => ?_
  split
  · refine (hS.drain e).bind hS.toCourse fun _ e' _ => ?_
    rw [run_get_bind]
    exact Along.ite (fun _ => .throw hS.toCourse _) (fun _ => .pure hS.toCourse _) e'
  · exact .ok (hS.refl e)

/-- Bytes are copied through the buffer. -/
theorem along_putLoop (hS : Writing o S) (data : List UInt8) (turns pos : ℕ) :
    Along S (putLoop o data turns pos) := by
  induction turns generalizing pos with
  | zero => exact .throw hS.toCourse _
  | succ turns ih =>
    rw [putLoop]
    refine .ite (fun _ => ?_) (fun _ => .pure hS.toCourse _)
    refine (along_makeRoom hS).bind hS.toCourse fun _ => .get_bind fun e => ?_
    exact ((along_poke hS _).bind hS.toCourse fun _ => ih _) e

/-- A run of bytes is written. -/
theorem along_put (hS : Writing o S) (data : List UInt8) : Along S (put o data) := by
  refine .get_bind fun e => ?_
  split
  · have hdrain : Along S (drainUsed o) :=
      .get_bind fun e => Along.ite (fun _ => hS.drain) (fun _ => .pure hS.toCourse _) e
    exact (hdrain.bind hS.toCourse fun _ =>
      .modify fun e => hS.write e e.fixed e.cursor _) e
  · exact along_putLoop hS data _ _ e

/-- A varint is written. -/
theorem along_emitVarint (hS : Writing o S) (v : ℕ) : Along S (emitVarint o v) := by
  refine .get_bind fun e => ?_
  split
  · exact along_poke hS _ e
  · exact along_put hS _ e

/-- The elements of an integer array are written. -/
theorem along_elementLoop (hS : Writing o S) (word : Given → Except Exn ℕ) (vs : List Given)
    (seen : ℕ) (limit : ℤ) (cursor : ℕ) : Along S (elementLoop o word vs seen limit cursor) := by
  induction vs generalizing seen limit cursor with
  | nil => exact along_setCursor hS cursor
  | cons v vs ih =>
    rw [elementLoop]
    cases word v with
    | error why => exact (along_setCursor hS cursor).bind hS.toCourse fun _ => .throw hS.toCourse _
    | ok u =>
      refine .ite (fun _ => ?_) (fun _ => ?_)
      · refine (along_setCursor hS cursor).bind hS.toCourse fun _ => ?_
        exact (along_put hS _).bind hS.toCourse fun _ => .get_bind fun e => ih _ _ _ e
      · exact (along_pokeAt hS _ _ _).bind hS.toCourse fun _ => ih _ _ _

/-- The elements of a boolean array are written. -/
theorem along_boolLoop (hS : Writing o S) (vs : List Bool) (seen room cursor : ℕ) :
    Along S (boolLoop o vs seen room cursor) := by
  induction vs generalizing seen room cursor with
  | nil => exact along_setCursor hS cursor
  | cons v vs ih =>
    rw [boolLoop]
    refine .ite (fun _ => ?_) (fun _ => ?_)
    · refine (along_setCursor hS cursor).bind hS.toCourse fun _ => ?_
      exact (along_put hS _).bind hS.toCourse fun _ => .get_bind fun e => ih _ _ _ e
    · exact (along_pokeAt hS _ _ _).bind hS.toCourse fun _ => ih _ _ _

/-- The held-back headers of a list of slots are written. -/
theorem along_commitLoop (hS : Writing o S) (side : Bool) (left i : ℕ) :
    Along S (commitLoop o side left i) := by
  induction left generalizing i with
  | zero => exact .pure hS.toCourse _
  | succ left ih =>
    rw [commitLoop]
    exact .get_bind fun e => ((along_emitVarint hS _).bind hS.toCourse fun _ => ih _) e

/-- What is held back is written once the lists are swapped. -/
theorem takes_commitHeld (hS : Writing o S) (e : Enc) : Takes S e.committed (commitHeld o e) := by
  rw [commitHeld,run_get_bind,Enc.committed]
  by_cases hz : e.npending≠0
  · rw [if_pos hz,if_pos hz,commitPending,run_get_bind,run_set_bind]
    exact along_commitLoop hS _ _ _ _
  · rw [if_neg hz,if_neg hz]
    exact .ok (hS.refl e)

end Writing

/-- A call is refused, or takes a course behind the commit of what is held back. -/
def Behind (S : Enc → Option Exn → Enc → Prop) (e : Enc) (w : Option Exn) (e' : Enc) : Prop :=
  (w≠none ∧ e'=e) ∨ S e.committed w e'

section Bodies

/-- What takes a course once the lists are swapped takes it behind the commit. -/
theorem Takes.behind {r : EStateM.Result Exn Enc Unit} {e : Enc} (h : Takes S e.committed r) :
    Takes (Behind S) e r := by
  cases h with
  | ok h => exact .ok (Or.inr h)
  | error h => exact .error (Or.inr h)

/-- A check is made first. -/
theorem behind_checked {α : Type} (r : Except Exn α) {f : α → EncM Unit}
    (hf : ∀ a, Along (Behind S) (f a)) : Along (Behind S) (checked r >>= f) := by
  intro e
  cases r with
  | ok a => exact hf a e
  | error why => exact .error (Or.inl ⟨by simp,rfl⟩)

/-- What is written goes on behind the commit. -/
theorem behind_bind (hS : Course S) {m : EncM Unit} {f : Unit → EncM Unit}
    (hm : Along (Behind S) m) (hf : ∀ a, Along S (f a)) : Along (Behind S) (m >>= f) := by
  intro e
  have hgo := hm e
  rw [run_bind]
  generalize m e=r at hgo
  cases hgo with
  | @ok a e' h =>
    rcases h with ⟨hne,_⟩ | h
    · exact absurd rfl hne
    · have hnext := hf a e'
      dsimp only
      generalize f a e'=r at hnext
      cases hnext with
      | ok h' => exact .ok (Or.inr (hS.trans h h'))
      | error h' => exact .error (Or.inr (hS.trans h h'))
  | error h => exact .error h

/-- A header. -/
theorem behind_header (hS : Writing o S) (fieldId : Given) (wtype : WireType) :
    Along (Behind S) (header o fieldId wtype) := by
  refine behind_checked _ fun id e => Takes.behind ?_
  exact (takes_commitHeld hS e).bind hS.toCourse fun _ e' _ => along_emitVarint hS _ e'

/-- A field of one varint. -/
theorem behind_scalar (hS : Writing o S) (fieldId : Given) (wtype : WireType) {α : Type}
    (value : Except Exn α) (word : α → ℕ) :
    Along (Behind S) (do
      let v ← checked value
      header o fieldId wtype
      emitVarint o (word v)) :=
  behind_checked value fun v =>
    behind_bind hS.toCourse (behind_header hS fieldId wtype) fun _ => along_emitVarint hS (word v)

/-- A fixlen field. -/
theorem behind_fixlen (hS : Writing o S) (fieldId : Given) (subtype : FixlenSubtype)
    (data : List UInt8) :
    Along (Behind S) (do
      checked (fixlenSize data.length)
      header o fieldId .fixlen
      emitVarint o (data.length*8+subtype.toNat)
      put o data) := by
  refine behind_checked _ fun _ => behind_bind hS.toCourse (behind_header hS fieldId .fixlen) ?_
  exact fun _ => (along_emitVarint hS _).bind hS.toCourse fun _ => along_put hS data

/-- An array. -/
theorem behind_array (hS : Writing o S) (fieldId : Given) (wtype : WireType)
    {α : Type} (count : Except Exn α) (number : α → ℕ) {rest : EncM Unit} (hrest : Along S rest) :
    Along (Behind S) (do
      let n ← checked count
      arrayHead o fieldId wtype (number n)
      rest) := by
  refine behind_checked count fun n => behind_bind hS.toCourse ?_ fun _ => hrest
  rw [arrayHead]
  by_cases h : number n > arrayMax
  · rw [if_pos h]
    exact fun e => .error (Or.inl ⟨by simp,rfl⟩)
  · rw [if_neg h]
    exact behind_bind hS.toCourse (behind_header hS fieldId wtype) fun _ => along_emitVarint hS _

end Bodies

/-- How a writer ends whose body takes a course. -/
inductive Settles (B : Enc → Option Exn → Enc → Prop) (e : Enc) :
    EStateM.Result Exn Enc Unit → Prop
  /-- An error is latched already. -/
  | skipped (h : e.latched=true) : Settles B e (.ok () e)
  /-- The body went well. -/
  | done {e' : Enc} (h : B e none e') : Settles B e (.ok () e')
  /-- The error is latched. -/
  | caught {e' : Enc} {why : Exn} (h : B e (some why) e') :
      Settles B e (.ok () {e' with error := some (e'.error.getD why)})
  /-- The error is raised. -/
  | raised {e' : Enc} {why : Exn} (h : B e (some why) e') : Settles B e (.error why e')

section Calls

variable {B : Enc → Option Exn → Enc → Prop} {e : Enc}

/-- A refusal is latched or raised. -/
theorem fail_settles {why : Exn} {e' : Enc} (h : B e (some why) e') :
    Settles B e (fail why e') := by
  rw [fail_run]
  split
  · exact .caught h
  · exact .raised h

/-- A body behind the sticky gate. -/
theorem guarded_settles {body : EncM Unit} (h : Takes B e (body e)) :
    Settles B e (guarded body e) := by
  by_cases hl : e.latched=true
  · have hrun : guarded body e=.ok () e := if_pos hl
    rw [hrun]
    exact .skipped hl
  · rw [guarded_run body (by simpa using hl)]
    generalize body e=r at h
    cases h with
    | ok h => exact .done h
    | @error why e' h =>
      rw [settle]
      split
      · exact fail_settles h
      · exact .raised h

/-- An unsigned field. -/
theorem unsigned_settles (hS : Writing o S) (fieldId value : Given) (e : Enc) :
    Settles (Behind S) e (writeUnsigned o fieldId value e) :=
  guarded_settles (behind_scalar hS fieldId .unsigned (unsignedValue value) id e)

/-- A signed field. -/
theorem signed_settles (hS : Writing o S) (fieldId value : Given) (e : Enc) :
    Settles (Behind S) e (writeSigned o fieldId value e) :=
  guarded_settles (behind_scalar hS fieldId .signed (signedValue value) Zigzag.encode e)

/-- A fixlen field whose payload is settled first. -/
theorem settled_settles (hS : Writing o S) (fieldId : Given) (subtype : FixlenSubtype) {α : Type}
    (r : Except Exn α) (payload : α → List UInt8) (e : Enc) :
    Settles (Behind S) e
      (settledThen r (fun a => writeFixlen o fieldId (payload a) subtype) e) := by
  by_cases hl : e.latched=true
  · have hrun : settledThen r (fun a => writeFixlen o fieldId (payload a) subtype) e=.ok () e :=
      if_pos hl
    rw [hrun]
    exact .skipped hl
  · have hrun : settledThen r (fun a => writeFixlen o fieldId (payload a) subtype) e=_ :=
      if_neg hl
    rw [hrun]
    cases r with
    | error why => exact fail_settles (Or.inl ⟨by simp,rfl⟩)
    | ok a => exact guarded_settles (behind_fixlen hS fieldId subtype (payload a) e)

/-- An array of integers. -/
theorem arrayWriter_settles (hS : Writing o S) (w : Width) (fieldId : Given)
    (values : List Given) (cap : ℤ) (e : Enc) :
    Settles (Behind S) e (arrayWriter o w fieldId values cap e) := by
  rw [arrayWriter]
  split
  · exact .raised (Or.inl ⟨by simp,rfl⟩)
  · refine guarded_settles (behind_array hS fieldId _ _ (fun _ => values.length) ?_ e)
    exact .get_bind fun e => along_elementLoop hS _ values _ _ _ e

/-- An array of booleans. -/
theorem boolArray_settles (hS : Writing o S) (fieldId : Given) (values : List Bool)
    (cap : Option ℤ) (e : Enc) :
    Settles (Behind S) e (writeBoolArrayBounded o fieldId values cap e) := by
  refine guarded_settles (behind_array hS fieldId _ _ (fun _ => values.length) ?_ e)
  exact .get_bind fun e => along_boolLoop hS values _ _ _ e

/-- An array of floats. -/
theorem floatArray_settles (hS : Writing o S) (fieldId : Given) (values : List (BitVec 64))
    (subtype : FixlenSubtype) (packArray : List (BitVec 64) → List UInt8) (elemSize : ℕ)
    (cap : Option ℤ) (e : Enc) :
    Settles (Behind S) e (writeFloatArray o fieldId values subtype packArray elemSize cap e) := by
  refine guarded_settles (behind_array hS fieldId _ _ (fun _ => values.length) ?_ e)
  exact (along_emitVarint hS _).bind hS.toCourse fun _ => along_put hS _

/-- A call about a field is refused, or takes any course of writing and draining behind the
commit of what is held back. -/
theorem field_settles (hS : Writing o S) (narrow : BitVec 64 → Option (BitVec 32)) {c : Call}
    (hc : (c.move narrow).Flat) (e : Enc) : Settles (Behind S) e (c.run o narrow e) := by
  cases c with
  | unsigned fieldId value => exact unsigned_settles hS fieldId value e
  | signed fieldId value => exact signed_settles hS fieldId value e
  | sized w fieldId value =>
    cases w with
    | u64 => exact unsigned_settles hS fieldId value e
    | i64 => exact signed_settles hS fieldId value e
    | u8 | u16 | u32 => exact guarded_settles (behind_scalar hS fieldId .unsigned _ id e)
    | i8 | i16 | i32 => exact guarded_settles (behind_scalar hS fieldId .signed _ Zigzag.encode e)
  | bool fieldId value => exact unsigned_settles hS fieldId _ e
  | float32 fieldId value => exact guarded_settles (behind_fixlen hS fieldId .fp32 _ e)
  | float32Bits fieldId bits => exact settled_settles hS fieldId .fp32 (f32Word bits) _ e
  | float64 fieldId value => exact guarded_settles (behind_fixlen hS fieldId .fp64 _ e)
  | string fieldId text => exact settled_settles hS fieldId .string (utf8Payload text) id e
  | stringBounded fieldId text maxlen => exact settled_settles hS fieldId .string _ id e
  | bytes fieldId data => exact settled_settles hS fieldId .blob (blobPayload data) id e
  | bytesBounded fieldId data maxlen => exact settled_settles hS fieldId .blob _ id e
  | unsignedArray fieldId values => exact arrayWriter_settles hS .u64 fieldId values (-1) e
  | signedArray fieldId values => exact arrayWriter_settles hS .i64 fieldId values (-1) e
  | sizedArray w fieldId values cap =>
    cases w <;> exact arrayWriter_settles hS _ fieldId values cap e
  | boolArray fieldId values => exact boolArray_settles hS fieldId values none e
  | boolArrayBounded fieldId values cap => exact boolArray_settles hS fieldId values cap e
  | float32Array fieldId values => exact floatArray_settles hS fieldId values .fp32 _ 4 none e
  | float32ArrayBounded fieldId values cap =>
    exact floatArray_settles hS fieldId values .fp32 _ 4 cap e
  | float32ArrayBits fieldId payload count =>
    refine guarded_settles (behind_array hS fieldId _ (f32Payload payload.length count) id ?_ e)
    exact (along_emitVarint hS _).bind hS.toCourse fun _ => along_put hS _
  | float64Array fieldId values => exact floatArray_settles hS fieldId values .fp64 _ 8 none e
  | float64ArrayBounded fieldId values cap =>
    exact floatArray_settles hS fieldId values .fp64 _ 8 cap e
  | sequenceBeginLazy _ | sequenceEnd | sequenceEndKeep => cases hc

/-- Opening a sequence writes nothing. -/
theorem begin_settles (fieldId : Given) (e : Enc) :
    Settles (fun e w e' => (w≠none ∧ e'=e) ∨
      ∃ id, checkedId fieldId=.ok id ∧ w=none ∧ e'=e.holding id) e
      (writeSequenceBeginLazy fieldId e) := by
  refine guarded_settles ?_
  rw [run_get_bind]
  split
  · exact .error (Or.inl ⟨by simp,rfl⟩)
  · cases hid : checkedId fieldId with
    | error why => exact .error (Or.inl ⟨by simp,rfl⟩)
    | ok id =>
      show Takes _ e ((if (e.runs e.active).length ≤ e.npending then throw .index
        else set (e.holding id) : EncM Unit) e)
      split
      · exact .error (Or.inl ⟨by simp,rfl⟩)
      · exact .ok (Or.inr ⟨id,rfl,rfl,rfl⟩)

/-- What closing a sequence comes to: the id that is held back is forgotten, or the end of the
frame is written behind the commit of what is held back. -/
def Closing (S : Enc → Option Exn → Enc → Prop) (keep : Bool) (e : Enc) (w : Option Exn)
    (e' : Enc) : Prop :=
  (w≠none ∧ e'=e) ∨ (keep=false ∧ e.npending≠0 ∧ w=none ∧ e'=e.dropping) ∨
    ((e.npending=0 ∨ keep=true) ∧
      ((w≠none ∧ S e.committed w e') ∨ ∃ m, S e.committed none m ∧ w=none ∧ e'=m.shallower))

/-- Closing a sequence takes a course of the writers. -/
theorem stops_takes (hS : Writing o S) {body : EncM Unit} {keep : Bool} (hb : Stops o body keep)
    (e : Enc) : Takes (Closing S keep) e (body e) := by
  by_cases hd : e.depth ≤ 0
  · rw [hb.unmatched e hd]
    exact .error (Or.inl ⟨by simp,rfl⟩)
  · by_cases hn : e.npending=0 ∨ keep=true
    · have hclose : Takes S e.committed (closeFrame o e) :=
        (takes_commitHeld hS e).bind hS.toCourse fun _ e' _ => along_emitVarint hS _ e'
      rw [hb.framed e (by omega) hn]
      generalize closeFrame o e=r at hclose
      cases hclose with
      | ok h => exact .ok (Or.inr (Or.inr ⟨hn,Or.inr ⟨_,h,rfl,rfl⟩⟩))
      | error h => exact .error (Or.inr (Or.inr ⟨hn,Or.inl ⟨by simp,h⟩⟩))
    · have hpending : e.npending≠0 := fun h => hn (Or.inl h)
      have hkeep : keep=false := by simpa using fun h => hn (Or.inr h)
      rw [hb.vanishes e (by omega) hpending hkeep]
      exact .ok (Or.inr (Or.inl ⟨hkeep,hpending,rfl,rfl⟩))

/-- Closing a sequence, its frame being kept or not. -/
theorem closing_settles (hS : Writing o S) (narrow : BitVec 64 → Option (BitVec 32)) (keep : Bool)
    (e : Enc) : Settles (Closing S keep) e ((CallTree.closing keep).run o narrow e) := by
  cases keep with
  | false => exact guarded_settles (stops_takes hS means_stop e)
  | true => exact guarded_settles (stops_takes hS means_stopKeep e)

end Calls

end SofaBuffers
