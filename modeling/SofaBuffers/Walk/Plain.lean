import SofaBuffers.Walk.Meaning

/-!
# Changes that do not look back

What was called before makes no difference to a change of the storage, and the
verdicts a change comes to are of a kind. Both hold of what reading a whole
value comes to, whoever reads it.
-/

set_option autoImplicit false

namespace SofaBuffers

variable {V : Type}

/-- The storage, calls having been made before. -/
def Store.preceded (es : List (Event V)) (s : Store V) : Store V := {s with log := es++s.log}

/-- The error is a verdict on the message or on its size. -/
def Exn.Judges (why : Exn) : Prop := why.cls=.decode ∨ why.cls=.limit

/-- The change does not look at the calls made before, and a verdict it comes to is one of
`P`. -/
structure Effect.Plain (P : Exn → Prop) (f : Effect V) : Prop where
  /-- Calls made before stay before. -/
  unheard : ∀ es s, f (s.preceded es)=((f s).1.preceded es,(f s).2)
  /-- A verdict is one of them. -/
  verdict : ∀ s why, (f s).2=some why → why.Judges → P why

section Plain

variable {P Q : Exn → Prop} {c : Config V} {f g : Effect V}

/-- More verdicts may be come to than are. -/
theorem Effect.Plain.mono (h : f.Plain P) (hpq : ∀ why, P why → Q why) : f.Plain Q where
  unheard := h.unheard
  verdict s why hs hj := hpq why (h.verdict s why hs hj)

/-- Changing nothing is plain. -/
theorem plain_done : (Effect.done : Effect V).Plain P := ⟨fun _ _ => rfl,fun _ _ h => by cases h⟩

/-- Raising is plain where a verdict is one of those. -/
theorem plain_raise {why : Exn} (h : why.Judges → P why) : (Effect.raise why : Effect V).Plain P := by
  refine ⟨fun _ _ => rfl,fun s e he hj => ?_⟩
  cases he
  exact h hj

/-- Raising what is no verdict is plain. -/
theorem plain_fault {why : Exn} (h : why.cls≠.decode) (h' : why.cls≠.limit) :
    (Effect.raise why : Effect V).Plain P :=
  plain_raise fun hj => (hj.elim h h').elim

/-- An update that leaves the calls alone is plain. -/
theorem plain_update {u : Store V → Store V} (h : ∀ es s, u (s.preceded es)=(u s).preceded es) :
    (Effect.update u).Plain P :=
  ⟨fun es s => congrArg (·,none) (h es s),fun _ _ h => by cases h⟩

/-- Plain changes in order are plain. -/
theorem Effect.Plain.andThen (hf : f.Plain P) (hg : g.Plain P) : (f.andThen g).Plain P := by
  constructor
  · intro es s
    rw [Effect.andThen,Effect.andThen,hf.unheard]
    rcases f s with ⟨t,_|why⟩
    · exact hg.unheard es t
    · rfl
  · intro s why hs hj
    have hverdict := hf.verdict s
    rw [Effect.andThen] at hs
    rcases hr : f s with ⟨t,_|e⟩
    · rw [hr] at hs
      exact hg.verdict t why hs hj
    · rw [hr] at hs hverdict
      exact hverdict why hs hj

/-- A list of plain changes is plain. -/
theorem plain_all {fs : List (Effect V)} (h : ∀ f ∈ fs, f.Plain P) : (Effect.all fs).Plain P := by
  induction fs with
  | nil => exact plain_done
  | cons f fs ih =>
    have hf := h f List.mem_cons_self
    exact hf.andThen (ih fun g hg => h g (List.mem_cons_of_mem f hg))

/-- A change that looks at the storage, but not at the calls. -/
theorem plain_look {f : Store V → Effect V} (h : ∀ s, (f s).Plain P)
    (hf : ∀ es s, f (s.preceded es)=f s) : Effect.Plain P fun s => f s s := by
  constructor
  · intro es s
    have hlook := (h s).unheard es s
    rw [←hf es s] at hlook
    rw [hlook,hf es s]
  · exact fun s why hs hj => (h s).verdict s why hs hj

/-- A call is recorded behind those made before. -/
theorem plain_call (e : Event V) : (Effect.call e).Plain P := by
  refine plain_update fun es s => ?_
  simp only [Store.call,Store.preceded,List.append_assoc]

/-- Calls are recorded behind those made before. -/
theorem plain_calls (es : List (Event V)) : (Effect.calls es).Plain P := by
  refine plain_update fun fs s => ?_
  induction es generalizing s with
  | nil => rfl
  | cons e es ih =>
    have hone : (s.preceded fs).call e=(s.call e).preceded fs := by
      simp only [Store.call,Store.preceded,List.append_assoc]
    simp only [List.foldl_cons]
    rw [hone]
    exact ih (s.call e)

/-- Storing a word is plain. -/
theorem plain_putWord (i : ℕ) (w : BitVec 64) : (Effect.putWord c i w).Plain P := by
  rw [Effect.putWord]
  split
  · exact plain_update fun _ _ => rfl
  · exact plain_fault (by decide) (by decide)

/-- Storing an object is plain. -/
theorem plain_putObj (i : ℕ) (o : Obj) : (Effect.putObj c i o).Plain P := by
  rw [Effect.putObj]
  split
  · exact plain_update fun _ _ => rfl
  · exact plain_fault (by decide) (by decide)

/-- A typed hook is called plainly, if what it refuses is among the verdicts. -/
theorem plain_deliver {v : V} {id : ℕ} (h : ∀ x r, (c.hooks v).onValue id x=some r → P r.toExn)
    (x : Value) : (Effect.deliver c v id x).Plain P := by
  refine (plain_call _).andThen ?_
  cases hr : (c.hooks v).onValue id x with
  | none => exact plain_done
  | some r => exact plain_raise fun _ => h x r hr

/-- Storing an element is plain. -/
theorem plain_put (into : Sink) (i : ℕ) (x : ℤ) : (into.put c i x).Plain P := by
  have hvalue : (Effect.raise .value : Effect V).Plain P := plain_fault (by decide) (by decide)
  have hindex : (Effect.raise .index : Effect V).Plain P := plain_fault (by decide) (by decide)
  cases into with
  | unsignedWords | signedWords =>
    rw [Sink.put]
    split
    · split
      · exact plain_update fun _ _ => rfl
      · exact hvalue
    · exact hindex
  | buffer d =>
    rw [Sink.put]
    split
    · dsimp only
      split
      · exact plain_update fun _ _ => rfl
      · exact hvalue
    · exact hindex

/-- Storing elements is plain. -/
theorem plain_fillFrom (into : Option (Sink × ℕ)) (i : ℕ) (xs : List ℤ) :
    (fillFrom c into i xs).Plain P := by
  induction xs generalizing i with
  | nil => exact plain_done
  | cons x xs ih =>
    cases into with
    | none => exact plain_done
    | some sink => exact (plain_put _ _ _).andThen (ih _)

/-- Copying a payload is plain. -/
theorem plain_copyInto (view : Dst) (data : List UInt8) :
    (copyInto view data : Effect V).Plain P := by
  rw [copyInto]
  split
  · exact plain_fault (by decide) (by decide)
  · exact plain_update fun _ _ => rfl

/-- Copying a text is plain. -/
theorem plain_copyText (view : Dst) {data : List UInt8} (h : Utf8.valid data=true) :
    (copyText view data : Effect V).Plain P := by
  rw [copyText,if_pos h]
  exact plain_copyInto view data

/-- Going on with a text is plain when what is done with it is. -/
theorem plain_withText {data : List UInt8} (h : Utf8.valid data=true) {k : List ℕ → Effect V}
    (hk : ∀ text, (k text).Plain P) : (withText data k).Plain P := by
  obtain ⟨text,htext⟩ := Option.isSome_iff_exists.mp h
  rw [withText,htext]
  exact hk text

/-- Storing doubles is plain. -/
theorem plain_farrayPut (into : FloatSink) (i : ℕ) (ws : List (BitVec 64)) :
    (into.put c i ws).Plain P := by
  cases into with
  | words | buffer =>
    rw [FloatSink.put]
    split
    · exact plain_update fun _ _ => rfl
    · exact plain_fault (by decide) (by decide)

/-- Storing a fixlen array is plain. -/
theorem plain_unpackFarrayInto (into : FloatSink) (base : ℕ) (data : List UInt8)
    (count width start turns off : ℕ) :
    (unpackFarrayInto c into base data count width start turns off).Plain P := by
  induction turns generalizing off with
  | zero => exact plain_fault (by decide) (by decide)
  | succ turns ih =>
    rw [unpackFarrayInto]
    split
    · exact (plain_farrayPut _ _ _).andThen (ih _)
    · exact plain_done

/-- A change that looks at the storage and may find no slot. -/
theorem plain_slot {p : Prop} [Decidable p] {f : Store V → Effect V} (h : ∀ s, (f s).Plain P)
    (hf : ∀ es s, f (s.preceded es)=f s) :
    Effect.Plain P fun s => if p then f s s else (s,some .index) := by
  by_cases hp : p
  · simp only [hp,if_true]
    exact plain_look h hf
  · simp only [hp,if_false]
    exact plain_fault (by decide) (by decide)

/-- The second pass over booleans is plain. -/
theorem plain_normaliseBooleans (count i : ℕ) : (normaliseBooleans c count i).Plain P := by
  induction count generalizing i with
  | zero => exact plain_done
  | succ count ih =>
    refine plain_slot (f:=fun s => (if 1 < (s.word i).toNat then Effect.putWord c i 1 else .done
      ).andThen (normaliseBooleans c count (i+1))) (fun s => Effect.Plain.andThen ?_ (ih _))
      fun _ _ => rfl
    split
    · exact plain_putWord i 1
    · exact plain_done

/-- Writing an arrival is plain. -/
theorem plain_countArrival (e : Entry) (got : ℕ) : (countArrival c e got).Plain P := by
  rw [countArrival]
  cases e.countAt with
  | none => exact plain_done
  | some i => exact plain_putWord i _

/-- A buffer is reset plainly. -/
theorem plain_resetInto (slot : ℕ) (payload : List UInt8) : (resetInto c slot payload).Plain P := by
  have hcopy := fun view : Dst => plain_copyInto (V:=V) (P:=P) view payload
  constructor
  · intro es s
    rw [resetInto.eq_def,resetInto.eq_def]
    dsimp only
    have hobj : (s.preceded es).obj slot=s.obj slot := rfl
    rw [hobj]
    split
    · cases writable "a declared default" (s.obj slot) with
      | error e => rfl
      | ok view =>
        dsimp only
        split
        · rfl
        · split
          · rfl
          · exact (hcopy view).unheard es s
    · rfl
  · intro s why hs hj
    rw [resetInto.eq_def] at hs
    dsimp only at hs
    split at hs
    · cases hw : writable "a declared default" (s.obj slot) with
      | error e =>
        rw [hw] at hs
        have hcls := writable_error hw
        cases hs
        rw [Exn.Judges,hcls] at hj
        cases hj <;> contradiction
      | ok view =>
        rw [hw] at hs
        dsimp only at hs
        split at hs
        · cases hs
          cases hj <;> contradiction
        · split at hs
          · cases hs
            cases hj <;> contradiction
          · exact (hcopy view).verdict s why hs hj
    · cases hs
      cases hj <;> contradiction

/-- An option is reset plainly. -/
theorem plain_resetOption (e : Entry) : (resetOption c e).Plain P := by
  refine Effect.Plain.andThen (plain_all fun f hf => ?_)
    (Effect.Plain.andThen (plain_all fun f hf => ?_) (plain_all fun f hf => ?_))
  · obtain ⟨p,-,rfl⟩ := List.mem_map.mp hf
    exact plain_putWord p.1 p.2
  · obtain ⟨p,-,rfl⟩ := List.mem_map.mp hf
    exact plain_putObj p.1 p.2
  · obtain ⟨p,-,rfl⟩ := List.mem_map.mp hf
    exact plain_resetInto p.1 p.2

/-- A row arrives plainly. -/
theorem plain_arrive (e : Entry) : (arrive c e).Plain P := by
  rw [arrive]
  cases e.whichAt with
  | none => exact plain_done
  | some w =>
    have hput := plain_putWord (P:=P) (c:=c) w (BitVec.ofNat 64 e.fieldId)
    refine plain_slot (f:=fun s => if s.word w=BitVec.ofNat 64 e.fieldId then
      Effect.putWord c w (BitVec.ofNat 64 e.fieldId)
      else (resetOption c e).andThen (.putWord c w (BitVec.ofNat 64 e.fieldId))) (fun s => ?_)
      fun _ _ => rfl
    split
    · exact hput
    · exact (plain_resetOption e).andThen hput

/-- An occurrence is counted plainly. -/
theorem plain_countOccurrence (e : Entry) : (Walk.countOccurrence c e).Plain P := by
  rw [Walk.countOccurrence]
  cases e.countAt with
  | none => exact plain_done
  | some i =>
    exact plain_slot (f:=fun s => Sink.put c .unsignedWords i (((s.word i).toNat : ℤ)+1))
      (fun _ => plain_put _ _ _) fun _ _ => rfl

end Plain

end SofaBuffers
