import SofaBuffers.Walk.Within

/-!
# Rows of tables keep to a licence

Storage that was checked has every slot and every entry a row asks for. So a row
keeps to any licence for them, and the arrival of a value never fails.
-/

set_option autoImplicit false

namespace SofaBuffers

variable {V : Type}

/-- Storage that was checked is as large as a forest asks for. -/
theorem bindWords_ok {c : Config V} {f : Forest} (hf : c.forest=some f) (hc : bindWords c=.ok ()) :
    f.treeWordsRequired ≤ c.nwords ∧ f.treeObjectsRequired ≤ c.nobjects := by
  rw [bindWords,hf] at hc
  dsimp only at hc
  split at hc
  · cases hc
  · split at hc
    · cases hc
    · exact ⟨by omega,by omega⟩

/-- A row that is found is one of a forest. -/
theorem lookup_forest {c : Config V} {r id : ℕ} {e : Entry} (h : c.lookup r id=some e) :
    ∃ f, c.forest=some f ∧ f.lookup r id=some e := by
  rw [Config.lookup] at h
  exact Option.bind_eq_some_iff.mp h

section Row

variable {A : Licence V} {c : Config V} {f : Forest} {r id : ℕ} {e : Entry}

/-- The slots of a value are among those its row needs. -/
theorem Entry.value_le (e : Entry) :
    (e.kind.isArray=true → e.slot+e.cap ≤ e.wordsNeeded) ∧
      (e.kind.isScalar=true → e.slot < e.wordsNeeded) ∧
      (e.kind.isObject=true → e.slot < e.objectsNeeded) := by
  have hdistinct : e.kind.isScalar=true → e.kind.isArray=false := by
    cases e.kind <;> simp [Kind.isScalar,Kind.isArray]
  refine ⟨fun h => ?_,fun h => ?_,fun h => ?_⟩
  · rw [wordsNeeded]
    simp only [h,if_true]
    exact Nat.le_max_right _ _
  · rw [wordsNeeded]
    simp only [h,hdistinct h,if_true,Bool.false_eq_true,if_false]
    exact Nat.le_max_right _ _
  · rw [objectsNeeded,if_pos h]
    exact Nat.lt_succ_self _

/-- The arrival of a row of a table keeps to a licence for all the words its forest asks
for, when it does for its entries and its buffers. -/
theorem Licence.arrival_within (hf : c.forest=some f) (hc : bindWords c=.ok ())
    (h : c.lookup r id=some e) (hw : ∀ i < f.treeWordsRequired, A.word i)
    (hobjects : e.whichAt.isSome=true → ∀ p ∈ e.resetObjects, A.obj p.1)
    (hinto : e.whichAt.isSome=true → ∀ p ∈ e.resetInto, (resetInto c p.1 p.2).Within A) :
    A.Arrival c e := by
  obtain ⟨hwords,hobjs⟩ := bindWords_ok hf hc
  rw [Config.lookup,hf] at h
  have hl : f.lookup r id=some e := h
  have hslot : ∀ i < f.treeWordsRequired, A.Word c i := fun i hi => ⟨hw i hi,Or.inl (by omega)⟩
  constructor
  · exact fun w hwhich => hslot w (Forest.lookup_which hl hwhich)
  · exact fun hwhich p hp => hslot p.1 ((Forest.lookup_resets hl hwhich).words p hp)
  · intro hwhich p hp
    have hlt := (Forest.lookup_resets hl hwhich).objects p hp
    exact ⟨hobjects hwhich p hp,Or.inl (by omega)⟩
  · exact hinto

/-- A row of a table keeps to a licence for all the words its forest asks for, when it
does for its entries and its buffers. -/
theorem Licence.row_within (hf : c.forest=some f) (hc : bindWords c=.ok ())
    (h : c.lookup r id=some e) (hw : ∀ i < f.treeWordsRequired, A.word i)
    (hobjects : e.whichAt.isSome=true → ∀ p ∈ e.resetObjects, A.obj p.1)
    (hobject : e.kind.isObject=true → e.into=false → A.obj e.slot)
    (hinto : e.whichAt.isSome=true → ∀ p ∈ e.resetInto, (resetInto c p.1 p.2).Within A)
    (hfilled : e.kind.isObject=true → e.into=true → ∀ s : Store V, A.given s.obj → ∀ n ≤ fixlenMax,
      (∀ most, e.declared=some most → n ≤ most) →
      A.SureAt s (∃ d, s.obj e.slot=.buffer d ∧ d.Holds 1 n ∧ d.signed=false)) : A.Row c e := by
  have harrival := Licence.arrival_within hf hc h hw hobjects hinto
  obtain ⟨hwords,hobjs⟩ := bindWords_ok hf hc
  rw [Config.lookup,hf] at h
  have hl : f.lookup r id=some e := h
  have hneed := Forest.lookup_wordsNeeded hl
  have hneed' := Forest.lookup_objectsNeeded hl
  obtain ⟨harray,hscalar,hobj⟩ := e.value_le
  have hslot : ∀ i < f.treeWordsRequired, A.Word c i := fun i hi => ⟨hw i hi,Or.inl (by omega)⟩
  constructor
  · exact harrival
  · intro i hi
    have hlt := Entry.countAt_lt hi
    exact hslot i (by omega)
  · intro hk
    have hlt := hscalar hk
    exact hslot e.slot (by omega)
  · intro hk k h1 h2
    have hle := harray hk
    exact hslot k (by omega)
  · intro hk
    have hle := harray hk
    exact ⟨fun k h1 h2 => hw k (by omega),Or.inl (by omega)⟩
  · intro hk hinto
    have hlt := hobj hk
    exact ⟨hobject hk hinto,Or.inl (by omega)⟩
  · intro hk hinto
    have hlt := hobj hk
    exact Or.inl (by omega)
  · exact hfilled

end Row

/-- Any word and any entry may be written, and nothing raised. -/
def Licence.silent (V : Type) : Licence V where
  word _ := True
  obj _ := True
  call _ := True
  raise _ _ := False
  given _ := True
  stable _ _ _ _ := trivial

/-- The arrival of a value never fails. -/
theorem arrive_ok {c : Config V} (hc : bindWords c=.ok ()) {r id : ℕ} {e : Entry}
    (h : c.lookup r id=some e) (hk : e.kind≠.sequence) (s : Store V) :
    arrive c e s=((arrive c e s).1,none) := by
  obtain ⟨f,hf,hl⟩ := lookup_forest h
  have hrow : (Licence.silent V).Arrival c e := by
    refine Licence.arrival_within hf hc h (fun _ _ => trivial) (fun _ _ _ => trivial) ?_
    intro hw p hp
    rw [Forest.lookup_held hl hk hw] at hp
    cases hp
  have harr := within_arrive hrow s trivial
  cases hr : arrive c e s with
  | mk σ why =>
    rw [hr] at harr
    cases why with
    | none => rfl
    | some why => exact (harr.raise why rfl).elim

end SofaBuffers
