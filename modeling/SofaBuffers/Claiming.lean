import SofaBuffers.Built

/-!
# What a refused row leaves behind

A binder method claims storage for its row before it looks at the declared width
and at the default. A call that is refused for one of these binds no row, but
what it claimed stays claimed.
-/

set_option autoImplicit false

namespace SofaBuffers

namespace Binder

/-- What a binder method says of where its row goes. -/
structure Place where
  /-- The kind of row that is bound. -/
  kind : Kind
  /-- The id it takes. -/
  fieldId : Given
  /-- The slot of the value (`at`). -/
  slot : Given := .int 0
  /-- Capacity of an array, declared length of a string or blob. -/
  cap : Given := .int 0
  /-- The slot its arrival is written to. -/
  countAt : Option Given

/-- Where the row of a method goes. -/
def Method.place : Method → Place
  | .unsigned fieldId slot countAt _ _ => {kind := .unsigned, fieldId, slot, countAt}
  | .signed fieldId slot countAt _ _ _ => {kind := .signed, fieldId, slot, countAt}
  | .boolean fieldId slot countAt _ => {kind := .boolean, fieldId, slot, countAt}
  | .float32 fieldId slot countAt _ => {kind := .float32, fieldId, slot, countAt}
  | .float64 fieldId slot countAt _ => {kind := .float64, fieldId, slot, countAt}
  | .string fieldId slot cap countAt _ => {kind := .string, fieldId, slot, cap, countAt}
  | .bytes fieldId slot cap countAt _ => {kind := .bytes, fieldId, slot, cap, countAt}
  | .stringInto fieldId slot cap countAt _ => {kind := .string, fieldId, slot, cap, countAt}
  | .blobInto fieldId slot cap countAt _ => {kind := .bytes, fieldId, slot, cap, countAt}
  | .unsignedArray fieldId slot cap countAt _ _ =>
    {kind := .arrayUnsigned, fieldId, slot, cap, countAt}
  | .signedArray fieldId slot cap countAt _ _ _ =>
    {kind := .arraySigned, fieldId, slot, cap, countAt}
  | .booleanArray fieldId slot cap countAt _ =>
    {kind := .arrayBoolean, fieldId, slot, cap, countAt}
  | .float32Array fieldId slot cap countAt _ =>
    {kind := .arrayFloat32, fieldId, slot, cap, countAt}
  | .float64Array fieldId slot cap countAt _ =>
    {kind := .arrayFloat64, fieldId, slot, cap, countAt}
  | .sequence fieldId _ countAt => {kind := .sequence, fieldId, countAt}

/-- The row goes nowhere, its id, its slot, its capacity or its count slot being none, or the
table asks for as much storage already. -/
def Place.Claimed (p : Place) (b : Binding) : Prop :=
  ∀ fid slot n cnt, freeId b p.fieldId=.ok fid → slotIndex p.slot "slot index"=.ok slot →
    capacity p.kind p.cap=.ok n → optionalSlot p.countAt "count slot"=.ok cnt →
    let e : Entry := {kind := p.kind, fieldId := fid, slot := slot, cap := n, countAt := cnt}
    e.wordsNeeded ≤ b.wordsRequired ∧ e.objectsNeeded ≤ b.objectsRequired

/-- The table the call is made on is in use, or the one it refers to. -/
def InUse (heap : List Cell) (self : Cell) (m : Method) : Prop :=
  self.frozen=true ∨ ∃ g child, m.child=some g ∧ heap[g]?=some child ∧ child.frozen=true

section Add

variable {narrow : BitVec 64 → Option (BitVec 32)} {b b' : Binding}

/-- Storage is claimed for a row. -/
theorem require_eq (kind : Kind) (fid slot n : ℕ) (cnt : Option ℕ) (b : Binding) :
    let e : Entry := {kind := kind, fieldId := fid, slot := slot, cap := n, countAt := cnt}
    requireValue kind slot n (requireCount cnt b)={b with
      wordsRequired := max b.wordsRequired e.wordsNeeded
      objectsRequired := max b.objectsRequired e.objectsNeeded} := by
  cases kind <;> cases cnt <;>
    simp [requireValue,requireCount,Kind.isObject,Kind.isArray,Kind.isScalar,Entry.wordsNeeded,
      Entry.objectsNeeded,Nat.max_assoc]

/-- A check that was not passed, or whatever follows. -/
theorem check_error {α β : Type} {r : Except Exn α} {f : α → EStateM Exn Binding β} {why : Exn}
    (h : (check r >>= f) b=.error why b') :
    (r=.error why ∧ b'=b) ∨ ∃ a, r=.ok a ∧ f a b=.error why b' := by
  cases r with
  | error w =>
    cases h
    exact .inl ⟨rfl,rfl⟩
  | ok a => exact .inr ⟨a,rfl,h⟩

/-- Storage is claimed, or was there already. -/
theorem require_same {p : Place} {fid slot n : ℕ} {cnt : Option ℕ}
    (hfid : freeId b p.fieldId=.ok fid) (hslot : slotIndex p.slot "slot index"=.ok slot)
    (hn : capacity p.kind p.cap=.ok n) (hcnt : optionalSlot p.countAt "count slot"=.ok cnt)
    (h : b'=requireValue p.kind slot n (requireCount cnt b)) :
    b'.entries=b.entries ∧ (b'=b ↔ p.Claimed b) := by
  have heq := h.trans (require_eq p.kind fid slot n cnt b)
  refine ⟨by rw [heq],fun hsame => ?_,fun hclaimed => ?_⟩
  · intro fid' slot' n' cnt' hfid' hslot' hn' hcnt'
    cases hfid.symm.trans hfid'
    cases hslot.symm.trans hslot'
    cases hn.symm.trans hn'
    cases hcnt.symm.trans hcnt'
    have hwords := congrArg Binding.wordsRequired (heq.symm.trans hsame)
    have hobjects := congrArg Binding.objectsRequired (heq.symm.trans hsame)
    dsimp only at hwords hobjects
    exact ⟨by omega,by omega⟩
  · have hroom := hclaimed fid slot n cnt hfid hslot hn hcnt
    rw [heq,Nat.max_eq_left hroom.1,Nat.max_eq_left hroom.2]

/-- A row that goes nowhere claims nothing. -/
theorem nowhere {p : Place} (h : p.Claimed b) :
    b.entries=b.entries ∧ (b=b ↔ p.Claimed b) :=
  ⟨rfl,fun _ => h,fun _ => rfl⟩

/-- A row that is refused is not bound, and the table is as it was if and only if the row goes
nowhere or asks for nothing. -/
theorem add_refused {p : Place} {child : Option ℕ} {elemLo elemHi : Option Given} {into : Bool}
    {default : Option Default} {why : Exn}
    (h : add narrow p.kind p.fieldId p.slot p.cap p.countAt child elemLo elemHi into default b=
      .error why b') :
    b'.entries=b.entries ∧ (b'=b ↔ p.Claimed b) := by
  rw [add,run_get_bind] at h
  rcases check_error h with ⟨hno,rfl⟩ | ⟨fid,hfid,h⟩
  · exact nowhere fun _ _ _ _ hfid => by cases hno.symm.trans hfid
  rcases check_error h with ⟨hno,rfl⟩ | ⟨slot,hslot,h⟩
  · exact nowhere fun _ _ _ _ _ hslot => by cases hno.symm.trans hslot
  rcases check_error h with ⟨hno,rfl⟩ | ⟨n,hn,h⟩
  · exact nowhere fun _ _ _ _ _ _ hn => by cases hno.symm.trans hn
  rcases check_error h with ⟨hno,rfl⟩ | ⟨cnt,hcnt,h⟩
  · exact nowhere fun _ _ _ _ _ _ _ hcnt => by cases hno.symm.trans hcnt
  rw [run_modify_bind,run_modify_bind] at h
  rcases check_error h with ⟨_,hleft⟩ | ⟨declared,_,h⟩
  · exact require_same hfid hslot hn hcnt hleft
  rw [run_get_bind] at h
  rcases check_error h with ⟨_,hleft⟩ | ⟨start,_,h⟩
  · exact require_same hfid hslot hn hcnt hleft
  · cases h

/-- A binder method that is refused binds nothing, and the table is as it was if and only if the row
claims no storage that the table does not ask for yet. -/
theorem run_refused {m : Method} {why : Exn} (h : m.run narrow b=.error why b') :
    b'.entries=b.entries ∧ (b'=b ↔ m.place.Claimed b) := by
  cases m <;> exact add_refused h

end Add

section Heap

variable {narrow : BitVec 64 → Option (BitVec 32)} {heap heap' : List Cell}

/-- The table a method refers to is in use, and the one it is called on is not. -/
theorem taken_iff (heap : List Cell) (self : Cell) (m : Method) :
    (m.child.any fun g => match heap[g]? with
      | some child => child.frozen && !self.frozen
      | none => false)=true ↔
      self.frozen=false ∧ ∃ g child, m.child=some g ∧ heap[g]?=some child ∧ child.frozen=true := by
  cases hm : m.child with
  | none => simp
  | some g =>
    cases hg : heap[g]? with
    | none => simp [hg]
    | some child => simp [hg,and_comm]

/-- A binder call that is refused binds no row to any table. It leaves the tables as they were
if and only if its child is no table, or a table it is about is in use, or it is refused for
where its row goes, or the table asks for the storage of that row already. -/
theorem bind_refused {r : ℕ} {self : Cell} (hself : heap[r]?=some self) {m : Method} {why : Exn}
    (h : bind narrow heap r m=(.error why,heap')) :
    (∀ i, (tableAt heap' i).entries=(tableAt heap i).entries) ∧
      (heap'=heap ↔ m.stray=true ∨ InUse heap self m ∨ m.place.Claimed self.table) := by
  have hlt := (List.getElem?_eq_some_iff.mp hself).1
  rw [bind,hself] at h
  dsimp only at h
  by_cases hstray : m.stray=true
  · rw [if_pos hstray] at h
    cases h
    exact ⟨fun _ => rfl,fun _ => .inl hstray,fun _ => rfl⟩
  rw [if_neg hstray] at h
  split at h
  · next htaken =>
    cases h
    refine ⟨fun _ => rfl,fun _ => .inr (.inl (.inr ?_)),fun _ => rfl⟩
    exact ((taken_iff heap self m).mp htaken).2
  · next htaken =>
    split at h
    · next hfrozen =>
      cases h
      exact ⟨fun _ => rfl,fun _ => .inr (.inl (.inl hfrozen)),fun _ => rfl⟩
    · next hfrozen =>
      cases hr : m.run narrow self.table with
      | ok a b =>
        rw [hr] at h
        cases h
      | error w b =>
        rw [hr] at h
        cases h
        obtain ⟨hentries,hiff⟩ := run_refused hr
        refine ⟨fun i => ?_,fun hsame => ?_,fun hcond => ?_⟩
        · unfold tableAt
          by_cases hi : r=i
          · subst hi
            rw [List.getElem?_set_self hlt,hself]
            exact hentries
          · rw [List.getElem?_set_ne hi]
        · have hat := congrArg (·[r]?) hsame
          rw [List.getElem?_set_self hlt,hself] at hat
          injection hat with hcell
          exact .inr (.inr (hiff.mp (congrArg Cell.table hcell)))
        · have hb : b=self.table := by
            rcases hcond with hs | (hf | hchild) | hclaimed
            · exact absurd hs hstray
            · exact absurd hf hfrozen
            · exact absurd ((taken_iff heap self m).mpr ⟨by simpa using hfrozen,hchild⟩) htaken
            · exact hiff.mpr hclaimed
          have hget : heap[r]=self := (List.getElem?_eq_some_iff.mp hself).2
          rw [hb,←hget]
          exact List.set_getElem_self hlt

/-- A default outside the width is refused, and the table asks for the storage of a row that it
does not have. -/
theorem bind_refused_claiming :
    let heap : List Cell := [{table := {}}]
    let wide : Method := .unsigned (.int 1) (.int 7) (some (.int 9)) (some (.int 10))
      (some {typeName := "int", index := some 99})
    let long : Method := .bytes (.int 1) (.int 3) (.int 2) none
      (some {typeName := "bytes", bytes := some [1,2,3]})
    (∃ msg heap', bind (fun _ => none) heap 0 wide=(.error (.argument msg),heap') ∧
      (tableAt heap' 0).entries=[] ∧ (tableAt heap' 0).wordsRequired=10) ∧
    ∃ msg heap', bind (fun _ => none) heap 0 long=(.error (.argument msg),heap') ∧
      (tableAt heap' 0).entries=[] ∧ (tableAt heap' 0).objectsRequired=4 :=
  ⟨⟨_,_,rfl,rfl,rfl⟩,_,_,rfl,rfl,rfl⟩

/-- A default outside the width is refused, and the table is as it was where it asks for that much
storage already. -/
theorem bind_refused_room :
    let heap : List Cell := [{table := {wordsRequired := 10}}]
    let wide : Method := .unsigned (.int 1) (.int 7) (some (.int 9)) (some (.int 10))
      (some {typeName := "int", index := some 99})
    (bind (fun _ => none) heap 0 wide).2=heap := by
  intro heap wide
  have hrefused : ∃ why, bind (fun _ => none) heap 0 wide=
      (.error why,(bind (fun _ => none) heap 0 wide).2) := ⟨_,rfl⟩
  obtain ⟨why,hwhy⟩ := hrefused
  refine (bind_refused rfl hwhy).2.mpr (.inr (.inr ?_))
  intro fid slot n cnt hfid hslot hn hcnt
  cases hfid
  cases hslot
  cases hn
  cases hcnt
  exact ⟨by decide,by decide⟩

end Heap

end Binder

end SofaBuffers
