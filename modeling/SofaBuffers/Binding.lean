import SofaBuffers.Visitor

/-!
# Field-id to destination tables

A table says where each field id's value belongs: a slot of the `words` buffer
or of the `objects` list. Tables refer to each other through their sequence
rows, possibly in a cycle, so a row names its child by position in the forest
of all tables reachable from the root.
-/

set_option autoImplicit false

namespace SofaBuffers

/-- The thirteen kinds of row. -/
inductive Kind
  | unsigned | signed | boolean | float32 | float64 | string | bytes
  | arrayUnsigned | arraySigned | arrayBoolean | arrayFloat32 | arrayFloat64
  | sequence
  deriving DecidableEq, Repr

/-- The wire tag a kind accepts (`KIND_TAG`). -/
def Kind.tag : Kind → WireType × Option FixlenSubtype
  | .unsigned => (.unsigned,none)
  | .signed => (.signed,none)
  | .boolean => (.unsigned,none)
  | .float32 => (.fixlen,some .fp32)
  | .float64 => (.fixlen,some .fp64)
  | .string => (.fixlen,some .string)
  | .bytes => (.fixlen,some .blob)
  | .arrayUnsigned => (.arrayUnsigned,none)
  | .arraySigned => (.arraySigned,none)
  | .arrayBoolean => (.arrayUnsigned,none)
  | .arrayFloat32 => (.arrayFixlen,some .fp32)
  | .arrayFloat64 => (.arrayFixlen,some .fp64)
  | .sequence => (.sequenceStart,none)

/-- The kinds that are one `words` slot holding one value. -/
def Kind.isScalar : Kind → Bool
  | .unsigned | .signed | .boolean | .float32 | .float64 => true
  | _ => false

/-- The kinds whose slot indexes `objects`. -/
def Kind.isObject : Kind → Bool
  | .string | .bytes => true
  | _ => false

/-- The kinds that take `cap` consecutive slots. -/
def Kind.isArray : Kind → Bool
  | .arrayUnsigned | .arraySigned | .arrayBoolean | .arrayFloat32 | .arrayFloat64 => true
  | _ => false

/-- What an entry of the `objects` list can hold. -/
inductive Obj
  /-- Nothing was put there. -/
  | empty
  /-- A `str`, by its code points. -/
  | text (v : List ℕ)
  /-- A `bytes`. -/
  | blob (v : List UInt8)
  /-- A buffer of the caller's. -/
  | buffer (d : Dst)
  deriving DecidableEq, Repr

/-- A declared default of a row, prepared for the reset. -/
inductive DefaultValue
  /-- A string row's. -/
  | text (v : List ℕ)
  /-- A blob row's, or that of any row filled into a buffer. -/
  | bytes (v : List UInt8)
  /-- An array row's, a word for each element. -/
  | words (v : List (BitVec 64))
  deriving DecidableEq, Repr

/-- Elements or bytes a default brings. -/
def DefaultValue.length : DefaultValue → ℕ
  | .text v => v.length
  | .bytes v => v.length
  | .words v => v.length

/-- The object a default is stored as. -/
def DefaultValue.toObj : DefaultValue → Obj
  | .text v => .text v
  | .bytes v => .blob v
  | .words _ => .empty

/-- One row of a table. -/
structure Entry where
  /-- What the row holds. -/
  kind : Kind
  /-- The id it takes. -/
  fieldId : ℕ
  /-- The slot of the value (`at`). -/
  slot : ℕ
  /-- Capacity of an array, declared length of a string or blob. -/
  cap : ℕ := 0
  /-- The slot its arrival is written to. -/
  countAt : Option ℕ := none
  /-- The table of a sequence row. -/
  child : Option ℕ := none
  /-- Lower end of the declared width. -/
  elemLo : ℤ := signedMin
  /-- Upper end of the declared width. -/
  elemHi : ℤ := unsignedMax
  /-- Whether a width was declared at all. -/
  elemBounded : Bool := false
  /-- Whether the slot holds the caller's buffer already. -/
  into : Bool := false
  /-- The slot this row's id is written to on arrival. -/
  whichAt : Option ℕ := none
  /-- Words the row itself starts from. -/
  ownWords : List (ℕ × BitVec 64) := []
  /-- Objects the row itself starts from. -/
  ownObjects : List (ℕ × Obj) := []
  /-- Buffer contents the row itself starts from. -/
  ownInto : List (ℕ × List UInt8) := []
  /-- Words the row's whole subtree starts from. -/
  resetWords : List (ℕ × BitVec 64) := []
  /-- Objects the row's whole subtree starts from. -/
  resetObjects : List (ℕ × Obj) := []
  /-- Buffer contents the row's whole subtree starts from. -/
  resetInto : List (ℕ × List UInt8) := []
  deriving DecidableEq, Repr

/-- The wire type of the row's tag. -/
def Entry.wt (e : Entry) : WireType := e.kind.tag.1

/-- The subtype of the row's tag. -/
def Entry.st (e : Entry) : Option FixlenSubtype := e.kind.tag.2

/-- The count or length the row declares, if it declares one. -/
def Entry.declared (e : Entry) : Option ℕ :=
  if e.kind.isArray then some e.cap
  else if e.kind.isObject && e.cap != 0 then some e.cap
  else none

/-- Fill in the slots a row owns and what they start from (`Entry.__init__`). -/
def Entry.init (e : Entry) (defaultBits : BitVec 64) (defaultValue : Option DefaultValue) :
    Entry :=
  let arrived : List (ℕ × BitVec 64) :=
    match e.countAt with
    | none => []
    | some c =>
      match defaultValue with
      | some v => [(c,if e.kind.isArray || (e.kind.isObject && e.into) then
          BitVec.ofNat 64 v.length else 0)]
      | none => [(c,0)]
  if e.kind.isScalar then
    {e with ownWords := (e.slot,defaultBits)::arrived}
  else if e.kind.isObject && !e.into then
    let start :=
      match defaultValue with
      | some v => v.toObj
      | none => if e.kind=.string then .text [] else .blob []
    {e with ownObjects := [(e.slot,start)], ownWords := arrived}
  else
    match defaultValue with
    | some (.bytes v) =>
      if e.kind.isObject then {e with ownInto := [(e.slot,v)], ownWords := arrived}
      else {e with ownWords := arrived}
    | some (.words v) =>
      if e.kind.isArray then
        {e with ownWords := (v.mapIdx fun i w => (e.slot+i,w))++arrived}
      else {e with ownWords := arrived}
    | _ => {e with ownWords := arrived}

/-- The `words` slots a row needs the buffer to have. -/
def Entry.wordsNeeded (e : Entry) : ℕ :=
  let count := match e.countAt with | none => 0 | some c => c+1
  if e.kind.isArray then max count (e.slot+e.cap)
  else if e.kind.isScalar then max count (e.slot+1)
  else count

/-- The `objects` entries a row needs the list to have. -/
def Entry.objectsNeeded (e : Entry) : ℕ :=
  if e.kind.isObject then e.slot+1 else 0

/-- A table of rows. -/
structure Binding where
  /-- Whether an id the table does not name is skipped. -/
  closed : Bool := false
  /-- The slot the arriving option's id is written to, in a one-of table. -/
  whichAt : Option ℕ := none
  /-- The option held when none has arrived. -/
  defaultId : ℕ := 0
  /-- The rows in the order they were bound. -/
  entries : List Entry := []
  /-- Slots the `words` buffer must hold. -/
  wordsRequired : ℕ := 0
  /-- Entries the `objects` list must hold. -/
  objectsRequired : ℕ := 0
  deriving Repr

/-- The row that takes an id (`_by_id`). -/
def Binding.find (b : Binding) (id : ℕ) : Option Entry :=
  b.entries.find? fun e => e.fieldId=id

/-- What the binder methods guarantee about the tables of a forest of `n`. -/
structure Binding.WellFormed (n : ℕ) (b : Binding) : Prop where
  /-- An id is bound once. -/
  ids : (b.entries.map Entry.fieldId).Nodup
  /-- Ids are in range. -/
  idMax : ∀ e ∈ b.entries, e.fieldId ≤ idMax
  /-- A row names a table exactly when it is a sequence row. -/
  child : ∀ e ∈ b.entries, e.kind=.sequence ↔ e.child.isSome
  /-- The table a row names is in the forest. -/
  childLt : ∀ e ∈ b.entries, ∀ r, e.child=some r → r < n
  /-- Capacities are in range. -/
  cap : ∀ e ∈ b.entries, e.cap ≤ arrayMax
  /-- The declared width is in range. -/
  width : ∀ e ∈ b.entries, signedMin ≤ e.elemLo ∧ 0 ≤ e.elemHi ∧ e.elemHi ≤ unsignedMax
  /-- The buffer requirement covers every row. -/
  words : ∀ e ∈ b.entries, e.wordsNeeded ≤ b.wordsRequired
  /-- The list requirement covers every row. -/
  objects : ∀ e ∈ b.entries, e.objectsNeeded ≤ b.objectsRequired
  /-- The buffer requirement covers the slot of the held option. -/
  which : ∀ w, b.whichAt=some w → w < b.wordsRequired
  /-- What a row gets from its table, it gets when the table is frozen. -/
  unfrozen : ∀ e ∈ b.entries, e.whichAt=none
  /-- An array option starts empty, its own count at most being reset. -/
  option : b.whichAt.isSome → ∀ e ∈ b.entries, e.kind.isArray →
    (∀ p ∈ e.ownWords, e.countAt=some p.1) ∧ e.ownObjects=[] ∧ e.ownInto=[]
  /-- No option of its own brings a default into a buffer. -/
  held : b.whichAt.isSome → ∀ e ∈ b.entries, e.ownInto=[]
  /-- The buffer requirement covers the words a row starts from. -/
  ownWords : ∀ e ∈ b.entries, ∀ p ∈ e.ownWords, p.1 < b.wordsRequired
  /-- The list requirement covers the objects a row starts from. -/
  ownObjects : ∀ e ∈ b.entries, ∀ p ∈ e.ownObjects, p.1 < b.objectsRequired
  /-- It covers the buffers a row starts from. -/
  ownInto : ∀ e ∈ b.entries, ∀ p ∈ e.ownInto, p.1 < b.objectsRequired

/-- A table without rows is well formed. -/
theorem Binding.wellFormed_empty {n : ℕ} {b : Binding} (he : b.entries=[])
    (hw : ∀ w, b.whichAt=some w → w < b.wordsRequired) : b.WellFormed n := by
  have hnone : ∀ {P : Entry → Prop}, ∀ e ∈ b.entries, P e := by
    intro P e hmem
    rw [he] at hmem
    cases hmem
  exact {
    ids := by rw [he]; exact List.nodup_nil
    idMax := hnone
    child := hnone
    childLt := hnone
    cap := hnone
    width := hnone
    words := hnone
    objects := hnone
    which := hw
    unfrozen := hnone
    option := fun _ => hnone
    held := fun _ => hnone
    ownWords := hnone
    ownObjects := hnone
    ownInto := hnone }

/-- All tables reachable from the first. -/
structure Forest where
  /-- The tables, the root first. -/
  tables : List Binding
  /-- There is a root. -/
  root : 0 < tables.length
  /-- Every table came out of the binder methods. -/
  wellFormed : ∀ b ∈ tables, b.WellFormed tables.length

namespace Forest

/-- The table at a position. -/
def table (f : Forest) (r : ℕ) : Binding := (f.tables[r]?).getD {}

/-- Slots the one `words` buffer has to have (`tree_words_required`). -/
def treeWordsRequired (f : Forest) : ℕ := (f.tables.map Binding.wordsRequired).foldl max 0

/-- Entries the one `objects` list has to have (`tree_objects_required`). -/
def treeObjectsRequired (f : Forest) : ℕ := (f.tables.map Binding.objectsRequired).foldl max 0

/-- Slots owned by the rows below the tables on the stack, each table once. -/
def resetBelow (f : Forest) : ℕ → List ℕ → List ℕ →
    List (ℕ × BitVec 64) × List (ℕ × Obj) × List (ℕ × List UInt8)
  | 0, _, _ => ([],[],[])
  | _+1, _, [] => ([],[],[])
  | turns+1, seen, r::stack =>
    let t := f.table r
    let which := match t.whichAt with
      | some w => [(w,BitVec.ofNat 64 t.defaultId)]
      | none => []
    -- a nested union contributes the one option it starts with
    let rows := match t.whichAt with
      | some _ => (t.find t.defaultId).toList
      | none => t.entries
    let children := (rows.filterMap Entry.child).foldl
      (fun acc g => if g ∈ acc.1 then acc else (g::acc.1,g::acc.2)) (seen,stack)
    let below := resetBelow f turns children.1 children.2
    (which++rows.flatMap Entry.ownWords++below.1,
      rows.flatMap Entry.ownObjects++below.2.1,
      rows.flatMap Entry.ownInto++below.2.2)

/-- Every slot an option owns, and what it starts from (`_option_reset`). -/
def optionReset (f : Forest) (e : Entry) :
    List (ℕ × BitVec 64) × List (ℕ × Obj) × List (ℕ × List UInt8) :=
  let below := match e.child with
    | some g => f.resetBelow (f.tables.length+1) [g] [g]
    | none => ([],[],[])
  (e.ownWords++below.1,e.ownObjects++below.2.1,e.ownInto++below.2.2)

/-- What `freeze` pushes onto the rows of a one-of table. -/
def freezeEntry (f : Forest) (b : Binding) (e : Entry) : Entry :=
  match b.whichAt with
  | none => e
  | some w =>
    let reset := f.optionReset e
    {e with whichAt := some w, resetWords := reset.1, resetObjects := reset.2.1,
            resetInto := reset.2.2}

/-- The row of a table that takes an id, as the decoder finds it. -/
def lookup (f : Forest) (r id : ℕ) : Option Entry :=
  ((f.table r).find id).map (f.freezeEntry (f.table r))

/-- Freezing keeps what a row is about. -/
theorem freezeEntry_eq (f : Forest) (b : Binding) (e : Entry) :
    f.freezeEntry b e={e with
      whichAt := (f.freezeEntry b e).whichAt
      resetWords := (f.freezeEntry b e).resetWords
      resetObjects := (f.freezeEntry b e).resetObjects
      resetInto := (f.freezeEntry b e).resetInto} := by
  rw [freezeEntry]
  cases b.whichAt <;> rfl

/-- A row that was found is a frozen row of the table. -/
theorem lookup_mem {f : Forest} {r id : ℕ} {e : Entry} (h : f.lookup r id=some e) :
    ∃ e₀ ∈ (f.table r).entries, e=f.freezeEntry (f.table r) e₀ := by
  obtain ⟨e₀,he,rfl⟩ := Option.map_eq_some_iff.mp h
  exact ⟨e₀,List.mem_of_find?_eq_some he,rfl⟩

/-- Every table that has rows is one of the forest. -/
theorem table_wellFormed (f : Forest) (r : ℕ) : (f.table r).WellFormed f.tables.length := by
  rw [table]
  cases h : f.tables[r]? with
  | some b => exact f.wellFormed b (List.mem_of_getElem? h)
  | none =>
    exact Binding.wellFormed_empty rfl (by simp)

/-- A sequence row that was found has a table. -/
theorem lookup_child {f : Forest} {r id : ℕ} {e : Entry} (h : f.lookup r id=some e) :
    e.kind=.sequence ↔ e.child.isSome := by
  obtain ⟨e₀,he,rfl⟩ := lookup_mem h
  have hc := (f.table_wellFormed r).child e₀ he
  rw [freezeEntry_eq]
  exact hc

/-- An array row that was found resets its own count at most. -/
theorem lookup_array {f : Forest} {r id : ℕ} {e : Entry} (h : f.lookup r id=some e)
    (hk : e.kind.isArray) (hw : e.whichAt.isSome) :
    (∀ p ∈ e.resetWords, e.countAt=some p.1) ∧ e.resetObjects=[] ∧ e.resetInto=[] := by
  obtain ⟨e₀,he,rfl⟩ := lookup_mem h
  have hb := f.table_wellFormed r
  have hkind : (f.freezeEntry (f.table r) e₀).kind=e₀.kind := by
    rw [freezeEntry]
    cases (f.table r).whichAt <;> rfl
  rw [hkind] at hk
  have hchild : e₀.child=none := by
    cases hc : e₀.child with
    | none => rfl
    | some g =>
      have := (hb.child e₀ he).mpr (by rw [hc]; rfl)
      rw [this] at hk
      cases hk
  rw [freezeEntry] at hw ⊢
  cases hwhich : (f.table r).whichAt with
  | none =>
    rw [hwhich] at hw
    rw [hb.unfrozen e₀ he] at hw
    cases hw
  | some w =>
    obtain ⟨h1,h2,h3⟩ := hb.option (by rw [hwhich]; rfl) e₀ he hk
    rw [optionReset,hchild]
    simp only [List.append_nil]
    exact ⟨h1,h2,h3⟩

/-- Freezing leaves what a row asks of the buffers. -/
theorem freezeEntry_wordsNeeded (f : Forest) (b : Binding) (e : Entry) :
    (f.freezeEntry b e).wordsNeeded=e.wordsNeeded := by
  rw [freezeEntry]
  cases b.whichAt <;> rfl

/-- A running maximum covers what it started from and what it met. -/
theorem le_foldl_max {a n : ℕ} {xs : List ℕ} (h : a ≤ n ∨ a ∈ xs) : a ≤ xs.foldl max n := by
  induction xs generalizing n with
  | nil =>
    rcases h with h | h
    · exact h
    · cases h
  | cons x xs ih =>
    refine ih ?_
    rcases h with h | h
    · exact Or.inl (h.trans (Nat.le_max_left n x))
    · rcases List.mem_cons.mp h with rfl | h
      · exact Or.inl (Nat.le_max_right n a)
      · exact Or.inr h

/-- The buffer a forest asks for is large enough for each of its tables. -/
theorem wordsRequired_le (f : Forest) (r : ℕ) :
    (f.table r).wordsRequired ≤ f.treeWordsRequired := by
  rw [table]
  cases h : f.tables[r]? with
  | none => exact Nat.zero_le _
  | some b => exact le_foldl_max (Or.inr (List.mem_map_of_mem (List.mem_of_getElem? h)))

/-- The buffer a forest asks for is large enough for each row that is found. -/
theorem lookup_wordsNeeded {f : Forest} {r id : ℕ} {e : Entry} (h : f.lookup r id=some e) :
    e.wordsNeeded ≤ f.treeWordsRequired := by
  obtain ⟨e₀,he,rfl⟩ := lookup_mem h
  rw [freezeEntry_wordsNeeded]
  exact ((f.table_wellFormed r).words e₀ he).trans (f.wordsRequired_le r)

/-- The list a forest asks for is large enough for each of its tables. -/
theorem objectsRequired_le (f : Forest) (r : ℕ) :
    (f.table r).objectsRequired ≤ f.treeObjectsRequired := by
  rw [table]
  cases h : f.tables[r]? with
  | none => exact Nat.zero_le _
  | some b => exact le_foldl_max (Or.inr (List.mem_map_of_mem (List.mem_of_getElem? h)))

/-- The list a forest asks for is large enough for each row that is found. -/
theorem lookup_objectsNeeded {f : Forest} {r id : ℕ} {e : Entry} (h : f.lookup r id=some e) :
    e.objectsNeeded ≤ f.treeObjectsRequired := by
  obtain ⟨e₀,he,rfl⟩ := lookup_mem h
  have hsame : (f.freezeEntry (f.table r) e₀).objectsNeeded=e₀.objectsNeeded := by
    rw [freezeEntry]
    cases (f.table r).whichAt <;> rfl
  rw [hsame]
  exact ((f.table_wellFormed r).objects e₀ he).trans (f.objectsRequired_le r)

/-- The storage a forest asks for covers what is to be reset. -/
structure Resets (f : Forest)
    (reset : List (ℕ × BitVec 64) × List (ℕ × Obj) × List (ℕ × List UInt8)) : Prop where
  /-- The words. -/
  words : ∀ p ∈ reset.1, p.1 < f.treeWordsRequired
  /-- The objects. -/
  objects : ∀ p ∈ reset.2.1, p.1 < f.treeObjectsRequired
  /-- The buffers. -/
  into : ∀ p ∈ reset.2.2, p.1 < f.treeObjectsRequired

/-- Nothing to reset is covered. -/
theorem Resets.nil (f : Forest) : f.Resets ([],[],[]) := by
  constructor <;> simp

/-- What two parts of a table start from together. -/
theorem Resets.append {f : Forest} {words words' : List (ℕ × BitVec 64)}
    {objects objects' : List (ℕ × Obj)} {into into' : List (ℕ × List UInt8)}
    (h : f.Resets (words,objects,into)) (h' : f.Resets (words',objects',into')) :
    f.Resets (words++words',objects++objects',into++into') where
  words p hp := (List.mem_append.mp hp).elim (h.words p) (h'.words p)
  objects p hp := (List.mem_append.mp hp).elim (h.objects p) (h'.objects p)
  into p hp := (List.mem_append.mp hp).elim (h.into p) (h'.into p)

/-- Some rows of a table start from storage the forest asks for. -/
theorem resets_rows (f : Forest) (r : ℕ) {rows : List Entry}
    (h : ∀ e ∈ rows, e ∈ (f.table r).entries) :
    f.Resets (rows.flatMap Entry.ownWords,rows.flatMap Entry.ownObjects,
      rows.flatMap Entry.ownInto) := by
  have hwf := f.table_wellFormed r
  constructor
  · intro p hp
    obtain ⟨e,he,hp⟩ := List.mem_flatMap.mp hp
    exact (hwf.ownWords e (h e he) p hp).trans_le (f.wordsRequired_le r)
  · intro p hp
    obtain ⟨e,he,hp⟩ := List.mem_flatMap.mp hp
    exact (hwf.ownObjects e (h e he) p hp).trans_le (f.objectsRequired_le r)
  · intro p hp
    obtain ⟨e,he,hp⟩ := List.mem_flatMap.mp hp
    exact (hwf.ownInto e (h e he) p hp).trans_le (f.objectsRequired_le r)

/-- All the tables below a row start from storage the forest asks for. -/
theorem resets_below (f : Forest) (turns : ℕ) (seen stack : List ℕ) :
    f.Resets (f.resetBelow turns seen stack) := by
  induction turns generalizing seen stack with
  | zero => exact .nil f
  | succ turns ih =>
    cases stack with
    | nil => exact .nil f
    | cons r stack =>
      rw [resetBelow]
      cases hw : (f.table r).whichAt with
      | none => exact (f.resets_rows r fun e he => he).append (ih _ _)
      | some w =>
        have hwhich : w < f.treeWordsRequired :=
          ((f.table_wellFormed r).which w hw).trans_le (f.wordsRequired_le r)
        have hheld : ∀ e ∈ ((f.table r).find (f.table r).defaultId).toList,
            e ∈ (f.table r).entries := by
          intro e he
          exact List.mem_of_find?_eq_some (Option.mem_toList.mp he)
        have hfirst : f.Resets ([(w,BitVec.ofNat 64 (f.table r).defaultId)],[],[]) :=
          ⟨fun p hp => List.mem_singleton.mp hp ▸ hwhich,by simp,by simp⟩
        exact (hfirst.append (f.resets_rows r hheld)).append (ih _ _)

/-- A row that was found is reset within the storage the forest asks for. -/
theorem lookup_resets {f : Forest} {r id : ℕ} {e : Entry} (h : f.lookup r id=some e)
    (hw : e.whichAt.isSome) : f.Resets (e.resetWords,e.resetObjects,e.resetInto) := by
  obtain ⟨e₀,he,rfl⟩ := lookup_mem h
  have hwf := f.table_wellFormed r
  rw [freezeEntry] at hw ⊢
  cases hwhich : (f.table r).whichAt with
  | none =>
    rw [hwhich,hwf.unfrozen e₀ he] at hw
    cases hw
  | some w =>
    have hown := @resets_rows f r [e₀] fun e hmem => List.mem_singleton.mp hmem ▸ he
    simp only [List.flatMap_cons,List.flatMap_nil,List.append_nil] at hown
    refine hown.append ?_
    cases e₀.child with
    | none => exact .nil f
    | some g => exact f.resets_below _ _ _

/-- No buffer is reset for a value row. -/
theorem lookup_held {f : Forest} {r id : ℕ} {e : Entry} (h : f.lookup r id=some e)
    (hk : e.kind≠.sequence) (hw : e.whichAt.isSome) : e.resetInto=[] := by
  obtain ⟨e₀,he,rfl⟩ := lookup_mem h
  have hwf := f.table_wellFormed r
  have hkind : (f.freezeEntry (f.table r) e₀).kind=e₀.kind := by
    rw [freezeEntry]
    cases (f.table r).whichAt <;> rfl
  rw [hkind] at hk
  have hchild : e₀.child=none := by
    cases hc : e₀.child with
    | none => rfl
    | some g => exact absurd ((hwf.child e₀ he).mpr (by rw [hc]; rfl)) hk
  rw [freezeEntry] at hw ⊢
  cases hwhich : (f.table r).whichAt with
  | none =>
    rw [hwhich,hwf.unfrozen e₀ he] at hw
    cases hw
  | some w =>
    show e₀.ownInto++_=[]
    rw [hwf.held (by rw [hwhich]; rfl) e₀ he,hchild]
    rfl

/-- The slot of the held option is one the forest asks for. -/
theorem lookup_which {f : Forest} {r id w : ℕ} {e : Entry} (h : f.lookup r id=some e)
    (hw : e.whichAt=some w) : w < f.treeWordsRequired := by
  obtain ⟨e₀,he,rfl⟩ := lookup_mem h
  have hwf := f.table_wellFormed r
  rw [freezeEntry] at hw
  cases hwhich : (f.table r).whichAt with
  | none =>
    rw [hwhich,hwf.unfrozen e₀ he] at hw
    cases hw
  | some w' =>
    rw [hwhich] at hw
    cases hw
    exact (hwf.which _ hwhich).trans_le (f.wordsRequired_le r)

end Forest

/-- A row needs no more slots than its value and its arrival take. -/
theorem Entry.wordsNeeded_le {e : Entry} {words : ℕ} (hc : ∀ c, e.countAt=some c → c < words)
    (ha : e.kind.isArray=true → e.slot+e.cap ≤ words) (hs : e.kind.isScalar=true → e.slot < words) :
    e.wordsNeeded ≤ words := by
  have hcount : (match e.countAt with | none => 0 | some c => c+1) ≤ words := by
    cases h : e.countAt with
    | none => exact Nat.zero_le _
    | some c => exact hc c h
  rw [wordsNeeded]
  split
  · next h => exact Nat.max_le.mpr ⟨hcount,ha h⟩
  · split
    · next h => exact Nat.max_le.mpr ⟨hcount,hs h⟩
    · exact hcount

/-- The arrival slot of a row is among the slots it needs. -/
theorem Entry.countAt_lt {e : Entry} {i : ℕ} (h : e.countAt=some i) : i < e.wordsNeeded := by
  rw [wordsNeeded,h]
  dsimp only
  split
  · omega
  · split <;> omega

end SofaBuffers
