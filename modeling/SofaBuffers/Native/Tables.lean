import SofaBuffers.Built
import SofaBuffers.Native.Arrays
import SofaBuffers.Walk.Tables
import Mathlib.Data.List.Forall2

/-!
# The destination tables as they are compiled

The compiled engine lays the tables out once: the rows of all of them in one array, what the
options start from in flat arrays the rows have slices of, and for each table an index from ids
to rows where the ids are small. A row that is looked up there stands for the row the
interpreted engine finds.
-/

set_option autoImplicit false

namespace SofaBuffers

namespace Native

/-- Casts of Python integers to `Py_ssize_t`, which raise on one past it. -/
def asSsizes (ns : List ℕ) : Except Exn Unit :=
  if ns.all (· < 2^63) then .ok () else .error .overflow

/-- Highest field id still worth an index (`_IDX_MAX_ID`). -/
def idxMaxId : ℕ := 4096

/-- A row as it is laid out (`_BEntry`). -/
structure BEntry where
  /-- The id it takes. -/
  fieldId : ℕ
  /-- What it holds. -/
  kind : Kind
  /-- The wire type it accepts. -/
  wt : WireType
  /-- The subtype it accepts, if it has one. -/
  st : Option FixlenSubtype
  /-- The slot of the value (`at`). -/
  slot : ℕ
  /-- Capacity of an array, declared length of a string or blob. -/
  cap : ℕ
  /-- The slot its arrival is written to. -/
  countAt : Option ℕ
  /-- The slot the arriving option's id is written to. -/
  whichAt : Option ℕ
  /-- The table of a sequence row. -/
  child : Option ℕ
  /-- Whether the slot holds the caller's buffer already. -/
  into : Bool
  /-- Whether a width was declared. -/
  elemBounded : Bool
  /-- Lower end of the declared width, a signed word. -/
  elemLo : BitVec 64
  /-- Upper end of the declared width, an unsigned word. -/
  elemHi : BitVec 64
  /-- Where the words it starts from begin. -/
  resetWAt : ℕ
  /-- How many there are. -/
  resetWN : ℕ
  /-- Where the objects it starts from begin. -/
  resetOAt : ℕ
  /-- How many there are. -/
  resetON : ℕ
  /-- Where the buffer contents it starts from begin. -/
  resetIAt : ℕ
  /-- How many there are. -/
  resetIN : ℕ
  deriving DecidableEq, Repr

/-- A table as it is laid out (`_BTable`). -/
structure BTable where
  /-- Position of its first row. -/
  first : ℕ := 0
  /-- How many rows it has. -/
  n : ℕ := 0
  /-- From ids to rows of the table, where there is an index. -/
  idx : Option (List (Option ℕ)) := none
  /-- The highest id it names. -/
  idxMax : ℕ := 0
  /-- Whether an id it does not name is skipped. -/
  closed : Bool := false
  deriving DecidableEq, Repr

/-- The compiled form of a tree of tables (`_Compiled`); the slots and the values of a flat
array are kept side by side. -/
structure Compiled where
  /-- The rows of all tables. -/
  bent : List BEntry := []
  /-- The tables. -/
  btab : List BTable := []
  /-- Words options start from. -/
  rwPairs : List (ℕ × BitVec 64) := []
  /-- Objects options start from. -/
  roPairs : List (ℕ × Obj) := []
  /-- Buffer contents options start from. -/
  riPairs : List (ℕ × List UInt8) := []
  deriving DecidableEq, Repr

namespace Compiled

/-- What an option starts from: for any other row nothing is laid out. -/
def payload {α : Type} (e : Entry) (reset : List α) : List α :=
  if e.whichAt.isSome then reset else []

/-- The row, its slices behind what the flat arrays hold already. -/
def entry (k : Compiled) (e : Entry) (lo hi : BitVec 64) : BEntry :=
  { fieldId := e.fieldId, kind := e.kind, wt := e.wt, st := e.st, slot := e.slot, cap := e.cap
    countAt := e.countAt, whichAt := e.whichAt, child := e.child, into := e.into
    elemBounded := e.elemBounded, elemLo := lo, elemHi := hi
    resetWAt := k.rwPairs.length, resetWN := (payload e e.resetWords).length
    resetOAt := k.roPairs.length, resetON := (payload e e.resetObjects).length
    resetIAt := k.riPairs.length, resetIN := (payload e e.resetInto).length }

/-- What of a row is cast to `Py_ssize_t`: its slots, its capacity and the slots it starts
from. -/
def sizes (e : Entry) : List ℕ :=
  e.slot::e.cap::e.countAt.toList++e.whichAt.toList++
    (payload e e.resetWords).map Prod.fst++(payload e e.resetObjects).map Prod.fst++
    (payload e e.resetInto).map Prod.fst

/-- Lay out one row. -/
def addEntry (k : Compiled) (e : Entry) : Except Exn Compiled := do
  asSsizes (sizes e)
  let lo ← asInt64 e.elemLo
  let hi ← asUInt64 e.elemHi
  pure {k with
    bent := k.bent++[k.entry e lo hi]
    rwPairs := k.rwPairs++payload e e.resetWords
    roPairs := k.roPairs++payload e e.resetObjects
    riPairs := k.riPairs++payload e e.resetInto}

/-- Lay out rows in order. -/
def addEntries : List Entry → Compiled → Except Exn Compiled
  | [], k => .ok k
  | e::es, k => do
    let k ← k.addEntry e
    addEntries es k

/-- Enter rows into an index, the first of them being row `i` of its table. -/
def fillIdx : List BEntry → ℕ → List (Option ℕ) → List (Option ℕ)
  | [], _, idx => idx
  | b::bs, i, idx => fillIdx bs (i+1) (idx.set b.fieldId (some i))

/-- The highest id of some rows. -/
def maxId (rows : List BEntry) : ℕ := rows.foldl (fun most b => max most b.fieldId) 0

/-- A table of these rows, which begin at `first`. -/
def tableOf (rows : List BEntry) (first : ℕ) (closed : Bool) : BTable :=
  let most := maxId rows
  { first := first, n := rows.length, idxMax := most, closed := closed
    idx := if 0 < rows.length ∧ most ≤ idxMaxId then
      some (fillIdx rows 0 (List.replicate (most+1) none)) else none }

/-- Lay out a table. -/
def addTable (f : Forest) (k : Compiled) (b : Binding) : Except Exn Compiled := do
  let k' ← addEntries (b.entries.map (f.freezeEntry b)) k
  pure {k' with
    btab := k'.btab++[tableOf (k'.bent.drop k.bent.length) k.bent.length b.closed]}

/-- Lay out tables in order. -/
def addTables (f : Forest) : List Binding → Compiled → Except Exn Compiled
  | [], k => .ok k
  | b::bs, k => do
    let k ← k.addTable f b
    addTables f bs k

/-- Compile the tables of a forest (`build`). -/
def build (f : Forest) : Except Exn Compiled := do
  asSsizes [f.treeWordsRequired,f.treeObjectsRequired]
  addTables f f.tables {}

/-- The table at a position. -/
def table (k : Compiled) (tab : ℕ) : BTable := (k.btab[tab]?).getD {}

/-- The position of the row a table has for an id (`_lookup`): by the index where there is one,
else row by row. -/
def lookup (k : Compiled) (tab fid : ℕ) : Option ℕ :=
  let t := k.table tab
  match t.idx with
  | some idx => if t.idxMax < fid then none else ((idx[fid]?).getD none).map (t.first+·)
  | none => (((k.bent.drop t.first).take t.n).findIdx? (·.fieldId=fid)).map (t.first+·)

/-- The words a row starts from. -/
def words (k : Compiled) (b : BEntry) : List (ℕ × BitVec 64) :=
  (k.rwPairs.drop b.resetWAt).take b.resetWN

/-- The objects a row starts from. -/
def objects (k : Compiled) (b : BEntry) : List (ℕ × Obj) :=
  (k.roPairs.drop b.resetOAt).take b.resetON

/-- The buffer contents a row starts from. -/
def buffers (k : Compiled) (b : BEntry) : List (ℕ × List UInt8) :=
  (k.riPairs.drop b.resetIAt).take b.resetIN

end Compiled

section Slices

variable {α : Type}

/-- So many elements of a flat array from a position on are these. -/
structure Slice (xs : List α) (start n : ℕ) (ys : List α) : Prop where
  /-- The flat array reaches the end of the slice. -/
  room : start+n ≤ xs.length
  /-- The elements from that position on are the slice's. -/
  eq : (xs.drop start).take n=ys

/-- What is put behind an array is a slice of it. -/
theorem Slice.behind (xs ys : List α) : Slice (xs++ys) xs.length ys.length ys where
  room := by rw [List.length_append]
  eq := by rw [List.drop_left,List.take_length]

/-- A slice stays where it is as the array grows. -/
theorem Slice.append {xs ys : List α} {start n : ℕ} (h : Slice xs start n ys) (zs : List α) :
    Slice (xs++zs) start n ys where
  room := by
    rw [List.length_append]
    exact h.room.trans (Nat.le_add_right _ _)
  eq := by
    have hroom := h.room
    rw [List.drop_append_of_le_length (by omega),
      List.take_append_of_le_length (by rw [List.length_drop]; omega)]
    exact h.eq

end Slices

/-- A row that is laid out stands for one of a table. -/
structure Stands (k : Compiled) (b : BEntry) (e : Entry) : Prop where
  /-- The row takes the same id. -/
  fieldId : b.fieldId=e.fieldId
  /-- The row is of the same kind. -/
  kind : b.kind=e.kind
  /-- The row has the wire type of the kind. -/
  wt : b.wt=e.wt
  /-- The row has the subtype of the kind. -/
  st : b.st=e.st
  /-- The value goes to the same slot. -/
  slot : b.slot=e.slot
  /-- The row declares the same capacity. -/
  cap : b.cap=e.cap
  /-- The arrival goes to the same slot. -/
  countAt : b.countAt=e.countAt
  /-- The id of an option goes to the same slot. -/
  whichAt : b.whichAt=e.whichAt
  /-- The row names the same table. -/
  child : b.child=e.child
  /-- The slot of the row holds a buffer as well. -/
  into : b.into=e.into
  /-- The row declares a width as well. -/
  elemBounded : b.elemBounded=e.elemBounded
  /-- The lower end of the width is the same integer. -/
  elemLo : b.elemLo.toInt=e.elemLo
  /-- The upper end of the width is the same integer. -/
  elemHi : (b.elemHi.toNat : ℤ)=e.elemHi
  /-- The row starts from the same words. -/
  words : Slice k.rwPairs b.resetWAt b.resetWN (Compiled.payload e e.resetWords)
  /-- The row starts from the same objects. -/
  objects : Slice k.roPairs b.resetOAt b.resetON (Compiled.payload e e.resetObjects)
  /-- The row starts from the same buffer contents. -/
  buffers : Slice k.riPairs b.resetIAt b.resetIN (Compiled.payload e e.resetInto)

/-- More has been laid out, behind everything else. -/
structure Grown (k k' : Compiled) : Prop where
  /-- The rows grew behind the old ones. -/
  bent : k.bent<+:k'.bent
  /-- The tables grew behind the old ones. -/
  btab : k.btab<+:k'.btab
  /-- The words grew behind the old ones. -/
  words : k.rwPairs<+:k'.rwPairs
  /-- The objects grew behind the old ones. -/
  objects : k.roPairs<+:k'.roPairs
  /-- The buffer contents grew behind the old ones. -/
  buffers : k.riPairs<+:k'.riPairs

/-- What is laid out has grown by nothing. -/
theorem Grown.refl (k : Compiled) : Grown k k :=
  ⟨List.prefix_rfl,List.prefix_rfl,List.prefix_rfl,List.prefix_rfl,List.prefix_rfl⟩

/-- More and still more. -/
theorem Grown.trans {k k' k'' : Compiled} (h : Grown k k') (h' : Grown k' k'') : Grown k k'' :=
  ⟨h.bent.trans h'.bent,h.btab.trans h'.btab,h.words.trans h'.words,h.objects.trans h'.objects,
    h.buffers.trans h'.buffers⟩

/-- A slice of an array is one of a longer array. -/
theorem Slice.grown {α : Type} {xs xs' ys : List α} {start n : ℕ} (h : Slice xs start n ys)
    (hx : xs<+:xs') : Slice xs' start n ys := by
  obtain ⟨zs,rfl⟩ := hx
  exact h.append zs

/-- A row stands for what it stood for as more is laid out. -/
theorem Stands.grown {k k' : Compiled} {b : BEntry} {e : Entry} (h : Stands k b e)
    (hk : Grown k k') : Stands k' b e :=
  {h with
    words := h.words.grown hk.words
    objects := h.objects.grown hk.objects
    buffers := h.buffers.grown hk.buffers}

section Build

variable {k k' : Compiled}

/-- What follows casts that went well. -/
theorem asSsizes_bind {α : Type} {ns : List ℕ} {f : Unit → Except Exn α} {a : α}
    (h : (asSsizes ns >>= f)=.ok a) : f ()=.ok a := by
  rw [asSsizes] at h
  split at h
  · exact h
  · cases h

/-- One row is laid out behind the others, and stands for itself. -/
theorem addEntry_ok {e : Entry} (h : k.addEntry e=.ok k') :
    ∃ b, k'.bent=k.bent++[b] ∧ k'.btab=k.btab ∧ Grown k k' ∧ Stands k' b e := by
  rw [Compiled.addEntry] at h
  replace h := asSsizes_bind h
  by_cases hlo : -2^63 ≤ e.elemLo ∧ e.elemLo < 2^63
  · by_cases hhi : 0 ≤ e.elemHi ∧ e.elemHi < 2^64
    · rw [asInt64_ok hlo,asUInt64_ok hhi] at h
      cases h
      refine ⟨_,rfl,rfl,?_,?_⟩
      · exact ⟨List.prefix_append _ _,List.prefix_rfl,List.prefix_append _ _,
          List.prefix_append _ _,List.prefix_append _ _⟩
      · constructor
        case elemLo => exact ofInt_toInt hlo
        case elemHi => exact ofInt_toNat hhi
        case words => exact Slice.behind _ _
        case objects => exact Slice.behind _ _
        case buffers => exact Slice.behind _ _
        all_goals rfl
    · rw [asInt64_ok hlo,asUInt64,if_neg hhi] at h
      cases h
  · rw [asInt64,if_neg hlo] at h
    cases h

/-- Rows are laid out behind the others, and stand for themselves. -/
theorem addEntries_ok {es : List Entry} (h : Compiled.addEntries es k=.ok k') :
    ∃ bs, k'.bent=k.bent++bs ∧ k'.btab=k.btab ∧ Grown k k' ∧ List.Forall₂ (Stands k') bs es := by
  induction es generalizing k with
  | nil =>
    cases h
    exact ⟨[],(List.append_nil _).symm,rfl,.refl _,.nil⟩
  | cons e es ih =>
    rw [Compiled.addEntries] at h
    cases hone : k.addEntry e with
    | error why =>
      rw [hone] at h
      cases h
    | ok k₁ =>
      rw [hone] at h
      obtain ⟨b,hbent,hbtab,hgrown,hstands⟩ := addEntry_ok hone
      obtain ⟨bs,hbent',hbtab',hgrown',hstands'⟩ := ih h
      refine ⟨b::bs,?_,hbtab'.trans hbtab,hgrown.trans hgrown',?_⟩
      · rw [hbent',hbent,List.append_assoc]
        rfl
      · exact .cons (hstands.grown hgrown') hstands'

/-- A table that is laid out holds these rows. -/
structure Holds (k : Compiled) (t : BTable) (es : List Entry) : Prop where
  /-- The rows of the table stand for the entries in order. -/
  rows : ∃ bs, Slice k.bent t.first t.n bs ∧ List.Forall₂ (Stands k) bs es ∧
    t=Compiled.tableOf bs t.first t.closed

/-- A table holds its rows still as more is laid out. -/
theorem Holds.grown {t : BTable} {es : List Entry} (h : Holds k t es) (hk : Grown k k') :
    Holds k' t es := by
  obtain ⟨bs,hslice,hall,ht⟩ := h.rows
  exact ⟨bs,hslice.grown hk.bent,hall.imp fun b e hb => hb.grown hk,ht⟩

/-- One table is laid out behind the others. -/
theorem addTable_ok {f : Forest} {b : Binding} (h : k.addTable f b=.ok k') :
    ∃ t, k'.btab=k.btab++[t] ∧ Grown k k' ∧ t.closed=b.closed ∧
      Holds k' t (b.entries.map (f.freezeEntry b)) := by
  rw [Compiled.addTable] at h
  cases hrows : Compiled.addEntries (b.entries.map (f.freezeEntry b)) k with
  | error why =>
    rw [hrows] at h
    cases h
  | ok k₁ =>
    rw [hrows] at h
    cases h
    obtain ⟨bs,hbent,hbtab,hgrown,hall⟩ := addEntries_ok hrows
    have hdrop : k₁.bent.drop k.bent.length=bs := by rw [hbent,List.drop_left]
    refine ⟨_,by dsimp only; rw [hbtab],?_,rfl,?_⟩
    · exact ⟨hgrown.bent,hgrown.btab.trans (List.prefix_append _ _),hgrown.words,
        hgrown.objects,hgrown.buffers⟩
    · refine ⟨bs,?_,?_,?_⟩
      · rw [hdrop]
        show Slice k₁.bent _ _ _
        rw [hbent]
        exact Slice.behind _ _
      · exact hall.imp fun b e hb => {hb with
          words := hb.words, objects := hb.objects, buffers := hb.buffers}
      · rw [hdrop]
        rfl

/-- Tables are laid out behind the others, each at its position. -/
theorem addTables_ok {f : Forest} {bs : List Binding} (h : Compiled.addTables f bs k=.ok k') :
    Grown k k' ∧ k'.btab.length=k.btab.length+bs.length ∧
      ∀ (i : ℕ) (b : Binding), bs[i]?=some b → ∃ t, k'.btab[k.btab.length+i]?=some t ∧
        t.closed=b.closed ∧ Holds k' t (b.entries.map (f.freezeEntry b)) := by
  induction bs generalizing k with
  | nil =>
    cases h
    exact ⟨.refl _,rfl,fun i b hb => by cases hb⟩
  | cons b bs ih =>
    rw [Compiled.addTables] at h
    cases hone : k.addTable f b with
    | error why =>
      rw [hone] at h
      cases h
    | ok k₁ =>
      rw [hone] at h
      obtain ⟨t,hbtab,hgrown,hclosed,hholds⟩ := addTable_ok hone
      obtain ⟨hgrown',hlen,hrest⟩ := ih h
      have hone' : k₁.btab.length=k.btab.length+1 := by rw [hbtab,List.length_append]; rfl
      refine ⟨hgrown.trans hgrown',by rw [hlen,hone',List.length_cons]; omega,?_⟩
      intro i b' hb'
      cases i with
      | zero =>
        cases hb'
        refine ⟨t,?_,hclosed,hholds.grown hgrown'⟩
        obtain ⟨more,hmore⟩ := hgrown'.btab
        rw [←hmore,hbtab,List.append_assoc,Nat.add_zero,
          List.getElem?_append_right (Nat.le_refl _),Nat.sub_self]
        rfl
      | succ i =>
        obtain ⟨t',ht',hc',hh'⟩ := hrest i b' hb'
        refine ⟨t',?_,hc',hh'⟩
        rw [←ht',hone']
        congr 1
        omega

/-- Every table of a forest is laid out at its position. -/
theorem build_ok {f : Forest} (h : Compiled.build f=.ok k) (r : ℕ) :
    (k.table r).closed=(f.table r).closed ∧
      ((f.table r).entries=[] ∧ (k.table r).idx=none ∧ (k.table r).n=0 ∨
        Holds k (k.table r) ((f.table r).entries.map (f.freezeEntry (f.table r)))) := by
  rw [Compiled.build] at h
  obtain ⟨-,hlen,hall⟩ := addTables_ok (asSsizes_bind h)
  rw [Compiled.table,Forest.table]
  cases hr : f.tables[r]? with
  | some b =>
    obtain ⟨t,ht,hc,hh⟩ := hall r b hr
    have hzero : (({} : Compiled).btab.length)+r=r := Nat.zero_add r
    rw [hzero] at ht
    rw [ht]
    exact ⟨hc,Or.inr hh⟩
  | none =>
    have hout : k.btab[r]?=none := by
      rw [List.getElem?_eq_none_iff] at hr ⊢
      have hzero : ({} : Compiled).btab.length=0 := rfl
      omega
    rw [hout]
    exact ⟨rfl,Or.inl ⟨rfl,rfl,rfl⟩⟩

end Build

section Lookup

variable {k : Compiled}

/-- Where ids are entered once, an index has each at its row, and what it had elsewhere. -/
theorem fillIdx_get {bs : List BEntry} (hn : (bs.map BEntry.fieldId).Nodup) (i : ℕ)
    {idx : List (Option ℕ)} (hlt : ∀ b ∈ bs, b.fieldId < idx.length) (fid : ℕ) :
    ((Compiled.fillIdx bs i idx)[fid]?).getD none=
      match bs.findIdx? (·.fieldId=fid) with
      | some j => some (i+j)
      | none => (idx[fid]?).getD none := by
  induction bs generalizing i idx with
  | nil => rfl
  | cons b bs ih =>
    obtain ⟨hnew,hn⟩ := List.nodup_cons.mp hn
    rw [Compiled.fillIdx,ih hn (i+1) (by
      intro b' hb'
      rw [List.length_set]
      exact hlt b' (List.mem_cons_of_mem b hb')),List.findIdx?_cons]
    by_cases hid : b.fieldId=fid
    · have hnone : bs.findIdx? (·.fieldId=fid)=none := by
        rw [List.findIdx?_eq_none_iff]
        intro b' hb'
        have hmem : b'.fieldId ∈ bs.map BEntry.fieldId := List.mem_map_of_mem hb'
        have hne : b'.fieldId≠fid := fun h => hnew (by rw [hid,←h]; exact hmem)
        simp [hne]
      have hin : fid < idx.length := hid ▸ hlt b List.mem_cons_self
      rw [hnone]
      simp [hid,hin]
    · simp only [hid,decide_false,Bool.false_eq_true,if_false]
      cases bs.findIdx? (·.fieldId=fid) with
      | none =>
        rw [List.getElem?_set_ne hid]
        rfl
      | some j =>
        simp only [Option.map_some]
        congr 1
        omega

/-- The highest id is none lower than any. -/
theorem le_maxId {bs : List BEntry} {b : BEntry} (h : b ∈ bs) : b.fieldId ≤ Compiled.maxId bs := by
  have hmono : ∀ (most : ℕ) (bs : List BEntry),
      most ≤ bs.foldl (fun most b => max most b.fieldId) most := by
    intro most bs
    induction bs generalizing most with
    | nil => exact Nat.le_refl _
    | cons b bs ih => exact (Nat.le_max_left _ _).trans (ih _)
  have hall : ∀ (most : ℕ) (bs : List BEntry), b ∈ bs →
      b.fieldId ≤ bs.foldl (fun most b => max most b.fieldId) most := by
    intro most bs hb
    induction bs generalizing most with
    | nil => cases hb
    | cons b' bs ih =>
      rcases List.mem_cons.mp hb with rfl | hb
      · exact (Nat.le_max_right _ _).trans (hmono _ _)
      · exact ih _ hb
  exact hall 0 bs h

/-- The row of a table is found where it lies, by the index or without it. -/
theorem lookup_rows {tab : ℕ} {bs : List BEntry} {first : ℕ} {closed : Bool}
    (ht : k.table tab=Compiled.tableOf bs first closed) (hs : Slice k.bent first bs.length bs)
    (hn : (bs.map BEntry.fieldId).Nodup) (fid : ℕ) :
    k.lookup tab fid=(bs.findIdx? (·.fieldId=fid)).map (first+·) := by
  rw [Compiled.lookup,ht,Compiled.tableOf]
  by_cases hidx : 0 < bs.length ∧ Compiled.maxId bs ≤ idxMaxId
  · simp only [hidx,and_self,if_true]
    by_cases hmost : Compiled.maxId bs < fid
    · rw [if_pos hmost]
      have hnone : bs.findIdx? (·.fieldId=fid)=none := by
        rw [List.findIdx?_eq_none_iff]
        intro b hb
        have hle := le_maxId hb
        have hne : b.fieldId≠fid := by omega
        simp [hne]
      rw [hnone]
      rfl
    · have hlt : ∀ b ∈ bs, b.fieldId <
          (List.replicate (Compiled.maxId bs+1) (none : Option ℕ)).length := by
        intro b hb
        rw [List.length_replicate]
        exact Nat.lt_succ_of_le (le_maxId hb)
      rw [if_neg hmost,fillIdx_get hn 0 hlt]
      cases bs.findIdx? (·.fieldId=fid) with
      | some j =>
        dsimp only
        rw [Nat.zero_add]
      | none =>
        have hblank : ((List.replicate (Compiled.maxId bs+1) (none : Option ℕ))[fid]?).getD none=
            none := by
          rw [List.getElem?_replicate]
          split <;> rfl
        dsimp only
        rw [hblank]
  · simp only [hidx,if_false]
    rw [hs.eq]

/-- Rows that stand for others are at the same place. -/
theorem findIdx_stands {bs : List BEntry} {es : List Entry} (h : List.Forall₂ (Stands k) bs es)
    (fid : ℕ) :
    match es.find? (·.fieldId=fid) with
    | none => bs.findIdx? (·.fieldId=fid)=none
    | some e => ∃ i b, bs.findIdx? (·.fieldId=fid)=some i ∧ bs[i]?=some b ∧ Stands k b e := by
  induction h with
  | nil => rfl
  | @cons b e bs es hb hrest ih =>
    rw [List.find?_cons,List.findIdx?_cons,hb.fieldId]
    by_cases hid : e.fieldId=fid
    · simp only [hid,decide_true,if_true]
      exact ⟨0,b,rfl,rfl,hb⟩
    · simp only [hid,decide_false,Bool.false_eq_true,if_false]
      cases hf : es.find? (·.fieldId=fid) with
      | none =>
        rw [hf] at ih
        rw [ih]
        rfl
      | some e' =>
        rw [hf] at ih
        obtain ⟨i,b',hi,hget,hstands⟩ := ih
        rw [hi]
        exact ⟨i+1,b',rfl,hget,hstands⟩

/-- The ids of rows that stand for others are the same. -/
theorem ids_stand {bs : List BEntry} {es : List Entry} (h : List.Forall₂ (Stands k) bs es) :
    bs.map BEntry.fieldId=es.map Entry.fieldId := by
  induction h with
  | nil => rfl
  | cons hb _ ih => rw [List.map_cons,List.map_cons,hb.fieldId,ih]

/-- Freezing keeps the id of a row. -/
theorem freezeEntry_fieldId (f : Forest) (b : Binding) (e : Entry) :
    (f.freezeEntry b e).fieldId=e.fieldId := by
  rw [Forest.freezeEntry]
  cases b.whichAt <;> rfl

/-- A frozen row is found by its id. -/
theorem find_frozen (f : Forest) (r id : ℕ) :
    ((f.table r).entries.map (f.freezeEntry (f.table r))).find? (·.fieldId=id)=f.lookup r id := by
  have hsame : (fun e : Entry => decide (e.fieldId=id)) ∘ f.freezeEntry (f.table r)=
      fun e => decide (e.fieldId=id) := by
    funext e
    rw [Function.comp,freezeEntry_fieldId]
  rw [Forest.lookup,Binding.find,List.find?_map,hsame]

/-- What is compiled and what is found in it: the position of a row, which stands for the one the
interpreted engine finds. -/
inductive Found (k : Compiled) (tab fid : ℕ) : Option Entry → Prop
  /-- No row takes the id. -/
  | none (h : k.lookup tab fid=none) : Found k tab fid none
  /-- One row takes the id. -/
  | some {ei : ℕ} {b : BEntry} {e : Entry} (h : k.lookup tab fid=some ei) (hb : k.bent[ei]?=some b)
      (hs : Stands k b e) : Found k tab fid (some e)

/-- The compiled tables have the rows of the tables they were compiled from, and are closed where
those are. -/
theorem build_found {f : Forest} (h : Compiled.build f=.ok k) (r id : ℕ) :
    Found k r id (f.lookup r id) ∧ (k.table r).closed=(f.table r).closed := by
  obtain ⟨hclosed,hrows⟩ := build_ok h r
  refine ⟨?_,hclosed⟩
  rcases hrows with ⟨hempty,hidx,hn⟩ | hholds
  · have hnone : f.lookup r id=none := by
      rw [Forest.lookup,Binding.find,hempty]
      rfl
    rw [hnone]
    refine .none ?_
    rw [Compiled.lookup]
    simp only [hidx,hn,List.take_zero]
    rfl
  · obtain ⟨bs,hslice,hall,ht⟩ := hholds.rows
    have hids : (bs.map BEntry.fieldId).Nodup := by
      rw [ids_stand hall,List.map_map]
      have hsame : Entry.fieldId ∘ f.freezeEntry (f.table r)=Entry.fieldId :=
        funext fun e => freezeEntry_fieldId f _ e
      rw [hsame]
      exact (f.table_wellFormed r).ids
    have hlen : (k.table r).n=bs.length := congrArg BTable.n ht
    rw [hlen] at hslice
    have hlook := lookup_rows ht hslice hids id
    have hfind := findIdx_stands hall id
    rw [find_frozen] at hfind
    cases hl : f.lookup r id with
    | none =>
      rw [hl] at hfind
      rw [hfind] at hlook
      exact .none hlook
    | some e =>
      rw [hl] at hfind
      obtain ⟨i,b,hi,hget,hstands⟩ := hfind
      rw [hi] at hlook
      refine .some hlook ?_ hstands
      have hin := (List.getElem?_eq_some_iff.mp hget).1
      have hat : ((k.bent.drop (k.table r).first).take bs.length)[i]?=some b := by
        rw [hslice.eq]
        exact hget
      rw [List.getElem?_take_of_lt hin,List.getElem?_drop] at hat
      exact hat

end Lookup

end Native

/-- The declared widths of a row are those of words: the lower end is a signed one, so is the
upper end of signed values, and booleans have none. A sequence row has no slot. -/
structure Entry.Worded (e : Entry) : Prop where
  /-- The lower end. -/
  lo : e.elemLo ≤ signedMax
  /-- The upper end of signed values. -/
  hi : e.kind=.signed ∨ e.kind=.arraySigned → e.elemHi ≤ signedMax
  /-- Booleans declare no width. -/
  boolean : e.kind=.boolean ∨ e.kind=.arrayBoolean → e.elemBounded=false
  /-- The slot of a sequence row stands for none. -/
  sequence : e.kind=.sequence → e.slot=0

/-- Every row of a table keeps to words. -/
def Binding.Worded (b : Binding) : Prop := ∀ e ∈ b.entries, e.Worded

/-- Every table of a forest keeps to words. -/
def Forest.Worded (f : Forest) : Prop := ∀ b ∈ f.tables, b.Worded

/-- A row that was found keeps to words. -/
theorem Forest.Worded.lookup {f : Forest} (h : f.Worded) {r id : ℕ} {e : Entry}
    (he : f.lookup r id=some e) : e.Worded := by
  obtain ⟨e₀,hmem,rfl⟩ := Forest.lookup_mem he
  have htable : (f.table r).Worded := by
    intro e hmem
    rw [Forest.table] at hmem
    cases hr : f.tables[r]? with
    | none =>
      rw [hr] at hmem
      cases hmem
    | some b =>
      rw [hr] at hmem
      exact h b (List.mem_of_getElem? hr) e hmem
  have hrow := htable e₀ hmem
  rw [Forest.freezeEntry_eq]
  exact ⟨hrow.lo,hrow.hi,hrow.boolean,hrow.sequence⟩

namespace Binder

variable {narrow : BitVec 64 → Option (BitVec 32)} {heap : List Cell}

/-- A declared width is one of words. -/
theorem width_worded {kind : Kind} {elemLo elemHi : Option Given} {lo hi : ℤ}
    (h : width kind elemLo elemHi=.ok (lo,hi)) : lo ≤ signedMax ∧ hi ≤ widest kind := by
  rw [width] at h
  split at h
  · cases h
  · split at h
    · cases h
    · split at h
      · cases h
      · next hrange =>
        cases h
        rw [not_or,not_not,not_not] at hrange
        exact ⟨hrange.1.2,hrange.2.2⟩

/-- Binding a row keeps a table to words, also when it raises. -/
theorem add_worded {b : Binding} (h : b.Worded) {kind : Kind} (fieldId slot cap : Given)
    (countAt elemLo elemHi : Option Given) (child : Option ℕ) (into : Bool)
    (default : Option Default)
    (hbool : kind=.boolean ∨ kind=.arrayBoolean → elemLo=none ∧ elemHi=none)
    (hseq : kind=.sequence → slot=.int 0) :
    Leaves Binding.Worded
      (add narrow kind fieldId slot cap countAt child elemLo elemHi into default b) := by
  rw [add,run_get_bind]
  refine leaves_check h fun fid _ => leaves_check h fun at' hat => leaves_check h fun k _ =>
    leaves_check h fun cnt _ => ?_
  rw [run_modify_bind,run_modify_bind]
  obtain ⟨words,objects,hb,-⟩ := require_grow kind at' k cnt b
  have hgrow : Binding.Worded {b with wordsRequired := words, objectsRequired := objects} := h
  rw [hb]
  refine leaves_check hgrow fun declared hdeclared => ?_
  rw [run_get_bind]
  refine leaves_check hgrow fun start _ => ?_
  rw [run_modify]
  obtain ⟨hlo,hhi⟩ := width_worded hdeclared
  intro e he
  rcases List.mem_append.mp he with he | he
  · exact h e he
  · rw [List.mem_singleton.mp he,(init_filled rfl rfl rfl start.1 start.2).same]
    refine ⟨hlo,fun hk => ?_,fun hk => ?_,fun hk => ?_⟩
    · have hwidest : widest kind=signedMax := if_pos hk
      rw [hwidest] at hhi
      exact hhi
    · obtain ⟨rfl,rfl⟩ := hbool hk
      rfl
    · rw [hseq hk] at hat
      cases hat
      rfl

/-- Every binder method keeps a table to words. -/
theorem run_worded {b : Binding} (h : b.Worded) (m : Method) :
    Leaves Binding.Worded (m.run narrow b) := by
  cases m <;> exact add_worded h _ _ _ _ _ _ _ _ _ (by simp) (by simp)

/-- All tables that can be built keep to words. -/
theorem built_worded (h : Built narrow heap) : ∀ cell ∈ heap, cell.table.Worded := by
  induction h with
  | empty => exact fun _ hc => absurd hc List.not_mem_nil
  | @create heap closed whichAt defaultId b hb _ ih =>
    intro cell hc
    rcases List.mem_append.mp hc with hc | hc
    · exact ih cell hc
    · have hempty : b.entries=[] := by
        rw [create] at hb
        split at hb
        · cases hb
        · split at hb
          · cases hb
          · split at hb <;> cases hb
            rfl
      rw [List.mem_singleton.mp hc]
      intro e he
      rw [hempty] at he
      cases he
  | @bind heap r m hm _ ih =>
    have hset : ∀ (self : Cell) (b : Binding), b.Worded →
        ∀ cell ∈ heap.set r {self with table := b}, cell.table.Worded := by
      intro self b hb cell hc
      rcases List.mem_or_eq_of_mem_set hc with hc | rfl
      · exact ih cell hc
      · exact hb
    rcases bind_cases narrow heap r m with hsame | ⟨self,b,hself,-,hleft,hruns⟩
    · rw [hsame]
      exact ih
    · rw [hleft]
      exact hset self b (hruns _ (run_worded (ih self (List.mem_of_getElem? hself)) m))
  | @freeze heap root _ ih =>
    intro cell hc
    rw [freeze] at hc
    obtain ⟨i,hi,rfl⟩ := List.mem_mapIdx.mp hc
    have hkept := ih _ (List.getElem_mem hi)
    split <;> exact hkept

/-- The forest a decoder is given keeps to words. -/
theorem forest_worded (h : Built narrow heap) {root : ℕ} (hr : root < heap.length) :
    (forest h hr).Worded := by
  intro b hb
  obtain ⟨r,-,rfl⟩ := List.mem_map.mp hb
  have htable : (tableAt heap r).Worded := by
    rw [tableAt]
    split
    · next cell hcell => exact built_worded h cell (List.mem_of_getElem? hcell)
    · intro e he
      cases he
  intro e he
  obtain ⟨e₀,he₀,rfl⟩ := List.mem_map.mp he
  have hrow := htable e₀ he₀
  exact ⟨hrow.lo,hrow.hi,hrow.boolean,hrow.sequence⟩

end Binder

namespace Native

section Worded

variable {k : Compiled}

/-- Casts of numbers that fit a `Py_ssize_t` go well. -/
theorem asSsizes_ok {ns : List ℕ} (h : ∀ n ∈ ns, n < 2^63) : asSsizes ns=.ok () := by
  rw [asSsizes,if_pos]
  rw [List.all_eq_true]
  exact fun n hn => decide_eq_true (h n hn)

/-- A row of the forest is found by its id. -/
theorem lookup_row {f : Forest} {r : ℕ} {e : Entry} (he : e ∈ (f.table r).entries) :
    f.lookup r e.fieldId=some (f.freezeEntry (f.table r) e) := by
  have hfind : (f.table r).find e.fieldId=some e := by
    have hids := (f.table_wellFormed r).ids
    rw [Binding.find]
    generalize (f.table r).entries=es at he hids
    induction es with
    | nil => cases he
    | cons e' es ih =>
      rw [List.map_cons,List.nodup_cons] at hids
      rw [List.find?_cons]
      rcases List.mem_cons.mp he with rfl | he
      · simp
      · have hne : e'.fieldId≠e.fieldId := fun h => hids.1 (h ▸ List.mem_map_of_mem he)
        simp only [hne,decide_false]
        exact ih he hids.2
  rw [Forest.lookup,hfind]
  rfl

/-- What of a row is cast fits if what the forest asks for does. -/
theorem sizes_lt {f : Forest} (h : f.Worded) (hwords : f.treeWordsRequired < 2^63)
    (hobjects : f.treeObjectsRequired < 2^63) {r id : ℕ} {e : Entry}
    (he : f.lookup r id=some e) : ∀ n ∈ Compiled.sizes e, n < 2^63 := by
  have hneed := Forest.lookup_wordsNeeded he
  have hasks := Forest.lookup_objectsNeeded he
  have hslot : e.slot < 2^63 := by
    obtain ⟨harray,hscalar,hobject⟩ := e.value_le
    cases hk : e.kind with
    | sequence =>
      rw [(h.lookup he).sequence hk]
      decide
    | unsigned | signed | boolean | float32 | float64 =>
      have hlt := hscalar (by rw [hk]; rfl)
      omega
    | string | bytes =>
      have hlt := hobject (by rw [hk]; rfl)
      omega
    | arrayUnsigned | arraySigned | arrayBoolean | arrayFloat32 | arrayFloat64 =>
      have hle := harray (by rw [hk]; rfl)
      omega
  have hcap : e.cap < 2^63 := by
    obtain ⟨e₀,hmem,rfl⟩ := Forest.lookup_mem he
    have hle := (f.table_wellFormed r).cap e₀ hmem
    rw [Forest.freezeEntry_eq]
    rw [arrayMax] at hle
    dsimp only
    omega
  have hreset : ∀ {α : Type} {reset : List (ℕ × α)} {most : ℕ}, most < 2^63 →
      (e.whichAt.isSome=true → ∀ p ∈ reset, p.1 < most) →
        ∀ n ∈ (Compiled.payload e reset).map Prod.fst, n < 2^63 := by
    intro α reset most hmost hall n hn
    obtain ⟨p,hp,rfl⟩ := List.mem_map.mp hn
    rw [Compiled.payload] at hp
    split at hp
    · next hw => exact (hall hw p hp).trans hmost
    · cases hp
  intro n hn
  simp only [Compiled.sizes,List.mem_append,List.mem_cons,Option.mem_toList] at hn
  rcases hn with ((((rfl | rfl | hn) | hn) | hn) | hn) | hn
  · exact hslot
  · exact hcap
  · have hlt := Entry.countAt_lt hn
    omega
  · have hlt := Forest.lookup_which he hn
    omega
  · exact hreset hwords (fun hw => (Forest.lookup_resets he hw).words) n hn
  · exact hreset hobjects (fun hw => (Forest.lookup_resets he hw).objects) n hn
  · exact hreset hobjects (fun hw => (Forest.lookup_resets he hw).into) n hn

/-- A row that keeps to words and whose sizes fit is laid out. -/
theorem addEntry_isOk {e : Entry} (hs : ∀ n ∈ Compiled.sizes e, n < 2^63)
    (hlo : signedMin ≤ e.elemLo ∧ e.elemLo ≤ signedMax)
    (hhi : 0 ≤ e.elemHi ∧ e.elemHi ≤ unsignedMax) : ∃ k', k.addEntry e=.ok k' := by
  rw [signedMin,signedMax] at hlo
  rw [unsignedMax] at hhi
  rw [Compiled.addEntry,asSsizes_ok hs,asInt64_ok (by omega),asUInt64_ok (by omega)]
  exact ⟨_,rfl⟩

/-- Rows that keep to words and whose sizes fit are laid out. -/
theorem addEntries_isOk {es : List Entry}
    (h : ∀ e ∈ es, (∀ n ∈ Compiled.sizes e, n < 2^63) ∧
      (signedMin ≤ e.elemLo ∧ e.elemLo ≤ signedMax) ∧ 0 ≤ e.elemHi ∧
      e.elemHi ≤ unsignedMax) : ∃ k', Compiled.addEntries es k=.ok k' := by
  induction es generalizing k with
  | nil => exact ⟨_,rfl⟩
  | cons e es ih =>
    obtain ⟨hs,hlo,hhi⟩ := h e List.mem_cons_self
    obtain ⟨k',hk'⟩ := @addEntry_isOk k e hs hlo hhi
    rw [Compiled.addEntries,hk']
    exact ih fun e he => h e (List.mem_cons_of_mem _ he)

/-- Tables that keep to words and ask for no more than a `Py_ssize_t` can be compiled. -/
theorem build_isOk {f : Forest} (h : f.Worded) (hwords : f.treeWordsRequired < 2^63)
    (hobjects : f.treeObjectsRequired < 2^63) : ∃ k, Compiled.build f=.ok k := by
  have hall : ∀ bs : List Binding, (∀ b ∈ bs, b ∈ f.tables) → ∀ k : Compiled,
      ∃ k', Compiled.addTables f bs k=.ok k' := by
    intro bs hbs
    induction bs with
    | nil => exact fun k => ⟨k,rfl⟩
    | cons b bs ih =>
      intro k
      have hb := hbs b List.mem_cons_self
      obtain ⟨r,hr⟩ := List.getElem?_of_mem hb
      have htable : f.table r=b := by rw [Forest.table,hr]; rfl
      have hrows : ∀ e ∈ b.entries.map (f.freezeEntry b),
          (∀ n ∈ Compiled.sizes e, n < 2^63) ∧
          (signedMin ≤ e.elemLo ∧ e.elemLo ≤ signedMax) ∧ 0 ≤ e.elemHi ∧
            e.elemHi ≤ unsignedMax := by
        intro e he
        obtain ⟨e₀,he₀,rfl⟩ := List.mem_map.mp he
        have hfound := lookup_row (f:=f) (r:=r) (htable.symm ▸ he₀)
        rw [htable] at hfound
        have hwidth := (f.wellFormed b hb).width e₀ he₀
        refine ⟨sizes_lt h hwords hobjects hfound,?_⟩
        rw [Forest.freezeEntry_eq]
        exact ⟨⟨hwidth.1,(h b hb e₀ he₀).lo⟩,hwidth.2⟩
      obtain ⟨k',hk'⟩ := @addEntries_isOk k _ hrows
      rw [Compiled.addTables,Compiled.addTable,hk']
      exact ih (fun b hb => hbs b (List.mem_cons_of_mem _ hb)) _
  have hfits : ∀ n ∈ [f.treeWordsRequired,f.treeObjectsRequired], n < 2^63 := by
    intro n hn
    rcases List.mem_cons.mp hn with rfl | hn
    · exact hwords
    · rwa [List.mem_singleton.mp hn]
  rw [Compiled.build,asSsizes_ok hfits]
  exact hall f.tables (fun b hb => hb) {}

/-- Tables that ask for more than a `Py_ssize_t` cannot be compiled. -/
theorem build_overflow {f : Forest}
    (h : ¬(f.treeWordsRequired < 2^63 ∧ f.treeObjectsRequired < 2^63)) :
    Compiled.build f=.error .overflow := by
  have hno : asSsizes [f.treeWordsRequired,f.treeObjectsRequired]=.error .overflow := by
    rw [asSsizes,if_neg]
    simpa [List.all_cons,-not_and] using h
  rw [Compiled.build,hno]
  rfl

end Worded

/-- The compiled tables stand for the tables they were compiled from. -/
structure Compiles (f : Forest) (k : Compiled) : Prop where
  /-- Wherever the interpreted engine finds a row they have one that stands for it, and elsewhere
  none. -/
  found : ∀ r id, Found k r id (f.lookup r id)
  /-- The same tables are closed. -/
  closed : ∀ r, (k.table r).closed=(f.table r).closed

/-- Every tree of tables that can be built through the binder methods and asks for no more storage
than a `Py_ssize_t` counts can be compiled, with an index or without, and what is compiled stands
for it; compiling any other one raises `OverflowError`. -/
theorem built_compiles {narrow : BitVec 64 → Option (BitVec 32)} {heap : List Binder.Cell}
    (h : Binder.Built narrow heap) {root : ℕ} (hr : root < heap.length) :
    ((Binder.forest h hr).treeWordsRequired < 2^63 ∧
        (Binder.forest h hr).treeObjectsRequired < 2^63 →
      ∃ k, Compiled.build (Binder.forest h hr)=.ok k ∧ Compiles (Binder.forest h hr) k) ∧
    (¬((Binder.forest h hr).treeWordsRequired < 2^63 ∧
        (Binder.forest h hr).treeObjectsRequired < 2^63) →
      Compiled.build (Binder.forest h hr)=.error .overflow) := by
  refine ⟨fun hfits => ?_,build_overflow⟩
  obtain ⟨k,hk⟩ := build_isOk (Binder.forest_worded h hr) hfits.1 hfits.2
  exact ⟨k,hk,fun r id => (build_found hk r id).1,fun r => (build_found hk r 0).2⟩

/-- A table that takes bytes with a sign at an id too high for an index. -/
def sparseTable : List Binder.Cell :=
  (Binder.bind (fun _ => none) [{table := {}}] 0
    (.signedArray (.int 5000) (.int 2) (.int 3) none (some (.int (-128))) (some (.int 127)) none)).2

/-- The table of the high id can be built. -/
theorem built_sparseTable : Binder.Built (fun _ => none) sparseTable :=
  .bind (fun g hg => by cases hg)
    (.create (show Binder.create false none (.int 0)=.ok {} from rfl) .empty)

/-- A table that takes a number at a slot past every buffer. -/
def farTable : List Binder.Cell :=
  (Binder.bind (fun _ => none) [{table := {}}] 0
    (.unsigned (.int 1) (.int (2^63)) none none none)).2

/-- The table of the far slot can be built. -/
theorem built_farTable : Binder.Built (fun _ => none) farTable :=
  .bind (fun g hg => by cases hg)
    (.create (show Binder.create false none (.int 0)=.ok {} from rfl) .empty)

/-- The first is compiled, and its row is found again; the second is not. -/
theorem built_compiles_sparse :
    (∃ k, Compiled.build (Binder.forest built_sparseTable (show 0 < sparseTable.length by decide))=
        .ok k ∧
      Compiles (Binder.forest built_sparseTable (show 0 < sparseTable.length by decide)) k) ∧
    Compiled.build (Binder.forest built_farTable (show 0 < farTable.length by decide))=
      .error .overflow := by
  have hsparse := built_compiles built_sparseTable (show 0 < sparseTable.length by decide)
  have hfar := built_compiles built_farTable (show 0 < farTable.length by decide)
  exact ⟨hsparse.1 (by decide),hfar.2 (by decide)⟩

end Native

end SofaBuffers
