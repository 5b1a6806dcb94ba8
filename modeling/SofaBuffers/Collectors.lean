import SofaBuffers.Types

/-!
# Wrapper-array collectors

A wrapper array reaches a visitor as a nested sequence whose child ids are the indices of the
elements. The three reservations bound an index, then grow the list to it; the caller stores
the value. What a list holds after any calls is stated over the calls it accepted, and the
compiled twins make the same of every call.
-/

set_option autoImplicit false

namespace SofaBuffers

namespace Collectors

variable {α : Type}

/-- What is passed for the receiver's cap: an exact `int`, or anything else, by its `repr`. -/
inductive RCap
  /-- An exact `int`. -/
  | int (n : ℤ)
  /-- Anything else that is passed for a cap. -/
  | other (repr : String)
  deriving DecidableEq

/-- The `repr` of a receiver's cap. -/
def RCap.repr : RCap → String
  | .int n => toString n
  | .other r => r

/-- The refusal a rejected id has earned (`_refusal`). -/
def refusal (id : ℕ) (cap : ℤ) (rcap : RCap) : Exn :=
  let unstated := Exn.argument (s!"max_dyn_array_count not stated ({rcap.repr}) for element " ++
    s!"index {id} (§6.2.1): the helper holds no limit of its own and reads no missing cap " ++
    "as unlimited")
  if 0 ≤ cap then .decode s!"element index {id} exceeds the count {cap} the schema declares"
  else
    match rcap with
    | .other _ => unstated
    | .int n =>
      if n < 0 then unstated
      else .limit s!"element index {id} exceeds the receiver limit max_dyn_array_count {n}"

/-- Whether an id may not be admitted under the receiver's cap. -/
def pastRcap (id : ℕ) (rcap : RCap) : Bool :=
  match rcap with
  | .other _ => true
  | .int n => n ≤ id

/-- Whether an id may not be admitted under the receiver's cap in the compiled twins, which convert
the cap to a C integer (`_past_rcap`). -/
def nativePastRcap (id : ℕ) (rcap : RCap) : Bool :=
  match rcap with
  | .other _ => true
  | .int n => if -2^63 ≤ n ∧ n < 2^63 then n ≤ id else n < 0

/-- The bound every reservation puts on an id first. -/
def bounded (past : ℕ → RCap → Bool) (id : ℕ) (cap : ℤ) (rcap : RCap) : Option Exn :=
  if 0 ≤ cap then if cap ≤ id then some (refusal id cap rcap) else none
  else if past id rcap then some (refusal id cap rcap) else none

/-- What a place of the list holds: an object of the caller's, the default among them, or one
that a reservation made, by its number. -/
inductive Item (α : Type)
  /-- An object of the caller's. -/
  | given (x : α)
  /-- What the factory returned in one of its calls. -/
  | object (n : ℕ)
  /-- A row made empty. -/
  | row (n : ℕ)
  deriving DecidableEq

/-- The number of an object that a reservation made. -/
def Item.number : Item α → Option ℕ
  | .given _ => none
  | .object n => some n
  | .row n => some n

/-- A list, and how many objects were made for it so far. -/
structure Slots (α : Type) where
  /-- The list. -/
  out : List (Item α)
  /-- The objects made: calls of the factory, and empty rows. -/
  made : ℕ

/-- Append the default. -/
def Slots.appendDefault (d : α) (s : Slots α) : Slots α := {s with out := s.out++[.given d]}

/-- Append what the factory makes. -/
def Slots.appendObject (s : Slots α) : Slots α :=
  {s with out := s.out++[.object s.made], made := s.made+1}

/-- Append an empty row. -/
def Slots.appendRow (s : Slots α) : Slots α :=
  {s with out := s.out++[.row s.made], made := s.made+1}

/-- Append while the list is shorter than `n`, in at most so many turns. -/
def Slots.grow (append : Slots α → Slots α) (n : ℕ) : ℕ → Slots α → Slots α
  | 0, s => s
  | turns+1, s => if s.out.length < n then Slots.grow append n turns (append s) else s

/-- Reserve the slot of a leaf (`reserve_leaf`). -/
def reserveLeaf (past : ℕ → RCap → Bool) (id : ℕ) (d : α) (cap : ℤ) (rcap : RCap) (s : Slots α) :
    Slots α × Option Exn :=
  match bounded past id cap rcap with
  | some why => (s,some why)
  | none => (s.grow (.appendDefault d) (id+1) (id+1),none)

/-- Reserve the slot of a framed element (`reserve_elem`). -/
def reserveElem (past : ℕ → RCap → Bool) (id : ℕ) (cap : ℤ) (rcap : RCap) (s : Slots α) :
    Slots α × Option Exn :=
  match bounded past id cap rcap with
  | some why => (s,some why)
  | none => (s.grow .appendObject (id+1) (id+1),none)

/-- Reserve a row that is a wrapper array itself (`reserve_row`). -/
def reserveRow (past : ℕ → RCap → Bool) (id : ℕ) (cap : ℤ) (rcap : RCap) (s : Slots α) :
    Slots α × Option Exn :=
  match bounded past id cap rcap with
  | some why => (s,some why)
  | none =>
    let s := s.grow .appendRow id id
    if s.out.length=id then (s.appendRow,none)
    else ({s with out := s.out.set id (.row s.made), made := s.made+1},none)

/-- Which of the three reservations an operation asks for. -/
inductive Kind (α : Type)
  /-- A string or a blob, with the default that fills a gap. -/
  | leaf (d : α)
  /-- A framed element. -/
  | elem
  /-- A row. -/
  | row

/-- One call of a visitor, and what it stores at the id once it is accepted. -/
structure Op (α : Type) where
  /-- The reservation. -/
  kind : Kind α
  /-- The id. -/
  id : ℕ
  /-- The count the schema declares, negative where it declares none. -/
  cap : ℤ
  /-- The receiver's cap. -/
  rcap : RCap
  /-- The value stored. -/
  store : Option α := none

/-- Make the reservation. -/
def Op.reserve (past : ℕ → RCap → Bool) (op : Op α) (s : Slots α) : Slots α × Option Exn :=
  match op.kind with
  | .leaf d => reserveLeaf past op.id d op.cap op.rcap s
  | .elem => reserveElem past op.id op.cap op.rcap s
  | .row => reserveRow past op.id op.cap op.rcap s

/-- Store a value at an id. -/
def Slots.store (id : ℕ) (v : Option α) (s : Slots α) : Slots α :=
  match v with
  | some v => {s with out := s.out.set id (.given v)}
  | none => s

/-- Make a call, and store the value if it is accepted. -/
def Op.run (past : ℕ → RCap → Bool) (op : Op α) (s : Slots α) : Slots α × Option Exn :=
  match op.reserve past s with
  | (s,some why) => (s,some why)
  | (s,none) => (s.store op.id op.store,none)

/-- What a place holds, whichever object it is. -/
inductive Content (α : Type)
  /-- A value of the caller's. -/
  | given (x : α)
  /-- An object of the factory's. -/
  | object
  /-- A row. -/
  | row
  deriving DecidableEq

/-- The content of an item. -/
def Item.content : Item α → Content α
  | .given x => .given x
  | .object _ => .object
  | .row _ => .row

/-- What a reservation puts in a new place. -/
def Kind.fill : Kind α → Content α
  | .leaf d => .given d
  | .elem => .object
  | .row => .row

/-- The content of a place after an accepted call, from the contents before it. -/
def Op.after (op : Op α) (before : ℕ → Option (Content α)) (i : ℕ) : Option (Content α) :=
  if i = op.id then
    match op.store,op.kind with
    | some v,_ => some (.given v)
    | none,.row => some .row
    | none,kind => some ((before i).getD kind.fill)
  else if i < op.id then some ((before i).getD op.kind.fill)
  else before i

/-- The content of a place after the accepted calls, the latest first. -/
def contentAfter (start : List α) : List (Op α) → ℕ → Option (Content α)
  | [] => fun i => start[i]?.map .given
  | op::ops => op.after (contentAfter start ops)

/-- The length after the accepted calls. -/
def lengthAfter (start : List α) (ops : List (Op α)) : ℕ :=
  ops.foldr (fun op n => max (op.id+1) n) start.length

/-- A list in the middle of its calls, with those accepted so far, the latest first. -/
inductive Run (start : List α) : List (Op α) → Slots α → Prop
  /-- The list as the caller made it. -/
  | start : Run start [] ⟨start.map .given,0⟩
  /-- After a call that was accepted. -/
  | accepted {ops : List (Op α)} {s t : Slots α} {op : Op α} : Run start ops s →
      op.run pastRcap s=(t,none) → Run start (op::ops) t
  /-- After a call that was refused. -/
  | refused {ops : List (Op α)} {s t : Slots α} {op : Op α} {e : Exn} : Run start ops s →
      op.run pastRcap s=(t,some e) → Run start ops t

/-- No two places share an object that a reservation made, and all are numbered below the
count. -/
structure Owned (s : Slots α) : Prop where
  /-- The numbers are below the count. -/
  made : ∀ (i : ℕ) (x : Item α) (n : ℕ), s.out[i]?=some x → x.number=some n → n < s.made
  /-- One object, one place. -/
  once : ∀ (i j : ℕ) (x y : Item α) (n : ℕ), s.out[i]?=some x → s.out[j]?=some y →
    x.number=some n → y.number=some n → i=j

/-- What a call does to the list. -/
structure Answers (op : Op α) (s : Slots α) : Prop where
  /-- Where it is refused, nothing changes, and no factory is called. -/
  unchanged : ∀ e : Exn, (op.run pastRcap s).2=some e → (op.run pastRcap s).1=s
  /-- It is refused in one of three classes. -/
  classes : ∀ e : Exn, (op.run pastRcap s).2=some e →
    ∃ t : String, e=.decode t ∨ e=.argument t ∨ e=.limit t
  /-- The id reaches the count declared. -/
  invalid : (∃ t : String, (op.run pastRcap s).2=some (.decode t)) ↔ 0 ≤ op.cap ∧ op.cap ≤ op.id
  /-- The receiver states no cap. -/
  argument : (∃ t : String, (op.run pastRcap s).2=some (.argument t)) ↔
    op.cap < 0 ∧ ¬∃ n : ℕ, op.rcap=.int n
  /-- The id reaches the receiver's cap. -/
  limited : (∃ t : String, (op.run pastRcap s).2=some (.limit t)) ↔
    op.cap < 0 ∧ ∃ n : ℕ, op.rcap=.int n ∧ n ≤ op.id
  /-- Where it is accepted, every place but its own keeps the object it holds. -/
  kept : (op.run pastRcap s).2=none → ∀ i : ℕ, i < s.out.length → i≠op.id →
    (op.run pastRcap s).1.out[i]?=s.out[i]?
  /-- Its own place keeps its object too, unless a value is stored or a row is reserved. -/
  same : (op.run pastRcap s).2=none → op.id < s.out.length → op.store=none →
    (op.kind≠.row) → (op.run pastRcap s).1.out[op.id]?=s.out[op.id]?
  /-- A row that is reserved is a new one. -/
  fresh : (op.run pastRcap s).2=none → op.store=none → op.kind=.row →
    ∃ n : ℕ, s.made ≤ n ∧ (op.run pastRcap s).1.out[op.id]?=some (.row n)
  /-- The compiled twins, whose ids and counts are C integers, do the same. -/
  native : op.id < 2^63 → -2^63 ≤ op.cap → op.cap < 2^63 →
    op.run nativePastRcap s=op.run pastRcap s

/-- A list and the calls it accepted. -/
structure Collects (start : List α) (ops : List (Op α)) (s : Slots α) : Prop where
  /-- The length: one more than the highest id accepted, or that of the start. -/
  length : s.out.length=lengthAfter start ops
  /-- What every place holds. -/
  content : ∀ i : ℕ, s.out[i]?.map Item.content=contentAfter start ops i
  /-- No two places share an object. -/
  owned : Owned s
  /-- What the next call does. -/
  next : ∀ op : Op α, Answers op s

section Growing

/-- An append: one new place, and its object counted where it makes one. -/
structure Appends (append : Slots α → Slots α) (fill : Content α) : Prop where
  /-- The list has one place more. -/
  out : ∀ s : Slots α, ∃ x : Item α, (append s).out=s.out++[x] ∧ x.content=fill ∧
    ∀ n : ℕ, x.number=some n → s.made ≤ n ∧ n < (append s).made
  /-- Nothing is unmade. -/
  made : ∀ s : Slots α, s.made ≤ (append s).made

/-- Appending the default is an append. -/
theorem appends_default (d : α) : Appends (.appendDefault d) (.given d) where
  out s := ⟨.given d,rfl,rfl,fun _ h => by cases h⟩
  made s := le_refl s.made

/-- Appending what the factory makes. -/
theorem appends_object : Appends (.appendObject : Slots α → Slots α) .object where
  out s := by
    refine ⟨.object s.made,rfl,rfl,fun n h => ?_⟩
    have hn : s.made=n := by simpa [Item.number] using h
    have hm : s.appendObject.made=s.made+1 := rfl
    omega
  made s := Nat.le_succ s.made

/-- Appending an empty row. -/
theorem appends_row : Appends (.appendRow : Slots α → Slots α) .row where
  out s := by
    refine ⟨.row s.made,rfl,rfl,fun n h => ?_⟩
    have hn : s.made=n := by simpa [Item.number] using h
    have hm : s.appendRow.made=s.made+1 := rfl
    omega
  made s := Nat.le_succ s.made

/-- A list that has grown to `n` places. -/
structure Grown (fill : Content α) (n : ℕ) (s t : Slots α) : Prop where
  /-- The list is as long as asked for, or as it was. -/
  length : t.out.length=max n s.out.length
  /-- The places it had keep their objects. -/
  kept : ∀ i : ℕ, i < s.out.length → t.out[i]?=s.out[i]?
  /-- What the new ones hold. -/
  filled : ∀ i : ℕ, s.out.length ≤ i → i < n → t.out[i]?.map Item.content=some fill
  /-- Nothing is unmade. -/
  made : s.made ≤ t.made
  /-- The objects of the new places are new. -/
  owned : Owned s → Owned t

/-- A list that differs in one place, where it holds an object of the caller's or a new one. -/
theorem Owned.changed {s t : Slots α} (hs : Owned s) (i : ℕ) (x : Item α)
    (hmade : s.made ≤ t.made) (hx : ∀ n : ℕ, x.number=some n → s.made ≤ n ∧ n < t.made)
    (hcases : ∀ (j : ℕ) (y : Item α), t.out[j]?=some y → (s.out[j]?=some y) ∨ (j=i ∧ y=x)) :
    Owned t := by
  constructor
  · intro j y n hy hn
    rcases hcases j y hy with hold | ⟨-,rfl⟩
    · exact lt_of_lt_of_le (hs.made j y n hold hn) hmade
    · exact (hx n hn).2
  · intro j k y z n hy hz hyn hzn
    rcases hcases j y hy with hj | ⟨hj,rfl⟩
    · rcases hcases k z hz with hk | ⟨-,rfl⟩
      · exact hs.once j k y z n hj hk hyn hzn
      · have hlow := hs.made j y n hj hyn
        have hhigh := (hx n hzn).1
        omega
    · rcases hcases k z hz with hk | ⟨hk,-⟩
      · have hlow := hs.made k z n hk hzn
        have hhigh := (hx n hyn).1
        omega
      · omega

/-- One append keeps every object in one place. -/
theorem Appends.owned {append : Slots α → Slots α} {fill : Content α} (h : Appends append fill)
    {s : Slots α} (hs : Owned s) : Owned (append s) := by
  obtain ⟨x,hout,-,hnumber⟩ := h.out s
  refine hs.changed s.out.length x (h.made s) hnumber fun j y hy => ?_
  rw [hout,List.getElem?_append] at hy
  split at hy
  · exact .inl hy
  · have hj : j - s.out.length=0 := by
      by_contra hne
      have hlen : [x].length ≤ j - s.out.length := by simp; omega
      rw [List.getElem?_eq_none hlen] at hy
      cases hy
    rw [hj] at hy
    exact .inr ⟨by omega,by simpa using hy.symm⟩

/-- Putting an object of the caller's or a new one in a place. -/
theorem Owned.set {s : Slots α} (hs : Owned s) (i : ℕ) (x : Item α) (made : ℕ)
    (hmade : s.made ≤ made) (hx : ∀ n : ℕ, x.number=some n → s.made ≤ n ∧ n < made) :
    Owned ({ out := s.out.set i x, made := made } : Slots α) := by
  refine hs.changed i x hmade hx fun j y hy => ?_
  rw [List.getElem?_set] at hy
  split at hy
  · split at hy
    · exact .inr ⟨by omega,by simpa using hy.symm⟩
    · cases hy
  · exact .inl hy

/-- Enough turns grow a list to its length. -/
theorem grow_grown {append : Slots α → Slots α} {fill : Content α} (h : Appends append fill)
    (n turns : ℕ) : ∀ s : Slots α, n ≤ turns+s.out.length →
      Grown fill n s (s.grow append n turns) := by
  have hstill : ∀ s : Slots α, n ≤ s.out.length → Grown fill n s s := by
    intro s hle
    exact ⟨by omega,fun i _ => rfl,fun i hi hin => by omega,le_refl _,fun hs => hs⟩
  induction turns with
  | zero =>
    intro s hle
    exact hstill s (by omega)
  | succ turns ih =>
    intro s hle
    unfold Slots.grow
    by_cases hlt : s.out.length < n
    · rw [if_pos hlt]
      obtain ⟨x,hout,hx,-⟩ := h.out s
      have hlen : (append s).out.length=s.out.length+1 := by simp [hout]
      have hg := ih (append s) (by omega)
      constructor
      · rw [hg.length,hlen]
        omega
      · intro i hi
        rw [hg.kept i (by omega),hout,List.getElem?_append_left hi]
      · intro i hi hin
        by_cases heq : i=s.out.length
        · rw [hg.kept i (by omega),hout,heq,List.getElem?_concat_length]
          simp [hx]
        · exact hg.filled i (by omega) hin
      · exact le_trans (h.made s) hg.made
      · exact fun hs => hg.owned (h.owned hs)
    · rw [if_neg hlt]
      exact hstill s (by omega)

end Growing

section Calls

/-- What an accepted reservation has made of a list. -/
structure Reserved (kind : Kind α) (id : ℕ) (s t : Slots α) : Prop where
  /-- The list reaches the id, or is as long as it was. -/
  length : t.out.length=max (id+1) s.out.length
  /-- Every other place keeps its object. -/
  kept : ∀ i : ℕ, i < s.out.length → i≠id → t.out[i]?=s.out[i]?
  /-- The gap is filled. -/
  filled : ∀ i : ℕ, s.out.length ≤ i → i < id → t.out[i]?.map Item.content=some kind.fill
  /-- A row is new. -/
  fresh : kind=.row → ∃ n : ℕ, s.made ≤ n ∧ t.out[id]?=some (.row n)
  /-- Anything else is left alone where it is. -/
  same : kind≠.row → id < s.out.length → t.out[id]?=s.out[id]?
  /-- Its place is filled where it is not. -/
  own : kind≠.row → s.out.length ≤ id → t.out[id]?.map Item.content=some kind.fill
  /-- No two places share an object. -/
  owned : Owned s → Owned t

/-- A list grown to the id is reserved, for anything but a row. -/
theorem Grown.reserved {kind : Kind α} {id : ℕ} {s t : Slots α} (hkind : kind≠.row)
    (h : Grown kind.fill (id+1) s t) : Reserved kind id s t := by
  constructor
  · exact h.length
  · exact fun i hi _ => h.kept i hi
  · exact fun i hi hid => h.filled i hi (by omega)
  · exact fun hrow => absurd hrow hkind
  · exact fun _ hid => h.kept id hid
  · exact fun _ hid => h.filled id hid (by omega)
  · exact h.owned

/-- A row reserved below or past the end. -/
theorem row_reserved (id : ℕ) (s : Slots α) :
    Reserved (.row : Kind α) id s
      (if (s.grow .appendRow id id).out.length=id then (s.grow .appendRow id id).appendRow
        else {(s.grow .appendRow id id) with
          out := (s.grow .appendRow id id).out.set id (.row (s.grow .appendRow id id).made)
          made := (s.grow .appendRow id id).made+1}) := by
  have hg := grow_grown appends_row id id s (by omega)
  generalize s.grow .appendRow id id=t at hg ⊢
  have hlen := hg.length
  by_cases hid : t.out.length=id
  · rw [if_pos hid]
    have hout : t.appendRow.out=t.out++[.row t.made] := rfl
    constructor
    · rw [hout,List.length_append]
      simp
      omega
    · intro i hi hne
      rw [hout,List.getElem?_append_left (by omega),hg.kept i hi]
    · intro i hi hlt
      rw [hout,List.getElem?_append_left (by omega),hg.filled i hi hlt]
      rfl
    · intro _
      refine ⟨t.made,hg.made,?_⟩
      rw [hout,← hid,List.getElem?_concat_length]
    · exact fun h => absurd rfl h
    · exact fun h => absurd rfl h
    · exact fun hs => appends_row.owned (hg.owned hs)
  · rw [if_neg hid]
    constructor
    · simp only [List.length_set]
      omega
    · intro i hi hne
      have h := hg.kept i hi
      rw [← h]
      exact List.getElem?_set_ne (Ne.symm hne)
    · intro i hi hlt
      have h : (t.out.set id (.row t.made))[i]?=t.out[i]? := List.getElem?_set_ne (by omega)
      exact (congrArg _ h).trans (hg.filled i hi hlt)
    · intro _
      exact ⟨t.made,hg.made,List.getElem?_set_self (by omega)⟩
    · exact fun h => absurd rfl h
    · exact fun h => absurd rfl h
    · refine fun hs => (hg.owned hs).set id (.row t.made) (t.made+1) (by omega) fun n hn => ?_
      have hn : t.made=n := by simpa [Item.number] using hn
      omega

/-- Every call is bounded first, and then reserves its place. -/
theorem reserve_bounded (past : ℕ → RCap → Bool) (op : Op α) (s : Slots α) :
    (∃ e : Exn, bounded past op.id op.cap op.rcap=some e ∧ op.reserve past s=(s,some e)) ∨
      ∃ t : Slots α, bounded past op.id op.cap op.rcap=none ∧ op.reserve past s=(t,none) ∧
        Reserved op.kind op.id s t := by
  obtain ⟨kind,id,cap,rcap,v⟩ := op
  cases hb : bounded past id cap rcap with
  | some e =>
    refine .inl ⟨e,rfl,?_⟩
    cases kind <;> simp [Op.reserve,reserveLeaf,reserveElem,reserveRow,hb]
  | none =>
    right
    cases kind with
    | leaf d =>
      refine ⟨s.grow (.appendDefault d) (id+1) (id+1),rfl,?_,?_⟩
      · simp [Op.reserve,reserveLeaf,hb]
      · exact (grow_grown (appends_default d) (id+1) (id+1) s (by omega)).reserved (by simp)
    | elem =>
      refine ⟨s.grow .appendObject (id+1) (id+1),rfl,?_,?_⟩
      · simp [Op.reserve,reserveElem,hb]
      · exact (grow_grown appends_object (id+1) (id+1) s (by omega)).reserved (by simp)
    | row =>
      refine ⟨_,rfl,?_,row_reserved id s⟩
      simp only [Op.reserve,reserveRow,hb]
      split <;> rfl

/-- What a call does: it is refused, or it reserves and stores. -/
theorem run_bounded (past : ℕ → RCap → Bool) (op : Op α) (s : Slots α) :
    (∃ e : Exn, bounded past op.id op.cap op.rcap=some e ∧ op.run past s=(s,some e)) ∨
      ∃ t : Slots α, bounded past op.id op.cap op.rcap=none ∧
        op.run past s=(t.store op.id op.store,none) ∧ Reserved op.kind op.id s t := by
  rcases reserve_bounded past op s with ⟨e,hb,hr⟩ | ⟨t,hb,hr,ht⟩
  · exact .inl ⟨e,hb,by simp [Op.run,hr]⟩
  · exact .inr ⟨t,hb,by simp [Op.run,hr],ht⟩

/-- The compiled bound is the pure one. -/
theorem past_native {id : ℕ} (hid : id < 2^63) (rcap : RCap) :
    nativePastRcap id rcap=pastRcap id rcap := by
  cases rcap with
  | other r => rfl
  | int n =>
    unfold nativePastRcap pastRcap
    dsimp only
    by_cases hn : -2^63 ≤ n ∧ n < 2^63
    · rw [if_pos hn]
    · rw [if_neg hn]
      rw [decide_eq_decide]
      omega

/-- What the bound says of an id. -/
inductive Admission (id : ℕ) (cap : ℤ) (rcap : RCap) : Option Exn → Prop
  /-- The id reaches the count declared. -/
  | invalid (t : String) : 0 ≤ cap → cap ≤ id → Admission id cap rcap (some (.decode t))
  /-- The receiver states no cap. -/
  | unstated (t : String) : cap < 0 → (¬∃ n : ℕ, rcap=.int n) →
      Admission id cap rcap (some (.argument t))
  /-- The id reaches the receiver's cap. -/
  | limited (t : String) (n : ℕ) : cap < 0 → rcap=.int n → n ≤ id →
      Admission id cap rcap (some (.limit t))
  /-- It is admitted under the count. -/
  | declared : 0 ≤ cap → (id : ℤ) < cap → Admission id cap rcap none
  /-- It is admitted under the receiver's cap. -/
  | stated (n : ℕ) : cap < 0 → rcap=.int n → id < n → Admission id cap rcap none

/-- The bound refuses in the class the id has earned. -/
theorem bounded_admission (id : ℕ) (cap : ℤ) (rcap : RCap) :
    Admission id cap rcap (bounded pastRcap id cap rcap) := by
  unfold bounded
  by_cases hcap : 0 ≤ cap
  · rw [if_pos hcap]
    by_cases hid : cap ≤ id
    · rw [if_pos hid]
      unfold refusal
      simp only [if_pos hcap]
      exact .invalid _ hcap hid
    · rw [if_neg hid]
      exact .declared hcap (by omega)
  · have hneg : cap < 0 := by omega
    rw [if_neg hcap]
    unfold refusal
    simp only [if_neg hcap]
    cases rcap with
    | other r => exact .unstated _ hneg fun ⟨n,hn⟩ => by cases hn
    | int m =>
      by_cases hm : m < 0
      · have hpast : pastRcap id (.int m)=true := by
          simp only [pastRcap,decide_eq_true_eq]
          omega
        simp only [hpast,if_pos hm,if_true]
        refine .unstated _ hneg fun ⟨n,hn⟩ => ?_
        cases hn
        omega
      · lift m to ℕ using by omega
        simp only [if_neg hm]
        by_cases hid : m ≤ id
        · have hpast : pastRcap id (.int m)=true := by simpa [pastRcap] using hid
          simp only [hpast,if_true]
          exact .limited _ m hneg rfl hid
        · have hpast : pastRcap id (.int m)=false := by simpa [pastRcap] using hid
          simp only [hpast]
          exact .stated m hneg rfl (by omega)

/-- The length once a value is stored. -/
@[simp] theorem Slots.store_length (id : ℕ) (v : Option α) (s : Slots α) :
    (s.store id v).out.length=s.out.length := by
  cases v <;> simp [Slots.store]

/-- A value is stored in its own place. -/
theorem Slots.store_ne {id i : ℕ} (hne : i≠id) (v : Option α) (s : Slots α) :
    (s.store id v).out[i]?=s.out[i]? := by
  cases v with
  | none => rfl
  | some v => exact List.getElem?_set_ne (Ne.symm hne)

/-- A value stored keeps every object in one place. -/
theorem Owned.store {s : Slots α} (hs : Owned s) (id : ℕ) (v : Option α) :
    Owned (s.store id v) := by
  cases v with
  | none => exact hs
  | some v => exact hs.set id (.given v) s.made (le_refl _) fun n hn => by cases hn

/-- The class that says the id reaches the count declared. -/
theorem Admission.invalid_iff {id : ℕ} {cap : ℤ} {rcap : RCap} {o : Option Exn}
    (h : Admission id cap rcap o) : (∃ t : String, o=some (.decode t)) ↔ 0 ≤ cap ∧ cap ≤ id := by
  cases h with
  | invalid t hcap hid => exact ⟨fun _ => ⟨hcap,hid⟩,fun _ => ⟨t,rfl⟩⟩
  | unstated t hcap _ => exact ⟨by simp,fun h => by omega⟩
  | limited t n hcap _ _ => exact ⟨by simp,fun h => by omega⟩
  | declared hcap hid => exact ⟨by simp,fun h => by omega⟩
  | stated n hcap _ _ => exact ⟨by simp,fun h => by omega⟩

/-- The class that says the receiver states no cap. -/
theorem Admission.argument_iff {id : ℕ} {cap : ℤ} {rcap : RCap} {o : Option Exn}
    (h : Admission id cap rcap o) :
    (∃ t : String, o=some (.argument t)) ↔ cap < 0 ∧ ¬∃ n : ℕ, rcap=.int n := by
  cases h with
  | invalid t hcap _ => exact ⟨by simp,fun h => by omega⟩
  | unstated t hcap hr => exact ⟨fun _ => ⟨hcap,hr⟩,fun _ => ⟨t,rfl⟩⟩
  | limited t n _ hr _ => exact ⟨by simp,fun h => absurd ⟨n,hr⟩ h.2⟩
  | declared hcap _ => exact ⟨by simp,fun h => by omega⟩
  | stated n _ hr _ => exact ⟨by simp,fun h => absurd ⟨n,hr⟩ h.2⟩

/-- The class that says the id reaches the receiver's cap. -/
theorem Admission.limited_iff {id : ℕ} {cap : ℤ} {rcap : RCap} {o : Option Exn}
    (h : Admission id cap rcap o) :
    (∃ t : String, o=some (.limit t)) ↔ cap < 0 ∧ ∃ n : ℕ, rcap=.int n ∧ n ≤ id := by
  cases h with
  | invalid t hcap _ => exact ⟨by simp,fun h => by omega⟩
  | unstated t _ hr => exact ⟨by simp,fun ⟨_,n,hn,_⟩ => absurd ⟨n,hn⟩ hr⟩
  | limited t n hcap hr hid => exact ⟨fun _ => ⟨hcap,n,hr,hid⟩,fun _ => ⟨t,rfl⟩⟩
  | declared hcap _ => exact ⟨by simp,fun h => by omega⟩
  | stated n _ hr hid =>
    refine ⟨by simp,fun ⟨_,m,hm,hle⟩ => ?_⟩
    rw [hr] at hm
    injection hm with hm
    omega

/-- A refused reservation raises one of three classes. -/
theorem Admission.classes {id : ℕ} {cap : ℤ} {rcap : RCap} {e : Exn}
    (h : Admission id cap rcap (some e)) :
    ∃ t : String, e=.decode t ∨ e=.argument t ∨ e=.limit t := by
  cases h with
  | invalid t _ _ => exact ⟨t,.inl rfl⟩
  | unstated t _ _ => exact ⟨t,.inr (.inl rfl)⟩
  | limited t _ _ _ _ => exact ⟨t,.inr (.inr rfl)⟩

/-- What a call says is what its bound says. -/
theorem run_said (past : ℕ → RCap → Bool) (op : Op α) (s : Slots α) :
    (op.run past s).2=bounded past op.id op.cap op.rcap := by
  rcases run_bounded past op s with ⟨e,hb,hr⟩ | ⟨t,hb,hr,-⟩
  · rw [hr,hb]
  · rw [hr,hb]

/-- The compiled twins do what the pure ones do. -/
theorem run_native {op : Op α} (hid : op.id < 2^63) (s : Slots α) :
    op.run nativePastRcap s=op.run pastRcap s := by
  have hb : bounded nativePastRcap op.id op.cap op.rcap=bounded pastRcap op.id op.cap op.rcap := by
    unfold bounded
    rw [past_native hid]
  unfold Op.run Op.reserve
  cases op.kind with
  | leaf d => simp only [reserveLeaf,hb]
  | elem => simp only [reserveElem,hb]
  | row => simp only [reserveRow,hb]

/-- What an accepted call has made of a list. -/
theorem accepted_reserved {op : Op α} {s t : Slots α} (h : op.run pastRcap s=(t,none)) :
    ∃ r : Slots α, t=r.store op.id op.store ∧ Reserved op.kind op.id s r := by
  rcases run_bounded pastRcap op s with ⟨e,-,hr⟩ | ⟨r,-,hr,hres⟩
  · rw [hr] at h
    cases h
  · rw [hr] at h
    injection h with h
    exact ⟨r,h.symm,hres⟩

/-- A call that is accepted, and the list after it. -/
theorem accepted_run {op : Op α} {s : Slots α} (h : (op.run pastRcap s).2=none) :
    op.run pastRcap s=((op.run pastRcap s).1,none) := by
  rw [← h]

/-- What the next call does. -/
theorem run_answers (op : Op α) (s : Slots α) : Answers op s := by
  have hsaid : Admission op.id op.cap op.rcap (op.run pastRcap s).2 := by
    rw [run_said]
    exact bounded_admission op.id op.cap op.rcap
  constructor
  · intro e he
    rcases run_bounded pastRcap op s with ⟨e,-,hr⟩ | ⟨t,-,hr,-⟩
    · rw [hr]
    · rw [hr] at he
      cases he
  · intro e he
    rw [he] at hsaid
    exact hsaid.classes
  · exact hsaid.invalid_iff
  · exact hsaid.argument_iff
  · exact hsaid.limited_iff
  · intro h i hi hne
    obtain ⟨r,ht,hres⟩ := accepted_reserved (accepted_run h)
    rw [ht,Slots.store_ne hne]
    exact hres.kept i hi hne
  · intro h hid hstore hkind
    obtain ⟨r,ht,hres⟩ := accepted_reserved (accepted_run h)
    rw [ht,hstore]
    exact hres.same hkind hid
  · intro h hstore hkind
    obtain ⟨r,ht,hres⟩ := accepted_reserved (accepted_run h)
    rw [ht,hstore]
    exact hres.fresh hkind
  · intro hid _ _
    exact run_native hid s

/-- What an accepted call leaves in every place. -/
theorem accepted_after {op : Op α} {s t : Slots α} (h : op.run pastRcap s=(t,none)) (i : ℕ) :
    t.out[i]?.map Item.content=op.after (fun i => s.out[i]?.map Item.content) i := by
  obtain ⟨r,rfl,hres⟩ := accepted_reserved h
  have hlen := hres.length
  unfold Op.after
  dsimp only
  by_cases hi : i=op.id
  · rw [if_pos hi,hi]
    cases hstore : op.store with
    | some v =>
      have hput : (r.store op.id (some v)).out[op.id]?=some (.given v) :=
        List.getElem?_set_self (by omega)
      rw [hput]
      rfl
    | none =>
      have hput : (r.store op.id none).out=r.out := rfl
      rw [hput]
      by_cases hrow : op.kind=.row
      · obtain ⟨n,-,hn⟩ := hres.fresh hrow
        rw [hn,hrow]
        rfl
      · have hkeep : r.out[op.id]?.map Item.content=
            some ((s.out[op.id]?.map Item.content).getD op.kind.fill) := by
          by_cases hlt : op.id < s.out.length
          · rw [hres.same hrow hlt,List.getElem?_eq_getElem hlt]
            rfl
          · rw [hres.own hrow (by omega),List.getElem?_eq_none (by omega)]
            rfl
        rw [hkeep]
        cases hkind : op.kind with
        | leaf d => rfl
        | elem => rfl
        | row => exact absurd hkind hrow
  · rw [if_neg hi,Slots.store_ne hi]
    by_cases hlt : i < s.out.length
    · rw [hres.kept i hlt hi]
      split
      · rw [List.getElem?_eq_getElem hlt]
        rfl
      · rfl
    · have hnone : s.out[i]?=none := List.getElem?_eq_none (by omega)
      split
      · rename_i hid
        rw [hres.filled i (by omega) hid,hnone]
        rfl
      · rw [List.getElem?_eq_none (by omega),hnone]

/-- A list is what the calls it accepted make it, whichever those were. -/
theorem reserve_collects {start : List α} {ops : List (Op α)} {s : Slots α}
    (h : Run start ops s) : Collects start ops s := by
  induction h with
  | start =>
    constructor
    · simp [lengthAfter]
    · intro i
      simp [contentAfter,Item.content,Function.comp_def]
    · constructor
      · intro i x n hx hn
        simp only [List.getElem?_map,Option.map_eq_some_iff] at hx
        obtain ⟨v,-,rfl⟩ := hx
        cases hn
      · intro i j x y n hx _ hn
        simp only [List.getElem?_map,Option.map_eq_some_iff] at hx
        obtain ⟨v,-,rfl⟩ := hx
        cases hn
    · exact fun op => run_answers op _
  | @accepted ops s t op _ hrun ih =>
    constructor
    · obtain ⟨r,rfl,hres⟩ := accepted_reserved hrun
      rw [Slots.store_length,hres.length,ih.length]
      rfl
    · intro i
      have hbefore : (fun i => s.out[i]?.map Item.content)=contentAfter start ops :=
        funext ih.content
      rw [accepted_after hrun,hbefore]
      rfl
    · obtain ⟨r,rfl,hres⟩ := accepted_reserved hrun
      exact (hres.owned ih.owned).store op.id op.store
    · exact fun op => run_answers op _
  | @refused ops s t op e _ hrun ih =>
    have hsame := (run_answers op s).unchanged e (by rw [hrun])
    rw [hrun] at hsame
    rw [show t=s from hsame]
    exact ih

/-- Two elements, a gap between them, an id refused, and a value stored in the gap. -/
theorem reserve_collects_gap :
    Collects [7] [⟨.leaf 0,1,-1,.int 9,some 5⟩,⟨.elem,2,4,.other "None",none⟩]
      ⟨[.given 7,.given 5,.object 1],2⟩ := by
  have hstart : Run [7] [] ⟨[.given 7],0⟩ := .start
  have helem : (⟨.elem,2,4,.other "None",none⟩ : Op ℕ).run pastRcap ⟨[.given 7],0⟩=
      (⟨[.given 7,.object 0,.object 1],2⟩,none) := rfl
  have hrow : ∃ e : Exn, (⟨.row,9,-1,.int 9,none⟩ : Op ℕ).run pastRcap
      ⟨[.given 7,.object 0,.object 1],2⟩=(⟨[.given 7,.object 0,.object 1],2⟩,some e) := ⟨_,rfl⟩
  have hleaf : (⟨.leaf 0,1,-1,.int 9,some 5⟩ : Op ℕ).run pastRcap
      ⟨[.given 7,.object 0,.object 1],2⟩=(⟨[.given 7,.given 5,.object 1],2⟩,none) := rfl
  obtain ⟨e,hrow⟩ := hrow
  exact reserve_collects (.accepted (.refused (.accepted hstart helem) hrow) hleaf)

end Calls

end Collectors

end SofaBuffers
