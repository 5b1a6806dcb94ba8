import SofaBuffers.Walk.Lead
import SofaBuffers.Walk.Plan

/-!
# Values that are whole, broken or cut short

A plan that fits the leading words of a value is read off the value's bytes:
once they are there the read ends in what the plan makes of the value, whatever
follows them.
-/

set_option autoImplicit false

namespace SofaBuffers

open Resumable

variable {V : Type}

/-- The elements of an array are scanned off their bytes. -/
theorem scan_spelled {es : List UInt8} {raws : List ℕ} (h : Varint.SpellsAll es raws)
    (bound : Bound) (zigzag : Bool) (m : ℕ) (rest : List UInt8)
    (hin : ∀ raw ∈ raws, bound.outside (element zigzag raw)=false) :
    scan bound zigzag (raws.length+m) (es++rest)=
      (raws.map (element zigzag)++(scan bound zigzag m rest).1,(scan bound zigzag m rest).2) := by
  induction h with
  | nil => rw [List.length_nil,Nat.zero_add]; rfl
  | @cons bs cs v vs hv _ ih =>
    have hv' : Varint.read overlong ((bs++cs)++rest)=.done v (cs++rest) := by
      rw [List.append_assoc]
      exact Word.read hv _
    rw [List.length_cons,Nat.succ_add,scan,hv']
    dsimp only
    rw [if_neg (by rw [hin v List.mem_cons_self]; simp),
      ih fun raw hr => hin raw (List.mem_cons_of_mem v hr)]
    rfl

/-- The elements up to the first one outside a width. -/
def Bound.within (b : Bound) (xs : List ℤ) : List ℤ := xs.takeWhile fun x => !b.outside x

/-- The scan of an array that is there stops at the first element outside the width. -/
theorem scan_whole {es : List UInt8} {raws : List ℕ} (h : Varint.SpellsAll es raws)
    (bound : Bound) (zigzag : Bool) (rest : List UInt8) :
    scan bound zigzag raws.length (es++rest)=
      (bound.within (raws.map (element zigzag)),
        if (bound.within (raws.map (element zigzag))).length < raws.length then .bad outsideWidth
        else .done rest) := by
  induction h with
  | nil => rfl
  | @cons bs cs v vs hv _ ih =>
    have hv' : Varint.read overlong ((bs++cs)++rest)=.done v (cs++rest) := by
      rw [List.append_assoc]
      exact Word.read hv _
    rw [List.length_cons,scan,hv',List.map_cons,Bound.within,List.takeWhile_cons]
    dsimp only
    cases ho : bound.outside (element zigzag v) with
    | true =>
      rw [if_pos rfl,if_neg (by simp),List.length_nil,if_pos (by omega)]
    | false =>
      rw [if_neg (by simp),ih]
      simp only [Bool.not_false,if_true,List.length_cons]
      rw [Bound.within]
      congr 1
      by_cases hlt : (((vs.map (element zigzag)).takeWhile fun x => !bound.outside x)).length < vs.length
      · rw [if_pos hlt,if_pos (by omega)]
      · rw [if_neg hlt,if_neg (by omega)]

/-- What reading a whole value comes to. -/
def Plan.take (c : Config V) (pl : Plan V) (x : Datum) : Effect V :=
  match pl,x with
  | .refuse why,_ => .raise why
  | .scalar k,.scalar _ raw => k raw
  | .payload _ k,.fixlen _ data => k data
  | .payload _ k,.farray _ _ _ data => k data
  | .elements _ bound zigzag into k,.varray _ raws =>
    let xs := raws.map (element zigzag)
    (fillFrom c into 0 (bound.within xs)).andThen
      (if (bound.within xs).length < xs.length then .raise outsideWidth else k xs)
  | _,_ => .raise .assertion

/-- The plan fits the leading words of a value. -/
inductive Plan.Suits : Extent → Plan V → Prop
  /-- The header settles it. -/
  | refuse (x : Extent) (why : Exn) : Suits x (.refuse why)
  /-- One varint. -/
  | scalar (signed : Bool) (k : ℕ → Effect V) : Suits (.scalar signed) (.scalar k)
  /-- So many payload bytes. -/
  | payload (st : FixlenSubtype) (n : ℕ) (k : List UInt8 → Effect V) :
      Suits (.fixlen st n) (.payload n k)
  /-- So many varints. -/
  | elements (signed zigzag : Bool) (n : ℕ) (bound : Bound) (into : Option (Sink × ℕ))
      (k : List ℤ → Effect V) : Suits (.varray signed n) (.elements n bound zigzag into k)
  /-- So many elements of a size. -/
  | span (st : FixlenSubtype) (n size : ℕ) (k : List UInt8 → Effect V) :
      Suits (.farray st n size) (.payload (n*size) k)

/-- A payload that is there is read. -/
theorem read_payload (c : Config V) {n : ℕ} (k : List UInt8 → Effect V) (s : Store V)
    {data : List UInt8} (hn : data.length=n) (rest : List UInt8) :
    (Plan.payload n k).read c s (data++rest)=.of (k data s) rest := by
  subst hn
  rw [Plan.read,if_neg (by rw [List.length_append]; omega),List.take_left,List.drop_left]

/-- A payload that is not there yet is waited for. -/
theorem read_payload_more (c : Config V) {n : ℕ} (k : List UInt8 → Effect V) (s : Store V)
    {xs : List UInt8} (h : xs.length < n) : (Plan.payload n k).read c s xs=.more s := by
  rw [Plan.read,if_pos h]

/-- An array of integers that is there is read. -/
theorem read_elements (c : Config V) {es : List UInt8} {raws : List ℕ}
    (h : Varint.SpellsAll es raws) (bound : Bound) (zigzag : Bool) (into : Option (Sink × ℕ))
    (k : List ℤ → Effect V) (s : Store V) (signed : Bool) (rest : List UInt8) :
    (Plan.elements raws.length bound zigzag into k).read c s (es++rest)=
      .of ((Plan.elements raws.length bound zigzag into k).take c (.varray signed raws) s) rest := by
  rw [Plan.take,Plan.read,scan_whole h]
  dsimp only
  rw [Effect.andThen,List.length_map]
  cases fillFrom c into 0 (bound.within (raws.map (element zigzag))) s with
  | mk σ e =>
    cases e with
    | some e => rfl
    | none =>
      dsimp only
      by_cases hlt : (bound.within (raws.map (element zigzag))).length < raws.length
      · rw [if_pos hlt,if_pos hlt]
        rfl
      · have hall : bound.within (raws.map (element zigzag))=raws.map (element zigzag) := by
          refine (List.takeWhile_prefix _).eq_of_length_le ?_
          rw [List.length_map]
          exact Nat.le_of_not_lt hlt
        rw [if_neg hlt,if_neg hlt,hall]

/-- A value that is there is read as what its plan makes of it. -/
theorem read_whole (c : Config V) {x : Datum} {bs : List UInt8} (hb : Body x bs) {pl : Plan V}
    (hp : pl.Suits x.extent) (s : Store V) (rest : List UInt8) :
    pl.read c s (bs++rest)=.of (pl.take c x s) rest := by
  cases hb with
  | scalar signed h =>
    cases hp with
    | refuse x why => rfl
    | scalar signed k =>
      rw [Plan.read,Word.read h]
      rfl
  | fixlen st data =>
    cases hp with
    | refuse x why => rfl
    | payload st n k => exact read_payload c k s rfl rest
  | varray signed h =>
    cases hp with
    | refuse x why => rfl
    | elements signed zigzag n bound into k =>
      exact read_elements c h bound zigzag into k s signed rest
  | farray st h =>
    cases hp with
    | refuse x why => rfl
    | span st n size k => exact read_payload c k s h rest

end SofaBuffers
