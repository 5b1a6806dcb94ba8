import SofaBuffers.Singles
import SofaBuffers.Walk.Reads

/-!
# Float arrays into a destination

A float array becomes a list in one conversion, or goes to a destination in blocks of a
fixed size. The blocks do not show: both hold the same patterns, the destination keeps what
lies outside, and a NaN among singles is carried over bit for bit on either way.
-/

set_option autoImplicit false

namespace SofaBuffers

namespace Farray

/-- What a conversion raises. -/
inductive Fault
  /-- `struct.error`: the bytes are too few. -/
  | struct
  /-- `ValueError`: the slice assigned does not fit. -/
  | value
  /-- A loop that was not given enough turns; unreachable. -/
  | turns
  deriving DecidableEq, Repr

/-- The elements that `unpack_from` converts. -/
def unpackFrom (width n : ℕ) (data : List UInt8) (pos : ℕ) : Except Fault (List (List UInt8)) :=
  if pos+n*width ≤ data.length then .ok (elements width n (data.drop pos)) else .error .struct

section Widening

variable (w : BitVec 32 → BitVec 64)

/-- The values of a run of elements. -/
def values (width : ℕ) (block : List (List UInt8)) : List (BitVec 64) :=
  if width=4 then unpackF32Block w block else block.map unpackF64

/-- Decode singles to a list (`unpack_f32_array`). -/
def unpackF32List (data : List UInt8) (count start : ℕ) : Except Fault (List (BitVec 64)) :=
  match unpackFrom 4 count data start with
  | .error e => .error e
  | .ok block => .ok (unpackF32Block w block)

/-- Decode doubles to a list (`unpack_f64_array`). -/
def unpackF64List (data : List UInt8) (count start : ℕ) : Except Fault (List (BitVec 64)) :=
  match unpackFrom 8 count data start with
  | .error e => .error e
  | .ok block => .ok (block.map unpackF64)

/-- Decode an array of an element size to a list. -/
def unpackList (width : ℕ) (data : List UInt8) (count start : ℕ) :
    Except Fault (List (BitVec 64)) :=
  if width=4 then unpackF32List w data count start else unpackF64List data count start

/-- Assign a slice of a destination of the same length. -/
def assign (dst : List (BitVec 64)) (i : ℕ) (vs : List (BitVec 64)) : List (BitVec 64) :=
  dst.take i++vs++dst.drop (i+vs.length)

/-- The loop of `unpack_farray_into`, with the turns it has left. -/
def farrayFrom (data : List UInt8) (count width start at_ : ℕ) :
    ℕ → ℕ → List (BitVec 64) → List (BitVec 64) × Option Fault
  | 0, _, dst => (dst,some .turns)
  | turns+1, off, dst =>
    if off < count then
      let n := min (count-off) farrayChunk
      match unpackFrom width n data (start+off*width) with
      | .error e => (dst,some e)
      | .ok block =>
        if at_+off+n ≤ dst.length then
          farrayFrom data count width start at_ turns (off+n)
            (assign dst (at_+off) (values w width block))
        else (dst,some .value)
    else (dst,none)

/-- Move `count` elements to a destination from item `at_` on (`unpack_farray_into`). -/
def unpackFarrayInto (dst : List (BitVec 64)) (at_ : ℕ) (data : List UInt8)
    (count width start : ℕ) : List (BitVec 64) × Option Fault :=
  farrayFrom w data count width start at_ (count+1) 0 dst

end Widening

section Blocks

variable {w : BitVec 32 → BitVec 64}

/-- A run of elements is as long as its values. -/
@[simp] theorem values_length (width : ℕ) (block : List (List UInt8)) :
    (values w width block).length=block.length := by
  unfold values
  split
  · rw [unpackF32Block_eq,List.length_map]
  · rw [List.length_map]

/-- Two runs are one. -/
theorem values_append (width : ℕ) (b c : List (List UInt8)) :
    values w width (b++c)=values w width b++values w width c := by
  unfold values
  split
  · rw [unpackF32Block_eq,unpackF32Block_eq,unpackF32Block_eq,List.map_append]
  · rw [List.map_append]

/-- A slice assigned leaves the length. -/
theorem assign_length {dst vs : List (BitVec 64)} {i : ℕ} (h : i+vs.length ≤ dst.length) :
    (assign dst i vs).length=dst.length := by
  unfold assign
  simp only [List.length_append,List.length_take,List.length_drop]
  omega

/-- What lies outside a slice assigned stays. -/
theorem assign_outside {dst vs : List (BitVec 64)} {i k : ℕ} (h : i+vs.length ≤ dst.length)
    (hk : k < i ∨ i+vs.length ≤ k) : (assign dst i vs)[k]?=dst[k]? := by
  unfold assign
  have htake : (dst.take i).length=i := by rw [List.length_take]; omega
  rcases hk with hk | hk
  · rw [List.append_assoc,List.getElem?_append_left (by omega),List.getElem?_take_of_lt hk]
  · rw [List.getElem?_append_right (by rw [List.length_append]; omega),List.getElem?_drop,
      List.length_append,htake]
    congr 1
    omega

/-- Two slices in a row are one. -/
theorem assign_assign {dst vs ws : List (BitVec 64)} {i : ℕ}
    (h : i+vs.length+ws.length ≤ dst.length) :
    assign (assign dst i vs) (i+vs.length) ws=assign dst i (vs++ws) := by
  have htake : (dst.take i).length=i := by rw [List.length_take]; omega
  have hfront : (dst.take i++vs).length=i+vs.length := by rw [List.length_append,htake]
  unfold assign
  rw [List.take_append_of_le_length (by omega),List.take_of_length_le (by omega),
    List.drop_append,List.drop_eq_nil_of_le (by omega),List.drop_drop,hfront,
    List.length_append]
  simp only [List.nil_append,List.append_assoc]
  congr 4
  omega

/-- Nothing outside the range is written, whether or not the move is carried through. -/
theorem farrayFrom_outside (data : List UInt8) (count width start at_ : ℕ) {k : ℕ}
    (hk : k < at_ ∨ at_+count ≤ k) (turns : ℕ) : ∀ (off : ℕ) (dst : List (BitVec 64)),
      (farrayFrom w data count width start at_ turns off dst).1[k]?=dst[k]? ∧
        (farrayFrom w data count width start at_ turns off dst).1.length=dst.length := by
  induction turns with
  | zero => exact fun _ _ => ⟨rfl,rfl⟩
  | succ turns ih =>
    intro off dst
    unfold farrayFrom
    by_cases hoff : off < count
    · rw [if_pos hoff]
      dsimp only
      unfold unpackFrom
      by_cases hdata : start+off*width+min (count-off) farrayChunk*width ≤ data.length
      · rw [if_pos hdata]
        dsimp only
        by_cases hroom : at_+off+min (count-off) farrayChunk ≤ dst.length
        · rw [if_pos hroom]
          have hvs : (values w width (elements width (min (count-off) farrayChunk)
              (data.drop (start+off*width)))).length=min (count-off) farrayChunk := by
            rw [values_length,elements_length]
          obtain ⟨hget,hlen⟩ := ih (off+min (count-off) farrayChunk) (assign dst (at_+off)
            (values w width (elements width (min (count-off) farrayChunk)
              (data.drop (start+off*width)))))
          rw [hget,hlen]
          exact ⟨assign_outside (by omega) (by omega),assign_length (by omega)⟩
        · rw [if_neg hroom]
          exact ⟨rfl,rfl⟩
      · rw [if_neg hdata]
        exact ⟨rfl,rfl⟩
    · rw [if_neg hoff]
      exact ⟨rfl,rfl⟩

/-- With the bytes and the room there, the blocks come to one assignment. -/
theorem farrayFrom_stored {data : List UInt8} {count width start at_ : ℕ}
    (hdata : start+count*width ≤ data.length) (turns : ℕ) :
    ∀ (off : ℕ) (dst : List (BitVec 64)), off ≤ count → count-off < turns →
      at_+count ≤ dst.length →
      farrayFrom w data count width start at_ turns off dst=
        (assign dst (at_+off)
          (values w width (elements width (count-off) (data.drop (start+off*width)))),none) := by
  induction turns with
  | zero => intro off dst _ h; omega
  | succ turns ih =>
    intro off dst hle hturns hroom
    unfold farrayFrom
    by_cases hoff : off < count
    · rw [if_pos hoff]
      dsimp only
      have hchunk : farrayChunk=64 := rfl
      have hpos : 0 < min (count-off) farrayChunk := by omega
      have hn : min (count-off) farrayChunk ≤ count-off := Nat.min_le_left _ _
      generalize min (count-off) farrayChunk=n at hpos hn
      have hbytes : start+off*width+n*width ≤ data.length := by
        have h : off*width+n*width ≤ count*width := by
          rw [← Nat.add_mul]
          exact Nat.mul_le_mul_right width (by omega)
        omega
      rw [unpackFrom,if_pos hbytes]
      dsimp only
      rw [if_pos (by omega)]
      have hlen : (values w width (elements width n (data.drop (start+off*width)))).length=n := by
        rw [values_length,elements_length]
      have hlast : (values w width (elements width (count-(off+n))
          (data.drop (start+(off+n)*width)))).length=count-(off+n) := by
        rw [values_length,elements_length]
      rw [ih (off+n) _ (by omega) (by omega) (by rw [assign_length (by omega)]; omega)]
      congr 1
      have happend := @assign_assign dst
        (values w width (elements width n (data.drop (start+off*width))))
        (values w width (elements width (count-(off+n)) (data.drop (start+(off+n)*width))))
        (at_+off) (by omega)
      rw [hlen] at happend
      rw [← Nat.add_assoc,happend,← values_append]
      congr 2
      rw [show count-off=n+(count-(off+n)) from by omega,elements_add,List.drop_drop,
        show start+off*width+n*width=start+(off+n)*width from by rw [Nat.add_mul]; omega]
    · rw [if_neg hoff]
      have hnone : count-off=0 := by omega
      rw [hnone]
      have hnil : values w width (elements width 0 (data.drop (start+off*width)))=[] :=
        List.length_eq_zero_iff.mp (by rw [values_length,elements_length])
      rw [hnil]
      simp [assign]

/-- Where the bytes or the room are missing, the move is not carried through. -/
theorem farrayFrom_refused {data : List UInt8} {count width start at_ : ℕ} (turns : ℕ) :
    ∀ (off : ℕ) (dst : List (BitVec 64)), off < count → count-off < turns →
      ¬(start+count*width ≤ data.length ∧ at_+count ≤ dst.length) →
      (farrayFrom w data count width start at_ turns off dst).2≠none := by
  induction turns with
  | zero => intro off dst _ h; omega
  | succ turns ih =>
    intro off dst hoff hturns hno
    unfold farrayFrom
    rw [if_pos hoff]
    dsimp only
    have hchunk : farrayChunk=64 := rfl
    have hpos : 0 < min (count-off) farrayChunk := by omega
    have hn : min (count-off) farrayChunk ≤ count-off := Nat.min_le_left _ _
    generalize min (count-off) farrayChunk=n at hpos hn
    unfold unpackFrom
    by_cases hdata : start+off*width+n*width ≤ data.length
    · rw [if_pos hdata]
      dsimp only
      by_cases hroom : at_+off+n ≤ dst.length
      · rw [if_pos hroom]
        have hvs : (values w width (elements width n (data.drop (start+off*width)))).length=n := by
          rw [values_length,elements_length]
        have hlen : (assign dst (at_+off) (values w width (elements width n
            (data.drop (start+off*width))))).length=dst.length := assign_length (by omega)
        -- the last block would have been the bytes and the room
        have hmore : off+n < count := by
          by_contra hlast
          have heq : off+n=count := by omega
          refine hno ⟨?_,by omega⟩
          rw [← heq,Nat.add_mul]
          omega
        exact ih (off+n) _ hmore (by omega) (by rw [hlen]; exact hno)
      · rw [if_neg hroom]
        simp
    · rw [if_neg hdata]
      simp

/-- The pattern of an element: a NaN among singles bit for bit, any other single as `struct`
widens it, a double as it is. -/
def pattern (w : BitVec 32 → BitVec 64) (width : ℕ) (e : List UInt8) : BitVec 64 :=
  if width=4 then if isNan32 (unpackU32 e) then widenNan (unpackU32 e) else w (unpackU32 e)
  else unpackF64 e

/-- A widening that is exact on the numbers, and makes NaNs of NaNs. -/
structure Widening (w : BitVec 32 → BitVec 64) : Prop where
  /-- Numbers keep their values. -/
  exact : ∀ b : BitVec 32, isNan32 b=false → Exact32 b (w b)
  /-- NaNs stay NaNs. -/
  nan : ∀ b : BitVec 32, isNan32 b=true → isNan64 (w b)=true

/-- The values of a run are the patterns of its elements. -/
theorem Widening.values_eq (hw : Widening w) (width : ℕ) (block : List (List UInt8)) :
    values w width block=block.map (pattern w width) := by
  unfold values
  by_cases hwidth : width=4
  · rw [if_pos hwidth,unpackF32Block_eq]
    refine List.map_congr_left fun e _ => ?_
    unfold unpackF32 pattern
    rw [if_pos hwidth]
    dsimp only
    cases hnan : isNan32 (unpackU32 e) with
    | true =>
      rw [if_pos (hw.nan _ hnan),unpackF32Bits,if_pos hnan]
      rfl
    | false =>
      rw [(hw.exact _ hnan).number hnan]
      rfl
  · rw [if_neg hwidth]
    refine List.map_congr_left fun e _ => ?_
    unfold pattern
    rw [if_neg hwidth]

/-- The elements one by one. -/
theorem elements_get (width : ℕ) {count i : ℕ} (hi : i < count) (data : List UInt8) :
    (elements width count data)[i]?=some ((data.drop (i*width)).take width) := by
  induction count generalizing i data with
  | zero => omega
  | succ count ih =>
    rw [elements]
    cases i with
    | zero => simp
    | succ i =>
      rw [List.getElem?_cons_succ,ih (by omega),List.drop_drop,Nat.succ_mul]
      congr 3
      omega

/-- What an array of an element size decodes to, in a list and in a destination. -/
structure Agrees (w : BitVec 32 → BitVec 64) (width : ℕ) (data : List UInt8) (count start : ℕ) :
    Prop where
  /-- With the bytes there, the list holds the patterns of the elements, and so does the range
  of any destination that has the room. -/
  stored : start+count*width ≤ data.length → ∃ vs : List (BitVec 64),
    unpackList w width data count start=.ok vs ∧ vs.length=count ∧
      (∀ i : ℕ, i < count →
        vs[i]?=some (pattern w width ((data.drop (start+i*width)).take width))) ∧
      ∀ (dst : List (BitVec 64)) (at_ : ℕ), at_+count ≤ dst.length →
        unpackFarrayInto w dst at_ data count width start=
          (dst.take at_++vs++dst.drop (at_+count),none)
  /-- With too few bytes there is no list. -/
  short : data.length < start+count*width → unpackList w width data count start=.error .struct
  /-- A destination is filled iff there are the bytes and the room. -/
  carried : ∀ (dst : List (BitVec 64)) (at_ : ℕ), 0 < count →
    ((unpackFarrayInto w dst at_ data count width start).2=none ↔
      start+count*width ≤ data.length ∧ at_+count ≤ dst.length)
  /-- Nothing outside the range is written. -/
  outside : ∀ (dst : List (BitVec 64)) (at_ k : ℕ), k < at_ ∨ at_+count ≤ k →
    (unpackFarrayInto w dst at_ data count width start).1[k]?=dst[k]?
  /-- A NaN keeps its sign, its payload and its signaling bit, and comes back as it was. -/
  nans : ∀ (narrow : BitVec 64 → Option (BitVec 32)) (b : BitVec 32), isNan32 b=true →
    isNan64 (widenNan b)=true ∧ (widenNan b).msb=b.msb ∧
      magnitude64 (widenNan b)=0x7FF*2^52+magnitude32 b%2^23*2^29 ∧
      packF32Bits narrow (widenNan b)=b

/-- Float arrays decode the same into a list and into a destination. -/
theorem farray_agrees {w : BitVec 32 → BitVec 64} (hw : Widening w) {width : ℕ}
    (hwidth : width=4 ∨ width=8) (data : List UInt8) (count start : ℕ) :
    Agrees w width data count start := by
  constructor
  · intro hdata
    refine ⟨values w width (elements width count (data.drop start)),?_,?_,?_,?_⟩
    · rcases hwidth with rfl | rfl
      · simp [unpackList,unpackF32List,unpackFrom,hdata,values]
      · simp [unpackList,unpackF64List,unpackFrom,hdata,values]
    · rw [values_length,elements_length]
    · intro i hi
      rw [hw.values_eq,List.getElem?_map,elements_get width hi,List.drop_drop]
      rfl
    · intro dst at_ hroom
      have h := farrayFrom_stored (w := w) hdata (count+1) 0 dst (Nat.zero_le _) (by omega) hroom
      rw [unpackFarrayInto,h,Nat.zero_mul,Nat.add_zero,Nat.add_zero,Nat.sub_zero,assign,
        values_length,elements_length]
  · intro hshort
    have hno : ¬start+count*width ≤ data.length := by omega
    rcases hwidth with rfl | rfl
    · simp [unpackList,unpackF32List,unpackFrom,hno]
    · simp [unpackList,unpackF64List,unpackFrom,hno]
  · intro dst at_ hcount
    constructor
    · intro h
      by_contra hno
      exact farrayFrom_refused (count+1) 0 dst hcount (by omega) hno h
    · rintro ⟨hdata,hroom⟩
      rw [unpackFarrayInto,
        farrayFrom_stored hdata (count+1) 0 dst (Nat.zero_le _) (by omega) hroom]
  · exact fun dst at_ k hk => (farrayFrom_outside data count width start at_ hk (count+1) 0 dst).1
  · intro narrow b hb
    have hgt := (isNan32_iff b).mp hb
    have hmant : magnitude32 b%2^23=b.toNat%2^23 := by
      unfold magnitude32
      omega
    refine ⟨widenNan_nan hb,?_,?_,packF32Bits_widenNan narrow hb⟩
    · rw [widenNan_signed,msb_signed (by omega)]
    · rw [widenNan_signed,magnitude_signed (by omega),hmant]

/-- A number and a signaling NaN among singles. -/
theorem farray_agrees_nan : Agrees structF32 4 [0,0,128,63,1,0,160,127] 2 0 :=
  farray_agrees ⟨fun _ => structF32_exact,fun _ => structF32_nan⟩ (.inl rfl)
    [0,0,128,63,1,0,160,127] 2 0

end Blocks

section Stores

variable {V : Type} {c : Config V}

/-- The destination has room for a run of doubles. -/
def FitsIn (c : Config V) (into : FloatSink) (n : ℕ) : Prop :=
  match into with
  | .words => n ≤ c.nwords
  | .buffer d => n*8 ≤ d.nbytes

/-- Two runs of slots in a row are one. -/
theorem setWords_append (s : Store V) (i : ℕ) (xs ys : List (BitVec 64)) :
    (s.setWords i xs).setWords (i+xs.length) ys=s.setWords i (xs++ys) := by
  unfold Store.setWords
  congr 1
  funext k
  dsimp only
  rw [List.length_append]
  by_cases hlast : i+xs.length ≤ k ∧ k < i+xs.length+ys.length
  · rw [if_pos hlast,if_pos (by omega),List.getD_append_right _ _ _ _ (by omega)]
    congr 1
    omega
  · rw [if_neg hlast]
    by_cases hfirst : i ≤ k ∧ k < i+xs.length
    · rw [if_pos hfirst,if_pos (by omega),List.getD_append _ _ _ _ (by omega)]
    · rw [if_neg hfirst,if_neg (by omega)]

/-- Two runs of bytes in a row are one. -/
theorem setMem_append (s : Store V) (i : ℕ) (xs ys : List UInt8) :
    (s.setMem i xs).setMem (i+xs.length) ys=s.setMem i (xs++ys) := by
  unfold Store.setMem
  congr 1
  funext k
  dsimp only
  rw [List.length_append]
  by_cases hlast : i+xs.length ≤ k ∧ k < i+xs.length+ys.length
  · rw [if_pos hlast,if_pos (by omega),List.getD_append_right _ _ _ _ (by omega)]
    congr 1
    omega
  · rw [if_neg hlast]
    by_cases hfirst : i ≤ k ∧ k < i+xs.length
    · rw [if_pos hfirst,if_pos (by omega),List.getD_append _ _ _ _ (by omega)]
    · rw [if_neg hfirst,if_neg (by omega)]

/-- The bytes of a run of doubles. -/
theorem doubles_length (vs : List (BitVec 64)) :
    (vs.flatMap fun v => leBytes 8 v.toNat).length=vs.length*8 := by
  induction vs with
  | nil => rfl
  | cons v vs ih =>
    rw [List.flatMap_cons,List.length_append,leBytes_length,ih,List.length_cons]
    omega

/-- Two runs stored in a row are one. -/
theorem put_append {into : FloatSink} {i : ℕ} {xs ys : List (BitVec 64)}
    (h : FitsIn c into (i+xs.length+ys.length)) :
    (into.put c i xs).andThen (into.put c (i+xs.length) ys)=into.put c i (xs++ys) := by
  cases into with
  | words =>
    unfold FitsIn at h
    dsimp only at h
    unfold FloatSink.put
    dsimp only
    rw [List.length_append,if_pos (by omega),if_pos (by omega),if_pos (by omega)]
    funext s
    exact congrArg (fun s => (s,none)) (setWords_append s i xs ys)
  | buffer d =>
    unfold FitsIn at h
    dsimp only at h
    unfold FloatSink.put
    dsimp only
    rw [List.length_append,if_pos (by omega),if_pos (by omega),if_pos (by omega)]
    funext s
    have hm := setMem_append s (d.base+i*8) (xs.flatMap fun v => leBytes 8 v.toNat)
      (ys.flatMap fun v => leBytes 8 v.toNat)
    rw [doubles_length,show d.base+i*8+xs.length*8=d.base+(i+xs.length)*8 from by omega] at hm
    rw [List.flatMap_append]
    exact congrArg (fun s => (s,none)) hm

/-- The decoder's own destinations get the values of a list. -/
theorem unpackFarrayInto_put {into : FloatSink} {base count width start : ℕ}
    (hroom : FitsIn c into (base+count)) (data : List UInt8) (turns : ℕ) :
    ∀ off : ℕ, off ≤ count → count-off < turns →
      SofaBuffers.unpackFarrayInto c into base data count width start turns off=
        if off < count then
          into.put c (base+off)
            (values structF32 width (elements width (count-off) (data.drop (start+off*width))))
        else .done := by
  induction turns with
  | zero => intro off _ h; omega
  | succ turns ih =>
    intro off hle hturns
    unfold SofaBuffers.unpackFarrayInto
    by_cases hoff : off < count
    · rw [if_pos hoff,if_pos hoff]
      dsimp only
      have hchunk : farrayChunk=64 := rfl
      have hpos : 0 < min (count-off) farrayChunk := by omega
      have hn : min (count-off) farrayChunk ≤ count-off := Nat.min_le_left _ _
      generalize min (count-off) farrayChunk=n at hpos hn
      rw [ih (off+n) (by omega) (by omega)]
      have hlen : (values structF32 width (elements width n
          (data.drop (start+off*width)))).length=n := by
        rw [values_length,elements_length]
      have hsplit : elements width (count-off) (data.drop (start+off*width))=
          elements width n (data.drop (start+off*width))++
            elements width (count-(off+n)) (data.drop (start+(off+n)*width)) := by
        have h := elements_add width n (count-(off+n)) (data.drop (start+off*width))
        rw [List.drop_drop,show start+off*width+n*width=start+(off+n)*width from by
          rw [Nat.add_mul]; omega,show n+(count-(off+n))=count-off from by omega] at h
        exact h
      rw [hsplit,values_append]
      by_cases hmore : off+n < count
      · rw [if_pos hmore]
        have hlast : (values structF32 width (elements width (count-(off+n))
            (data.drop (start+(off+n)*width)))).length=count-(off+n) := by
          rw [values_length,elements_length]
        have hput := @put_append V c into (base+off)
          (values structF32 width (elements width n (data.drop (start+off*width))))
          (values structF32 width (elements width (count-(off+n))
            (data.drop (start+(off+n)*width))))
          (by rw [hlen,hlast,show base+off+n+(count-(off+n))=base+count from by omega]; exact hroom)
        rw [hlen,Nat.add_assoc base off n] at hput
        exact hput
      · -- the last block, and nothing after it
        rw [if_neg hmore,show count-(off+n)=0 from by omega]
        have hnil : values structF32 width
            (elements width 0 (data.drop (start+(off+n)*width)))=[] :=
          List.length_eq_zero_iff.mp (by rw [values_length,elements_length])
        rw [hnil,List.append_nil]
        exact Effect.andThen_done _
    · rw [if_neg hoff,if_neg hoff]

end Stores

end Farray

end SofaBuffers
