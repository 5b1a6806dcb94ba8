import SofaBuffers.Types
import SofaBuffers.Utf8

/-!
# Fixlen payloads

A double is its 64-bit pattern and a single its 32-bit pattern. The widening
performed by `struct` is exact on everything but a NaN, whose quiet bit it may
set, so the source widens a NaN by hand on its bits. The functions here take
the `struct` widening as an argument; `structF32` is the one the decoder uses.
A string headed for the caller's own buffer is validated a window at a time.
-/

set_option autoImplicit false

namespace SofaBuffers

/-- Assign a slice of a buffer of the same length. -/
def splice (r : List UInt8) (i : ℕ) (bs : List UInt8) : List UInt8 :=
  r.take i++bs++r.drop (i+bs.length)

/-- A slice assigned is there. -/
theorem splice_length {r bs : List UInt8} {i : ℕ} (h : i+bs.length ≤ r.length) :
    (splice r i bs).length=r.length := by
  rw [splice,List.length_append,List.length_append,List.length_take,List.length_drop]
  omega

/-- A buffer up to the end of a slice assigned to it. -/
theorem splice_take {r bs : List UInt8} {i : ℕ} (h : i+bs.length ≤ r.length) :
    (splice r i bs).take (i+bs.length)=r.take i++bs := by
  rw [splice,List.take_append_of_le_length (by rw [List.length_append,List.length_take]; omega)]
  refine List.take_of_length_le ?_
  rw [List.length_append,List.length_take]
  omega

/-- A buffer in front of a slice assigned to it. -/
theorem splice_front {r bs : List UInt8} {i k : ℕ} (h : i+bs.length ≤ r.length) (hk : k ≤ i) :
    (splice r i bs).take k=r.take k := by
  have hcut : (splice r i bs).take k=((splice r i bs).take (i+bs.length)).take k := by
    rw [List.take_take,Nat.min_eq_left (by omega)]
  rw [hcut,splice_take h,List.take_append_of_le_length (by rw [List.length_take]; omega),
    List.take_take,Nat.min_eq_left hk]

/-- The number `bs` spells in little-endian order. -/
def leNat : List UInt8 → ℕ
  | [] => 0
  | b::t => b.toNat+256*leNat t

/-- The low `n` bytes of `v` in little-endian order. -/
def leBytes : ℕ → ℕ → List UInt8
  | 0, _ => []
  | n+1, v => UInt8.ofNat (v%256)::leBytes n (v/256)

@[simp] theorem leBytes_length (n v : ℕ) : (leBytes n v).length=n := by
  induction n generalizing v with
  | zero => rfl
  | succ n ih => rw [leBytes,List.length_cons,ih]

/-- The little-endian number of the little-endian bytes. -/
theorem leNat_leBytes (n v : ℕ) : leNat (leBytes n v)=v%256^n := by
  induction n generalizing v with
  | zero => rw [leBytes,leNat,Nat.pow_zero,Nat.mod_one]
  | succ n ih =>
    have hb : (UInt8.ofNat (v%256)).toNat=v%256 := by
      rw [UInt8.toNat_ofNat',Nat.mod_eq_of_lt (Nat.mod_lt v (by omega))]
    rw [leBytes,leNat,ih,hb,Nat.pow_succ',Nat.mod_mul]

/-- The number so many bytes spell. -/
theorem leNat_lt (bs : List UInt8) : leNat bs < 256^bs.length := by
  induction bs with
  | nil => decide
  | cons b bs ih =>
    have hb := b.toNat_lt
    rw [leNat,List.length_cons,Nat.pow_succ']
    omega

/-- The little-endian bytes of the little-endian number. -/
theorem leBytes_leNat (bs : List UInt8) : leBytes bs.length (leNat bs)=bs := by
  induction bs with
  | nil => rfl
  | cons b bs ih =>
    have hb := b.toNat_lt
    have hmod : (b.toNat+256*leNat bs)%256=b.toNat := by omega
    have hdiv : (b.toNat+256*leNat bs)/256=leNat bs := by omega
    rw [List.length_cons,leNat,leBytes,hmod,hdiv,ih,UInt8.ofNat_toNat]

/-- The unsigned reading of a 4-byte payload (`unpack_u32`). -/
def unpackU32 (data : List UInt8) : BitVec 32 := BitVec.ofNat 32 (leNat data)

/-- The double a payload of eight bytes carries (`unpack_f64`). -/
def unpackF64 (data : List UInt8) : BitVec 64 := BitVec.ofNat 64 (leNat data)

/-- All exponent bits of a single. -/
def f32Exp : BitVec 32 := 0x7F800000

/-- The 23-bit mantissa of a single. -/
def f32Mant : BitVec 32 := 0x007FFFFF

/-- The single is a NaN. -/
def isNan32 (bits : BitVec 32) : Bool := (bits&&&f32Exp)==f32Exp && (bits&&&f32Mant) != 0

/-- The double is a NaN: the only value unequal to itself. -/
def isNan64 (bits : BitVec 64) : Bool :=
  (bits&&&0x7FF0000000000000)==0x7FF0000000000000 && (bits&&&0x000FFFFFFFFFFFFF) != 0

/-- The widening of `struct`: exact, with the quiet bit of a NaN set. -/
def structF32 (bits : BitVec 32) : BitVec 64 :=
  let sign := bits.toNat/2^31*2^63
  let e := bits.toNat/2^23%256
  let m := bits.toNat%2^23
  let magnitude :=
    if e=255 then
      if m=0 then 0x7FF*2^52 else 0x7FF*2^52+(m*2^29|||2^51)
    else if e=0 then
      -- a subnormal single is a normal double once its leading bit is found
      if m=0 then 0 else (m.log2+874)*2^52+(m-2^m.log2)*2^(52-m.log2)
    else (e+896)*2^52+m*2^29
  BitVec.ofNat 64 (sign+magnitude)

/-- The bits of a NaN single carried over one by one. -/
def widenNan (bits : BitVec 32) : BitVec 64 :=
  ((bits>>>31).setWidth 64<<<63)|||(0x7FF<<<52)|||((bits&&&f32Mant).setWidth 64<<<29)

section Widening

variable (w : BitVec 32 → BitVec 64)

/-- Widen a raw single (`_unpack_f32_bits`). -/
def unpackF32Bits (bits : BitVec 32) : BitVec 64 :=
  if isNan32 bits then widenNan bits else w bits

/-- Decode one little-endian single (`unpack_f32`). -/
def unpackF32 (data : List UInt8) : BitVec 64 :=
  let value := w (unpackU32 data)
  if isNan64 value then unpackF32Bits w (unpackU32 data) else value

/-- Cut a payload into `count` elements of `width` bytes. -/
def elements (width : ℕ) : ℕ → List UInt8 → List (List UInt8)
  | 0, _ => []
  | count+1, data => data.take width::elements width count (data.drop width)

/-- The values of one block of singles: converted as they are unless one of
them is a NaN, which is then taken from its raw bits. -/
def unpackF32Block (data : List (List UInt8)) : List (BitVec 64) :=
  let values := data.map fun e => w (unpackU32 e)
  if values.any isNan64 then
    List.zipWith (fun v e => if isNan64 v then unpackF32Bits w (unpackU32 e) else v) values data
  else values

/-- Decode `count` little-endian singles from `start` on (`unpack_f32_array`). -/
def unpackF32Array (data : List UInt8) (count start : ℕ) : List (BitVec 64) :=
  unpackF32Block w (elements 4 count (data.drop start))

end Widening

/-- Decode `count` little-endian doubles from `start` on (`unpack_f64_array`). -/
def unpackF64Array (data : List UInt8) (count start : ℕ) : List (BitVec 64) :=
  (elements 8 count (data.drop start)).map unpackF64

/-- A block is decoded element by element. -/
theorem unpackF32Block_eq (w : BitVec 32 → BitVec 64) (data : List (List UInt8)) :
    unpackF32Block w data=data.map (unpackF32 w) := by
  have hpoint : ∀ es : List (List UInt8),
      List.zipWith (fun v e => if isNan64 v then unpackF32Bits w (unpackU32 e) else v)
        (es.map fun e => w (unpackU32 e)) es=es.map (unpackF32 w) := by
    intro es
    induction es with
    | nil => rfl
    | cons e es ih =>
      rw [List.map_cons,List.zipWith_cons_cons,ih,List.map_cons]
      rfl
  rw [unpackF32Block]
  split
  · exact hpoint data
  · next hany =>
    refine List.map_congr_left ?_
    intro e he
    have hne : ¬isNan64 (w (unpackU32 e))=true := by
      intro hn
      exact hany (List.any_eq_true.mpr ⟨_,List.mem_map_of_mem he,hn⟩)
    rw [unpackF32]
    simp only [hne,if_false,Bool.false_eq_true]

@[simp] theorem elements_length (width count : ℕ) (data : List UInt8) :
    (elements width count data).length=count := by
  induction count generalizing data with
  | zero => rfl
  | succ count ih => rw [elements,List.length_cons,ih]

/-- Elements put one behind the other are cut apart again. -/
theorem elements_flatMap {α : Type} {width : ℕ} {f : α → List UInt8}
    (hf : ∀ a, (f a).length=width) (xs : List α) :
    elements width xs.length (xs.flatMap f)=xs.map f := by
  induction xs with
  | nil => rfl
  | cons x xs ih =>
    rw [List.length_cons,List.flatMap_cons,elements,List.take_left' (hf x),List.drop_left' (hf x),
      ih,List.map_cons]

/-- Elements of a size are all the payload they make up. -/
theorem elements_flatten {width count : ℕ} {data : List UInt8} (h : data.length=count*width) :
    (elements width count data).flatten=data := by
  induction count generalizing data with
  | zero =>
    rw [Nat.zero_mul] at h
    rw [elements,List.flatten_nil,List.length_eq_zero_iff.mp h]
  | succ count ih =>
    rw [Nat.succ_mul] at h
    have hrest : (data.drop width).length=count*width := by
      rw [List.length_drop]
      omega
    rw [elements,List.flatten_cons,ih hrest,List.take_append_drop]

/-- Each element of a size is of that size. -/
theorem elements_size {width count : ℕ} {data : List UInt8} (h : data.length=count*width) :
    ∀ e ∈ elements width count data, e.length=width := by
  induction count generalizing data with
  | zero => simp [elements]
  | succ count ih =>
    rw [Nat.succ_mul] at h
    intro e he
    rw [elements,List.mem_cons] at he
    rcases he with rfl | he
    · rw [List.length_take]
      omega
    · exact ih (by rw [List.length_drop]; omega) e he

/-- Elements are cut out of as many bytes as they take. -/
theorem elements_take (width : ℕ) {count m : ℕ} (h : count*width ≤ m) (data : List UInt8) :
    elements width count (data.take m)=elements width count data := by
  induction count generalizing m data with
  | zero => rfl
  | succ count ih =>
    rw [Nat.succ_mul] at h
    rw [elements,elements,List.take_take,Nat.min_eq_left (by omega),List.drop_take,
      ih (by omega)]

/-- Elements are cut off in two runs as they are in one. -/
theorem elements_add (width n m : ℕ) (data : List UInt8) :
    elements width (n+m) data=elements width n data++elements width m (data.drop (n*width)) := by
  induction n generalizing data with
  | zero => rw [Nat.zero_add,Nat.zero_mul,List.drop_zero]; rfl
  | succ n ih =>
    rw [Nat.succ_add,elements,elements,ih,List.drop_drop,List.cons_append,Nat.succ_mul,Nat.add_comm]

example : structF32 0x3F800000=0x3FF0000000000000 := by decide

example : unpackF32 structF32 [1,0,160,127]=0x7FF4000020000000 := by decide

/-- Bytes validated per pass. -/
def utf8Window : ℕ := 4096

/-- The validation loop of `utf8_valid`, with the passes it has left; `none` when they run
out. -/
def utf8ValidFrom (data : List UInt8) (start size : ℕ) : ℕ → ℕ → Option Bool
  | 0, _ => none
  | turns+1, pos =>
    if pos < size then
      let n := min (size-pos) utf8Window
      match Utf8.consume (size ≤ pos+n) ((data.drop (start+pos)).take n) with
      | none => some false
      | some used => if used=0 then some false else utf8ValidFrom data start size turns (pos+used)
    else some true

/-- Are `size` bytes of `data` from `start` on strict UTF-8 (`utf8_valid`)? -/
def utf8Valid (data : List UInt8) (start size : ℕ) : Bool :=
  utf8ValidFrom data start size (size+1) 0==some true

/-- A pass per byte is enough, and every pass keeps the verdict. -/
theorem utf8ValidFrom_eq {data : List UInt8} {start size turns pos : ℕ}
    (hlen : start+size ≤ data.length) (hpos : pos ≤ size) (hturns : size-pos < turns) :
    utf8ValidFrom data start size turns pos=
      some (Utf8.valid ((data.drop (start+pos)).take (size-pos))) := by
  induction turns generalizing pos with
  | zero => omega
  | succ turns ih =>
    rw [utf8ValidFrom]
    by_cases hend : pos < size
    · rw [if_pos hend]
      dsimp only
      generalize hy : (data.drop (start+pos)).take (size-pos)=ys
      have hyl : ys.length=size-pos := by
        rw [←hy,List.length_take,List.length_drop]
        omega
      have hw : (data.drop (start+pos)).take (min (size-pos) utf8Window)=
          ys.take (min (size-pos) utf8Window) := by
        rw [←hy,List.take_take]
        congr 1
        omega
      rw [hw]
      by_cases hfin : size ≤ pos+min (size-pos) utf8Window
      · have hn : min (size-pos) utf8Window=ys.length := by omega
        rw [decide_eq_true hfin,hn,List.take_length,Utf8.consume,
          Utf8.consumeFor_true (Nat.le_refl _)]
        cases hv : Utf8.valid ys with
        | false => rfl
        | true =>
          have hne : ys.length≠0 := by omega
          rw [if_pos rfl]
          dsimp only
          rw [if_neg hne,ih (by omega) (by omega),hyl]
          have hz : size-(pos+(size-pos))=0 := by omega
          rw [hz,List.take_zero]
          rfl
      · -- a window that is not the last one is far longer than a sequence
        have hn : min (size-pos) utf8Window=4096 := by
          rw [utf8Window] at hfin ⊢
          omega
        have hn' : 4096 ≤ ys.length := by rw [utf8Window] at hn; omega
        rw [decide_eq_false hfin,hn,Utf8.consume]
        have hsplit : ys.take 4096++ys.drop 4096=ys := List.take_append_drop _ _
        rcases Utf8.consumeFor_false (Nat.le_refl (ys.take 4096).length) (ys.drop 4096) with
          ⟨hnone,hv⟩|⟨u,hu,hle,hlt,hv⟩
        · rw [hnone]
          rw [hsplit] at hv
          rw [hv]
        · rw [hu]
          dsimp only
          rw [List.length_take] at hle hlt
          have hu0 : u≠0 := by omega
          rw [hsplit] at hv
          rw [if_neg hu0,ih (by omega) (by omega),hv,
            ←List.drop_append_of_le_length (by rw [List.length_take]; omega),hsplit,←hy,
            List.drop_take,List.drop_drop]
          congr 3
          · omega
          · congr 1
            omega
    · have hz : size-pos=0 := by omega
      rw [if_neg hend,hz,List.take_zero]
      rfl

/-- Windows do not show in the verdict. -/
theorem utf8Valid_eq {data : List UInt8} {start size : ℕ} (hlen : start+size ≤ data.length) :
    utf8Valid data start size=Utf8.valid ((data.drop start).take size) := by
  rw [utf8Valid,utf8ValidFrom_eq hlen (Nat.zero_le _) (by omega)]
  cases Utf8.valid ((data.drop start).take size) <;> rfl

end SofaBuffers
