import SofaBuffers.Encoder.Written
import SofaBuffers.Native.Writers

/-!
# The values of the compiled writers

What a compiled writer makes of its arguments is what the interpreted one makes of
them: the same word, the same bytes, or a refusal with an error of the same class.
-/

set_option autoImplicit false

namespace SofaBuffers

namespace Native

section Words

/-- A word shifted down by all but one bit is its sign in every bit. -/
theorem signs_eq (x : BitVec 64) :
    x.sshiftRight 63=if x.msb then BitVec.allOnes 64 else 0#64 := by
  have hdec := x.msb_eq_decide
  cases hm : x.msb with
  | false =>
    rw [hm] at hdec
    have hlt : x.toNat < 2^63 := Nat.not_le.mp (of_decide_eq_false hdec.symm)
    apply BitVec.eq_of_toNat_eq
    rw [BitVec.sshiftRight_eq_of_msb_false hm,BitVec.toNat_ushiftRight,Nat.shiftRight_eq_div_pow,
      Nat.div_eq_of_lt hlt]
    rfl
  | true =>
    rw [hm] at hdec
    have hge : 2^63 ≤ x.toNat := of_decide_eq_true hdec.symm
    have hlt := x.isLt
    apply BitVec.eq_of_toNat_eq
    rw [BitVec.sshiftRight_eq_of_msb_true hm,BitVec.toNat_not,BitVec.toNat_ushiftRight,
      BitVec.toNat_not,Nat.shiftRight_eq_div_pow,Nat.div_eq_of_lt (by omega)]
    rfl

/-- The zigzag word of a signed one. -/
theorem zigzagEncode_eq {v : ℤ} (hlo : signedMin ≤ v) (hhi : v ≤ signedMax) :
    zigzagEncode (BitVec.ofInt 64 v)=BitVec.ofNat 64 (Zigzag.encode v) := by
  unfold signedMin at hlo
  unfold signedMax at hhi
  apply BitVec.eq_of_toNat_eq
  have hmsb : (BitVec.ofInt 64 v).msb=decide (v < 0) := by
    rw [BitVec.msb_eq_toInt,BitVec.toInt_ofInt,Int.bmod_eq_of_le (by omega) (by omega)]
  have hnat := BitVec.toNat_ofInt (n:=64) (i:=v)
  rw [zigzagEncode,signs_eq,hmsb]
  rcases Zigzag.cases64 (v:=v) (by omega) (by omega) with ⟨k,hk,rfl⟩ | ⟨k,hk,rfl⟩
  · have hpos : ¬(k : ℤ) < 0 := by omega
    rw [Zigzag.encode_nonneg hk,decide_eq_false hpos,if_neg Bool.false_ne_true,BitVec.xor_zero,
      BitVec.toNat_shiftLeft,hnat,BitVec.toNat_ofNat]
    omega
  · have hneg : -(k : ℤ)-1 < 0 := by omega
    rw [Zigzag.encode_neg hk,decide_eq_true hneg,if_pos rfl,BitVec.xor_allOnes,BitVec.toNat_not,
      BitVec.toNat_shiftLeft,hnat,BitVec.toNat_ofNat]
    omega

/-- A number and a tag in a word. -/
theorem tagged_eq {n tag : ℕ} (hn : n < 2^61) (ht : tag < 8) :
    tagged (BitVec.ofNat 64 n) tag=BitVec.ofNat 64 (n*8+tag) := by
  apply BitVec.eq_of_toNat_eq
  have hlow : n*8+tag=n*2^3|||tag := by
    rw [Nat.mul_comm n 8,Nat.mul_comm n (2^3)]
    exact Nat.two_pow_add_eq_or_of_lt (i:=3) ht n
  rw [tagged,BitVec.toNat_or,BitVec.toNat_shiftLeft,BitVec.toNat_ofNat,BitVec.toNat_ofNat,
    BitVec.toNat_ofNat,Nat.mod_eq_of_lt (show n < 2^64 by omega),Nat.shiftLeft_eq,
    Nat.mod_eq_of_lt (show n*2^3 < 2^64 by omega),Nat.mod_eq_of_lt (show tag < 2^64 by omega),
    Nat.mod_eq_of_lt (show n*8+tag < 2^64 by omega),hlow]

/-- A tag fits in three bits. -/
theorem wireType_lt (wtype : WireType) : wtype.toNat < 8 := by
  cases wtype <;> decide

/-- A subtype fits in three bits. -/
theorem subtype_lt (subtype : FixlenSubtype) : subtype.toNat < 8 := by
  cases subtype <;> decide

end Words

/-- A signed value is in range. -/
theorem signedValue_range {value : Given} {v : ℤ} (h : signedValue value=.ok v) :
    signedMin ≤ v ∧ v ≤ signedMax := by
  rw [signedValue] at h
  grind

/-- What is read off the digits of an argument, or asked of the interpreter, is the number the
interpreted engine takes, and what is refused is refused with the same error. -/
structure ReadOff (g : Digits) (value : Given) : Prop where
  /-- Every magnitude of 64 bits at most is put together, and no other. -/
  magnitude : ∀ shift v, g.shift=some shift →
    (magDigits shift (Nat.digits (2^shift) v)).map BitVec.toNat=if v < 2^64 then some v else none
  /-- An unsigned value. -/
  unsigned : (u64Arg g value).map BitVec.toNat=unsignedValue value
  /-- A signed value. -/
  signed : (i64Arg g value).map BitVec.toInt=signedValue value
  /-- A field id. -/
  id : (idArg g value).map BitVec.toNat=checkedId value

/-- An integer argument is read off its digits as the number it is, whichever layout they have,
and whatever its sign and size. -/
theorem digits_read (g : Digits) (value : Given) : ReadOff g value where
  magnitude shift v h := by
    obtain ⟨hs,hlo,hhi⟩ := g.shift_fits h
    rw [magDigits_eq hs hlo hhi]
    split
    · next hv => rw [Option.map_some,BitVec.toNat_ofNat,Nat.mod_eq_of_lt hv]
    · rfl
  unsigned := by
    rw [u64Arg_eq]
    cases hv : unsignedValue value with
    | error why => rfl
    | ok v =>
      show Except.ok (BitVec.ofNat 64 v).toNat=.ok v
      rw [BitVec.toNat_ofNat,Nat.mod_eq_of_lt (unsignedValue_lt hv)]
  signed := by
    rw [i64Arg_eq]
    cases hv : signedValue value with
    | error why => rfl
    | ok v =>
      have hrange := signedValue_range hv
      unfold signedMin signedMax at hrange
      show Except.ok (BitVec.ofInt 64 v).toInt=.ok v
      rw [BitVec.toInt_ofInt,Int.bmod_eq_of_le (by omega) (by omega)]
  id := by
    rw [idArg_eq]
    cases hid : checkedId value with
    | error why => rfl
    | ok v =>
      have hmax := checkedId_le hid
      unfold idMax at hmax
      show Except.ok (BitVec.ofNat 64 v).toNat=.ok v
      rw [BitVec.toNat_ofNat,Nat.mod_eq_of_lt (by omega)]

section Scalars

variable (b : Build) (w : Width)

/-- An unsigned argument of a width. -/
theorem unsignedWithin_eq (value : Given) :
    unsignedWithin b w value=(SofaBuffers.unsignedWithin w value).map (BitVec.ofNat 64) := by
  rw [unsignedWithin,SofaBuffers.unsignedWithin,u64Arg_eq]
  cases hv : unsignedValue value with
  | error why => rfl
  | ok v =>
    have hlt := unsignedValue_lt hv
    have hnat : (BitVec.ofNat 64 v).toNat=v := by
      rw [BitVec.toNat_ofNat,Nat.mod_eq_of_lt hlt]
    show (if w.range.2 < (BitVec.ofNat 64 v).toNat then _ else _)=_
    rw [hnat]
    dsimp only
    split <;> rfl

/-- A signed argument of a width. -/
theorem signedWithin_eq (value : Given) :
    signedWithin b w value=(SofaBuffers.signedWithin w value).map (BitVec.ofInt 64) := by
  rw [signedWithin,SofaBuffers.signedWithin,i64Arg_eq]
  cases hv : signedValue value with
  | error why => rfl
  | ok v =>
    have hrange := signedValue_range hv
    unfold signedMin signedMax at hrange
    have hint : (BitVec.ofInt 64 v).toInt=v := by
      rw [BitVec.toInt_ofInt,Int.bmod_eq_of_le (by omega) (by omega)]
    show (if (BitVec.ofInt 64 v).toInt < w.range.1 ∨ w.range.2 < (BitVec.ofInt 64 v).toInt
      then _ else _)=_
    rw [hint]
    dsimp only
    split <;> rfl

/-- An element of an unsigned array of a width. -/
theorem unsignedElement_eq (hw : w.signed=false) (value : Given) :
    unsignedElement b w value=(elementWordOf w value).map (BitVec.ofNat 64) := by
  have hlow : w.range.1=0 := by cases w <;> first | rfl | cases hw
  have hhigh : w.range.2 ≤ unsignedMax := by cases w <;> decide
  rw [unsignedElement,elementWordOf,unsignedWord_eq,hw,if_neg Bool.false_ne_true]
  cases asInt value "unsigned array value" with
  | error why => rfl
  | ok v =>
    dsimp only
    by_cases hv : v < 0 ∨ v > unsignedMax
    · rw [if_pos hv,if_pos (by omega),elemRefusal,hw,if_neg Bool.false_ne_true,if_pos hv]
      rfl
    · have hmax : (unsignedMax : ℤ)=2^64-1 := by decide
      have hnat : (BitVec.ofNat 64 v.toNat).toNat=v.toNat := by
        rw [BitVec.toNat_ofNat,Nat.mod_eq_of_lt (by omega)]
      have hcast : (v.toNat : ℤ)=v := by omega
      rw [if_neg hv]
      dsimp only
      rw [hnat,hcast]
      by_cases hover : w.range.2 < v
      · lift v to ℕ using (by omega)
        rw [if_pos hover,if_pos (.inr hover),elemRefusal,hw,if_neg Bool.false_ne_true,if_neg hv]
        rfl
      · rw [if_neg hover,if_neg (by omega),if_neg Bool.false_ne_true]
        rfl

/-- An element of a signed array of a width. -/
theorem signedElement_eq (hw : w.signed=true) (value : Given) :
    signedElement b w value=(elementWordOf w value).map (BitVec.ofNat 64) := by
  have hlow : signedMin ≤ w.range.1 := by cases w <;> decide
  have hhigh : w.range.2 ≤ signedMax := by cases w <;> first | decide | cases hw
  rw [signedElement,elementWordOf,signedWord_eq,hw,if_pos rfl]
  cases asInt value "signed array value" with
  | error why => rfl
  | ok v =>
    dsimp only
    by_cases hv : v < signedMin ∨ v > signedMax
    · rw [if_pos hv,if_pos (by omega),elemRefusal,hw,if_pos rfl,if_pos hv]
      rfl
    · have hlo : signedMin ≤ v := by omega
      have hhi : v ≤ signedMax := by omega
      have hint : (BitVec.ofInt 64 v).toInt=v := by
        unfold signedMin at hlo
        unfold signedMax at hhi
        rw [BitVec.toInt_ofInt,Int.bmod_eq_of_le (by omega) (by omega)]
      rw [if_neg hv]
      dsimp only
      rw [hint]
      by_cases hout : v < w.range.1 ∨ w.range.2 < v
      · rw [if_pos hout,if_pos (by omega),elemRefusal,hw,if_pos rfl,if_neg hv]
        rfl
      · rw [if_neg hout,if_neg (by omega),if_pos rfl,zigzagEncode_eq hlo hhi,
          ←zigzagWord_eq hlo hhi]
        rfl

/-- An element of the widest unsigned array. -/
theorem unsignedWord_element (value : Given) :
    wordArg (toU64 b.digits) value "unsigned array value"=
      (elementWordOf .u64 value).map (BitVec.ofNat 64) := by
  rw [←unsignedElement_eq b .u64 rfl,unsignedElement]
  cases hv : wordArg (toU64 b.digits) value "unsigned array value" with
  | error why => rfl
  | ok uv =>
    have hmax : Width.u64.range.2=2^64-1 := by decide
    have hlt := uv.isLt
    dsimp only
    rw [if_neg (by omega)]

/-- An element of the widest signed array. -/
theorem signedWord_element (value : Given) :
    (wordArg (toI64 b.digits) value "signed array value").map zigzagEncode=
      (elementWordOf .i64 value).map (BitVec.ofNat 64) := by
  rw [←signedElement_eq b .i64 rfl,signedElement]
  cases hv : wordArg (toI64 b.digits) value "signed array value" with
  | error why => rfl
  | ok sv =>
    have hmin : Width.i64.range.1=-2^63 := by decide
    have hmax : Width.i64.range.2=2^63-1 := by decide
    have hlo := BitVec.le_toInt sv
    have hhi := BitVec.toInt_lt (x:=sv)
    dsimp only
    rw [if_neg (by omega)]
    rfl

end Scalars

section Floats

variable (narrow : BitVec 64 → Option (BitVec 32))

/-- Four bytes of a word, lowest first. -/
theorem store4_eq (bits : BitVec 32) : store4 bits=leBytes 4 bits.toNat := by
  have hlt := bits.isLt
  have hbyte (k : ℕ) : ((bits>>>k)&&&0xFF).toNat=bits.toNat/2^k%256 := by
    rw [BitVec.toNat_and,BitVec.toNat_ushiftRight,Nat.shiftRight_eq_div_pow]
    exact Nat.and_two_pow_sub_one_eq_mod _ 8
  have hzero := hbyte 0
  rw [BitVec.ushiftRight_zero] at hzero
  rw [store4,hzero,hbyte,hbyte,hbyte]
  simp [leBytes,Nat.div_div_eq_div_mul]

/-- Eight bytes of a word, lowest first. -/
theorem packF64_eq (value : BitVec 64) : packF64 value=SofaBuffers.packF64 value := by
  have hbyte (k : ℕ) : ((value>>>k)&&&0xFF).toNat=value.toNat/2^k%256 := by
    rw [BitVec.toNat_and,BitVec.toNat_ushiftRight,Nat.shiftRight_eq_div_pow]
    exact Nat.and_two_pow_sub_one_eq_mod _ 8
  rw [packF64,SofaBuffers.packF64,leBytes_bytes]
  refine List.map_congr_left fun q _ => ?_
  rw [hbyte,show (256 : ℕ)=2^8 from rfl,←Nat.pow_mul]

/-- The bits a double is narrowed to. -/
theorem packedF32_eq (value : BitVec 64) : packedF32 narrow value=packF32Bits narrow value := by
  have hmant : ((value>>>29)&&&0x007FFFFF).setWidth 32=(value>>>29).setWidth 32&&&f32Mant := by
    rw [BitVec.setWidth_and]
    rfl
  rw [packedF32,packF32Bits,hmant]
  rfl

/-- A single is packed the same. -/
theorem packF32_eq (value : BitVec 64) : packF32 narrow value=SofaBuffers.packF32 narrow value := by
  rw [packF32,store4_eq,packedF32_eq,packF32_bits]

/-- Singles packed in one go are those packed one by one. -/
theorem packF32Array_eq (values : List (BitVec 64)) :
    packF32Array narrow values=values.flatMap (packF32 narrow) := by
  rw [packF32Array_bits,singleBytes,List.flatMap_map]
  refine List.flatMap_congr fun v _ => ?_
  rw [packF32,store4_eq,packedF32_eq]

/-- Doubles packed in one go are those packed one by one. -/
theorem packF64Array_eq (values : List (BitVec 64)) :
    packF64Array values=values.flatMap packF64 := by
  rw [packF64Array]
  exact List.flatMap_congr fun v _ => (packF64_eq v).symm

/-- A packed single has four bytes. -/
theorem packF32_length (value : BitVec 64) : (packF32 narrow value).length=4 := rfl

/-- A packed double has eight. -/
theorem packF64_length (value : BitVec 64) : (packF64 value).length=8 := by
  rw [packF64_eq,SofaBuffers.packF64,leBytes_length]

end Floats

section Bounds

variable (b : Build)

/-- A number in range is above the caller's bound exactly if it is as a number. -/
theorem uOver_eq {v : ℕ} (hv : v < 2^64) (bound : ℤ) : uOver b v bound=decide (bound < v) := by
  have hmax : (unsignedMax : ℤ)=2^64-1 := by decide
  rw [uOver,uLimit,toU64_eq]
  by_cases h : bound < 0 ∨ unsignedMax < bound
  · rw [if_pos h]
    dsimp only
    by_cases hover : (unsignedMax : ℤ) < bound
    · rw [if_pos hover]
      dsimp only
      rw [decide_eq_false (by omega),decide_eq_false (by omega)]
    · rw [if_neg hover]
  · have hnat : (BitVec.ofInt 64 bound).toNat=bound.toNat := by
      rw [BitVec.toNat_ofInt]
      omega
    rw [if_neg h]
    dsimp only
    rw [hnat]
    congr 1
    rw [eq_iff_iff]
    omega

/-- A count in range is within the caller's bound as the interpreted engine says. -/
theorem checkCap_eq {count : ℕ} (hc : count < 2^64) (cap : Option ℤ) :
    checkCap b count cap=withinCap cap count := by
  have hmax : (unsignedMax : ℤ)=2^64-1 := by decide
  cases cap with
  | none => rfl
  | some cap =>
    rw [checkCap,withinCap,toU64_eq]
    by_cases h : cap < 0 ∨ unsignedMax < cap
    · rw [if_pos h]
      dsimp only
      by_cases hneg : cap < 0
      · rw [if_pos hneg,if_neg (by omega)]
      · rw [if_neg hneg,uOver_eq b hc,decide_eq_false (by omega),if_neg Bool.false_ne_true,
          if_neg (by omega)]
    · have hnat : (BitVec.ofInt 64 cap).toNat=cap.toNat := by
        rw [BitVec.toNat_ofInt]
        omega
      rw [if_neg h]
      dsimp only
      rw [hnat]
      by_cases hover : cap.toNat < count
      · rw [if_pos hover,if_pos (by omega)]
      · rw [if_neg hover,if_neg (by omega)]

/-- The bits of a single are the same, or both engines refuse the argument. -/
theorem f32Word_eq (bits : Given) :
    (∃ raw, SofaBuffers.f32Word bits=.ok raw ∧ raw < 2^32 ∧
      f32Word bits=.ok (BitVec.ofNat 32 raw)) ∨
    ∃ why why', SofaBuffers.f32Word bits=.error (.argument why) ∧
      f32Word bits=.error (.argument why') := by
  cases bits with
  | other typeName => exact .inr ⟨_,_,rfl,rfl⟩
  | int v =>
    rw [SofaBuffers.f32Word,f32Word,asInt,indexArg]
    dsimp only
    by_cases h : v < 0 ∨ v > 0xFFFFFFFF
    · rw [if_pos h,if_pos h]
      exact .inr ⟨_,_,rfl,rfl⟩
    · lift v to ℕ using (by omega)
      rw [if_neg h,if_neg h]
      exact .inl ⟨v,rfl,by omega,rfl⟩

/-- A count within a C `ssize_t` is judged as the interpreted engine does. -/
theorem f32Payload_eq (n : ℕ) {count : Option ℤ}
    (hc : ∀ c, count=some c → -2^63 ≤ c ∧ c ≤ 2^63-1) :
    f32Payload n count=SofaBuffers.f32Payload n count := by
  rw [f32Payload.eq_def,SofaBuffers.f32Payload.eq_def]
  dsimp only
  split
  · rfl
  · cases count with
    | none => rfl
    | some c =>
      have hin := hc c rfl
      dsimp only
      rw [if_neg (by omega)]

end Bounds

end Native

end SofaBuffers
