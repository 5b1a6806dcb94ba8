import SofaBuffers.Doubles
import SofaBuffers.Encoder.Writers

/-!
# Singles as doubles

Every single is a double, and the widening of `struct` finds it: exactly, for all but the
NaNs. Those are carried over field by field, and come back as the bits they were.
-/

set_option autoImplicit false

namespace SofaBuffers

/-- A finite magnitude of a single in units of the least single. -/
def unitsOf32 (m : ℕ) : ℕ := if m < 2^23 then m else (2^23+m%2^23)*2^(m/2^23-1)

/-- A double that has the value of a single: its sign, and an infinity or as many units. The
least single is `2^925` of the least double. -/
structure Exact32 (b : BitVec 32) (d : BitVec 64) : Prop where
  /-- The sign. -/
  sign : d.msb=b.msb
  /-- An infinity is an infinity. -/
  infinite : magnitude32 b=0xFF*2^23 → magnitude64 d=0x7FF*2^52
  /-- A number is a number, and the same. -/
  finite : magnitude32 b < 0xFF*2^23 →
    magnitude64 d < 0x7FF*2^52 ∧ unitsOf (magnitude64 d)=unitsOf32 (magnitude32 b)*2^925

/-- What has the value of a single is no NaN. -/
theorem Exact32.number {b : BitVec 32} {d : BitVec 64} (h : Exact32 b d)
    (hb : isNan32 b=false) : isNan64 d=false := by
  have hle : magnitude32 b ≤ 0xFF*2^23 := by
    by_contra hgt
    rw [(isNan32_iff b).mpr (by omega)] at hb
    cases hb
  by_contra hd
  have hgt := (isNan64_iff d).mp (by simpa using hd)
  rcases Nat.lt_or_ge (magnitude32 b) (0xFF*2^23) with hlt | hge
  · have hfin := (h.finite hlt).1
    omega
  · have hinf := h.infinite (by omega)
    omega

/-- The magnitude that `struct` widens to. -/
def widened (m : ℕ) : ℕ :=
  let e := m/2^23
  let m := m%2^23
  if e=255 then
    if m=0 then 0x7FF*2^52 else 0x7FF*2^52+(m*2^29|||2^51)
  else if e=0 then
    if m=0 then 0 else (m.log2+874)*2^52+(m-2^m.log2)*2^(52-m.log2)
  else (e+896)*2^52+m*2^29

/-- The sign of a single, at the place of a double's. -/
theorem msb_bit (b : BitVec 32) : (if b.msb then 2^63 else 0)=2^63*(b.toNat/2^31) := by
  have hlt := b.isLt
  rw [BitVec.msb_eq_decide]
  by_cases h : 2^(32-1) ≤ b.toNat
  · rw [decide_eq_true h,if_pos rfl]
    omega
  · rw [decide_eq_false h,if_neg Bool.false_ne_true]
    omega

/-- A widened single is its sign and the magnitude widened. -/
theorem structF32_signed (b : BitVec 32) : structF32 b=signed64 b.msb (widened (magnitude32 b)) := by
  have hlt := b.isLt
  have he : magnitude32 b/2^23=b.toNat/2^23%256 := by
    unfold magnitude32
    omega
  have hm : magnitude32 b%2^23=b.toNat%2^23 := by
    unfold magnitude32
    omega
  have hs : b.toNat/2^31*2^63=2^63*(b.toNat/2^31) := Nat.mul_comm _ _
  unfold structF32 signed64 widened
  dsimp only
  rw [he,hm,hs,msb_bit]

/-- Two shifts that come to the same. -/
theorem shifted (x : ℕ) {i j k l : ℕ} (h : i+j=k+l) : x*2^i*2^j=x*2^k*2^l := by
  rw [Nat.mul_assoc,← Nat.pow_add,h,Nat.pow_add,← Nat.mul_assoc]

/-- The leading bit of a subnormal single, moved to its place. -/
theorem leading {m : ℕ} (hpos : m≠0) (hm : m < 2^23) :
    (m-2^m.log2)*2^(52-m.log2) < 2^52 ∧
      (2^52+(m-2^m.log2)*2^(52-m.log2))*2^(m.log2+873)=m*2^925 := by
  have hlow : 2^m.log2 ≤ m := Nat.log2_self_le hpos
  have hhigh : m < 2^(m.log2+1) := Nat.lt_log2_self
  have hlog : m.log2 ≤ 22 := by
    by_contra h
    have hmono : 2^23 ≤ 2^m.log2 := Nat.pow_le_pow_right (by omega) (by omega)
    omega
  have hone : 2^m.log2*2^(52-m.log2)=2^52 := by
    rw [← Nat.pow_add,Nat.add_sub_cancel' (by omega)]
  have htwo : 0 < 2^(52-m.log2) := Nat.two_pow_pos _
  have hsub : (m-2^m.log2)*2^(52-m.log2)+2^m.log2*2^(52-m.log2)=m*2^(52-m.log2) := by
    rw [← Nat.add_mul,Nat.sub_add_cancel hlow]
  have hlast : m*2^(52-m.log2) < 2^(m.log2+1)*2^(52-m.log2) :=
    Nat.mul_lt_mul_of_pos_right hhigh htwo
  rw [Nat.pow_succ',Nat.mul_assoc,hone] at hlast
  constructor
  · omega
  · rw [show 2^52+(m-2^m.log2)*2^(52-m.log2)=m*2^(52-m.log2) from by omega,Nat.mul_assoc,
      ← Nat.pow_add]
    exact congrArg (fun k => m*2^k) (show 52-m.log2+(m.log2+873)=925 by omega)

/-- A number that is widened keeps its value. -/
theorem widened_units {m : ℕ} (hm : m < 0xFF*2^23) :
    widened m < 0x7FF*2^52 ∧ unitsOf (widened m)=unitsOf32 m*2^925 := by
  have he : ¬m/2^23=255 := by omega
  unfold widened unitsOf32
  dsimp only
  rw [if_neg he]
  by_cases hsub : m < 2^23
  · have hzero : m/2^23=0 := by omega
    have hmod : m%2^23=m := by omega
    rw [if_pos hzero,if_pos hsub,hmod]
    by_cases hnone : m=0
    · rw [if_pos hnone,hnone]
      exact ⟨by omega,by rw [unitsOf,if_pos (by omega),Nat.zero_mul]⟩
    · obtain ⟨hlt,hunits⟩ := leading hnone hsub
      have hlog : m.log2 ≤ 22 := by
        by_contra h
        have hmono : 2^23 ≤ 2^m.log2 := Nat.pow_le_pow_right (by omega) (by omega)
        have hlow : 2^m.log2 ≤ m := Nat.log2_self_le hnone
        omega
      rw [if_neg hnone]
      generalize (m-2^m.log2)*2^(52-m.log2)=r at hlt hunits
      refine ⟨by omega,?_⟩
      have hdiv : ((m.log2+874)*2^52+r)/2^52-1=m.log2+873 := by omega
      have hrem : ((m.log2+874)*2^52+r)%2^52=r := by omega
      rw [unitsOf,if_neg (by omega),hdiv,hrem,hunits]
  · have hpos : ¬m/2^23=0 := by omega
    rw [if_neg hpos,if_neg hsub]
    refine ⟨by omega,?_⟩
    have hdiv : ((m/2^23+896)*2^52+m%2^23*2^29)/2^52-1=m/2^23-1+896 := by omega
    have hrem : ((m/2^23+896)*2^52+m%2^23*2^29)%2^52=m%2^23*2^29 := by omega
    rw [unitsOf,if_neg (by omega),hdiv,hrem]
    clear hdiv hrem
    generalize m/2^23-1=e
    rw [show 2^52+m%2^23*2^29=(2^23+m%2^23)*2^29 from by omega]
    exact shifted _ (by omega)

/-- A NaN that is widened is a NaN. -/
theorem widened_nan {m : ℕ} (hm : 0xFF*2^23 < m) (hlt : m < 2^31) :
    0x7FF*2^52 < widened m ∧ widened m < 2^63 := by
  have he : m/2^23=255 := by omega
  have hpos : ¬m%2^23=0 := by omega
  have hleft : m%2^23*2^29 < 2^52 :=
    Nat.mul_lt_mul_of_pos_right (Nat.mod_lt m (Nat.two_pow_pos 23)) (Nat.two_pow_pos 29)
  have hright : 2^51 < 2^52 := by omega
  have hor : (m%2^23*2^29|||2^51) < 2^52 := Nat.or_lt_two_pow hleft hright
  have hge : 2^51 ≤ (m%2^23*2^29|||2^51) := Nat.right_le_or
  unfold widened
  dsimp only
  rw [if_pos he,if_neg hpos]
  omega

/-- The widening of `struct` is exact. -/
theorem structF32_exact {b : BitVec 32} (hb : isNan32 b=false) : Exact32 b (structF32 b) := by
  have hle : magnitude32 b ≤ 0xFF*2^23 := by
    by_contra hgt
    rw [(isNan32_iff b).mpr (by omega)] at hb
    cases hb
  have hinf : magnitude32 b=0xFF*2^23 → widened (magnitude32 b)=0x7FF*2^52 := by
    intro h
    rw [h]
    decide +kernel
  have hsmall : widened (magnitude32 b) < 2^63 := by
    rcases Nat.lt_or_ge (magnitude32 b) (0xFF*2^23) with hlt | hge
    · have h := (widened_units hlt).1
      omega
    · have h := hinf (by omega)
      omega
  rw [structF32_signed]
  constructor
  · exact msb_signed hsmall
  · intro h
    rw [magnitude_signed hsmall,hinf h]
  · intro h
    rw [magnitude_signed hsmall]
    exact widened_units h

/-- The widening of `struct` makes a NaN of a NaN. -/
theorem structF32_nan {b : BitVec 32} (hb : isNan32 b=true) : isNan64 (structF32 b)=true := by
  have hlt : magnitude32 b < 2^31 := Nat.mod_lt _ (by omega)
  obtain ⟨hlow,hhigh⟩ := widened_nan ((isNan32_iff b).mp hb) hlt
  rw [isNan64_iff,structF32_signed,magnitude_signed hhigh]
  exact hlow

section Nans

/-- A NaN carried over: its sign, its mantissa moved up, and nothing below. -/
theorem widenNan_signed (b : BitVec 32) :
    widenNan b=signed64 b.msb (0x7FF*2^52+b.toNat%2^23*2^29) := by
  have hlt := b.isLt
  have hmant : (b&&&f32Mant).toNat=b.toNat%2^23 := by
    have h := and_ones b.toNat 23 0
    rw [BitVec.toNat_and,show f32Mant.toNat=(2^23-1)*2^0 from rfl,h]
    omega
  have hsign : ((b>>>31).setWidth 64<<<63 : BitVec 64).toNat=2^63*(b.toNat/2^31) := by
    rw [BitVec.toNat_shiftLeft,BitVec.toNat_setWidth,BitVec.toNat_ushiftRight,
      Nat.shiftRight_eq_div_pow,Nat.shiftLeft_eq]
    omega
  have hexp : ((0x7FF<<<52 : ℕ) : BitVec 64).toNat=2^52*0x7FF := rfl
  have hlow : ((b&&&f32Mant).setWidth 64<<<29 : BitVec 64).toNat=b.toNat%2^23*2^29 := by
    rw [BitVec.toNat_shiftLeft,BitVec.toNat_setWidth,hmant,Nat.shiftLeft_eq]
    omega
  have hmsb := msb_bit b
  apply BitVec.eq_of_toNat_eq
  unfold widenNan signed64
  rw [BitVec.toNat_or,BitVec.toNat_or,hsign,hexp,hlow,BitVec.toNat_ofNat,hmsb,
    ← Nat.two_pow_add_eq_or_of_lt (by omega),
    show 2^63*(b.toNat/2^31)+2^52*0x7FF=2^52*(2^11*(b.toNat/2^31)+0x7FF) from by omega,
    ← Nat.two_pow_add_eq_or_of_lt (by omega)]
  omega

/-- A NaN carried over is a NaN. -/
theorem widenNan_nan {b : BitVec 32} (hb : isNan32 b=true) : isNan64 (widenNan b)=true := by
  have hgt := (isNan32_iff b).mp hb
  unfold magnitude32 at hgt
  rw [isNan64_iff,widenNan_signed,magnitude_signed (by omega)]
  omega

/-- A NaN that was carried over comes back as the bits it was. -/
theorem packF32Bits_widenNan (narrow : BitVec 64 → Option (BitVec 32)) {b : BitVec 32}
    (hb : isNan32 b=true) : packF32Bits narrow (widenNan b)=b := by
  have hgt := (isNan32_iff b).mp hb
  have hlt := b.isLt
  unfold magnitude32 at hgt
  have hwide : (widenNan b).toNat=2^63*(b.toNat/2^31)+(0x7FF*2^52+b.toNat%2^23*2^29) := by
    rw [widenNan_signed]
    unfold signed64
    rw [BitVec.toNat_ofNat,msb_bit]
    omega
  have hsign : ((widenNan b>>>63).setWidth 32<<<31 : BitVec 32).toNat=2^31*(b.toNat/2^31) := by
    rw [BitVec.toNat_shiftLeft,BitVec.toNat_setWidth,BitVec.toNat_ushiftRight,
      Nat.shiftRight_eq_div_pow,Nat.shiftLeft_eq,hwide]
    omega
  have hexp : f32Exp.toNat=2^23*0xFF := rfl
  have hmant : ((widenNan b>>>29).setWidth 32&&&f32Mant : BitVec 32).toNat=b.toNat%2^23 := by
    have h := and_ones ((widenNan b>>>29).setWidth 32 : BitVec 32).toNat 23 0
    rw [BitVec.toNat_and,show f32Mant.toNat=(2^23-1)*2^0 from rfl,h,BitVec.toNat_setWidth,
      BitVec.toNat_ushiftRight,Nat.shiftRight_eq_div_pow,hwide]
    omega
  have hback : (widenNan b>>>63).setWidth 32<<<31|||f32Exp|||
      ((widenNan b>>>29).setWidth 32&&&f32Mant)=b := by
    apply BitVec.eq_of_toNat_eq
    rw [BitVec.toNat_or,BitVec.toNat_or,hsign,hexp,hmant,
      ← Nat.two_pow_add_eq_or_of_lt (by omega),
      show 2^31*(b.toNat/2^31)+2^23*0xFF=2^23*(2^8*(b.toNat/2^31)+0xFF) from by omega,
      ← Nat.two_pow_add_eq_or_of_lt (by omega)]
    omega
  have hpayload : ¬b&&&f32Mant=0 := by
    simp only [isNan32,Bool.and_eq_true,bne_iff_ne,ne_eq] at hb
    exact hb.2
  unfold packF32Bits
  rw [if_pos (widenNan_nan hb)]
  dsimp only
  rw [hback,if_neg hpayload]

end Nans

end SofaBuffers
