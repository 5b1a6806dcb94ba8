import Mathlib.Tactic.Positivity
import Mathlib.Tactic.Ring
import SofaBuffers.Core

/-!
# Doubles by their patterns

What the source does with a `float` beside moving its 64 bits about: Python's `==` between
floats and between a float and an `int`, the sign that `copysign` reads, and the conversion
of an `int`. A finite double is a whole number of units of the least one, which makes its
value a natural number and a sign.
-/

set_option autoImplicit false

namespace SofaBuffers

/-- A run of ones masks a run of digits. -/
theorem and_ones (x n k : ℕ) : x&&&((2^n-1)*2^k)=x/2^k%2^n*2^k := by
  apply Nat.eq_of_testBit_eq
  intro i
  by_cases hi : k ≤ i
  · obtain ⟨j,rfl⟩ := Nat.exists_eq_add_of_le hi
    have hpos : k ≤ k+j := hi
    simp [Nat.testBit_mul_two_pow,Nat.testBit_mod_two_pow,Nat.testBit_div_two_pow,
      Nat.testBit_two_pow_sub_one,Nat.add_comm,Bool.and_comm]
  · simp [Nat.testBit_mul_two_pow,hi]

/-- The pattern of a double without its sign. -/
def magnitude64 (bits : BitVec 64) : ℕ := bits.toNat%2^63

/-- The pattern of a single without its sign. -/
def magnitude32 (bits : BitVec 32) : ℕ := bits.toNat%2^31

/-- The NaNs are past the infinity. -/
theorem isNan64_iff (bits : BitVec 64) :
    isNan64 bits=true ↔ 0x7FF*2^52 < magnitude64 bits := by
  have hexp : bits&&&0x7FF0000000000000=0x7FF0000000000000 ↔
      bits.toNat/2^52%2^11=0x7FF := by
    have h := and_ones bits.toNat 11 52
    rw [BitVec.toNat_eq,BitVec.toNat_and,show (0x7FF0000000000000 : BitVec 64).toNat=(2^11-1)*2^52 from rfl,
      h]
    omega
  have hmant : bits&&&0x000FFFFFFFFFFFFF=0 ↔ bits.toNat%2^52=0 := by
    have h := and_ones bits.toNat 52 0
    rw [BitVec.toNat_eq,BitVec.toNat_and,
      show (0x000FFFFFFFFFFFFF : BitVec 64).toNat=(2^52-1)*2^0 from rfl,h]
    simp
  have hlt := bits.isLt
  unfold isNan64 magnitude64
  simp only [Bool.and_eq_true,beq_iff_eq,bne_iff_ne,ne_eq,hexp,hmant]
  omega

/-- The NaNs of a single are past its infinity. -/
theorem isNan32_iff (bits : BitVec 32) :
    isNan32 bits=true ↔ 0xFF*2^23 < magnitude32 bits := by
  have hexp : bits&&&f32Exp=f32Exp ↔ bits.toNat/2^23%2^8=0xFF := by
    have h := and_ones bits.toNat 8 23
    rw [BitVec.toNat_eq,BitVec.toNat_and,show f32Exp.toNat=(2^8-1)*2^23 from rfl,h]
    omega
  have hmant : bits&&&f32Mant=0 ↔ bits.toNat%2^23=0 := by
    have h := and_ones bits.toNat 23 0
    rw [BitVec.toNat_eq,BitVec.toNat_and,show f32Mant.toNat=(2^23-1)*2^0 from rfl,h]
    simp
  have hlt := bits.isLt
  unfold isNan32 magnitude32
  simp only [Bool.and_eq_true,beq_iff_eq,bne_iff_ne,ne_eq,hexp,hmant]
  omega

section Values

/-- One, in units of the least double. -/
def one64 : ℕ := 2^1074

/-- The least double is not zero. -/
theorem one64_pos : 0 < one64 := by
  unfold one64
  positivity

/-- A finite magnitude in units of the least double. -/
def unitsOf (m : ℕ) : ℕ := if m < 2^52 then m else (2^52+m%2^52)*2^(m/2^52-1)

/-- The next pattern is a greater value. -/
theorem unitsOf_succ (m : ℕ) : unitsOf m < unitsOf (m+1) := by
  unfold unitsOf
  by_cases h : m+1 < 2^52
  · rw [if_pos (by omega),if_pos h]
    omega
  · rw [if_neg h]
    by_cases hm : m < 2^52
    · have heq : m+1=2^52 := by omega
      rw [if_pos hm,heq]
      omega
    · rw [if_neg hm]
      by_cases hcarry : m%2^52+1 < 2^52
      · have hdiv : (m+1)/2^52=m/2^52 := by omega
        have hmod : (m+1)%2^52=m%2^52+1 := by omega
        rw [hdiv,hmod]
        exact Nat.mul_lt_mul_of_pos_right (by omega) (Nat.pow_pos (by omega))
      · -- the mantissa starts again, and the exponent is one more
        have hdiv : (m+1)/2^52-1=(m/2^52-1)+1 := by omega
        have hmod : (m+1)%2^52=0 := by omega
        rw [hdiv,hmod]
        generalize m/2^52-1=e
        have hpos : 0 < 2^e := Nat.pow_pos (by omega)
        calc (2^52+m%2^52)*2^e < (2^52+2^52)*2^e :=
              Nat.mul_lt_mul_of_pos_right (by omega) hpos
          _ = (2^52+0)*2^(e+1) := by ring

/-- A value has one magnitude. -/
theorem unitsOf_injective : Function.Injective unitsOf :=
  (strictMono_nat_of_lt_succ unitsOf_succ).injective

/-- Python's `==` between two floats: zeros are equal, and a NaN is equal to nothing. -/
def eq64 (a b : BitVec 64) : Bool :=
  !isNan64 a && !isNan64 b && (a==b || (magnitude64 a==0 && magnitude64 b==0))

/-- Python's `==` between an int and a float, which is exact. -/
def intEq64 (n : ℤ) (b : BitVec 64) : Bool :=
  magnitude64 b < 0x7FF*2^52 &&
    n*one64=(if b.msb then -(unitsOf (magnitude64 b) : ℤ) else unitsOf (magnitude64 b))

/-- The magnitude of the double nearest to an int, the even one of two. -/
def nearest64 (a : ℕ) : ℕ :=
  if a=0 then 0
  else if a.log2 ≤ 52 then (a.log2+1022)*2^52+a*2^(52-a.log2)
  else
    let s := a.log2-52
    let up := 2^s < 2*(a%2^s) || (2*(a%2^s)=2^s && a/2^s%2=1)
    (a.log2+1022)*2^52+(a/2^s+if up then 1 else 0)

/-- A pattern of a sign and a magnitude. -/
def signed64 (negative : Bool) (m : ℕ) : BitVec 64 :=
  BitVec.ofNat 64 ((if negative then 2^63 else 0)+m)

/-- The double of a C integer. -/
def cast64 (n : ℤ) : BitVec 64 := signed64 (n < 0) (nearest64 n.natAbs)

/-- The double of an int, unless it is too large. -/
def float64 (n : ℤ) : Option (BitVec 64) :=
  if nearest64 n.natAbs < 0x7FF*2^52 then some (cast64 n) else none

/-- The magnitude of a signed pattern. -/
theorem magnitude_signed {negative : Bool} {m : ℕ} (h : m < 2^63) :
    magnitude64 (signed64 negative m)=m := by
  unfold magnitude64 signed64
  rw [BitVec.toNat_ofNat]
  cases negative
  · simp only [Bool.false_eq_true,if_false]
    omega
  · simp only [if_true]
    omega

/-- The sign of a signed pattern. -/
theorem msb_signed {negative : Bool} {m : ℕ} (h : m < 2^63) :
    (signed64 negative m).msb=negative := by
  unfold signed64
  rw [BitVec.msb_eq_decide,BitVec.toNat_ofNat]
  cases negative
  · simp only [Bool.false_eq_true,if_false,decide_eq_false_iff_not]
    omega
  · simp only [if_true,decide_eq_true_eq]
    omega

/-- A pattern is its sign and its magnitude. -/
theorem signed_magnitude (b : BitVec 64) : signed64 b.msb (magnitude64 b)=b := by
  have hlt := b.isLt
  apply BitVec.eq_of_toNat_eq
  unfold signed64 magnitude64
  rw [BitVec.toNat_ofNat,BitVec.msb_eq_decide]
  by_cases h : 2^(64-1) ≤ b.toNat
  · rw [decide_eq_true h,if_pos rfl]
    omega
  · rw [decide_eq_false h,if_neg Bool.false_ne_true]
    omega

/-- Two patterns of one sign and one magnitude are one. -/
theorem bits_ext {a b : BitVec 64} (hs : a.msb=b.msb) (hm : magnitude64 a=magnitude64 b) : a=b := by
  rw [← signed_magnitude a,← signed_magnitude b,hs,hm]

/-- An int of at most 53 bits is a double. -/
theorem nearest_units {a : ℕ} (ha : a ≤ 2^53) :
    unitsOf (nearest64 a)=a*one64 ∧ nearest64 a < 0x7FF*2^52 := by
  by_cases hzero : a=0
  · subst hzero
    exact ⟨by rw [nearest64,if_pos rfl,unitsOf,if_pos (by omega),Nat.zero_mul],by
      rw [nearest64,if_pos rfl]; omega⟩
  · by_cases hlog : a.log2 ≤ 52
    · have hlow : 2^a.log2 ≤ a := Nat.log2_self_le hzero
      have hhigh : a < 2^(a.log2+1) := Nat.lt_log2_self
      -- shifted up, the leading bit is the hidden one
      have hfirst : 2^52 ≤ a*2^(52-a.log2) := by
        have hsum : 2^a.log2*2^(52-a.log2)=2^52 := by
          rw [← Nat.pow_add,Nat.add_sub_cancel' hlog]
        exact le_of_eq_of_le hsum.symm (Nat.mul_le_mul_right _ hlow)
      have hlast : a*2^(52-a.log2) < 2^53 := by
        have hsum : 2^(a.log2+1)*2^(52-a.log2)=2^53 := by
          rw [← Nat.pow_add,show a.log2+1+(52-a.log2)=53 from by omega]
        exact lt_of_lt_of_eq
          (Nat.mul_lt_mul_of_pos_right hhigh (Nat.pow_pos (by omega))) hsum
      have hscaled : a*2^(52-a.log2)*2^(a.log2+1022)=a*one64 := by
        rw [Nat.mul_assoc,← Nat.pow_add]
        exact congrArg (fun k => a*2^k) (show 52-a.log2+(a.log2+1022)=1074 by omega)
      rw [nearest64,if_neg hzero,if_pos hlog]
      generalize a*2^(52-a.log2)=b at hfirst hlast hscaled
      refine ⟨?_,by omega⟩
      have hdiv : ((a.log2+1022)*2^52+b)/2^52-1=a.log2+1022 := by omega
      have hmod : 2^52+((a.log2+1022)*2^52+b)%2^52=b := by omega
      rw [unitsOf,if_neg (by omega),hdiv,hmod,hscaled]
    · have htop : a=2^53 := by
        have hlow : 2^53 ≤ a := (Nat.le_log2 hzero).mp (by omega)
        omega
      subst htop
      exact ⟨by decide +kernel,by decide +kernel⟩

/-- The least double is a positive fraction. -/
theorem units_zero {m : ℕ} (h : unitsOf m=0) : m=0 :=
  unitsOf_injective (h.trans (by rw [unitsOf,if_pos (by omega)]))

/-- An int of at most 53 bits is equal to its own double, up to the sign of a zero. -/
theorem cast64_iff {n : ℤ} (hn : n.natAbs ≤ 2^53) (b : BitVec 64) :
    cast64 n=b ↔ intEq64 n b=true ∧ (magnitude64 b=0 → b.msb=false) := by
  obtain ⟨hunits,hfinite⟩ := nearest_units hn
  have hsmall : nearest64 n.natAbs < 2^63 := by omega
  have hP := one64_pos
  unfold intEq64
  simp only [Bool.and_eq_true,decide_eq_true_eq]
  generalize one64=P at hunits hP ⊢
  constructor
  · rintro rfl
    unfold cast64
    rw [magnitude_signed hsmall,msb_signed hsmall,hunits]
    refine ⟨⟨hfinite,?_⟩,fun hzero => ?_⟩
    · by_cases hneg : n < 0
      · rw [decide_eq_true hneg,if_pos rfl]
        push_cast
        rw [abs_of_neg hneg]
        ring
      · rw [decide_eq_false hneg,if_neg Bool.false_ne_true]
        push_cast
        rw [abs_of_nonneg (by omega)]
    · rw [hzero,unitsOf,if_pos (by omega)] at hunits
      have habs : n.natAbs=0 := by
        rcases Nat.mul_eq_zero.mp hunits.symm with h | h
        · exact h
        · omega
      exact decide_eq_false (by omega)
  · rintro ⟨⟨hfin,heq⟩,hsign⟩
    have hmul : (n.natAbs*P : ℕ)=(n*P).natAbs := by rw [Int.natAbs_mul,Int.natAbs_natCast]
    have hmag : unitsOf (magnitude64 b)=n.natAbs*P := by
      rw [hmul,heq]
      split <;> simp
    have hmag : magnitude64 b=nearest64 n.natAbs := unitsOf_injective (hmag.trans hunits.symm)
    refine bits_ext ?_ ?_
    · unfold cast64
      rw [msb_signed hsmall]
      rcases lt_trichotomy n 0 with hneg | hzero | hpos
      · rw [decide_eq_true hneg]
        by_contra hmsb
        rw [if_neg (fun h => hmsb h.symm)] at heq
        have hlt : n*P < 0 := Int.mul_neg_of_neg_of_pos hneg (by exact_mod_cast hP)
        omega
      · rw [hzero] at hmag ⊢
        rw [hsign (by rw [hmag]; rfl)]
        rfl
      · rw [decide_eq_false (by omega)]
        by_contra hmsb
        rw [if_pos (by simpa using hmsb)] at heq
        have hlt : 0 < n*P := Int.mul_pos hpos (by exact_mod_cast hP)
        omega
    · unfold cast64
      rw [magnitude_signed hsmall,hmag]

end Values

end SofaBuffers
