import Mathlib.Data.Int.Bitwise
import Mathlib.Tactic.Common

/-!
# The zigzag mapping

Signed values travel as unsigned ones: `0,-1,1,-2,…` become `0,1,2,3,…`. Both
directions are written on the bits, as the source writes them; the lemmas give
their arithmetic.
-/

set_option autoImplicit false

namespace Zigzag

/-- Map a signed 64-bit value to an unsigned one: `((v << 1) ^ (v >> 63)) & MASK64`. -/
def encode (v : ℤ) : ℕ := ((Int.xor (v*2) (v/2^63))%2^64).toNat

/-- The inverse: `(u >> 1) ^ -(u & 1)`. -/
def decode (u : ℕ) : ℤ := Int.xor ((u/2 : ℕ) : ℤ) (-((u%2 : ℕ) : ℤ))

/-- An even value stands for a nonnegative one. -/
theorem decode_even (k : ℕ) : decode (2*k)=(k : ℤ) := by
  have h1 : 2*k/2=k := by omega
  have h2 : 2*k%2=0 := by omega
  rw [decode,h1,h2]
  show Int.ofNat (k^^^0)=(k : ℤ)
  rw [Nat.xor_zero]
  rfl

/-- An odd value stands for a negative one. -/
theorem decode_odd (k : ℕ) : decode (2*k+1)=-(k : ℤ)-1 := by
  have h1 : (2*k+1)/2=k := by omega
  have h2 : (2*k+1)%2=1 := by omega
  rw [decode,h1,h2]
  show Int.negSucc (k^^^0)=-(k : ℤ)-1
  rw [Nat.xor_zero,Int.negSucc_eq]
  omega

/-- A nonnegative 64-bit value is doubled. -/
theorem encode_nonneg {k : ℕ} (h : k < 2^63) : encode (k : ℤ)=2*k := by
  have h1 : ((k : ℤ)/2^63)=0 := Int.ediv_eq_zero_of_lt (by omega) (by omega)
  have h2 : Int.xor ((k : ℤ)*2) 0=((k*2 : ℕ) : ℤ) := by
    show Int.ofNat (k*2^^^0)=((k*2 : ℕ) : ℤ)
    rw [Nat.xor_zero]
    rfl
  rw [encode,h1,h2]
  omega

/-- A negative 64-bit value takes the odd values. -/
theorem encode_neg {k : ℕ} (h : k < 2^63) : encode (-(k : ℤ)-1)=2*k+1 := by
  have h0 : -(k : ℤ)-1=Int.negSucc k := by
    rw [Int.negSucc_eq]
    omega
  have h1 : Int.negSucc k/2^63=Int.negSucc 0 := by
    rw [←h0]
    omega
  have h2 : Int.negSucc k*2=Int.negSucc (2*k+1) := by
    rw [Int.negSucc_eq,Int.negSucc_eq]
    omega
  have h3 : Int.xor (Int.negSucc (2*k+1)) (Int.negSucc 0)=((2*k+1 : ℕ) : ℤ) := by
    show Int.ofNat ((2*k+1)^^^0)=((2*k+1 : ℕ) : ℤ)
    rw [Nat.xor_zero]
    rfl
  rw [h0,encode,h1,h2,h3]
  omega

/-- A signed 64-bit value is either a natural number or one below zero. -/
theorem cases64 {v : ℤ} (hlo : -2^63 ≤ v) (hhi : v < 2^63) :
    (∃ k : ℕ, k < 2^63 ∧ v=k) ∨ ∃ k : ℕ, k < 2^63 ∧ v=-(k : ℤ)-1 := by
  by_cases h : v < 0
  · exact .inr ⟨(-v-1).toNat,by omega,by omega⟩
  · exact .inl ⟨v.toNat,by omega,by omega⟩

/-- Decoding undoes encoding on 64-bit values. -/
theorem decode_encode {v : ℤ} (hlo : -2^63 ≤ v) (hhi : v < 2^63) : decode (encode v)=v := by
  rcases cases64 hlo hhi with ⟨k,hk,rfl⟩|⟨k,hk,rfl⟩
  · rw [encode_nonneg hk,decode_even]
  · rw [encode_neg hk,decode_odd]

/-- An encoded value fits 64 bits. -/
theorem encode_lt (v : ℤ) : encode v < 2^64 := by
  rw [encode]
  have h1 := Int.emod_lt_of_pos (Int.xor (v*2) (v/2^63)) (show (0 : ℤ) < 2^64 by omega)
  omega

/-- A decoded 64-bit value fits 64 signed bits. -/
theorem decode_range {u : ℕ} (h : u < 2^64) : -2^63 ≤ decode u ∧ decode u < 2^63 := by
  rcases Nat.even_or_odd' u with ⟨k,rfl|rfl⟩
  · rw [decode_even]
    omega
  · rw [decode_odd]
    omega

/-- Encoding undoes decoding on 64-bit values. -/
theorem encode_decode {u : ℕ} (h : u < 2^64) : encode (decode u)=u := by
  rcases Nat.even_or_odd' u with ⟨k,rfl|rfl⟩
  · rw [decode_even,encode_nonneg (by omega)]
  · rw [decode_odd,encode_neg (by omega)]

/-- A one-byte value stands for one of seven bits. -/
theorem decode_small {u : ℕ} (h : u < 128) : -64 ≤ decode u ∧ decode u ≤ 63 := by
  rcases Nat.even_or_odd' u with ⟨k,rfl|rfl⟩
  · rw [decode_even]
    omega
  · rw [decode_odd]
    omega

end Zigzag
