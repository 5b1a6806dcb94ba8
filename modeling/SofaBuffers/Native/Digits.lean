import SofaBuffers.Encoder.Elements
import Mathlib.Data.Nat.Digits.Lemmas

/-!
# Integer arguments, read off their digits

The compiled encoder reads an `int` off the digits CPython keeps of it, where
that layout has proved reachable, and asks the interpreter elsewhere. Either way
an argument is taken, or refused, as the interpreted encoder takes or refuses it.
-/

set_option autoImplicit false

namespace SofaBuffers

namespace Native

/-- How the digits of an `int` are read: thirty or fifteen bits each, or not at all
(`__sofab_digits_ok` and `PyLong_SHIFT`). -/
inductive Digits
  | thirty | fifteen | hidden
  deriving DecidableEq, Repr

/-- The bits of a digit. -/
def Digits.shift : Digits → Option ℕ
  | .thirty => some 30
  | .fifteen => some 15
  | .hidden => none

/-- How many digits a 64-bit magnitude can occupy (`__SOFAB_NDIG`). -/
def maxDigits (shift : ℕ) : ℕ := (64+shift-1)/shift

/-- How many bits the highest of so many digits may carry (`__SOFAB_TOPBITS`). -/
def topBits (shift : ℕ) : ℕ := 64-(maxDigits shift-1)*shift

/-- Shift the digits in, the highest first. -/
def shiftDigits (shift : ℕ) : List ℕ → BitVec 64
  | [] => 0
  | d::ds => (shiftDigits shift ds <<< shift) ||| BitVec.ofNat 64 d

/-- A magnitude as a word, unless it does not fit (`__sofab_mag_digits`). -/
def magDigits (shift : ℕ) (digits : List ℕ) : Option (BitVec 64) :=
  let n := digits.length
  if maxDigits shift < n then none
  else if n=maxDigits shift ∧ digits.getD (n-1) 0>>>topBits shift≠0 then none
  else some (shiftDigits shift digits)

/-- An `int` as an unsigned word, unless it does not fit (`__sofab_u64`). -/
def toU64 (g : Digits) (v : ℤ) : Option (BitVec 64) :=
  match g.shift with
  | some shift => if v < 0 then none else magDigits shift (Nat.digits (2^shift) v.natAbs)
  | none => if v < 0 ∨ 2^64-1 < v then none else some (BitVec.ofInt 64 v)

/-- An `int` as a signed word, unless it does not fit (`__sofab_i64`). -/
def toI64 (g : Digits) (v : ℤ) : Option (BitVec 64) :=
  match g.shift with
  | some shift =>
    match magDigits shift (Nat.digits (2^shift) v.natAbs) with
    | none => none
    | some mag =>
      if v < 0 then if 1#64 <<< 63 < mag then none else some (~~~mag+1#64)
      else if BitVec.ofNat 64 (2^63-1) < mag then none else some mag
  | none => if v < -2^63 ∨ 2^63-1 < v then none else some (BitVec.ofInt 64 v)

/-- A field id of one digit at most, which is in range (`__sofab_small_id`). -/
def smallId (g : Digits) (v : ℤ) : Option (BitVec 64) :=
  match g.shift with
  | some shift =>
    if v < 0 then none
    else
      match Nat.digits (2^shift) v.natAbs with
      | [] => some 0
      | [d] => some (BitVec.ofNat 64 d)
      | _ => none
  | none => none

/-- Take an argument as an integer (`_index_arg`). -/
def indexArg (value : Given) (what : String) : Except Exn ℤ :=
  match value with
  | .int v => .ok v
  | .other typeName => .error (.argument s!"{what} must be an integer, not {typeName}")

/-- An argument the fast path did not take, as a word (`_u64_other`, `_i64_other`). -/
def otherArg (convert : ℤ → Option (BitVec 64)) (value : Given) (what : String) :
    Except Exn (BitVec 64) :=
  match indexArg value what with
  | .error why => .error why
  | .ok idx =>
    match convert idx with
    | some out => .ok out
    | none => .error (.argument s!"{what} {idx} out of range")

/-- An argument as a word (`_u64_elem`, `_i64_elem`). -/
def wordArg (convert : ℤ → Option (BitVec 64)) (value : Given) (what : String) :
    Except Exn (BitVec 64) :=
  match value with
  | .int v =>
    match convert v with
    | some r => .ok r
    | none => otherArg convert value what
  | .other _ => otherArg convert value what

/-- An unsigned argument (`_u64_arg`). -/
def u64Arg (g : Digits) (value : Given) : Except Exn (BitVec 64) :=
  wordArg (toU64 g) value "unsigned value"

/-- A signed argument (`_i64_arg`). -/
def i64Arg (g : Digits) (value : Given) : Except Exn (BitVec 64) :=
  wordArg (toI64 g) value "signed value"

/-- A field id (`_id_arg`). -/
def idArg (g : Digits) (fieldId : Given) : Except Exn (BitVec 64) :=
  match fieldId with
  | .int v =>
    match smallId g v with
    | some small => .ok small
    | none =>
      match toI64 g v with
      | some r =>
        if r.toInt < 0 ∨ idMax < r.toInt then
          .error (.argument s!"id {v} out of range 0..{idMax}")
        else .ok r
      | none => .error (.argument s!"id {v} out of range 0..{idMax}")
  | .other _ =>
    match indexArg fieldId "id" with
    | .error why => .error why
    | .ok idx =>
      match toI64 g idx with
      | some r =>
        if 0 ≤ r.toInt ∧ r.toInt ≤ idMax then .ok r
        else .error (.argument s!"id {idx} out of range 0..{idMax}")
      | none => .error (.argument s!"id {idx} out of range 0..{idMax}")

section Magnitude

variable {shift : ℕ}

/-- The digits shifted in are their number. -/
theorem shiftDigits_eq {ds : List ℕ} (hd : ∀ d ∈ ds, d < 2^shift)
    (h : Nat.ofDigits (2^shift) ds < 2^64) :
    (shiftDigits shift ds).toNat=Nat.ofDigits (2^shift) ds := by
  induction ds with
  | nil => rfl
  | cons d ds ih =>
    have hone : d < 2^shift := hd d List.mem_cons_self
    have hsum : Nat.ofDigits (2^shift) (d::ds)=d+2^shift*Nat.ofDigits (2^shift) ds :=
      Nat.ofDigits_cons
    have hle : Nat.ofDigits (2^shift) ds ≤ 2^shift*Nat.ofDigits (2^shift) ds :=
      Nat.le_mul_of_pos_left _ (Nat.two_pow_pos shift)
    have ih := ih (fun x hx => hd x (List.mem_cons_of_mem d hx)) (by omega)
    have hd64 : d%2^64=d := Nat.mod_eq_of_lt (by omega)
    have hshift : Nat.ofDigits (2^shift) ds<<<shift=2^shift*Nat.ofDigits (2^shift) ds := by
      rw [Nat.shiftLeft_eq,Nat.mul_comm]
    have hmod : 2^shift*Nat.ofDigits (2^shift) ds%2^64=2^shift*Nat.ofDigits (2^shift) ds :=
      Nat.mod_eq_of_lt (by omega)
    rw [shiftDigits,BitVec.toNat_or,BitVec.toNat_shiftLeft,ih,BitVec.toNat_ofNat,hd64,hshift,hmod,
      ←Nat.two_pow_add_eq_or_of_lt hone,hsum]
    omega

/-- The highest of the most digits a 64-bit magnitude can have tells whether it is one. -/
theorem top_digit {v : ℕ} (hs : 0 < shift) (hlo : (maxDigits shift-1)*shift < 64)
    (hn : (Nat.digits (2^shift) v).length=maxDigits shift) :
    (Nat.digits (2^shift) v).getD (maxDigits shift-1) 0>>>topBits shift=v/2^64 := by
  have hbase : 2 ≤ 2^shift := by
    have hle := Nat.pow_le_pow_right (show 0 < 2 by omega) hs
    omega
  have hpos : 0 < maxDigits shift := by
    rw [maxDigits]
    exact Nat.div_pos (by omega) hs
  have hv : v < (2^shift)^(maxDigits shift) := hn ▸ Nat.lt_base_pow_length_digits hbase
  have hpow : (2^shift)^(maxDigits shift)=2^shift*(2^shift)^(maxDigits shift-1) := by
    obtain ⟨n,hn'⟩ : ∃ n, maxDigits shift=n+1 := ⟨maxDigits shift-1,by omega⟩
    rw [hn',Nat.add_sub_cancel,Nat.pow_succ,Nat.mul_comm]
  have htop : v/(2^shift)^(maxDigits shift-1) < 2^shift :=
    Nat.div_lt_of_lt_mul (by rw [Nat.mul_comm,←hpow]; exact hv)
  have h64 : (2^shift)^(maxDigits shift-1)*2^topBits shift=2^64 := by
    rw [←Nat.pow_mul,←Nat.pow_add,topBits,Nat.mul_comm]
    congr 1
    omega
  rw [Nat.getD_digits _ _ hbase,Nat.mod_eq_of_lt htop,Nat.shiftRight_eq_div_pow,Nat.div_div_eq_div_mul,
    h64]

/-- A magnitude is read off its digits if it fits, and only then. -/
theorem magDigits_eq (hs : 0 < shift) (hlo : (maxDigits shift-1)*shift < 64)
    (hhi : 64 ≤ maxDigits shift*shift) (v : ℕ) :
    magDigits shift (Nat.digits (2^shift) v)=
      if v < 2^64 then some (BitVec.ofNat 64 v) else none := by
  have hbase : 1 < 2^shift := Nat.one_lt_two_pow (by omega)
  have hlt : v < (2^shift)^(Nat.digits (2^shift) v).length := Nat.lt_base_pow_length_digits hbase
  have hsome : v < 2^64 → some (shiftDigits shift (Nat.digits (2^shift) v))=
      if v < 2^64 then some (BitVec.ofNat 64 v) else none := by
    intro hv
    rw [if_pos hv]
    refine congrArg some (BitVec.eq_of_toNat_eq ?_)
    have hof := Nat.ofDigits_digits (2^shift) v
    rw [shiftDigits_eq (fun d hd => Nat.digits_lt_base hbase hd) (by rw [hof]; exact hv),hof,
      BitVec.toNat_ofNat,Nat.mod_eq_of_lt hv]
  rw [magDigits]
  split
  · next hmore =>
    -- one digit too many
    have hne : v≠0 := by
      rintro rfl
      simp at hmore
    have hle := Nat.base_pow_length_digits_le (2^shift) v hbase hne
    have hmono : (2^shift)^(maxDigits shift+1) ≤ 2^shift*v :=
      (Nat.pow_le_pow_right (by omega) hmore).trans hle
    rw [Nat.pow_succ,Nat.mul_comm] at hmono
    have hge := Nat.le_of_mul_le_mul_left hmono (by omega)
    have h64 : 2^64 ≤ (2^shift)^maxDigits shift := by
      rw [←Nat.pow_mul,Nat.mul_comm]
      exact Nat.pow_le_pow_right (by omega) hhi
    rw [if_neg (by omega)]
  · next hmore =>
    by_cases hn : (Nat.digits (2^shift) v).length=maxDigits shift
    · have htop := top_digit hs hlo hn
      rw [hn,htop]
      split
      · next h =>
        rw [if_neg (by omega)]
      · next h => exact hsome (by omega)
    · rw [if_neg (fun h => hn h.1)]
      refine hsome (hlt.trans_le ?_)
      have hle : (2^shift)^(Nat.digits (2^shift) v).length ≤ (2^shift)^(maxDigits shift-1) :=
        Nat.pow_le_pow_right (by omega) (by omega)
      refine hle.trans ?_
      rw [←Nat.pow_mul,Nat.mul_comm]
      exact Nat.pow_le_pow_right (by omega) (by omega)

end Magnitude

section Convert

variable (g : Digits)

/-- Digits of fifteen bits or of thirty make up 64. -/
theorem Digits.shift_fits {shift : ℕ} (h : g.shift=some shift) :
    0 < shift ∧ (maxDigits shift-1)*shift < 64 ∧ 64 ≤ maxDigits shift*shift := by
  cases g <;> cases h <;> decide

/-- The magnitude of an integer, read off its digits. -/
theorem magDigits_natAbs {shift : ℕ} (h : g.shift=some shift) (v : ℤ) :
    magDigits shift (Nat.digits (2^shift) v.natAbs)=
      if v.natAbs < 2^64 then some (BitVec.ofNat 64 v.natAbs) else none := by
  obtain ⟨hs,hlo,hhi⟩ := g.shift_fits h
  exact magDigits_eq hs hlo hhi v.natAbs

/-- An integer that is no negative one is the word of its magnitude. -/
theorem ofInt_natAbs {v : ℤ} (h : 0 ≤ v) : BitVec.ofNat 64 v.natAbs=BitVec.ofInt 64 v := by
  rw [←BitVec.ofInt_natCast,Int.natAbs_of_nonneg h]

/-- A negative one is the complement of it. -/
theorem ofInt_complement {v : ℤ} (h : v < 0) :
    ~~~BitVec.ofNat 64 v.natAbs+1#64=BitVec.ofInt 64 v := by
  have hneg : BitVec.ofInt 64 v=-BitVec.ofNat 64 v.natAbs := by
    rw [←BitVec.ofInt_natCast,←BitVec.ofInt_neg]
    congr 1
    omega
  rw [hneg,BitVec.neg_eq_not_add]

/-- An unsigned word is taken in range. -/
theorem toU64_eq (v : ℤ) :
    toU64 g v=if v < 0 ∨ unsignedMax < v then none else some (BitVec.ofInt 64 v) := by
  rw [toU64]
  cases h : g.shift with
  | none => rfl
  | some shift =>
    dsimp only
    rw [magDigits_natAbs g h]
    by_cases hneg : v < 0
    · rw [if_pos hneg,if_pos (Or.inl hneg)]
    · rw [if_neg hneg,ofInt_natAbs (by omega)]
      by_cases hv : v.natAbs < 2^64
      · rw [if_pos hv,if_neg (by simp [unsignedMax]; omega)]
      · rw [if_neg hv,if_pos (by simp [unsignedMax]; omega)]

/-- A signed word is taken in range. -/
theorem toI64_eq (v : ℤ) :
    toI64 g v=if v < signedMin ∨ signedMax < v then none else some (BitVec.ofInt 64 v) := by
  rw [toI64]
  cases h : g.shift with
  | none => rfl
  | some shift =>
    dsimp only
    rw [magDigits_natAbs g h]
    by_cases hv : v.natAbs < 2^64
    · have hnat : (BitVec.ofNat 64 v.natAbs).toNat=v.natAbs := by
        rw [BitVec.toNat_ofNat,Nat.mod_eq_of_lt hv]
      have hlo : (1#64 <<< 63 < BitVec.ofNat 64 v.natAbs) ↔ 2^63 < v.natAbs := by
        rw [BitVec.lt_def,hnat]
        exact Iff.rfl
      have hhi : (BitVec.ofNat 64 (2^63-1) < BitVec.ofNat 64 v.natAbs) ↔ 2^63-1 < v.natAbs := by
        rw [BitVec.lt_def,hnat]
        exact Iff.rfl
      rw [if_pos hv]
      dsimp only
      by_cases hneg : v < 0
      · rw [if_pos hneg,ofInt_complement hneg]
        by_cases hm : 2^63 < v.natAbs
        · rw [if_pos (hlo.mpr hm),if_pos (by simp [signedMin]; omega)]
        · rw [if_neg (mt hlo.mp hm),if_neg (by simp [signedMin,signedMax]; omega)]
      · rw [if_neg hneg]
        by_cases hm : 2^63-1 < v.natAbs
        · rw [if_pos (hhi.mpr hm),if_pos (by simp [signedMax]; omega)]
        · rw [if_neg (mt hhi.mp hm),if_neg (by simp [signedMin,signedMax]; omega),
            ofInt_natAbs (by omega)]
    · rw [if_neg hv,if_pos (by simp [signedMin,signedMax]; omega)]

/-- A field id of one digit is the id. -/
theorem smallId_some {v : ℤ} {small : BitVec 64} (h : smallId g v=some small) :
    small=BitVec.ofInt 64 v ∧ 0 ≤ v ∧ v < 2^30 := by
  rw [smallId] at h
  cases hg : g.shift with
  | none =>
    rw [hg] at h
    cases h
  | some shift =>
    have hs : 0 < shift ∧ shift ≤ 30 := by
      cases g <;> cases hg <;> decide
    have hbase : 1 < 2^shift := Nat.one_lt_two_pow (by omega)
    have hle : 2^shift ≤ 2^30 := Nat.pow_le_pow_right (by omega) hs.2
    rw [hg] at h
    dsimp only at h
    split at h
    · cases h
    · next hneg =>
      have hof := Nat.ofDigits_digits (2^shift) v.natAbs
      have hlt : v.natAbs < (2^shift)^(Nat.digits (2^shift) v.natAbs).length :=
        Nat.lt_base_pow_length_digits hbase
      have hword : BitVec.ofNat 64 v.natAbs=BitVec.ofInt 64 v := ofInt_natAbs (by omega)
      split at h
      · next hd =>
        rw [hd] at hof hlt
        simp at hof hlt
        have hzero : v=0 := by omega
        cases h
        refine ⟨by rw [hzero]; rfl,by omega,by omega⟩
      · next d hd =>
        rw [hd] at hof hlt
        simp at hof hlt
        cases h
        refine ⟨by rw [←hword,←hof],by omega,by omega⟩
      · cases h

/-- An unsigned argument is a word of its own, or out of range. -/
theorem unsignedWord_eq (value : Given) (what : String) :
    wordArg (toU64 g) value what=
      match asInt value what with
      | .error why => .error why
      | .ok v =>
        if v < 0 ∨ v > unsignedMax then .error (.argument s!"{what} {v} out of range")
        else .ok (BitVec.ofNat 64 v.toNat) := by
  cases value with
  | other typeName => rfl
  | int v =>
    rw [wordArg,otherArg,indexArg,asInt]
    dsimp only
    rw [toU64_eq]
    by_cases h : v < 0 ∨ unsignedMax < v
    · rw [if_pos h,if_pos (by simpa using h)]
    · rw [if_neg h,if_neg (by simpa using h)]
      have hnat : v.toNat=v.natAbs := by omega
      rw [hnat,ofInt_natAbs (by omega)]

/-- A signed argument is a word of its own, or out of range. -/
theorem signedWord_eq (value : Given) (what : String) :
    wordArg (toI64 g) value what=
      match asInt value what with
      | .error why => .error why
      | .ok v =>
        if v < signedMin ∨ v > signedMax then .error (.argument s!"{what} {v} out of range")
        else .ok (BitVec.ofInt 64 v) := by
  cases value with
  | other typeName => rfl
  | int v =>
    rw [wordArg,otherArg,indexArg,asInt]
    dsimp only
    rw [toI64_eq]
    by_cases h : v < signedMin ∨ signedMax < v
    · rw [if_pos h,if_pos (by simpa using h)]
    · rw [if_neg h,if_neg (by simpa using h)]

/-- An unsigned argument is taken or refused as the interpreted encoder does. -/
theorem u64Arg_eq (value : Given) :
    u64Arg g value=(unsignedValue value).map (BitVec.ofNat 64) := by
  rw [u64Arg,unsignedWord_eq,unsignedValue]
  cases asInt value "unsigned value" with
  | error why => rfl
  | ok v =>
    dsimp only
    split <;> rfl

/-- A signed argument is taken or refused as the interpreted encoder does. -/
theorem i64Arg_eq (value : Given) :
    i64Arg g value=(signedValue value).map (BitVec.ofInt 64) := by
  rw [i64Arg,signedWord_eq,signedValue]
  cases asInt value "signed value" with
  | error why => rfl
  | ok v =>
    dsimp only
    split <;> rfl

/-- A field id is taken or refused as the interpreted encoder does. -/
theorem idArg_eq (fieldId : Given) :
    idArg g fieldId=(checkedId fieldId).map (BitVec.ofNat 64) := by
  rw [idArg.eq_def,checkedId]
  cases fieldId with
  | other typeName => rfl
  | int v =>
    dsimp only
    rw [asInt]
    cases hsmall : smallId g v with
    | some small =>
      obtain ⟨rfl,h0,h30⟩ := smallId_some g hsmall
      dsimp only
      have hnat : v.toNat=v.natAbs := by omega
      rw [if_neg (by simp [idMax]; omega),←ofInt_natAbs h0,←hnat]
      rfl
    | none =>
      dsimp only
      rw [toI64_eq]
      by_cases h : v < signedMin ∨ signedMax < v
      · rw [if_pos h,if_pos (by simp [idMax,signedMin,signedMax] at h ⊢; omega)]
        rfl
      · have hint : (BitVec.ofInt 64 v).toInt=v := by
          simp only [signedMin,signedMax] at h
          rw [BitVec.toInt_ofInt,Int.bmod_eq_of_le (by omega) (by omega)]
        rw [if_neg h]
        dsimp only
        rw [hint]
        by_cases hid : v < 0 ∨ (idMax : ℤ) < v
        · rw [if_pos hid,if_pos (by simpa using hid)]
          rfl
        · rw [if_neg hid,if_neg (by simpa using hid)]
          have hnat : v.toNat=v.natAbs := by omega
          rw [←ofInt_natAbs (by omega),←hnat]
          rfl

end Convert

end Native

end SofaBuffers
