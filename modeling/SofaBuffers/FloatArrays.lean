import SofaBuffers.Doubles

/-!
# Comparing float arrays

A float array field is left out iff it holds its default bit for bit. A default is compared
many times, so how is decided once, from the zeros and the NaNs it holds; the compiled
engine compares patterns. Elements are objects, since Python's `==` between lists takes one
object for equal to itself without asking it.
-/

set_option autoImplicit false

namespace SofaBuffers

namespace FloatArrays

/-- The value of an element. -/
inductive Num
  /-- A `float`. -/
  | float (bits : BitVec 64)
  /-- An `int`. -/
  | int (n : ℤ)
  deriving DecidableEq

/-- Python's `==` between two elements. -/
def Num.eq : Num → Num → Bool
  | .float a,.float b => eq64 a b
  | .int n,.float b => intEq64 n b
  | .float a,.int n => intEq64 n a
  | .int m,.int n => m==n

/-- Whether `copysign(1.0, x)` is negative; an int past the doubles raises. -/
def Num.copysign : Num → Option Bool
  | .float a => some a.msb
  | .int n => (float64 n).map BitVec.msb

/-- The pattern of `pack("=d", x)`; an int past the doubles raises. -/
def Num.pack : Num → Option (BitVec 64)
  | .float a => some a
  | .int n => float64 n

/-- A sequence of elements, by the objects they are. -/
structure Seq where
  /-- It is an exact `list`. -/
  list : Bool
  /-- The elements. -/
  items : List ℕ

/-- The objects there are. -/
structure Heap where
  /-- The value of an element. -/
  num : ℕ → Num
  /-- The sequences. -/
  seq : ℕ → Seq
  /-- The objects made so far are those below. -/
  size : ℕ

/-- A new object of a value. -/
def Heap.alloc (h : Heap) (x : Num) : Heap :=
  { h with num := fun o => if o=h.size then x else h.num o,size := h.size+1 }

/-- What happened since a heap was seen left its objects alone: an element is immutable, a
sequence is not. -/
structure Heap.Later (h k : Heap) : Prop where
  /-- No object is taken back. -/
  size : h.size ≤ k.size
  /-- Every object that was made has the value it had. -/
  num : ∀ o, o < h.size → k.num o=h.num o

/-- Python's `float(x)` of an object: a float is handed back, an int gives a new float, and
an int past the doubles raises. -/
def toFloat (h : Heap) (o : ℕ) : Option ((ℕ × BitVec 64) × Heap) :=
  match h.num o with
  | .float d => some ((o,d),h)
  | .int n => (float64 n).map fun d => ((h.size,d),h.alloc (.float d))

/-- The floats of the values one after the other (`[float(x) for x in values]`). -/
def toFloats (h : Heap) : List ℕ → Option (List (ℕ × BitVec 64) × Heap)
  | [] => some ([],h)
  | o::values =>
    match toFloat h o with
    | none => none
    | some (e,h) => (toFloats h values).map fun r => (e::r.1,r.2)

/-- A float array field's declared default (`FloatArrayDefault`). -/
structure Default where
  /-- The floats, by the objects they are, with their patterns. -/
  values : List (ℕ × BitVec 64)

/-- A default made of values (`FloatArrayDefault.__init__`, and `__cinit__` of the compiled
engine). -/
def Default.init (h : Heap) (values : List ℕ) : Option (Default × Heap) :=
  (toFloats h values).map fun r => (⟨r.1⟩,r.2)

/-- The walk of `float_array_bits_equal`; `none` is an exception. -/
def bitsEqualFrom (h : Heap) : List (ℕ × ℕ) → Option Bool
  | [] => some true
  | (x,y)::rest =>
    if x=y then bitsEqualFrom h rest
    else if (h.num x).eq (h.num y) then
      if (h.num x).eq (.int 0) then
        match (h.num x).copysign,(h.num y).copysign with
        | some s,some t => if s≠t then some false else bitsEqualFrom h rest
        | _,_ => none
      else bitsEqualFrom h rest
    else
      match (h.num x).pack,(h.num y).pack with
      | some p,some q => if p≠q then some false else bitsEqualFrom h rest
      | _,_ => none

/-- Whether two sequences have the same patterns (`float_array_bits_equal`). -/
def floatArrayBitsEqual (h : Heap) (a b : ℕ) : Option Bool :=
  if a=b then some true
  else if (h.seq a).items.length≠(h.seq b).items.length then some false
  else bitsEqualFrom h ((h.seq a).items.zip (h.seq b).items)

/-- Whether one element matches one of the default's (`_elem_matches`). -/
def elemMatches (o : Num) (d : BitVec 64) : Bool :=
  if !(Num.float d).eq (.float d) then
    match o with
    | .float x => x==d
    | .int _ => false
  else if !o.eq (.float d) then false
  else if !(Num.float d).eq (.int 0) then true
  else
    -- what `copysign` raises is caught
    match o.copysign with
    | some s => s==d.msb
    | none => false

/-- The path that goes by the elements (`_seq_matches`). -/
def seqMatches (h : Heap) (a : List ℕ) (v : List (ℕ × BitVec 64)) : Bool :=
  a.length==v.length && (a.zip v).all fun p => elemMatches (h.num p.1) p.2.2

/-- Python's `==` between two lists. -/
def listEq (h : Heap) (a : List ℕ) (v : List (ℕ × BitVec 64)) : Bool :=
  a.length==v.length &&
    (a.zip v).all fun p => p.1==p.2.1 || (h.num p.1).eq (.float p.2.2)

/-- The zeros of a default, with their signs, from position `i` on. -/
def zerosFrom : ℕ → List (ℕ × BitVec 64) → List (ℕ × Bool)
  | _, [] => []
  | i, d::v =>
    if (Num.float d.2).eq (.int 0) then (i,d.2.msb)::zerosFrom (i+1) v else zerosFrom (i+1) v

/-- The compare of a default that holds a NaN (`matches_nan`). -/
def matchesNan (h : Heap) (v : List (ℕ × BitVec 64)) (a : Seq) : Option Bool :=
  some (seqMatches h a.items v)

/-- The compare of a default without a zero (`matches`). -/
def matchesPlain (h : Heap) (v : List (ℕ × BitVec 64)) (a : Seq) : Option Bool :=
  if a.list then some (listEq h a.items v) else some (seqMatches h a.items v)

/-- The compare of a default with one zero (`matches_zero`). -/
def matchesZero (h : Heap) (v : List (ℕ × BitVec 64)) (i0 : ℕ) (s0 : Bool) (a : Seq) :
    Option Bool :=
  if a.list then
    if listEq h a.items v then
      match a.items[i0]? with
      | some o => (h.num o).copysign.map (·==s0)
      | none => none
    else some false
  else some (seqMatches h a.items v)

/-- The signs of a list at the zeros of the default; `none` is an exception. -/
def signsMatch (h : Heap) (a : List ℕ) : List (ℕ × Bool) → Option Bool
  | [] => some true
  | (i,s)::zeros =>
    match a[i]? with
    | some o =>
      match (h.num o).copysign with
      | some t => if t≠s then some false else signsMatch h a zeros
      | none => none
    | none => none

/-- The compare of a default with several zeros (`matches_zeros`). -/
def matchesZeros (h : Heap) (v : List (ℕ × BitVec 64)) (zeros : List (ℕ × Bool)) (a : Seq) :
    Option Bool :=
  if !a.list then some (seqMatches h a.items v)
  else if !listEq h a.items v then some false
  else signsMatch h a.items zeros

/-- The compare a default is told apart with (`_matcher`). -/
def matcher (h : Heap) (v : List (ℕ × BitVec 64)) : Seq → Option Bool :=
  if v.any fun d => !(Num.float d.2).eq (.float d.2) then matchesNan h v
  else
    match zerosFrom 0 v with
    | [] => matchesPlain h v
    | [(i0,s0)] => matchesZero h v i0 s0
    | zeros => matchesZeros h v zeros

/-- The loop of the compiled engine. -/
def nativeFrom (h : Heap) : List (ℕ × ℕ × BitVec 64) → Bool
  | [] => true
  | (o,_,d)::rest =>
    match h.num o with
    | .float x => if x≠d then false else nativeFrom h rest
    | .int k =>
      if (-2^63 ≤ k ∧ k < 2^63) ∧ -2^53 ≤ k ∧ k ≤ 2^53 then
        if cast64 k≠d then false else nativeFrom h rest
      else if elemMatches (.int k) d then nativeFrom h rest
      else false

/-- The compare of the compiled engine (`FloatArrayDefault.matches`). -/
def nativeMatches (h : Heap) (v : List (ℕ × BitVec 64)) (a : Seq) : Bool :=
  if !a.list then seqMatches h a.items v
  else if a.items.length≠v.length then false
  else nativeFrom h (a.items.zip v)

section Elements

/-- A float is equal to itself unless it is a NaN. -/
theorem eq_self (d : BitVec 64) : (Num.float d).eq (.float d)=!isNan64 d := by
  simp [Num.eq,eq64]

/-- A float is equal to zero iff it is a zero. -/
theorem eq_zero (d : BitVec 64) : (Num.float d).eq (.int 0)=decide (magnitude64 d=0) := by
  have hpos := one64_pos
  simp only [Num.eq,intEq64,Int.zero_mul]
  rw [← Bool.decide_and,decide_eq_decide]
  constructor
  · rintro ⟨-,hz⟩
    apply units_zero
    split at hz <;> omega
  · intro hz
    rw [hz]
    refine ⟨by omega,?_⟩
    have hunits : unitsOf 0=0 := by rw [unitsOf,if_pos (by omega)]
    rw [hunits]
    simp

/-- An int that is equal to a zero is zero. -/
theorem intEq_zero {n : ℤ} {d : BitVec 64} (hzero : magnitude64 d=0)
    (heq : (Num.int n).eq (.float d)=true) : n=0 := by
  simp only [Num.eq,intEq64,Bool.and_eq_true,decide_eq_true_eq] at heq
  have hunits : unitsOf (magnitude64 d)=0 := by rw [hzero,unitsOf,if_pos (by omega)]
  rw [hunits] at heq
  have hmul : n*one64=0 := by
    refine heq.2.trans ?_
    split <;> rfl
  have hpos := one64_pos
  rcases Int.mul_eq_zero.mp hmul with h | h
  · exact h
  · omega

/-- What an element that is no NaN matches: its equals, and of the zeros its own. -/
theorem elemMatches_plain {o : Num} {d : BitVec 64} (hnan : isNan64 d=false) :
    elemMatches o d=(o.eq (.float d) && (!decide (magnitude64 d=0) || o.copysign==some d.msb)) := by
  unfold elemMatches
  rw [eq_self,eq_zero,hnan]
  cases o.eq (.float d) with
  | false => rfl
  | true =>
    by_cases hzero : magnitude64 d=0
    · simp only [hzero]
      cases o.copysign <;> simp
    · simp [hzero]

/-- An element that is a float matches its own pattern, and no other. -/
theorem elemMatches_float (x d : BitVec 64) : elemMatches (.float x) d=(x==d) := by
  cases hnan : isNan64 d with
  | true =>
    unfold elemMatches
    rw [eq_self,hnan]
    rfl
  | false =>
    rw [elemMatches_plain hnan,Bool.eq_iff_iff]
    simp only [Num.eq,eq64,Num.copysign,hnan,Bool.and_eq_true,Bool.or_eq_true,Bool.not_eq_true',
      beq_iff_eq,decide_eq_false_iff_not,Bool.not_false,Option.some.injEq,and_true]
    constructor
    · rintro ⟨⟨-,heq | ⟨hx,hd⟩⟩,hsign⟩
      · exact heq
      · exact bits_ext (hsign.resolve_left fun h => h hd) (hx.trans hd.symm)
    · rintro rfl
      exact ⟨⟨hnan,.inl rfl⟩,.inr rfl⟩

/-- An int matches the double it equals, and of the zeros the positive one. -/
theorem elemMatches_int (n : ℤ) (d : BitVec 64) :
    elemMatches (.int n) d=true ↔ intEq64 n d=true ∧ (magnitude64 d=0 → d.msb=false) := by
  cases hnan : isNan64 d with
  | true =>
    have hpast := (isNan64_iff d).mp hnan
    unfold elemMatches
    rw [eq_self,hnan]
    constructor
    · intro h
      cases h
    · rintro ⟨h,-⟩
      unfold intEq64 at h
      simp only [Bool.and_eq_true,decide_eq_true_eq] at h
      omega
  | false =>
    rw [elemMatches_plain hnan]
    simp only [Num.eq,Bool.and_eq_true,Bool.or_eq_true,Bool.not_eq_true',beq_iff_eq,
      decide_eq_false_iff_not]
    refine and_congr_right fun heq => ?_
    by_cases hzero : magnitude64 d=0
    · -- the int is zero, whose double has no sign
      have hn : n=0 := intEq_zero hzero heq
      subst hn
      have hsign : Num.copysign (.int 0)=some false := by decide +kernel
      rw [hsign]
      simp only [hzero,not_true_eq_false,false_or,Option.some.injEq,true_imp_iff]
      exact eq_comm
    · simp [hzero]

/-- An int of at most 53 bits matches the double it is cast to. -/
theorem elemMatches_cast {n : ℤ} (hn : n.natAbs ≤ 2^53) (d : BitVec 64) :
    elemMatches (.int n) d=(cast64 n==d) := by
  rw [Bool.eq_iff_iff,elemMatches_int,← cast64_iff hn,beq_iff_eq]

end Elements

section Paths

variable {h : Heap}

/-- One element more on both sides of a comparison of sequences. -/
theorem seqMatches_cons (o : ℕ) (a : List ℕ) (d : ℕ × BitVec 64) (v : List (ℕ × BitVec 64)) :
    seqMatches h (o::a) (d::v)=(elemMatches (h.num o) d.2 && seqMatches h a v) := by
  simp only [seqMatches,List.length_cons,List.zip_cons_cons,List.all_cons]
  rw [show (a.length+1==v.length+1)=(a.length==v.length) from by simp]
  cases (a.length==v.length) <;> simp

/-- One element more on both sides of Python's `==`. -/
theorem listEq_cons (o : ℕ) (a : List ℕ) (d : ℕ × BitVec 64) (v : List (ℕ × BitVec 64)) :
    listEq h (o::a) (d::v)=((o==d.1 || (h.num o).eq (.float d.2)) && listEq h a v) := by
  simp only [listEq,List.length_cons,List.zip_cons_cons,List.all_cons]
  rw [show (a.length+1==v.length+1)=(a.length==v.length) from by simp]
  cases (a.length==v.length) <;> simp

/-- The compiled loop goes by the elements. -/
theorem nativeFrom_eq : ∀ (a : List ℕ) (v : List (ℕ × BitVec 64)), a.length=v.length →
    nativeFrom h (a.zip v)=seqMatches h a v
  | [],[],_ => rfl
  | o::a,d::v,hlen => by
    have ih := nativeFrom_eq a v (by simpa using hlen)
    rw [seqMatches_cons,List.zip_cons_cons]
    unfold nativeFrom
    cases ho : h.num o with
    | float x =>
      dsimp only
      rw [elemMatches_float,ih]
      by_cases hx : x=d.2
      · simp [hx]
      · simp [hx]
    | int k =>
      dsimp only
      by_cases hk : (-2^63 ≤ k ∧ k < 2^63) ∧ -2^53 ≤ k ∧ k ≤ 2^53
      · rw [if_pos hk,elemMatches_cast (by omega),ih]
        by_cases hx : cast64 k=d.2
        · simp [hx]
        · simp [hx]
      · rw [if_neg hk,ih]
        cases elemMatches (.int k) d.2 <;> simp

/-- An object that is the default's own is equal to it, unless it is a NaN. -/
theorem same_or_eq {d : ℕ × BitVec 64} (held : h.num d.1=.float d.2) (hnan : isNan64 d.2=false)
    (o : ℕ) : (o==d.1 || (h.num o).eq (.float d.2))=(h.num o).eq (.float d.2) := by
  by_cases hsame : o=d.1
  · rw [hsame,held,eq_self,hnan]
    simp
  · simp [hsame]

/-- What is equal to a zero has a sign. -/
theorem copysign_zero {o : Num} {d : BitVec 64} (hzero : magnitude64 d=0)
    (heq : o.eq (.float d)=true) : ∃ t : Bool, o.copysign=some t := by
  cases o with
  | float x => exact ⟨x.msb,rfl⟩
  | int n =>
    have hn : n=0 := intEq_zero hzero heq
    subst hn
    exact ⟨false,by decide +kernel⟩

/-- Equal lists match the default iff the signs at its zeros are its own. -/
theorem signsMatch_eq : ∀ (a : List ℕ) (v : List (ℕ × BitVec 64)) (front : List ℕ),
    (∀ e ∈ v, h.num e.1=.float e.2) → (∀ e ∈ v, isNan64 e.2=false) → listEq h a v=true →
      signsMatch h (front++a) (zerosFrom front.length v)=some (seqMatches h a v)
  | [],[],_,_,_,_ => rfl
  | [],_::_,_,_,_,heq => by cases heq
  | _::_,[],_,_,_,heq => by cases heq
  | o::a,d::v,front,held,hnan,heq => by
    have hd := held d List.mem_cons_self
    have hdn := hnan d List.mem_cons_self
    rw [listEq_cons,same_or_eq hd hdn,Bool.and_eq_true] at heq
    have ih := signsMatch_eq a v (front++[o]) (fun e he => held e (List.mem_cons_of_mem d he))
      (fun e he => hnan e (List.mem_cons_of_mem d he)) heq.2
    rw [List.append_assoc,List.singleton_append,List.length_append,List.length_singleton] at ih
    rw [seqMatches_cons,elemMatches_plain hdn,heq.1,zerosFrom,eq_zero]
    by_cases hzero : magnitude64 d.2=0
    · obtain ⟨t,ht⟩ := copysign_zero hzero heq.1
      have hget : (front++o::a)[front.length]?=some o := by simp
      rw [if_pos (by simpa using hzero),signsMatch,hget]
      simp only [ht,hzero]
      by_cases hsign : t=d.2.msb
      · rw [if_neg (by simpa using hsign),ih,hsign]
        simp
      · rw [if_pos hsign]
        simp [hsign]
    · rw [if_neg (by simpa using hzero),ih]
      simp [hzero]

/-- What matches the default is equal to it. -/
theorem listEq_of_matches : ∀ (a : List ℕ) (v : List (ℕ × BitVec 64)),
    (∀ e ∈ v, h.num e.1=.float e.2) → (∀ e ∈ v, isNan64 e.2=false) →
      seqMatches h a v=true → listEq h a v=true
  | [],[],_,_,_ => rfl
  | [],_::_,_,_,heq => by cases heq
  | _::_,[],_,_,heq => by cases heq
  | o::a,d::v,held,hnan,heq => by
    have hdn := hnan d List.mem_cons_self
    rw [seqMatches_cons,elemMatches_plain hdn,Bool.and_eq_true,Bool.and_eq_true] at heq
    have ih := listEq_of_matches a v (fun e he => held e (List.mem_cons_of_mem d he))
      (fun e he => hnan e (List.mem_cons_of_mem d he)) heq.2
    rw [listEq_cons,same_or_eq (held d List.mem_cons_self) hdn,heq.1.1,ih]
    rfl

/-- Every compare a default can be told apart with goes by the elements. -/
theorem matcher_eq {v : List (ℕ × BitVec 64)} (held : ∀ e ∈ v, h.num e.1=.float e.2) (a : Seq) :
    matcher h v a=some (seqMatches h a.items v) := by
  unfold matcher
  by_cases hany : (v.any fun d => !(Num.float d.2).eq (.float d.2))=true
  · rw [if_pos hany]
    rfl
  · rw [if_neg hany]
    have hnan : ∀ e ∈ v, isNan64 e.2=false := by
      intro e he
      by_contra hn
      refine hany (List.any_eq_true.mpr ⟨e,he,?_⟩)
      rw [eq_self]
      simpa using hn
    -- the signs decide once the lists are equal
    have hsigns : listEq h a.items v=true →
        signsMatch h a.items (zerosFrom 0 v)=some (seqMatches h a.items v) :=
      signsMatch_eq a.items v [] held hnan
    have hdiffer : listEq h a.items v=false → seqMatches h a.items v=false := by
      intro hne
      by_contra hm
      have heq := listEq_of_matches a.items v held hnan (by simpa using hm)
      rw [hne] at heq
      cases heq
    match hz : zerosFrom 0 v with
    | [] =>
      dsimp only
      unfold matchesPlain
      rw [hz] at hsigns
      cases a.list with
      | false => rfl
      | true =>
        cases heq : listEq h a.items v with
        | true => exact hsigns heq
        | false => rw [hdiffer heq]; rfl
    | [(i0,s0)] =>
      dsimp only
      unfold matchesZero
      rw [hz] at hsigns
      cases a.list with
      | false => rfl
      | true =>
        cases heq : listEq h a.items v with
        | false => rw [hdiffer heq]; rfl
        | true =>
          rw [← hsigns heq]
          simp only [if_true,signsMatch]
          cases a.items[i0]? with
          | none => rfl
          | some o =>
            dsimp only
            cases (h.num o).copysign with
            | none => rfl
            | some t => cases t <;> cases s0 <;> rfl
    | (i0,s0)::(i1,s1)::zeros =>
      dsimp only
      unfold matchesZeros
      rw [hz] at hsigns
      cases a.list with
      | false => rfl
      | true =>
        cases heq : listEq h a.items v with
        | true => exact hsigns heq
        | false => rw [hdiffer heq]; rfl

/-- The compiled compare goes by the elements. -/
theorem nativeMatches_eq (v : List (ℕ × BitVec 64)) (a : Seq) :
    nativeMatches h v a=seqMatches h a.items v := by
  unfold nativeMatches
  cases a.list with
  | false => rfl
  | true =>
    by_cases hlen : a.items.length=v.length
    · rw [if_neg (by simp),if_neg (by simp [hlen])]
      exact nativeFrom_eq a.items v hlen
    · have hno : seqMatches h a.items v=false := by simp [seqMatches,hlen]
      rw [hno]
      simp [hlen]

/-- Floats match the default iff their patterns are its own. -/
theorem seqMatches_floats : ∀ (a : List ℕ) (xs : List (BitVec 64)) (v : List (ℕ × BitVec 64)),
    a.map h.num=xs.map .float → (seqMatches h a v=true ↔ xs=v.map Prod.snd)
  | [],[],[],_ => by simp [seqMatches]
  | [],[],_::_,_ => by simp [seqMatches]
  | [],_::_,_,hx => by cases hx
  | _::_,[],_,hx => by cases hx
  | _::_,_::_,[],_ => by simp [seqMatches]
  | o::a,x::xs,d::v,hx => by
    injection hx with ho hx
    have ih := seqMatches_floats a xs v hx
    rw [seqMatches_cons,show h.num o=.float x from ho,elemMatches_float,Bool.and_eq_true,ih,
      List.map_cons,List.cons.injEq,beq_iff_eq]

/-- Floats that are equal have one pattern, or are zeros. -/
theorem eq64_cases {x y : BitVec 64} (heq : eq64 x y=true) :
    x=y ∨ (magnitude64 x=0 ∧ magnitude64 y=0) := by
  simp only [eq64,Bool.and_eq_true,Bool.or_eq_true,beq_iff_eq] at heq
  exact heq.2

/-- The walk compares the patterns of floats. -/
theorem bitsEqualFrom_floats : ∀ (a b : List ℕ) (xs ys : List (BitVec 64)),
    a.map h.num=xs.map .float → b.map h.num=ys.map .float → a.length=b.length →
      bitsEqualFrom h (a.zip b)=some (decide (xs=ys))
  | [],[],[],[],_,_,_ => rfl
  | [],[],_::_,_,hx,_,_ => by cases hx
  | [],[],_,_::_,_,hy,_ => by cases hy
  | [],_::_,_,_,_,_,hlen => by cases hlen
  | _::_,[],_,_,_,_,hlen => by cases hlen
  | _::_,_::_,[],_,hx,_,_ => by cases hx
  | _::_,_::_,_,[],_,hy,_ => by cases hy
  | o::a,q::b,x::xs,y::ys,hx,hy,hlen => by
    injection hx with ho hx
    injection hy with hq hy
    have ho : h.num o=.float x := ho
    have hq : h.num q=.float y := hq
    have ih := bitsEqualFrom_floats a b xs ys hx hy (by simpa using hlen)
    rw [List.zip_cons_cons,bitsEqualFrom]
    by_cases hsame : o=q
    · have hxy : x=y := by
        rw [hsame,hq] at ho
        injection ho with ho
        exact ho.symm
      rw [if_pos hsame,ih,hxy]
      simp
    · have hfloat : (Num.float x).eq (.float y)=eq64 x y := rfl
      rw [if_neg hsame,ho,hq,eq_zero,hfloat]
      simp only [Num.copysign,Num.pack]
      by_cases heq : eq64 x y=true
      · rw [if_pos heq]
        by_cases hzero : magnitude64 x=0
        · rw [if_pos (by simpa using hzero)]
          by_cases hsign : x.msb=y.msb
          · have hxy : x=y := by
              rcases eq64_cases heq with hxy | ⟨-,hyz⟩
              · exact hxy
              · exact bits_ext hsign (hzero.trans hyz.symm)
            rw [if_neg (by simpa using hsign),ih,hxy]
            simp
          · have hne : x≠y := fun hxy => hsign (by rw [hxy])
            rw [if_pos hsign]
            simp [hne]
        · have hxy : x=y := by
            rcases eq64_cases heq with hxy | ⟨hxz,-⟩
            · exact hxy
            · exact absurd hxz hzero
          rw [if_neg (by simpa using hzero),ih,hxy]
          simp
      · rw [if_neg heq]
        by_cases hxy : x=y
        · rw [if_neg (by simpa using hxy),ih,hxy]
          simp
        · rw [if_pos hxy]
          simp [hxy]

/-- The comparison of two sequences of floats. -/
theorem floatArrayBitsEqual_floats {a b : ℕ} {xs ys : List (BitVec 64)}
    (ha : (h.seq a).items.map h.num=xs.map .float)
    (hb : (h.seq b).items.map h.num=ys.map .float) :
    floatArrayBitsEqual h a b=some (decide (xs=ys)) := by
  have hla : (h.seq a).items.length=xs.length := by simpa using congrArg List.length ha
  have hlb : (h.seq b).items.length=ys.length := by simpa using congrArg List.length hb
  unfold floatArrayBitsEqual
  by_cases hsame : a=b
  · have hxy : xs=ys := by
      rw [hsame,hb] at ha
      exact (List.map_injective_iff.mpr (fun _ _ he => by injection he) ha).symm
    rw [if_pos hsame,hxy]
    simp
  · rw [if_neg hsame]
    by_cases hlen : (h.seq a).items.length=(h.seq b).items.length
    · rw [if_neg (by simpa using hlen)]
      exact bitsEqualFrom_floats _ _ xs ys ha hb hlen
    · have hne : xs≠ys := fun hxy => hlen (by rw [hla,hlb,hxy])
      rw [if_pos hlen]
      simp [hne]

/-- A new object leaves the others alone. -/
theorem alloc_later (h : Heap) (x : Num) : h.Later (h.alloc x) := by
  constructor
  · simp [Heap.alloc]
  · intro o ho
    simp [Heap.alloc,Nat.ne_of_lt ho]

/-- What is later than something later is later. -/
theorem later_trans {h k l : Heap} (hk : h.Later k) (hl : k.Later l) : h.Later l := by
  constructor
  · exact hk.size.trans hl.size
  · intro o ho
    rw [hl.num o (by have := hk.size; omega),hk.num o ho]

/-- The float of an object is an object with the pattern the object packs to. -/
theorem toFloat_held {h k : Heap} {o : ℕ} {e : ℕ × BitVec 64} (ho : o < h.size)
    (hfloat : toFloat h o=some (e,k)) :
    h.Later k ∧ e.1 < k.size ∧ k.num e.1=.float e.2 ∧ (h.num o).pack=some e.2 := by
  unfold toFloat at hfloat
  cases hnum : h.num o with
  | float d =>
    simp only [hnum,Option.some.injEq,Prod.mk.injEq] at hfloat
    obtain ⟨rfl,rfl⟩ := hfloat
    exact ⟨⟨le_refl _,fun _ _ => rfl⟩,ho,hnum,rfl⟩
  | int n =>
    simp only [hnum,Option.map_eq_some_iff,Prod.mk.injEq] at hfloat
    obtain ⟨d,hd,rfl,rfl⟩ := hfloat
    refine ⟨alloc_later h _,?_,?_,hd⟩
    · simp [Heap.alloc]
    · simp [Heap.alloc]

/-- The floats of the values are objects with the patterns the values pack to. -/
theorem toFloats_held : ∀ (values : List ℕ) {h k : Heap} {v : List (ℕ × BitVec 64)},
    (∀ o ∈ values, o < h.size) → toFloats h values=some (v,k) →
      h.Later k ∧ (∀ e ∈ v, e.1 < k.size ∧ k.num e.1=.float e.2) ∧
        values.map (fun o => (h.num o).pack)=v.map fun e => some e.2
  | [],h,k,v,_,hfloats => by
    simp only [toFloats,Option.some.injEq,Prod.mk.injEq] at hfloats
    obtain ⟨rfl,rfl⟩ := hfloats
    exact ⟨⟨le_refl _,fun _ _ => rfl⟩,by simp,rfl⟩
  | o::values,h,k,v,hmade,hfloats => by
    unfold toFloats at hfloats
    cases hone : toFloat h o with
    | none => simp [hone] at hfloats
    | some r =>
      obtain ⟨e,l⟩ := r
      simp only [hone,Option.map_eq_some_iff,Prod.mk.injEq] at hfloats
      obtain ⟨⟨w,m⟩,hrest,rfl,rfl⟩ := hfloats
      obtain ⟨hfirst,hlt,hnum,hpack⟩ := toFloat_held (hmade o List.mem_cons_self) hone
      have hmade' : ∀ q ∈ values, q < l.size := by
        intro q hq
        have hlt := hmade q (List.mem_cons_of_mem o hq)
        have hsize := hfirst.size
        omega
      obtain ⟨hlater,hheld,hpacks⟩ := toFloats_held values hmade' hrest
      refine ⟨later_trans hfirst hlater,?_,?_⟩
      · intro q hq
        rcases List.mem_cons.mp hq with rfl | hq
        · exact ⟨by have := hlater.size; dsimp only; omega,(hlater.num _ hlt).trans hnum⟩
        · exact hheld q hq
      · have hsame : values.map (fun o => (l.num o).pack)=values.map fun o => (h.num o).pack := by
          refine List.map_congr_left fun q hq => ?_
          rw [hfirst.num q (hmade q (List.mem_cons_of_mem o hq))]
        rw [List.map_cons,List.map_cons,hpack,← hsame,hpacks]

/-- The objects of a default are floats, then and later. -/
theorem init_held {h k l : Heap} {values : List ℕ} {v : Default}
    (hmade : ∀ o ∈ values, o < h.size) (hinit : Default.init h values=some (v,k))
    (hlater : k.Later l) :
    values.map (fun o => (h.num o).pack)=v.values.map (fun e => some e.2) ∧
      ∀ e ∈ v.values, l.num e.1=.float e.2 := by
  simp only [Default.init,Option.map_eq_some_iff,Prod.mk.injEq] at hinit
  obtain ⟨⟨w,m⟩,hfloats,rfl,rfl⟩ := hinit
  obtain ⟨-,hheld,hpacks⟩ := toFloats_held values hmade hfloats
  refine ⟨hpacks,?_⟩
  intro e he
  obtain ⟨hlt,hnum⟩ := hheld e he
  rw [hlater.num e.1 hlt,hnum]

/-- What comparing with a default comes to, whichever way it is done. -/
structure BitExact (h : Heap) (v : List (ℕ × BitVec 64)) : Prop where
  /-- The compare that was chosen goes by the elements. -/
  pure : ∀ a : Seq, matcher h v a=some (seqMatches h a.items v)
  /-- The compiled loop goes by the elements. -/
  native : ∀ a : Seq, nativeMatches h v a=seqMatches h a.items v
  /-- Floats match iff the lengths agree and every pattern is the default's. -/
  floats : ∀ (a : List ℕ) (xs : List (BitVec 64)), a.map h.num=xs.map .float →
    (seqMatches h a v=true ↔ xs=v.map Prod.snd)
  /-- Two sequences of floats are compared with the same answer. -/
  equal : ∀ (a b : ℕ) (xs : List (BitVec 64)), (h.seq a).items.map h.num=xs.map .float →
    (h.seq b).items=v.map Prod.fst → floatArrayBitsEqual h a b=some (seqMatches h (h.seq a).items v)
  /-- An int matches the double it equals, and of the zeros the positive one. -/
  ints : ∀ (n : ℤ) (d : BitVec 64),
    elemMatches (.int n) d=true ↔ intEq64 n d=true ∧ (magnitude64 d=0 → d.msb=false)

/-- Comparing with a list of floats is exact on every path. -/
theorem bitExact_held {h : Heap} {v : List (ℕ × BitVec 64)}
    (held : ∀ e ∈ v, h.num e.1=.float e.2) : BitExact h v := by
  constructor
  · exact matcher_eq held
  · exact nativeMatches_eq v
  · exact fun a xs hx => seqMatches_floats a xs v hx
  · intro a b xs ha hb
    have hdefault : (h.seq b).items.map h.num=(v.map Prod.snd).map .float := by
      rw [hb,List.map_map,List.map_map]
      exact List.map_congr_left held
    rw [floatArrayBitsEqual_floats ha hdefault]
    congr 1
    rw [Bool.eq_iff_iff,decide_eq_true_eq]
    exact (seqMatches_floats _ xs v ha).symm
  · exact elemMatches_int

/-- A default holds the patterns of the values it is made of, and comparing with it is exact
on every path from then on. -/
theorem default_exact {h k l : Heap} {values : List ℕ} {v : Default}
    (hmade : ∀ o ∈ values, o < h.size) (hinit : Default.init h values=some (v,k))
    (hlater : k.Later l) :
    values.map (fun o => (h.num o).pack)=v.values.map (fun e => some e.2) ∧
      BitExact l v.values := by
  obtain ⟨hpacks,hheld⟩ := init_held hmade hinit hlater
  exact ⟨hpacks,bitExact_held hheld⟩

/-- Elements a default is made of: the two zeros, one of them an int, a NaN, and 1.5; then the
zeros, the NaN and another NaN again, as objects of their own. -/
def zerosHeap : Heap where
  num o := [.float 0x8000000000000000,.int 0,.float 0x7FF8000000000001,.float 0x3FF8000000000000,
    .float 0x8000000000000000,.float 0,.float 0x7FF8000000000001,.float 0x7FF8000000000002].getD o
    (.int 0)
  seq _ := ⟨true,[]⟩
  size := 8

/-- A default with both zeros and a NaN, and one with both zeros only, tell the zeros and the
NaNs apart. -/
theorem default_exact_zeros :
    (∃ (v : Default) (k : Heap), Default.init zerosHeap [0,1,2,3]=some (v,k) ∧
      v.values=[(0,0x8000000000000000),(8,0),(2,0x7FF8000000000001),(3,0x3FF8000000000000)] ∧
      BitExact k v.values ∧ matcher k v.values ⟨true,[4,5,6,3]⟩=some true ∧
      matcher k v.values ⟨true,[4,1,6,3]⟩=some true ∧
      matcher k v.values ⟨true,[5,4,6,3]⟩=some false ∧
      matcher k v.values ⟨true,[4,5,7,3]⟩=some false) ∧
    ∃ (v : Default) (k : Heap), Default.init zerosHeap [0,1,3]=some (v,k) ∧
      BitExact k v.values ∧ matcher k v.values ⟨true,[4,5,3]⟩=some true ∧
      matcher k v.values ⟨true,[5,5,3]⟩=some false := by
  have hmade : ∀ o ∈ [0,1,2,3], o < zerosHeap.size := by decide
  have hthree : ∀ o ∈ [0,1,3], o < zerosHeap.size := by decide
  have hzero : float64 0=some 0 := by decide +kernel
  have hsame : ∀ k : Heap, k.Later k := fun k => ⟨le_refl _,fun _ _ => rfl⟩
  have hnan : Default.init zerosHeap [0,1,2,3]=some
      (⟨[(0,0x8000000000000000),(8,0),(2,0x7FF8000000000001),(3,0x3FF8000000000000)]⟩,
        zerosHeap.alloc (.float 0)) := by
    simp [Default.init,toFloats,toFloat,zerosHeap,Heap.alloc,hzero]
  have hplain : Default.init zerosHeap [0,1,3]=some
      (⟨[(0,0x8000000000000000),(8,0),(3,0x3FF8000000000000)]⟩,zerosHeap.alloc (.float 0)) := by
    simp [Default.init,toFloats,toFloat,zerosHeap,Heap.alloc,hzero]
  constructor
  · refine ⟨_,_,hnan,rfl,(default_exact hmade hnan (hsame _)).2,?_,?_,?_,?_⟩ <;> decide +kernel
  · refine ⟨_,_,hplain,(default_exact hthree hplain (hsame _)).2,?_,?_⟩ <;> decide +kernel

/-- An int between two doubles is not the one it rounds to. -/
example : float64 (2^53+1)=some 0x4340000000000000 ∧
    elemMatches (.int (2^53+1)) 0x4340000000000000=false := by decide +kernel

end Paths

end FloatArrays

end SofaBuffers
