import Mathlib.Data.Int.Bitwise
import Mathlib.Tactic.Common

/-!
# Strict UTF-8

A text is the list of its code points, as the interpreter holds one: surrogates
can stand in it, and a strict encoder refuses them. `decode` accepts exactly the
shortest-form sequences of RFC 3629, without surrogates and up to `U+10FFFF`.
Nothing here belongs to one program.
-/

set_option autoImplicit false

namespace Utf8

/-- A byte in the continuation range `80..BF`. -/
def isTail (b : UInt8) : Bool := 0x80 ≤ b.toNat && b.toNat < 0xC0

/-- The second byte a lead byte admits: shortest form, no surrogate, no plane
past the last. -/
def isSecond (lead b : UInt8) : Bool :=
  isTail b && (lead.toNat≠0xE0 || 0xA0 ≤ b.toNat) && (lead.toNat≠0xED || b.toNat < 0xA0) &&
    (lead.toNat≠0xF0 || 0x90 ≤ b.toNat) && (lead.toNat≠0xF4 || b.toNat < 0x90)

/-- The code point a two-byte sequence stands for. -/
def point2 (a b : UInt8) : ℕ := (a.toNat-0xC0)*64+(b.toNat-0x80)

/-- The code point a three-byte sequence stands for. -/
def point3 (a b c : UInt8) : ℕ := ((a.toNat-0xE0)*64+(b.toNat-0x80))*64+(c.toNat-0x80)

/-- The code point a four-byte sequence stands for. -/
def point4 (a b c d : UInt8) : ℕ :=
  (((a.toNat-0xF0)*64+(b.toNat-0x80))*64+(c.toNat-0x80))*64+(d.toNat-0x80)

/-- Decode a whole byte string strictly; `none` for anything ill formed,
a sequence cut short by the end included. -/
def decode : List UInt8 → Option (List ℕ)
  | [] => some []
  | a::t =>
    if a.toNat < 0x80 then (a.toNat::·) <$> decode t
    else if a.toNat < 0xC2 then none
    else if a.toNat < 0xE0 then
      match t with
      | b::t => if isTail b then (point2 a b::·) <$> decode t else none
      | [] => none
    else if a.toNat < 0xF0 then
      match t with
      | b::c::t => if isSecond a b && isTail c then (point3 a b c::·) <$> decode t else none
      | _ => none
    else if a.toNat < 0xF5 then
      match t with
      | b::c::d::t =>
        if isSecond a b && isTail c && isTail d then (point4 a b c d::·) <$> decode t else none
      | _ => none
    else none

/-- Whether a byte string is strict UTF-8. -/
def valid (bs : List UInt8) : Bool := (decode bs).isSome

/-- The bytes of one code point; `none` for a surrogate or a number past the
last plane. -/
def encodePoint (p : ℕ) : Option (List UInt8) :=
  if p < 0x80 then some [UInt8.ofNat p]
  else if p < 0x800 then some [UInt8.ofNat (0xC0+p/64),UInt8.ofNat (0x80+p%64)]
  else if p < 0x10000 then
    if 0xD800 ≤ p ∧ p < 0xE000 then none
    else some [UInt8.ofNat (0xE0+p/4096),UInt8.ofNat (0x80+p/64%64),UInt8.ofNat (0x80+p%64)]
  else if p < 0x110000 then
    some [UInt8.ofNat (0xF0+p/262144),UInt8.ofNat (0x80+p/4096%64),
      UInt8.ofNat (0x80+p/64%64),UInt8.ofNat (0x80+p%64)]
  else none

/-- The strict encoding of a text. -/
def encode : List ℕ → Option (List UInt8)
  | [] => some []
  | p::ps =>
    match encodePoint p,encode ps with
    | some bs,some rest => some (bs++rest)
    | _,_ => none

/-- The continuation range as an arithmetic fact. -/
theorem isTail_iff (b : UInt8) : isTail b=true ↔ 0x80 ≤ b.toNat ∧ b.toNat < 0xC0 := by
  simp only [isTail,Bool.and_eq_true,decide_eq_true_eq]

/-- The second-byte ranges as an arithmetic fact. -/
theorem isSecond_iff (a b : UInt8) : isSecond a b=true ↔
    0x80 ≤ b.toNat ∧ b.toNat < 0xC0 ∧ (a.toNat≠0xE0 ∨ 0xA0 ≤ b.toNat) ∧
      (a.toNat≠0xED ∨ b.toNat < 0xA0) ∧ (a.toNat≠0xF0 ∨ 0x90 ≤ b.toNat) ∧
      (a.toNat≠0xF4 ∨ b.toNat < 0x90) := by
  simp only [isSecond,Bool.and_eq_true,Bool.or_eq_true,isTail_iff,decide_eq_true_eq,and_assoc]

/-- A number below 256 survives the trip through a byte. -/
theorem toNat_ofNat {n : ℕ} (h : n < 256) : (UInt8.ofNat n).toNat=n := by
  rw [UInt8.toNat_ofNat',Nat.mod_eq_of_lt h]

/-- Decoding the bytes of one code point gives it back and goes on behind it. -/
theorem decode_encodePoint {p : ℕ} {bs : List UInt8} (h : encodePoint p=some bs)
    (rest : List UInt8) : decode (bs++rest)=(p::·) <$> decode rest := by
  unfold encodePoint at h
  split at h
  · next hp =>
    cases h
    have ha := toNat_ofNat (show p < 256 by omega)
    rw [List.cons_append,List.nil_append,decode.eq_def]
    dsimp only
    rw [ha,if_pos hp]
  · next hp =>
    split at h
    · next hq =>
      cases h
      have ha := toNat_ofNat (show 0xC0+p/64 < 256 by omega)
      have hb := toNat_ofNat (show 0x80+p%64 < 256 by omega)
      have ht : isTail (UInt8.ofNat (0x80+p%64))=true := by rw [isTail_iff,hb]; omega
      have hv : point2 (UInt8.ofNat (0xC0+p/64)) (UInt8.ofNat (0x80+p%64))=p := by
        unfold point2; omega
      rw [List.cons_append,List.cons_append,List.nil_append,decode,ha]
      rw [if_neg (by omega),if_neg (by omega),if_pos (by omega),if_pos ht,hv]
    · next hq =>
      split at h
      · next hr =>
        split at h
        · cases h
        · next hs =>
          cases h
          have ha := toNat_ofNat (show 0xE0+p/4096 < 256 by omega)
          have hb := toNat_ofNat (show 0x80+p/64%64 < 256 by omega)
          have hc := toNat_ofNat (show 0x80+p%64 < 256 by omega)
          have ht : (isSecond (UInt8.ofNat (0xE0+p/4096)) (UInt8.ofNat (0x80+p/64%64)) &&
              isTail (UInt8.ofNat (0x80+p%64)))=true := by
            rw [Bool.and_eq_true,isSecond_iff,isTail_iff,ha,hb,hc]; omega
          have hv : point3 (UInt8.ofNat (0xE0+p/4096)) (UInt8.ofNat (0x80+p/64%64))
              (UInt8.ofNat (0x80+p%64))=p := by
            unfold point3; omega
          simp only [List.cons_append,List.nil_append]
          rw [decode,ha,if_neg (by omega),if_neg (by omega),if_neg (by omega),if_pos (by omega)]
          simp only [ht,if_true,hv]
      · next hr =>
        split at h
        · next hs =>
          cases h
          have ha := toNat_ofNat (show 0xF0+p/262144 < 256 by omega)
          have hb := toNat_ofNat (show 0x80+p/4096%64 < 256 by omega)
          have hc := toNat_ofNat (show 0x80+p/64%64 < 256 by omega)
          have hd := toNat_ofNat (show 0x80+p%64 < 256 by omega)
          have ht : (isSecond (UInt8.ofNat (0xF0+p/262144)) (UInt8.ofNat (0x80+p/4096%64)) &&
              isTail (UInt8.ofNat (0x80+p/64%64)) && isTail (UInt8.ofNat (0x80+p%64)))=true := by
            rw [Bool.and_eq_true,Bool.and_eq_true,isSecond_iff,isTail_iff,isTail_iff,ha,hb,hc,hd]; omega
          have hv : point4 (UInt8.ofNat (0xF0+p/262144)) (UInt8.ofNat (0x80+p/4096%64))
              (UInt8.ofNat (0x80+p/64%64)) (UInt8.ofNat (0x80+p%64))=p := by
            unfold point4; omega
          simp only [List.cons_append,List.nil_append]
          rw [decode,ha,if_neg (by omega),if_neg (by omega),if_neg (by omega),
            if_neg (by omega),if_pos (by omega)]
          simp only [ht,if_true,hv]
        · cases h

/-- What the strict encoder writes decodes to the text it was given. -/
theorem decode_encode {ps : List ℕ} {bs : List UInt8} (h : encode ps=some bs) :
    decode bs=some ps := by
  induction ps generalizing bs with
  | nil => cases h; rfl
  | cons p ps ih =>
    rw [encode] at h
    split at h
    · next b r hp hr =>
      cases h
      rw [decode_encodePoint hp,ih hr]
      rfl
    · cases h

/-- What the strict encoder writes is strict UTF-8. -/
theorem valid_encode {ps : List ℕ} {bs : List UInt8} (h : encode ps=some bs) :
    valid bs=true := by
  rw [valid,decode_encode h]
  rfl

/-- What stands at the front of a byte string. -/
inductive First
  /-- A whole sequence, and what follows it. -/
  | point (p : ℕ) (rest : List UInt8)
  /-- The beginning of a sequence, cut short by the end. -/
  | short
  /-- Nothing a well-formed sequence could begin with. -/
  | bad

/-- Read one sequence off the front. -/
def first : List UInt8 → First
  | [] => .short
  | a::t =>
    if a.toNat < 0x80 then .point a.toNat t
    else if a.toNat < 0xC2 then .bad
    else if a.toNat < 0xE0 then
      match t with
      | [] => .short
      | b::t => if isTail b then .point (point2 a b) t else .bad
    else if a.toNat < 0xF0 then
      match t with
      | [] => .short
      | [b] => if isSecond a b then .short else .bad
      | b::c::t => if isSecond a b && isTail c then .point (point3 a b c) t else .bad
    else if a.toNat < 0xF5 then
      match t with
      | [] => .short
      | [b] => if isSecond a b then .short else .bad
      | [b,c] => if isSecond a b && isTail c then .short else .bad
      | b::c::d::t =>
        if isSecond a b && isTail c && isTail d then .point (point4 a b c d) t else .bad
    else .bad

/-- Decoding takes one sequence after the other. -/
theorem decode_first (a : UInt8) (t : List UInt8) :
    decode (a::t)=match first (a::t) with
      | .point p rest => (p::·) <$> decode rest
      | _ => none := by
  rw [decode.eq_def,first.eq_def]
  dsimp only
  by_cases h1 : a.toNat < 0x80
  · rw [if_pos h1,if_pos h1]
  rw [if_neg h1,if_neg h1]
  by_cases h2 : a.toNat < 0xC2
  · rw [if_pos h2,if_pos h2]
  rw [if_neg h2,if_neg h2]
  by_cases h3 : a.toNat < 0xE0
  · rw [if_pos h3,if_pos h3]
    cases t with
    | nil => rfl
    | cons b t =>
      dsimp only
      split <;> rfl
  rw [if_neg h3,if_neg h3]
  by_cases h4 : a.toNat < 0xF0
  · rw [if_pos h4,if_pos h4]
    match t with
    | [] => rfl
    | [b] => dsimp only; cases isSecond a b <;> rfl
    | b::c::t => dsimp only; split <;> rfl
  rw [if_neg h4,if_neg h4]
  by_cases h5 : a.toNat < 0xF5
  · rw [if_pos h5,if_pos h5]
    match t with
    | [] => rfl
    | [b] => dsimp only; cases isSecond a b <;> rfl
    | [b,c] => dsimp only; cases isSecond a b && isTail c <;> rfl
    | b::c::d::t => dsimp only; split <;> rfl
  rw [if_neg h5,if_neg h5]

/-- What can be read off the front: the bytes it takes decide alone. -/
theorem first_cases (xs : List UInt8) :
    (∃ bs rest p, xs=bs++rest ∧ 0 < bs.length ∧ bs.length ≤ 4 ∧ ∀ ys, first (bs++ys)=.point p ys) ∨
    (first xs=.short ∧ xs.length < 4) ∨ ∀ ys, first (xs++ys)=.bad := by
  match xs with
  | [] => exact .inr (.inl ⟨rfl,by simp⟩)
  | a::t =>
    by_cases h1 : a.toNat < 0x80
    · exact .inl ⟨[a],t,a.toNat,rfl,by simp,by simp,fun ys => by simp [first,h1]⟩
    by_cases h2 : a.toNat < 0xC2
    · exact .inr (.inr fun ys => by simp [first,h1,h2])
    by_cases h3 : a.toNat < 0xE0
    · match t with
      | [] => exact .inr (.inl ⟨by simp [first,h1,h2,h3],by simp⟩)
      | b::t =>
        by_cases hb : isTail b
        · exact .inl ⟨[a,b],t,point2 a b,rfl,by simp,by simp,
            fun ys => by simp [first,h1,h2,h3,hb]⟩
        · exact .inr (.inr fun ys => by simp [first,h1,h2,h3,hb])
    by_cases h4 : a.toNat < 0xF0
    · match t with
      | [] => exact .inr (.inl ⟨by simp [first,h1,h2,h3,h4],by simp⟩)
      | [b] =>
        by_cases hb : isSecond a b
        · exact .inr (.inl ⟨by simp [first,h1,h2,h3,h4,hb],by simp⟩)
        · refine .inr (.inr fun ys => ?_)
          cases ys <;> simp [first,h1,h2,h3,h4,hb]
      | b::c::t =>
        by_cases hb : (isSecond a b && isTail c)=true
        · exact .inl ⟨[a,b,c],t,point3 a b c,rfl,by simp,by simp,
            fun ys => by simp only [List.cons_append,List.nil_append,first,h1,h2,h3,h4,hb,if_true,if_false]⟩
        · exact .inr (.inr fun ys => by
            simp only [List.cons_append,first,h1,h2,h3,h4,hb,if_true,if_false,Bool.false_eq_true])
    by_cases h5 : a.toNat < 0xF5
    · match t with
      | [] => exact .inr (.inl ⟨by simp [first,h1,h2,h3,h4,h5],by simp⟩)
      | [b] =>
        by_cases hb : isSecond a b
        · exact .inr (.inl ⟨by simp [first,h1,h2,h3,h4,h5,hb],by simp⟩)
        · refine .inr (.inr fun ys => ?_)
          match ys with
          | [] => simp [first,h1,h2,h3,h4,h5,hb]
          | [c] => simp [first,h1,h2,h3,h4,h5,hb]
          | c::d::ys => simp [first,h1,h2,h3,h4,h5,hb]
      | [b,c] =>
        by_cases hb : (isSecond a b && isTail c)=true
        · exact .inr (.inl ⟨by simp only [first,h1,h2,h3,h4,h5,hb,if_true,if_false],by simp⟩)
        · refine .inr (.inr fun ys => ?_)
          cases ys with
          | nil => simp only [List.append_nil,first,h1,h2,h3,h4,h5,hb,if_true,if_false,Bool.false_eq_true]
          | cons d ys =>
            have hd : (isSecond a b && isTail c && isTail d)=false := by
              rw [Bool.not_eq_true _ |>.mp hb,Bool.false_and]
            simp only [List.cons_append,List.nil_append,first,h1,h2,h3,h4,h5,hd,if_true,if_false,Bool.false_eq_true]
      | b::c::d::t =>
        by_cases hb : (isSecond a b && isTail c && isTail d)=true
        · exact .inl ⟨[a,b,c,d],t,point4 a b c d,rfl,by simp,by simp,
            fun ys => by simp only [List.cons_append,List.nil_append,first,h1,h2,h3,h4,h5,hb,if_true,if_false]⟩
        · exact .inr (.inr fun ys => by
            simp only [List.cons_append,first,h1,h2,h3,h4,h5,hb,if_true,if_false,Bool.false_eq_true])
    · exact .inr (.inr fun ys => by simp [first,h1,h2,h3,h4,h5])

/-- The code points of whole sequences at the front: how many bytes they take,
or `none` if something ill formed stops them. A sequence cut short by the end
is ill formed only when nothing more is to come. -/
def consumeFor (final : Bool) : ℕ → List UInt8 → Option ℕ
  | 0, _ => some 0
  | _+1, [] => some 0
  | turns+1, a::t =>
    match first (a::t) with
    | .point _ rest => (·+((a::t).length-rest.length)) <$> consumeFor final turns rest
    | .short => if final then none else some 0
    | .bad => none

/-- Decode the front of a byte string incrementally: the bytes consumed. -/
def consume (final : Bool) (bs : List UInt8) : Option ℕ := consumeFor final bs.length bs

/-- One sequence more or less at the front does not change whether the rest is
well formed. -/
theorem valid_append {bs : List UInt8} {p : ℕ} (h : ∀ ys, first (bs++ys)=.point p ys)
    (hpos : 0 < bs.length) (ys : List UInt8) : valid (bs++ys)=valid ys := by
  cases bs with
  | nil => simp at hpos
  | cons a t =>
    have hf := h ys
    rw [List.cons_append] at hf
    rw [valid,List.cons_append,decode_first,hf]
    cases hd : decode ys <;> simp [valid,hd]

/-- Something ill formed at the front is ill formed for good. -/
theorem valid_of_bad {bs : List UInt8} (h : first bs=.bad) : valid bs=false := by
  cases bs with
  | nil => cases h
  | cons a t => rw [valid,decode_first,h]; rfl

/-- A nonempty string cut short is not well formed. -/
theorem valid_of_short {bs : List UInt8} (h : first bs=.short) (h0 : bs≠[]) :
    valid bs=false := by
  cases bs with
  | nil => exact absurd rfl h0
  | cons a t => rw [valid,decode_first,h]; rfl

/-- Consuming with more to come: the rest decides, and it is a cut-short tail. -/
theorem consumeFor_false {turns : ℕ} {bs : List UInt8} (h : bs.length ≤ turns) (ys : List UInt8) :
    (consumeFor false turns bs=none ∧ valid (bs++ys)=false) ∨
    ∃ u, consumeFor false turns bs=some u ∧ u ≤ bs.length ∧ bs.length < u+4 ∧
      valid (bs++ys)=valid (bs.drop u++ys) := by
  induction turns generalizing bs with
  | zero =>
    have hnil : bs=[] := List.length_eq_zero_iff.mp (by omega)
    subst hnil
    exact .inr ⟨0,rfl,by simp,by simp,rfl⟩
  | succ turns ih =>
    cases bs with
    | nil => exact .inr ⟨0,rfl,by simp,by simp,rfl⟩
    | cons a t =>
      rw [consumeFor]
      rcases first_cases (a::t) with ⟨cs,rest,p,hx,hpos,_,hf⟩|⟨hf,hl⟩|hf
      · have hlen : (a::t).length=cs.length+rest.length := by rw [hx,List.length_append]
        rw [hx,hf rest]
        dsimp only
        rcases ih (show rest.length ≤ turns by omega) with ⟨hn,hv⟩|⟨u,hu,hle,hlt,hv⟩
        · refine .inl ⟨by rw [hn]; rfl,?_⟩
          rw [List.append_assoc,valid_append hf hpos,hv]
        · refine .inr ⟨u+((cs++rest).length-rest.length),by rw [hu]; rfl,?_,?_,?_⟩
          · rw [List.length_append]; omega
          · rw [List.length_append]; omega
          · have hd : u+((cs++rest).length-rest.length)=cs.length+u := by
              rw [List.length_append]; omega
            rw [hd,List.append_assoc,valid_append hf hpos,hv,←List.drop_drop,List.drop_left]
      · rw [hf]
        exact .inr ⟨0,rfl,by omega,by simpa using hl,rfl⟩
      · have hb := hf []
        rw [List.append_nil] at hb
        rw [hb]
        exact .inl ⟨rfl,valid_of_bad (hf ys)⟩

/-- Consuming to the end takes everything or finds the string ill formed. -/
theorem consumeFor_true {turns : ℕ} {bs : List UInt8} (h : bs.length ≤ turns) :
    consumeFor true turns bs=if valid bs then some bs.length else none := by
  induction turns generalizing bs with
  | zero =>
    have hnil : bs=[] := List.length_eq_zero_iff.mp (by omega)
    subst hnil
    rfl
  | succ turns ih =>
    cases bs with
    | nil => rfl
    | cons a t =>
      rw [consumeFor]
      rcases first_cases (a::t) with ⟨cs,rest,p,hx,hpos,_,hf⟩|⟨hf,hl⟩|hf
      · have hlen : (a::t).length=cs.length+rest.length := by rw [hx,List.length_append]
        rw [hx,hf rest]
        dsimp only
        rw [ih (show rest.length ≤ turns by omega),valid_append hf hpos,List.length_append,
          Nat.add_sub_cancel,Nat.add_comm]
        cases valid rest <;> rfl
      · rw [hf,valid_of_short hf (by simp)]
        rfl
      · have hb := hf []
        rw [List.append_nil] at hb
        rw [hb,valid_of_bad hb]
        rfl

/-- A byte is the number it was made of. -/
theorem ofNat_eq {n : ℕ} {b : UInt8} (h : n=b.toNat) : UInt8.ofNat n=b := by
  subst h
  exact UInt8.ofNat_toNat

/-- The point read off the front is encoded in the bytes it took. -/
theorem encodePoint_first {xs rest : List UInt8} {p : ℕ} (h : first xs=.point p rest) :
    ∃ bs, encodePoint p=some bs ∧ xs=bs++rest := by
  match xs with
  | [] => simp [first] at h
  | a::t =>
    by_cases h1 : a.toNat < 0x80
    · simp [first,h1] at h
      obtain ⟨rfl,rfl⟩ := h
      exact ⟨[a],by simp [encodePoint,h1],rfl⟩
    by_cases h2 : a.toNat < 0xC2
    · simp [first,h1,h2] at h
    by_cases h3 : a.toNat < 0xE0
    · match t with
      | [] => simp [first,h1,h2,h3] at h
      | b::t =>
        simp only [first,h1,h2,h3,if_true,if_false] at h
        split at h
        · next hb =>
          rw [isTail_iff] at hb
          obtain ⟨rfl,rfl⟩ := First.point.inj h
          have hp : ¬point2 a b < 0x80 ∧ point2 a b < 0x800 := by unfold point2; omega
          have ha : UInt8.ofNat (0xC0+point2 a b/64)=a := ofNat_eq (by unfold point2; omega)
          have hb : UInt8.ofNat (0x80+point2 a b%64)=b := ofNat_eq (by unfold point2; omega)
          exact ⟨[a,b],by simp only [encodePoint,hp.1,hp.2,if_true,if_false,ha,hb],rfl⟩
        · cases h
    by_cases h4 : a.toNat < 0xF0
    · match t with
      | [] => simp [first,h1,h2,h3,h4] at h
      | [b] =>
        simp only [first,h1,h2,h3,h4,if_true,if_false] at h
        split at h <;> cases h
      | b::c::t =>
        simp only [first,h1,h2,h3,h4,if_true,if_false] at h
        split at h
        · next hbc =>
          rw [Bool.and_eq_true,isSecond_iff,isTail_iff] at hbc
          obtain ⟨rfl,rfl⟩ := First.point.inj h
          have hp : ¬point3 a b c < 0x80 ∧ ¬point3 a b c < 0x800 ∧ point3 a b c < 0x10000 ∧
              ¬(0xD800 ≤ point3 a b c ∧ point3 a b c < 0xE000) := by unfold point3; omega
          have ha : UInt8.ofNat (0xE0+point3 a b c/4096)=a := ofNat_eq (by unfold point3; omega)
          have hb : UInt8.ofNat (0x80+point3 a b c/64%64)=b := ofNat_eq (by unfold point3; omega)
          have hc : UInt8.ofNat (0x80+point3 a b c%64)=c := ofNat_eq (by unfold point3; omega)
          exact ⟨[a,b,c],by
            simp only [encodePoint,hp.1,hp.2.1,hp.2.2.1,hp.2.2.2,if_true,if_false,ha,hb,hc],rfl⟩
        · cases h
    by_cases h5 : a.toNat < 0xF5
    · match t with
      | [] => simp [first,h1,h2,h3,h4,h5] at h
      | [b] =>
        simp only [first,h1,h2,h3,h4,h5,if_true,if_false] at h
        split at h <;> cases h
      | [b,c] =>
        simp only [first,h1,h2,h3,h4,h5,if_true,if_false] at h
        split at h <;> cases h
      | b::c::d::t =>
        simp only [first,h1,h2,h3,h4,h5,if_true,if_false] at h
        split at h
        · next hbcd =>
          rw [Bool.and_eq_true,Bool.and_eq_true,isSecond_iff,isTail_iff,isTail_iff] at hbcd
          obtain ⟨rfl,rfl⟩ := First.point.inj h
          have hp : ¬point4 a b c d < 0x80 ∧ ¬point4 a b c d < 0x800 ∧ ¬point4 a b c d < 0x10000 ∧
              point4 a b c d < 0x110000 := by unfold point4; omega
          have ha : UInt8.ofNat (0xF0+point4 a b c d/262144)=a := ofNat_eq (by unfold point4; omega)
          have hb : UInt8.ofNat (0x80+point4 a b c d/4096%64)=b :=
            ofNat_eq (by unfold point4; omega)
          have hc : UInt8.ofNat (0x80+point4 a b c d/64%64)=c := ofNat_eq (by unfold point4; omega)
          have hd : UInt8.ofNat (0x80+point4 a b c d%64)=d := ofNat_eq (by unfold point4; omega)
          exact ⟨[a,b,c,d],by
            simp only [encodePoint,hp.1,hp.2.1,hp.2.2.1,hp.2.2.2,if_true,if_false,ha,hb,hc,hd],rfl⟩
        · cases h
    · simp [first,h1,h2,h3,h4,h5] at h

/-- What decodes is the strict encoding of the text it decodes to. -/
theorem encode_decode {bs : List UInt8} {ps : List ℕ} (h : decode bs=some ps) :
    encode ps=some bs := by
  induction ps generalizing bs with
  | nil =>
    cases bs with
    | nil => rfl
    | cons a t =>
      rw [decode_first] at h
      cases hf : first (a::t) with
      | point p rest => rw [hf] at h; cases hd : decode rest <;> simp [hd] at h
      | short => simp [hf] at h
      | bad => simp [hf] at h
  | cons p ps ih =>
    cases bs with
    | nil => simp [decode] at h
    | cons a t =>
      rw [decode_first] at h
      cases hf : first (a::t) with
      | point q rest =>
        rw [hf] at h
        cases hd : decode rest with
        | none => simp [hd] at h
        | some qs =>
          simp [hd] at h
          obtain ⟨rfl,rfl⟩ := h
          obtain ⟨cs,hcs,hx⟩ := encodePoint_first hf
          have hrest := ih hd
          simp [encode,hcs,hrest,hx]
      | short => simp [hf] at h
      | bad => simp [hf] at h

/-- A byte string is strict UTF-8 exactly when it encodes a text. -/
theorem valid_iff {bs : List UInt8} : valid bs=true ↔ ∃ ps, encode ps=some bs := by
  constructor
  · intro h
    obtain ⟨ps,hps⟩ := Option.isSome_iff_exists.mp h
    exact ⟨ps,encode_decode hps⟩
  · rintro ⟨ps,hps⟩
    exact valid_encode hps

end Utf8
