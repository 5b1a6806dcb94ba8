import SofaBuffers.Walk.Step

/-!
# The buffer and the bytes still to be walked

The cursor arithmetic of the decoder's readers, stated on the bytes between
the cursor and the end of the buffer.
-/

set_option autoImplicit false

namespace SofaBuffers

open Resumable

variable {V : Type}

namespace Dec

/-- The bytes from a position of the buffer to its end. -/
def restFrom (d : Dec V) (pos : ℕ) : List UInt8 := (d.buf.take d.n).drop pos

/-- The bytes still to be walked. -/
def rest (d : Dec V) : List UInt8 := d.restFrom d.pos

/-- The count of buffered bytes is that of bytes there. -/
def Filled (d : Dec V) : Prop := d.n ≤ d.buf.length

/-- The cursor from which the given bytes are left. -/
def seek (d : Dec V) (xs : List UInt8) : ℕ := d.n-xs.length

end Dec

open Dec

section Positions

variable {d : Dec V} {pos : ℕ} {b : UInt8} {t : List UInt8}

/-- As many bytes are left as there are positions. -/
theorem restFrom_length (h : d.Filled) (pos : ℕ) : (d.restFrom pos).length=d.n-pos := by
  rw [restFrom,List.length_drop,List.length_take,Nat.min_eq_left h]

/-- Nothing is left exactly from the end on. -/
theorem restFrom_nil (h : d.Filled) : d.restFrom pos=[] ↔ d.n ≤ pos := by
  rw [←List.length_eq_zero_iff,restFrom_length h]
  omega

/-- A position before the end has a byte, and the others follow it. -/
theorem restFrom_cons (h : d.Filled) (hx : d.restFrom pos=b::t) :
    pos < d.n ∧ d.buf[pos]?=some b ∧ d.restFrom (pos+1)=t := by
  have hl := restFrom_length h pos
  rw [hx,List.length_cons] at hl
  have hb : d.buf[pos]?=some b := by
    have h0 : (d.restFrom pos)[0]?=some b := by rw [hx]; rfl
    rw [restFrom,List.getElem?_drop,Nat.add_zero,List.getElem?_take] at h0
    split at h0
    · exact h0
    · cases h0
  refine ⟨by omega,hb,?_⟩
  rw [restFrom,Nat.add_comm,Nat.add_comm 1 pos,←List.drop_drop]
  show (d.restFrom pos).drop 1=t
  rw [hx]
  rfl

/-- A later position has fewer bytes left. -/
theorem restFrom_drop (d : Dec V) (pos k : ℕ) : d.restFrom (pos+k)=(d.restFrom pos).drop k := by
  rw [restFrom,restFrom,List.drop_drop]

/-- The cursor whose rest is a tail of the bytes left is where it should be. -/
theorem restFrom_seek (h : d.Filled) {xs : List UInt8} (hx : xs<:+d.restFrom pos) :
    d.restFrom (d.seek xs)=xs := by
  obtain ⟨ys,hy⟩ := hx
  have hl := restFrom_length h pos
  rw [←hy,List.length_append] at hl
  by_cases hlen : xs.length=0
  · rw [List.length_eq_zero_iff.mp hlen,seek,List.length_nil]
    exact (restFrom_nil h).mpr (by omega)
  · have hp : d.seek xs=pos+ys.length := by rw [seek]; omega
    rw [hp,restFrom_drop,←hy,List.drop_left]

/-- The cursor of the bytes left from a position within the buffer. -/
theorem seek_restFrom (h : d.Filled) (hp : pos ≤ d.n) : d.seek (d.restFrom pos)=pos := by
  rw [seek,restFrom_length h]
  omega

/-- A tail of the bytes left starts behind the cursor, within the buffer. -/
theorem seek_le (h : d.Filled) (hp : d.pos ≤ d.n) {xs : List UInt8} (hx : xs<:+d.rest) :
    d.pos ≤ d.seek xs ∧ d.seek xs ≤ d.n := by
  have hl : d.rest.length=d.n-d.pos := restFrom_length h d.pos
  have := hx.length_le
  rw [seek]
  omega

end Positions

/-- A byte of the buffer that is there is read. -/
theorem byteAt_run {d : Dec V} {pos : ℕ} {b : UInt8} (h : d.buf[pos]?=some b) :
    (byteAt pos : DecM V UInt8) d=.ok b d := by
  rw [byteAt,run_get_bind,h]
  rfl

@[simp] theorem setPos_run (pos : ℕ) (d : Dec V) :
    (setPos pos : DecM V Unit) d=.ok () {d with pos := pos} := rfl

@[simp] theorem setPos_bind {α : Type} (pos : ℕ) (f : Unit → DecM V α) (d : Dec V) :
    ((setPos pos : DecM V Unit) >>= f) d=f () {d with pos := pos} := rfl

@[simp] theorem setPending_bind {α : Type} (p : Option Pending) (f : Unit → DecM V α) (d : Dec V) :
    ((setPending p : DecM V Unit) >>= f) d=f () {d with pending := p} := rfl

@[simp] theorem arm_bind {α : Type} (f : Unit → DecM V α) (d : Dec V) :
    ((arm : DecM V Unit) >>= f) d=f () {d with keep := d.pos} := rfl

@[simp] theorem setPending_run (p : Option Pending) (d : Dec V) :
    (setPending p : DecM V Unit) d=.ok () {d with pending := p} := rfl

@[simp] theorem arm_run (d : Dec V) : (arm : DecM V Unit) d=.ok () {d with keep := d.pos} := rfl

@[simp] theorem suspend_run {α : Type} (msg : String) (d : Dec V) :
    (suspend msg : DecM V α) d=.error (.incomplete msg) {d with pos := d.keep} := rfl

/-- Groups of seven bits are put together without overlap. -/
theorem or_group {i acc x : ℕ} (h : acc < 128^i) : acc|||x<<<(7*i)=acc+x*128^i := by
  have hp : (128 : ℕ)^i=2^(7*i) := by rw [Nat.pow_mul]
  rw [hp] at h ⊢
  rw [Nat.or_comm,←Nat.shiftLeft_add_eq_or_of_lt h,Nat.shiftLeft_eq,Nat.add_comm]

/-- A group put on top stays below the next one. -/
theorem group_lt {i acc x : ℕ} (h : acc < 128^i) (hx : x < 128) : acc+x*128^i < 128^(i+1) := by
  have h1 : x*128^i ≤ 127*128^i := Nat.mul_le_mul_right _ (by omega)
  rw [Nat.pow_succ']
  omega

/-- The bytes of a varint after the first, on the bytes left. -/
theorem varintTail_run {d : Dec V} (hd : d.Filled) {turns i acc pos : ℕ} (hi : i+turns=9)
    (hacc : acc < 128^i) :
    (varintTail turns acc (7*i) pos : DecM V ℕ) d=
      match Varint.readFrom overlong i acc (d.restFrom pos) with
      | .done v rest => .ok v {d with pos := d.seek rest}
      | .more => .error (.incomplete "truncated varint") {d with pos := d.keep}
      | .bad why => .error why d := by
  induction turns generalizing i acc pos with
  | zero =>
    have h9 : i=9 := by omega
    subst h9
    rw [varintTail,run_get_bind]
    cases hx : d.restFrom pos with
    | nil => rw [if_pos ((restFrom_nil hd).mp hx)]; rfl
    | cons b t =>
      obtain ⟨hp,hb,ht⟩ := restFrom_cons hd hx
      rw [if_neg (by omega),run_bind_ok (byteAt_run hb),Varint.readFrom,
        if_neg (show ¬9 < 9 by omega)]
      by_cases h1 : 1 < b.toNat
      · rw [if_pos h1,if_neg (show ¬b.toNat ≤ 1 by omega)]
        rfl
      · have hs : d.seek t=pos+1 := by rw [←ht,seek_restFrom hd hp]
        rw [if_neg h1,if_pos (show b.toNat ≤ 1 by omega),or_group hacc]
        dsimp only
        rw [hs]
        rfl
  | succ turns ih =>
    rw [varintTail,run_get_bind]
    cases hx : d.restFrom pos with
    | nil => rw [if_pos ((restFrom_nil hd).mp hx)]; rfl
    | cons b t =>
      obtain ⟨hp,hb,ht⟩ := restFrom_cons hd hx
      have hb256 := b.toNat_lt
      rw [if_neg (by omega),run_bind_ok (byteAt_run hb),Varint.readFrom,
        if_pos (show i < 9 by omega),or_group hacc]
      by_cases h1 : b.toNat < 0x80
      · have hs : d.seek t=pos+1 := by rw [←ht,seek_restFrom hd hp]
        rw [if_pos h1,if_pos h1,Nat.mod_eq_of_lt h1]
        dsimp only
        rw [hs]
        rfl
      · have hm : b.toNat%128=b.toNat-128 := by omega
        rw [if_neg h1,if_neg h1,hm,←ht,←Nat.mul_succ]
        exact ih (by omega) (group_lt hacc (by omega))

/-- One varint, on the bytes left. -/
theorem varint_run {d : Dec V} (hd : d.Filled) :
    (varint : DecM V ℕ) d=
      match Varint.read overlong d.rest with
      | .done v rest => .ok v {d with pos := d.seek rest}
      | .more => .error (.incomplete "truncated varint") {d with pos := d.keep}
      | .bad why => .error why d := by
  rw [varint,run_get_bind]
  cases hx : d.rest with
  | nil => rw [if_pos ((restFrom_nil hd).mp hx)]; rfl
  | cons b t =>
    obtain ⟨hp,hb,ht⟩ := restFrom_cons hd hx
    have hb256 := b.toNat_lt
    rw [if_neg (by omega),run_bind_ok (byteAt_run hb),Varint.read,Varint.readFrom,
      if_pos (show 0 < 9 by omega)]
    by_cases h1 : b.toNat < 0x80
    · have hs : d.seek t=d.pos+1 := by rw [←ht,seek_restFrom hd hp]
      rw [if_pos h1,if_pos h1,Nat.zero_add,Nat.pow_zero,Nat.mul_one]
      dsimp only
      rw [hs]
      rfl
    · have hm : b.toNat%128=0+(b.toNat-128)*128^0 := by omega
      rw [if_neg h1,if_neg h1,hm,←ht]
      exact varintTail_run hd (i:=1) (by omega) (by omega)

/-- A varint that is there is read. -/
theorem varint_done {d : Dec V} (hd : d.Filled) {v : ℕ} {rest : List UInt8}
    (h : Varint.read overlong d.rest=.done v rest) :
    (varint : DecM V ℕ) d=.ok v {d with pos := d.seek rest} := by
  rw [varint_run hd,h]

/-- A varint cut short suspends. -/
theorem varint_more {d : Dec V} (hd : d.Filled) (h : Varint.read overlong d.rest=.more) :
    (varint : DecM V ℕ) d=.error (.incomplete "truncated varint") {d with pos := d.keep} := by
  rw [varint_run hd,h]

/-- An overlong varint is refused. -/
theorem varint_bad {d : Dec V} (hd : d.Filled) {why : Exn}
    (h : Varint.read overlong d.rest=.bad why) : (varint : DecM V ℕ) d=.error why d := by
  rw [varint_run hd,h]

/-- The inlined read of one or two bytes is the varint reader. -/
theorem inlineWord_run {d : Dec V} (hd : d.Filled) (h0 : d.pos < d.n) :
    (inlineWord : DecM V ℕ) d=(varint : DecM V ℕ) d := by
  rw [inlineWord,run_get_bind,varint_run hd]
  cases hx : d.rest with
  | nil => exact absurd ((restFrom_nil hd).mp hx) (by omega)
  | cons b t =>
    obtain ⟨hp,hb,ht⟩ := restFrom_cons hd hx
    have hb256 := b.toNat_lt
    rw [run_bind_ok (byteAt_run hb)]
    by_cases h1 : b.toNat < 0x80
    · have hs : d.seek t=d.pos+1 := by rw [←ht,seek_restFrom hd hp]
      rw [if_pos h1,Varint.read_cons_small overlong h1]
      dsimp only
      rw [hs]
      rfl
    · rw [if_neg h1,←hx,←varint_run hd]
      by_cases h2 : d.pos+1 < d.n
      · rw [if_pos h2]
        cases hx' : d.restFrom (d.pos+1) with
        | nil => exact absurd ((restFrom_nil hd).mp hx') (by omega)
        | cons b' t' =>
          obtain ⟨hp',hb',ht'⟩ := restFrom_cons hd hx'
          rw [run_bind_ok (byteAt_run hb')]
          by_cases h3 : b'.toNat < 0x80
          · have hs : d.seek t'=d.pos+2 := by rw [←ht',seek_restFrom hd hp']
            have hm : b.toNat%128=0+(b.toNat-128)*128^0 := by omega
            have ho : b.toNat%128|||b'.toNat<<<7=b.toNat%128+b'.toNat*128^1 :=
              or_group (i:=1) (by omega)
            rw [if_pos h3,varint_run hd,hx,←ht,hx',Varint.read,Varint.readFrom,if_pos (by omega),
              if_neg h1,Varint.readFrom,if_pos (by omega),if_pos h3,ho,hm]
            dsimp only
            rw [hs]
            rfl
          · rw [if_neg h3]
      · rw [if_neg h2]

/-- The next `n` bytes, on the bytes left. -/
theorem readExact_run {d : Dec V} (hd : d.Filled) (hp : d.pos ≤ d.n) (n : ℕ) :
    (readExact n : DecM V (List UInt8)) d=
      if d.rest.length < n then .error (.incomplete "truncated payload") {d with pos := d.keep}
      else .ok (d.rest.take n) {d with pos := d.seek (d.rest.drop n)} := by
  have hl := restFrom_length hd d.pos
  rw [readExact,run_get_bind]
  by_cases h : d.n < d.pos+n
  · rw [if_pos h,if_pos (by rw [rest]; omega)]
    rfl
  · have ht : (d.buf.drop d.pos).take n=d.rest.take n := by
      rw [rest,restFrom,List.drop_take,List.take_take]
      congr 1
      omega
    have hs : d.seek (d.rest.drop n)=d.pos+n := by
      rw [rest,←restFrom_drop,seek_restFrom hd (by omega)]
    rw [if_neg h,if_neg (by rw [rest]; omega),ht,hs]
    rfl

/-- The next `n` bytes claimed in place. -/
theorem spanExact_run {d : Dec V} (hd : d.Filled) (hp : d.pos ≤ d.n) (n : ℕ) :
    (spanExact n : DecM V (List UInt8 × ℕ)) d=
      if d.rest.length < n then .error (.incomplete "truncated payload") {d with pos := d.keep}
      else .ok (d.buf,d.pos) {d with pos := d.seek (d.rest.drop n)} := by
  have hl := restFrom_length hd d.pos
  rw [spanExact,run_get_bind]
  by_cases h : d.n < d.pos+n
  · rw [if_pos h,if_pos (by rw [rest]; omega)]
    rfl
  · have hs : d.seek (d.rest.drop n)=d.pos+n := by
      rw [rest,←restFrom_drop,seek_restFrom hd (by omega)]
    rw [if_neg h,if_neg (by rw [rest]; omega),hs]
    rfl

/-- The window loop reads the bytes the ordinary reader reads. -/
theorem windowTail_run {d : Dec V} (hd : d.Filled) {turns i acc pos : ℕ} (hi : i+turns=9)
    (hacc : acc < 128^i) (hroom : pos+turns < d.n) :
    (windowTail turns acc (7*i) pos : DecM V (ℕ × ℕ)) d=
      match Varint.readFrom overlong i acc (d.restFrom pos) with
      | .done v rest => .ok (v,d.seek rest) d
      | .more => .error .turns d
      | .bad why => .error why d := by
  induction turns generalizing i acc pos with
  | zero =>
    have h9 : i=9 := by omega
    subst h9
    rw [windowTail]
    cases hx : d.restFrom pos with
    | nil => exact absurd ((restFrom_nil hd).mp hx) (by omega)
    | cons b t =>
      obtain ⟨hp,hb,ht⟩ := restFrom_cons hd hx
      rw [run_bind_ok (byteAt_run hb),Varint.readFrom,if_neg (show ¬9 < 9 by omega)]
      by_cases h1 : 1 < b.toNat
      · rw [if_pos h1,if_neg (show ¬b.toNat ≤ 1 by omega)]
        rfl
      · have hs : d.seek t=pos+1 := by rw [←ht,seek_restFrom hd hp]
        rw [if_neg h1,if_pos (show b.toNat ≤ 1 by omega),or_group hacc]
        dsimp only
        rw [hs]
        rfl
  | succ turns ih =>
    rw [windowTail]
    cases hx : d.restFrom pos with
    | nil => exact absurd ((restFrom_nil hd).mp hx) (by omega)
    | cons b t =>
      obtain ⟨hp,hb,ht⟩ := restFrom_cons hd hx
      have hb256 := b.toNat_lt
      rw [run_bind_ok (byteAt_run hb),Varint.readFrom,if_pos (show i < 9 by omega),
        or_group hacc]
      by_cases h1 : b.toNat < 0x80
      · have hs : d.seek t=pos+1 := by rw [←ht,seek_restFrom hd hp]
        rw [if_pos h1,if_pos h1,Nat.mod_eq_of_lt h1]
        dsimp only
        rw [hs]
        rfl
      · have hm : b.toNat%128=b.toNat-128 := by omega
        rw [if_neg h1,if_neg h1,hm,←ht,←Nat.mul_succ]
        exact ih (by omega) (group_lt hacc (by omega)) (by omega)

@[simp] theorem perform_run (f : Effect V) (d : Dec V) :
    (perform f : DecM V Unit) d=match f d.store with
      | (s,none) => .ok () {d with store := s}
      | (s,some e) => .error e {d with store := s} := rfl

/-- The test hoisted off the one-byte elements agrees with the declared width. -/
theorem checkFast_eq {lo hi : Option ℤ} {zigzag : Bool} {raw : ℕ} (h : raw < 128) :
    ((Bound.of lo hi zigzag).checkFast &&
      (element zigzag raw < (Bound.of lo hi zigzag).lo ||
        element zigzag raw > (Bound.of lo hi zigzag).hi))=
      (Bound.of lo hi zigzag).outside (element zigzag raw) := by
  have hz := Zigzag.decode_small h
  rw [Bound.outside]
  cases zigzag with
  | true =>
    simp only [Bound.of,element,if_true,Bool.and_assoc]
    cases hb : lo.isSome || hi.isSome with
    | false => rfl
    | true =>
      rw [Bool.true_and,Bool.true_and,Bool.and_eq_right_iff_imp]
      simp only [Bool.or_eq_true,decide_eq_true_eq]
      omega
  | false =>
    simp only [Bound.of,element,if_false,Bool.and_assoc,Bool.false_eq_true]
    cases hb : lo.isSome || hi.isSome with
    | false => rfl
    | true =>
      rw [Bool.true_and,Bool.true_and,Bool.and_eq_right_iff_imp]
      simp only [Bool.or_eq_true,decide_eq_true_eq]
      omega

/-- An element of several bytes is read as the varint at its first byte. -/
theorem multiByte_run {d : Dec V} (hd : d.Filled) {pos : ℕ} {b : UInt8} {t : List UInt8}
    (hx : d.restFrom pos=b::t) (hb : ¬b.toNat < 0x80) :
    ∃ p, (multiByte b pos : DecM V (ℕ × ℕ)) d=
      match Varint.read overlong (d.restFrom pos) with
      | .done v rest => .ok (v,d.seek rest) {d with pos := p}
      | .more => .error (.incomplete "truncated varint") {d with pos := d.keep}
      | .bad why => .error why {d with pos := p} := by
  obtain ⟨hp,hbuf,ht⟩ := restFrom_cons hd hx
  have hl := restFrom_length hd pos
  have hb256 := b.toNat_lt
  rw [multiByte,run_get_bind]
  by_cases h9 : 9 ≤ d.n-(pos+1)
  · refine ⟨d.pos,?_⟩
    have hm : b.toNat%128=0+(b.toNat-128)*128^0 := by omega
    have hacc : b.toNat%128 < 128^1 := by omega
    have hw := windowTail_run hd (show 1+8=9 from rfl) hacc (show pos+1+8 < d.n by omega)
    have hr : Varint.read overlong (d.restFrom pos)=
        Varint.readFrom overlong 1 (b.toNat%128) (d.restFrom (pos+1)) := by
      rw [hx,ht,Varint.read,Varint.readFrom,if_pos (show 0 < 9 by omega),if_neg hb,hm]
    rw [if_pos h9,hw,hr]
    cases hv : Varint.readFrom overlong 1 (b.toNat%128) (d.restFrom (pos+1)) with
    | done v rest => rfl
    | more =>
      have hmore := Varint.readFrom_more_length (by omega) hv
      rw [restFrom_length hd] at hmore
      omega
    | bad why => rfl
  · have hd' : Dec.Filled {d with pos := pos} := hd
    rw [if_neg h9]
    cases hr : Varint.read overlong (d.restFrom pos) with
    | done v rest =>
      refine ⟨d.seek rest,?_⟩
      show ((varint : DecM V ℕ)>>=_) {d with pos := pos}=_
      rw [run_bind_ok (varint_done hd' hr)]
      rfl
    | more =>
      refine ⟨pos,?_⟩
      show ((varint : DecM V ℕ)>>=_) {d with pos := pos}=_
      rw [run_bind_error (varint_more hd' hr)]
    | bad why =>
      refine ⟨pos,?_⟩
      show ((varint : DecM V ℕ)>>=_) {d with pos := pos}=_
      rw [run_bind_error (varint_bad hd' hr)]

/-- How the element loop ends, with the elements it read and where they went. -/
def LoopEnds (r : EStateM.Result Exn (Dec V) (List ℤ)) (d : Dec V) (out : List ℤ)
    (stored : Store V × Option Exn) (tail : Tail) : Prop :=
  match stored,tail with
  | (s,some e),_ => ∃ p, r=.error e {d with pos := p, store := s}
  | (s,none),.done rest => r=.ok out {d with pos := d.seek rest, store := s}
  | (s,none),.more => r=.error (.incomplete "truncated varint") {d with pos := d.keep, store := s}
  | (s,none),.bad why => ∃ p, r=.error why {d with pos := p, store := s}

/-- The end of the loop does not depend on where its cursor started. -/
theorem LoopEnds.of_pos {r : EStateM.Result Exn (Dec V) (List ℤ)} {d : Dec V} {out : List ℤ}
    {stored : Store V × Option Exn} {tail : Tail} {p : ℕ}
    (h : LoopEnds r {d with pos := p} out stored tail) : LoopEnds r d out stored tail := by
  obtain ⟨s,e⟩ := stored
  cases e with
  | some e => exact h
  | none => cases tail <;> exact h

/-- Nothing is stored when the elements have nowhere to go. -/
@[simp] theorem fillFrom_none (c : Config V) (i : ℕ) (xs : List ℤ) (s : Store V) :
    fillFrom c none i xs s=(s,none) := by
  cases xs <;> rfl

/-- One more element: it is stored, or appended, or the loop ends there. -/
theorem loopEnds_keep {c : Config V} {into : Option Sink} {base i : ℕ} {x : ℤ} {out : List ℤ}
    {d : Dec V} {xs : List ℤ} {tail : Tail} {k : List ℤ → DecM V (List ℤ)}
    (hk : ∀ s, LoopEnds (k (if into.isSome then out else out++[x]) {d with store := s})
      {d with store := s} (if into.isSome then out else out++(x::xs))
      (fillFrom c (into.map (·,base)) (i+1) xs s) tail) :
    LoopEnds ((keepElement c into base i x out >>= k) d) d
      (if into.isSome then out else out++(x::xs))
      (fillFrom c (into.map (·,base)) i (x::xs) d.store) tail := by
  cases into with
  | none =>
    have h := hk d.store
    rw [Option.map_none,fillFrom_none] at h ⊢
    exact h
  | some sink =>
    rw [Option.map_some,fillFrom]
    dsimp only [Effect.andThen]
    show LoopEnds (((perform (sink.put c (base+i) x) >>= fun _ => pure out)>>= k) d) _ _ _ _
    cases hput : sink.put c (base+i) x d.store with
    | mk s e =>
      cases e with
      | some e =>
        refine ⟨d.pos,?_⟩
        refine run_bind_error (run_bind_error ?_)
        rw [perform_run,hput]
      | none =>
        have h1 : (perform (sink.put c (base+i) x) >>= fun _ => (pure out : DecM V (List ℤ))) d=
            .ok out {d with store := s} := by
          rw [run_bind,perform_run,hput]
          rfl
        rw [run_bind_ok h1]
        exact hk s

/-- The element loop scans the bytes left and stores what it scanned. -/
theorem readVarintsLoop_run (c : Config V) (lo hi : Option ℤ) (zigzag : Bool)
    (into : Option Sink) (base : ℕ) {d : Dec V} (hd : d.Filled) (left i pos : ℕ) (hp : pos ≤ d.n)
    (out : List ℤ) :
    LoopEnds (readVarintsLoop c (.of lo hi zigzag) zigzag into base left i pos out d) d
      (if into.isSome then out else out++(scan (.of lo hi zigzag) zigzag left (d.restFrom pos)).1)
      (fillFrom c (into.map (·,base)) i
        (scan (.of lo hi zigzag) zigzag left (d.restFrom pos)).1 d.store)
      (scan (.of lo hi zigzag) zigzag left (d.restFrom pos)).2 := by
  induction left generalizing d i pos out with
  | zero =>
    show readVarintsLoop c (.of lo hi zigzag) zigzag into base 0 i pos out d=
      .ok _ {d with pos := d.seek (d.restFrom pos), store := d.store}
    rw [seek_restFrom hd hp]
    cases into with
    | none => rw [scan,List.append_nil]; rfl
    | some sink => rfl
  | succ left ih =>
    rw [readVarintsLoop,run_get_bind,scan]
    cases hx : d.restFrom pos with
    | nil =>
      rw [if_pos ((restFrom_nil hd).mp hx)]
      rfl
    | cons b t =>
      obtain ⟨hlt,hb,ht⟩ := restFrom_cons hd hx
      rw [if_neg (by omega),run_bind_ok (byteAt_run hb)]
      by_cases h1 : b.toNat < 0x80
      · rw [if_pos h1,checkFast_eq h1,Varint.read_cons_small overlong h1]
        dsimp only
        by_cases ho : (Bound.of lo hi zigzag).outside (element zigzag b.toNat)=true
        · rw [if_pos ho,if_pos ho]
          exact ⟨d.pos,rfl⟩
        · rw [if_neg ho,if_neg ho]
          refine loopEnds_keep fun s => ?_
          have h := ih (d:={d with store := s}) hd (i+1) (pos+1) (show pos+1 ≤ d.n by omega)
            (if into.isSome then out else out++[element zigzag b.toNat])
          have hrest : Dec.restFrom {d with store := s} (pos+1)=t := ht
          rw [hrest] at h
          cases into with
          | none => simpa only [Option.isSome_none,Bool.false_eq_true,if_false,
              List.append_assoc,List.singleton_append] using h
          | some sink => exact h
      · obtain ⟨p,hm⟩ := multiByte_run hd hx h1
        rw [if_neg h1]
        rw [hx] at hm
        cases hv : Varint.read overlong (b::t) with
        | more =>
          rw [hv] at hm
          rw [run_bind_error hm]
          rfl
        | bad why =>
          rw [hv] at hm
          rw [run_bind_error hm]
          exact ⟨p,rfl⟩
        | done raw rest =>
          rw [hv] at hm
          rw [run_bind_ok hm]
          have hsuf : rest<:+d.restFrom pos := by
            rw [hx]
            exact (Varint.stable_read overlong).suffix hv
          dsimp only
          show LoopEnds ((if (Bound.of lo hi zigzag).outside (element zigzag raw)=true then _
            else _ : DecM V (List ℤ)) {d with pos := p}) d _ _ _
          by_cases ho : (Bound.of lo hi zigzag).outside (element zigzag raw)=true
          · rw [if_pos ho,if_pos ho]
            exact ⟨p,rfl⟩
          · rw [if_neg ho,if_neg ho]
            refine LoopEnds.of_pos (p:=p) (loopEnds_keep (d:={d with pos := p}) fun s => ?_)
            have h := ih (d:={d with pos := p, store := s}) hd (i+1) (d.seek rest)
              (by show d.n-rest.length ≤ d.n; omega)
              (if into.isSome then out else out++[element zigzag raw])
            have hrest : Dec.restFrom {d with pos := p, store := s} (d.seek rest)=rest :=
              restFrom_seek hd hsuf
            rw [hrest] at h
            cases into with
            | none => simpa only [Option.isSome_none,Bool.false_eq_true,if_false,
                List.append_assoc,List.singleton_append] using h
            | some sink => exact h

/-- The elements of an integer array, on the bytes left. -/
theorem readVarints_run (c : Config V) (count : ℕ) (lo hi : Option ℤ) (zigzag : Bool)
    (into : Option Sink) (base : ℕ) {d : Dec V} (hd : d.Filled) (hp : d.pos ≤ d.n) :
    LoopEnds (readVarints c count lo hi zigzag into base d) d
      (if into.isSome then [] else (scan (.of lo hi zigzag) zigzag count d.rest).1)
      (fillFrom c (into.map (·,base)) 0 (scan (.of lo hi zigzag) zigzag count d.rest).1 d.store)
      (scan (.of lo hi zigzag) zigzag count d.rest).2 := by
  have h := readVarintsLoop_run c lo hi zigzag into base hd count 0 d.pos hp []
  rwa [List.nil_append] at h

end SofaBuffers
