import SofaBuffers.Decoder.Feed
import SofaBuffers.Varint
import SofaBuffers.Resumable

/-!
# Constructs as they lie on the wire

What the decoder's buffer arithmetic amounts to on the bytes still to be
walked: one header is read as a token, a value nobody reads is dropped as far
as the bytes go, and the elements of an integer array are scanned one by one.
-/

set_option autoImplicit false

namespace SofaBuffers

open Resumable

/-- The verdict on a varint past 64 bits. -/
def overlong : Exn := .decode "overlong varint"

/-- The verdict on an element outside the declared width. -/
def outsideWidth : Exn := .decode "array element outside declared width"

/-- What one header announces. -/
inductive Token
  /-- The header of a value. -/
  | value (id : ℕ) (p : Pending)
  /-- A sequence opens. -/
  | start (id : ℕ)
  /-- A sequence closes. -/
  | stop
  deriving DecidableEq, Repr

/-- The wire type and the subtype a value's header carried. -/
def Pending.tag : Pending → WireType × Option FixlenSubtype
  | .scalar signed => (if signed then .signed else .unsigned,none)
  | .fixlen st _ => (.fixlen,some st)
  | .varray signed _ => (if signed then .arraySigned else .arrayUnsigned,none)
  | .farray st _ _ => (.arrayFixlen,some st)
  | .limit _ p => p.tag
  | .discard .. => (.sequenceEnd,none)

/-- A word that came out of a check, or the check's verdict. -/
def ofCheck {α : Type} (r : Except Exn α) : Parser Exn UInt8 α :=
  match r with
  | .ok a => pure a
  | .error e => Parser.fail e

/-- The rule an id is held to. -/
def idWord (id : ℕ) : Except Exn Unit :=
  if idMax < id then .error (.decode s!"id {id} out of range") else .ok ()

/-- The rule an array count is held to. -/
def countWord (count : ℕ) : Except Exn ℕ :=
  if arrayMax < count then .error (.decode s!"array count {count} out of range") else .ok count

/-- What a header word announces, once the words behind it are read. -/
def readBehind (header : ℕ) : Parser Exn UInt8 Token :=
  match WireType.ofHeader header with
  | .unsigned => pure (.value (header/8) (.scalar false))
  | .signed => pure (.value (header/8) (.scalar true))
  | .fixlen => do
    let word ← Varint.read overlong
    let (st,length) ← ofCheck (fixlenWord word)
    pure (.value (header/8) (.fixlen st length))
  | .arrayUnsigned => do
    let word ← Varint.read overlong
    let count ← ofCheck (countWord word)
    pure (.value (header/8) (.varray false count))
  | .arraySigned => do
    let word ← Varint.read overlong
    let count ← ofCheck (countWord word)
    pure (.value (header/8) (.varray true count))
  | .arrayFixlen => do
    let word ← Varint.read overlong
    let count ← ofCheck (countWord word)
    let word ← Varint.read overlong
    let (st,size) ← ofCheck (elementWord word)
    pure (.value (header/8) (.farray st count size))
  | .sequenceStart => pure (.start (header/8))
  | .sequenceEnd => pure .stop

/-- Read one header. -/
def readToken : Parser Exn UInt8 Token := do
  let header ← Varint.read overlong
  ofCheck (idWord (header/8))
  readBehind header

/-- Checks read nothing. -/
theorem stable_ofCheck {α : Type} (r : Except Exn α) : Stable (ofCheck r) := by
  cases r with
  | ok a => exact Stable.pure a
  | error e => exact Stable.fail e

/-- The words behind a header are read stably. -/
theorem stable_readBehind (header : ℕ) : Stable (readBehind header) := by
  rw [readBehind]
  cases WireType.ofHeader header with
  | unsigned | signed | sequenceStart | sequenceEnd => exact Stable.pure _
  | fixlen =>
    refine (Varint.stable_read _).bind fun word => ?_
    exact (stable_ofCheck _).bind fun _ => Stable.pure _
  | arrayUnsigned | arraySigned =>
    refine (Varint.stable_read _).bind fun word => ?_
    exact (stable_ofCheck _).bind fun _ => Stable.pure _
  | arrayFixlen =>
    refine (Varint.stable_read _).bind fun word => ?_
    refine (stable_ofCheck _).bind fun count => ?_
    refine (Varint.stable_read _).bind fun word => ?_
    exact (stable_ofCheck _).bind fun _ => Stable.pure _

/-- A header is read stably. -/
theorem stable_readToken : Stable readToken :=
  (Varint.stable_read _).bind fun _ => (stable_ofCheck _).bind fun _ => stable_readBehind _

/-- A header takes at least one byte. -/
theorem readToken_length {xs rest : List UInt8} {t : Token} (h : readToken xs=.done t rest) :
    rest.length < xs.length := by
  cases hv : Varint.read overlong xs with
  | done header mid =>
    rw [readToken,bind_done hv] at h
    have hl := (Varint.read_length hv).1
    have hs := ((stable_ofCheck (idWord (header/8))).bind
      fun _ => stable_readBehind header).suffix h
    exact Nat.lt_of_le_of_lt hs.length_le hl
  | more => rw [readToken,bind_more hv] at h; cases h
  | bad why => rw [readToken,bind_bad hv] at h; cases h

/-- A verdict is one of a sequence's parts' verdicts. -/
theorem bad_of_bind {α β : Type} {p : Parser Exn UInt8 α} {f : α → Parser Exn UInt8 β}
    (hp : ∀ xs why, p xs=.bad why → why.cls=.decode)
    (hf : ∀ a xs why, f a xs=.bad why → why.cls=.decode) :
    ∀ xs why, (p >>= f) xs=.bad why → why.cls=.decode := by
  intro xs why h
  rcases of_bind_bad h with h | ⟨a,mid,_,h⟩
  · exact hp xs why h
  · exact hf a mid why h

/-- A varint is refused for being malformed. -/
theorem varint_cls (xs : List UInt8) (why : Exn) (h : Varint.read overlong xs=.bad why) :
    why.cls=.decode := by
  rw [(Varint.read_bad_iff.mp h).1]
  rfl

/-- A check refuses what its rule does. -/
theorem ofCheck_cls {α : Type} {r : Except Exn α} (hr : ∀ e, r=.error e → e.cls=.decode) :
    ∀ xs why, ofCheck r xs=.bad why → why.cls=.decode := by
  intro xs why h
  cases r with
  | ok a => cases h
  | error e => cases h; exact hr _ rfl

/-- A fixlen word is refused for being malformed. -/
theorem fixlenWord_cls (word : ℕ) : ∀ e, fixlenWord word=.error e → e.cls=.decode := by
  intro e h
  rw [fixlenWord] at h
  repeat' split at h
  all_goals cases h
  all_goals rfl

/-- An element word is refused for being malformed. -/
theorem elementWord_cls (word : ℕ) : ∀ e, elementWord word=.error e → e.cls=.decode := by
  intro e h
  rw [elementWord] at h
  repeat' split at h
  all_goals cases h
  all_goals rfl

/-- A count is refused for being malformed. -/
theorem countWord_cls (count : ℕ) : ∀ e, countWord count=.error e → e.cls=.decode := by
  intro e h
  rw [countWord] at h
  split at h <;> cases h
  rfl

/-- An id is refused for being malformed. -/
theorem idWord_cls (id : ℕ) : ∀ e, idWord id=.error e → e.cls=.decode := by
  intro e h
  rw [idWord] at h
  split at h <;> cases h
  rfl

/-- A header is refused for being malformed. -/
theorem readToken_cls {xs : List UInt8} {why : Exn} (h : readToken xs=.bad why) :
    why.cls=.decode := by
  have hpure : ∀ (t : Token) (xs : List UInt8) (why : Exn),
      (pure t : Parser Exn UInt8 Token) xs=.bad why → why.cls=.decode := fun _ _ _ h => by cases h
  refine bad_of_bind varint_cls (fun header => ?_) xs why h
  refine bad_of_bind (ofCheck_cls (idWord_cls _)) fun _ => ?_
  rw [readBehind]
  cases WireType.ofHeader header with
  | unsigned | signed | sequenceStart | sequenceEnd => exact hpure _
  | fixlen =>
    exact bad_of_bind varint_cls fun _ => bad_of_bind (ofCheck_cls (fixlenWord_cls _))
      fun _ => hpure _
  | arrayUnsigned | arraySigned =>
    exact bad_of_bind varint_cls fun _ => bad_of_bind (ofCheck_cls (countWord_cls _))
      fun _ => hpure _
  | arrayFixlen =>
    exact bad_of_bind varint_cls fun _ => bad_of_bind (ofCheck_cls (countWord_cls _))
      fun _ => bad_of_bind varint_cls fun _ => bad_of_bind (ofCheck_cls (elementWord_cls _))
        fun _ => hpure _

/-- How far a value nobody reads can be dropped. -/
inductive Drop
  /-- Altogether; what follows it is left. -/
  | gone (rest : List UInt8)
  /-- The bytes end inside it; so much of it is still to drop. -/
  | left (p : Pending) (rest : List UInt8)
  /-- The bytes are malformed. -/
  | bad (why : Exn)

/-- Drop varints, `vbytes` bytes of the first being gone already. -/
def dropVarints : ℕ → ℕ → List UInt8 → Drop
  | 0, _, xs => .gone xs
  | n+1, vbytes, [] => .left (.discard 0 (n+1) vbytes) []
  | n+1, vbytes, b::t =>
    if vbytes+1=10 then
      if 1 < b.toNat then .bad overlong else dropVarints n 0 t
    else if b.toNat < 0x80 then dropVarints n 0 t
    else dropVarints (n+1) (vbytes+1) t

/-- Drop bytes and then varints. -/
def dropDiscard (nbytes nvarints vbytes : ℕ) (xs : List UInt8) : Drop :=
  if xs.length < nbytes then .left (.discard (nbytes-xs.length) nvarints vbytes) []
  else dropVarints nvarints vbytes (xs.drop nbytes)

/-- Drop a value that is neither parked nor half dropped. -/
def dropReal (p : Pending) (xs : List UInt8) : Drop :=
  match p with
  | .scalar signed =>
    match Varint.read overlong xs with
    | .done _ rest => .gone rest
    | .more => .left (.scalar signed) xs
    | .bad why => .bad why
  | .fixlen _ length => dropDiscard length 0 0 xs
  | .farray st count elemSize =>
    if sysMaxsize < count*elemSize then .left (.farray st count elemSize) xs
    else dropDiscard (count*elemSize) 0 0 xs
  | .varray _ count => dropDiscard 0 count 0 xs
  | .limit .. | .discard .. => .bad .assertion

/-- Drop a value; a parked cap does not matter to one nobody reads. -/
def Pending.drop (p : Pending) (xs : List UInt8) : Drop :=
  match p with
  | .discard nbytes nvarints vbytes => dropDiscard nbytes nvarints vbytes xs
  | .limit _ p => dropReal p xs
  | p => dropReal p xs

/-- What dropping came to on a prefix, and what it comes to with `ys` behind. -/
def Drop.Extends (ys : List UInt8) (short long : Drop) : Prop :=
  match short with
  | .gone rest => long=.gone (rest++ys)
  | .bad why => long=.bad why
  | .left p rest => p.drop (rest++ys)=long

/-- Dropping varints leaves a tail. -/
theorem dropVarints_suffix {n vbytes : ℕ} {xs rest : List UInt8}
    (h : dropVarints n vbytes xs=.gone rest) : rest<:+xs := by
  induction xs generalizing n vbytes with
  | nil =>
    cases n with
    | zero => cases h; exact List.suffix_rfl
    | succ n => cases h
  | cons b t ih =>
    cases n with
    | zero => cases h; exact List.suffix_rfl
    | succ n =>
      rw [dropVarints] at h
      split at h
      · split at h
        · cases h
        · exact (ih h).trans (List.suffix_cons b t)
      · split at h
        · exact (ih h).trans (List.suffix_cons b t)
        · exact (ih h).trans (List.suffix_cons b t)

/-- Dropping varints is indifferent to where the bytes are cut. -/
theorem dropVarints_extends (n vbytes : ℕ) (xs ys : List UInt8) :
    Drop.Extends ys (dropVarints n vbytes xs) (dropVarints n vbytes (xs++ys)) := by
  induction xs generalizing n vbytes with
  | nil =>
    cases n with
    | zero => exact dropVarints.eq_1 vbytes _
    | succ n =>
      show dropDiscard 0 (n+1) vbytes ys=_
      rw [dropDiscard,if_neg (by omega)]
      rfl
  | cons b t ih =>
    cases n with
    | zero => exact dropVarints.eq_1 vbytes _
    | succ n =>
      rw [List.cons_append,dropVarints,dropVarints]
      by_cases h10 : vbytes+1=10
      · rw [if_pos h10,if_pos h10]
        by_cases hb : 1 < b.toNat
        · rw [if_pos hb,if_pos hb]
          rfl
        · rw [if_neg hb,if_neg hb]
          exact ih n 0
      · rw [if_neg h10,if_neg h10]
        by_cases hb : b.toNat < 0x80
        · rw [if_pos hb,if_pos hb]
          exact ih n 0
        · rw [if_neg hb,if_neg hb]
          exact ih (n+1) (vbytes+1)

/-- Dropping bytes and varints leaves a tail. -/
theorem dropDiscard_suffix {a n v : ℕ} {xs rest : List UInt8}
    (h : dropDiscard a n v xs=.gone rest) : rest<:+xs := by
  rw [dropDiscard] at h
  split at h
  · cases h
  · exact (dropVarints_suffix h).trans (List.drop_suffix a xs)

/-- Dropping bytes and varints is indifferent to where the bytes are cut. -/
theorem dropDiscard_extends (a n v : ℕ) (xs ys : List UInt8) :
    Drop.Extends ys (dropDiscard a n v xs) (dropDiscard a n v (xs++ys)) := by
  rw [dropDiscard]
  by_cases hx : xs.length < a
  · rw [if_pos hx]
    show dropDiscard (a-xs.length) n v ys=dropDiscard a n v (xs++ys)
    rw [dropDiscard,dropDiscard,List.length_append]
    by_cases hy : ys.length < a-xs.length
    · rw [if_pos hy,if_pos (by omega),Nat.sub_sub]
    · rw [if_neg hy,if_neg (by omega),List.drop_append,
        List.drop_eq_nil_of_le (show xs.length ≤ a by omega),List.nil_append]
  · have hxy : dropDiscard a n v (xs++ys)=dropVarints n v (xs.drop a++ys) := by
      rw [dropDiscard,if_neg (by rw [List.length_append]; omega),
        List.drop_append_of_le_length (by omega)]
    rw [if_neg hx,hxy]
    exact dropVarints_extends n v (xs.drop a) ys

/-- Dropping a value leaves a tail. -/
theorem dropReal_suffix {p : Pending} {xs rest : List UInt8} (h : dropReal p xs=.gone rest) :
    rest<:+xs := by
  cases p with
  | scalar signed =>
    rw [dropReal] at h
    cases hv : Varint.read overlong xs with
    | done raw mid =>
      rw [hv] at h
      cases h
      exact (Varint.stable_read _).suffix hv
    | more => rw [hv] at h; cases h
    | bad why => rw [hv] at h; cases h
  | fixlen st length => exact dropDiscard_suffix h
  | varray signed count => exact dropDiscard_suffix h
  | farray st count size =>
    rw [dropReal] at h
    split at h
    · cases h
    · exact dropDiscard_suffix h
  | limit msg q => cases h
  | discard a n v => cases h

/-- Dropping a value leaves a tail. -/
theorem Pending.drop_suffix {p : Pending} {xs rest : List UInt8} (h : p.drop xs=.gone rest) :
    rest<:+xs := by
  cases p with
  | discard a n v => exact dropDiscard_suffix h
  | limit msg q => exact dropReal_suffix h
  | scalar signed => exact dropReal_suffix (p:=.scalar signed) h
  | fixlen st length => exact dropReal_suffix (p:=.fixlen st length) h
  | varray signed count => exact dropReal_suffix (p:=.varray signed count) h
  | farray st count size => exact dropReal_suffix (p:=.farray st count size) h

/-- Dropping a value is indifferent to where the bytes are cut. -/
theorem dropReal_extends (p : Pending) (xs ys : List UInt8) :
    Drop.Extends ys (dropReal p xs) (dropReal p (xs++ys)) := by
  cases p with
  | scalar signed =>
    rw [dropReal,dropReal]
    cases hv : Varint.read overlong xs with
    | done raw mid => rw [(Varint.stable_read _).done hv ys]; rfl
    | more => rfl
    | bad why => rw [(Varint.stable_read _).bad hv ys]; rfl
  | fixlen st length => exact dropDiscard_extends length 0 0 xs ys
  | varray signed count => exact dropDiscard_extends 0 count 0 xs ys
  | farray st count size =>
    rw [dropReal,dropReal]
    by_cases hs : sysMaxsize < count*size
    · rw [if_pos hs,if_pos hs]
      show dropReal (.farray st count size) (xs++ys)=_
      rw [dropReal,if_pos hs]
    · rw [if_neg hs,if_neg hs]
      exact dropDiscard_extends (count*size) 0 0 xs ys
  | limit msg q => rfl
  | discard a n v => rfl

/-- Dropping a value is indifferent to where the bytes are cut. -/
theorem Pending.drop_extends (p : Pending) (xs ys : List UInt8) :
    Drop.Extends ys (p.drop xs) (p.drop (xs++ys)) := by
  cases p with
  | discard a n v => exact dropDiscard_extends a n v xs ys
  | limit msg q => exact dropReal_extends q xs ys
  | scalar signed => exact dropReal_extends (.scalar signed) xs ys
  | fixlen st length => exact dropReal_extends (.fixlen st length) xs ys
  | varray signed count => exact dropReal_extends (.varray signed count) xs ys
  | farray st count size => exact dropReal_extends (.farray st count size) xs ys

/-- Dropping varints short of bytes uses all there are. -/
theorem dropVarints_left {n v : ℕ} {xs rest : List UInt8} {q : Pending}
    (h : dropVarints n v xs=.left q rest) : rest=[] := by
  fun_induction dropVarints n v xs with
  | case1 | case3 => cases h
  | case2 => cases h; rfl
  | case4 _ _ _ _ _ _ ih | case5 _ _ _ _ _ _ ih | case6 _ _ _ _ _ _ ih => exact ih h

/-- Dropping bytes and varints short of bytes uses all there are. -/
theorem dropDiscard_left {a n v : ℕ} {xs rest : List UInt8} {q : Pending}
    (h : dropDiscard a n v xs=.left q rest) : rest=[] := by
  rw [dropDiscard] at h
  split at h
  · cases h
    rfl
  · exact dropVarints_left h

/-- Dropping a value short of bytes uses all there are, or none. -/
theorem Pending.drop_left {p q : Pending} {xs rest : List UInt8} (h : p.drop xs=.left q rest) :
    rest<:+xs := by
  have hreal : ∀ r : Pending, dropReal r xs=.left q rest → rest<:+xs := by
    intro r h
    cases r with
    | scalar signed =>
      rw [dropReal] at h
      cases hv : Varint.read overlong xs with
      | done v rest => rw [hv] at h; cases h
      | more => rw [hv] at h; cases h; exact List.suffix_rfl
      | bad e => rw [hv] at h; cases h
    | fixlen st length => rw [dropDiscard_left h]; exact List.nil_suffix
    | varray signed count => rw [dropDiscard_left h]; exact List.nil_suffix
    | farray st count size =>
      rw [dropReal] at h
      split at h
      · cases h
        exact List.suffix_rfl
      · rw [dropDiscard_left h]
        exact List.nil_suffix
    | limit | discard => cases h
  cases p with
  | discard a n v => rw [dropDiscard_left h]; exact List.nil_suffix
  | limit msg r => exact hreal r h
  | scalar signed => exact hreal (.scalar signed) h
  | fixlen st length => exact hreal (.fixlen st length) h
  | varray signed count => exact hreal (.varray signed count) h
  | farray st count size => exact hreal (.farray st count size) h

/-- How the scan of an array ends. -/
inductive Tail
  /-- All elements were there; what follows them is left. -/
  | done (rest : List UInt8)
  /-- The bytes end inside the array. -/
  | more
  /-- The next element is malformed or outside the declared width. -/
  | bad (why : Exn)

/-- The element is outside the declared width. -/
def Bound.outside (b : Bound) (x : ℤ) : Bool := b.bounded && (x < b.lo || x > b.hi)

/-- Read elements for as long as they are there and inside the width. -/
def scan (bound : Bound) (zigzag : Bool) : ℕ → List UInt8 → List ℤ × Tail
  | 0, xs => ([],.done xs)
  | n+1, xs =>
    match Varint.read overlong xs with
    | .more => ([],.more)
    | .bad why => ([],.bad why)
    | .done raw rest =>
      if bound.outside (element zigzag raw) then ([],.bad outsideWidth)
      else
        let r := scan bound zigzag n rest
        (element zigzag raw::r.1,r.2)

/-- A scan is refused for one of two reasons. -/
theorem scan_bad {bound : Bound} {zigzag : Bool} {n : ℕ} {xs : List UInt8} {why : Exn}
    (h : (scan bound zigzag n xs).2=.bad why) : why=overlong ∨ why=outsideWidth := by
  induction n generalizing xs with
  | zero => cases h
  | succ n ih =>
    rw [scan] at h
    cases hv : Varint.read overlong xs with
    | more => rw [hv] at h; cases h
    | bad why' =>
      rw [hv] at h
      cases h
      exact Or.inl (Varint.read_bad_iff.mp hv).1
    | done raw mid =>
      rw [hv] at h
      dsimp only at h
      split at h
      · cases h
        exact Or.inr rfl
      · exact ih h

/-- A completed scan read every element. -/
theorem scan_done_length {bound : Bound} {zigzag : Bool} {n : ℕ} {xs rest : List UInt8}
    (h : (scan bound zigzag n xs).2=.done rest) : (scan bound zigzag n xs).1.length=n := by
  induction n generalizing xs with
  | zero => rfl
  | succ n ih =>
    rw [scan] at h ⊢
    cases hv : Varint.read overlong xs with
    | more => rw [hv] at h; cases h
    | bad why => rw [hv] at h; cases h
    | done raw mid =>
      rw [hv] at h
      dsimp only at h ⊢
      split at h
      · cases h
      · next hb =>
        rw [if_neg hb]
        rw [List.length_cons,ih h]

/-- No scan reads more elements than were asked for. -/
theorem scan_length_le (bound : Bound) (zigzag : Bool) (n : ℕ) (xs : List UInt8) :
    (scan bound zigzag n xs).1.length ≤ n := by
  induction n generalizing xs with
  | zero => exact Nat.le_refl 0
  | succ n ih =>
    rw [scan]
    split
    · exact Nat.zero_le _
    · exact Nat.zero_le _
    · split
      · exact Nat.zero_le _
      · exact Nat.succ_le_succ (ih _)

/-- A completed scan leaves a tail of what it was given. -/
theorem scan_suffix {bound : Bound} {zigzag : Bool} {n : ℕ} {xs rest : List UInt8}
    (h : (scan bound zigzag n xs).2=.done rest) : rest<:+xs := by
  induction n generalizing xs with
  | zero => cases h; exact List.suffix_rfl
  | succ n ih =>
    rw [scan] at h
    cases hv : Varint.read overlong xs with
    | more => rw [hv] at h; cases h
    | bad why => rw [hv] at h; cases h
    | done raw mid =>
      rw [hv] at h
      dsimp only at h
      split at h
      · cases h
      · exact (ih h).trans ((Varint.stable_read _).suffix hv)

/-- More bytes extend a scan: its elements stay, and a verdict reached stays. -/
theorem scan_append (bound : Bound) (zigzag : Bool) (n : ℕ) (xs ys : List UInt8) :
    match (scan bound zigzag n xs).2 with
    | .done rest => scan bound zigzag n (xs++ys)=((scan bound zigzag n xs).1,.done (rest++ys))
    | .bad why => scan bound zigzag n (xs++ys)=((scan bound zigzag n xs).1,.bad why)
    | .more => (scan bound zigzag n xs).1<+:(scan bound zigzag n (xs++ys)).1 := by
  induction n generalizing xs with
  | zero => rfl
  | succ n ih =>
    rw [scan,scan]
    cases hv : Varint.read overlong xs with
    | more => exact List.nil_prefix
    | bad why => rw [(Varint.stable_read _).bad hv ys]
    | done raw mid =>
      rw [(Varint.stable_read _).done hv ys]
      dsimp only
      by_cases hb : bound.outside (element zigzag raw)
      · rw [if_pos hb,if_pos hb]
      · rw [if_neg hb,if_neg hb]
        have h := ih mid
        cases ht : (scan bound zigzag n mid).2 with
        | done rest =>
          rw [ht] at h
          dsimp only at h ⊢
          rw [h]
        | bad why =>
          rw [ht] at h
          dsimp only at h ⊢
          rw [h]
        | more =>
          rw [ht] at h
          exact List.prefix_cons_inj _ |>.mpr h

end SofaBuffers
