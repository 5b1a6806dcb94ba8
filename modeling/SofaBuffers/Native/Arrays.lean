import SofaBuffers.Native.Varint
import SofaBuffers.Walk.Welcome
import SofaBuffers.Walk.Widths

/-!
# Integer arrays in the compiled engine

The compiled engine reads an integer array with a width the handler declares, as
machine words: an omitted side is a sentinel, and each route casts the sides its
own way. Where the casts keep the declared sides, both engines deliver the same.
-/

set_option autoImplicit false

namespace SofaBuffers

open Resumable
open Dec

variable {V : Type}

namespace Native

/-- `_zigzag_decode`, a signed word. -/
def zigzagDecode (u : BitVec 64) : BitVec 64 := (u >>> 1) ^^^ -(u &&& 1#64)

/-- The element at a cursor and where it ends: without end-of-buffer tests where ten bytes are
left, else by the careful reader. -/
def takeElement (swar : Bool) (pos : ℕ) : DecM V (BitVec 64 × ℕ) := do
  let d ← get
  if 10 ≤ d.n-pos then
    match varintTake swar (d.restFrom pos) with
    | none => throw overlong
    | some (value,used) => pure (value,pos+used)
  else
    setPos pos
    match varintRefill (d.restFrom pos) with
    | .more => suspend "truncated varint"
    | .bad why => throw why
    | .done value rest =>
      setPos (d.seek rest)
      pure (value,(← get).pos)

/-- The loop both routes run: `left` elements are to be read, `i` have been, and the local
cursor is at `pos`. -/
def elementsLoop (swar : Bool) (outside : BitVec 64 → Bool)
    (keep : ℕ → BitVec 64 → List ℤ → DecM V (List ℤ)) : ℕ → ℕ → ℕ → List ℤ → DecM V (List ℤ)
  | 0, _, pos, out => do
    setPos pos
    pure out
  | left+1, i, pos, out => do
    let (result,pos) ← takeElement swar pos
    if outside result then throw outsideWidth
    else
      let out ← keep i result out
      elementsLoop swar outside keep left (i+1) pos out

/-- The width test at an element: a signed word against signed sides, or a word against the upper
side, whatever the lower one is. -/
def elementOutside (zigzag bounded : Bool) (lo hi result : BitVec 64) : Bool :=
  if zigzag then
    let value := zigzagDecode result
    bounded && (value.slt lo || hi.slt value)
  else bounded && hi.ult result

/-- Decode `count` elements into a list (`_read_varints`). -/
def readVarints (swar : Bool) (count : ℕ) (zigzag bounded : Bool) (lo hi : BitVec 64) :
    DecM V (List ℤ) := do
  elementsLoop swar (elementOutside zigzag bounded lo hi)
    (fun _ result out => pure (out++
      [if zigzag then (zigzagDecode result).toInt else (result.toNat : ℤ)]))
    count 0 (← get).pos []

/-- Store a word, cast to an item, in a slot. -/
def storeItem (dst : Dst) (itemsize i : ℕ) (value : BitVec 64) : Effect V :=
  .update (·.setMem (dst.base+i*itemsize) (leBytes itemsize value.toNat))

/-- Decode `count` elements into the caller's slots (`_fill_varints_at`). -/
def fillVarintsAt (swar : Bool) (dst : Dst) (itemsize count : ℕ) (zigzag bounded : Bool)
    (lo hi : BitVec 64) : DecM V Unit := do
  arm
  let _ ← elementsLoop swar (elementOutside zigzag bounded lo hi)
    (fun i result out => do
      perform (storeItem dst itemsize i (if zigzag then zigzagDecode result else result))
      pure out)
    count 0 (← get).pos []
  setPending none

/-- Does the declared width fit a slot of so many bytes (`_width_fits`)? -/
def widthFits (itemsize : ℕ) (zigzag bounded : Bool) (lo hi : BitVec 64) : Bool :=
  let bits := itemsize*8
  if !bounded then false
  else if zigzag then -2^(bits-1) ≤ lo.toInt && hi.toInt < 2^(bits-1)
  else if bits < 64 then hi.toNat < 2^bits else true

/-- A Python integer as an `int64_t`. -/
def asInt64 (x : ℤ) : Except Exn (BitVec 64) :=
  if -2^63 ≤ x ∧ x < 2^63 then .ok (BitVec.ofInt 64 x) else .error .overflow

/-- A Python integer as a `uint64_t`. -/
def asUInt64 (x : ℤ) : Except Exn (BitVec 64) :=
  if 0 ≤ x ∧ x < 2^64 then .ok (BitVec.ofInt 64 x) else .error .overflow

/-- The elements of an unsigned array as a list (`_read_unsigned_array`). -/
def readUnsignedArray (swar : Bool) (count : ℕ) (elemMax : Option ℤ) : DecM V (List ℤ) := do
  arm
  let out ← match elemMax with
    | none => readVarints swar count false false 0#64 0#64
    | some elemMax => do
      let hi ← ofExcept (asInt64 elemMax)
      readVarints swar count false true 0#64 hi
  setPending none
  pure out

/-- The elements of a signed array as a list (`_read_signed_array`). -/
def readSignedArray (swar : Bool) (count : ℕ) (elemMin elemMax : Option ℤ) :
    DecM V (List ℤ) := do
  arm
  let out ← match elemMin,elemMax with
    | none,none => readVarints swar count true false 0#64 0#64
    | elemMin,elemMax => do
      let lo ← match elemMin with
        | none => pure (BitVec.intMin 64)
        | some x => ofExcept (asInt64 x)
      let hi ← match elemMax with
        | none => pure (BitVec.intMax 64)
        | some x => ofExcept (asInt64 x)
      readVarints swar count true true lo hi
  setPending none
  pure out

/-- The lower side a fill is given. -/
def fillLo : Option ℤ → Except Exn (BitVec 64)
  | none => .ok (BitVec.intMin 64)
  | some x => asInt64 x

/-- The upper side a fill is given. -/
def fillHi : Option ℤ → Except Exn (BitVec 64)
  | none => .ok (BitVec.allOnes 64)
  | some x => asUInt64 x

/-- Fill the buffer the handler answered with. -/
def varintsInto (swar : Bool) (dst : Dst) (count : ℕ) (zigzag : Bool) (lo hi : Option ℤ) :
    DecM V Unit := do
  let bounded := lo.isSome || hi.isSome
  let clo ← ofExcept (fillLo lo)
  let chi ← ofExcept (fillHi hi)
  let view ← ofExcept (writable "on_array_begin" (.buffer dst))
  let isz := view.itemsize
  let slots := view.nbytes/isz
  if ¬(isz=1 ∨ isz=2 ∨ isz=4 ∨ isz=8) then
    throw (.argument
      s!"on_array_begin's destination holds {isz}-byte items; 1, 2, 4 or 8 are supported")
  else if isz≠8 ∧ !widthFits isz zigzag bounded clo chi then
    throw (.argument
      s!"on_array_begin declared a width that does not fit its {isz}-byte destination")
  else if view.nbytes < count*isz then
    throw (.argument s!"on_array_begin returned {slots} slots for an array of {count}")
  else fillVarintsAt swar view isz count zigzag bounded clo chi

/-- Deliver an integer array by the route the handler asks for (`_visit_varints`). -/
def visitVarints (swar : Bool) (c : Config V) (v : V) (fid : ℕ) (wtype : WireType)
    (pending : Pending) (count : ℕ) (zigzag : Bool) : DecM V Unit := do
  let (dst,lo,hi) ← arrayAnswer c v fid wtype count
  -- a maximum past the signed words is taken for none
  let hi := hi.filter (· ≤ 2^63-1)
  match pending,dst with
  | .limit msg _,none => throw (.limit msg)
  | _,none =>
    if zigzag then
      let out ← readSignedArray swar count lo hi
      perform (.deliver c v fid (.signedArray out))
    else
      let out ← readUnsignedArray swar count hi
      perform (.deliver c v fid (.unsignedArray out))
  | _,some dst =>
    setPending (some pending.real)
    varintsInto swar dst count zigzag lo hi

section Elements

variable {d : Dec V}

/-- An element is what the format's reader reads at the cursor. -/
theorem takeElement_run (swar : Bool) (hd : d.Filled) (pos : ℕ) : ∃ p,
    match Varint.read overlong (d.restFrom pos) with
    | .more => takeElement swar pos d=.error (.incomplete "truncated varint") {d with pos := d.keep}
    | .bad why => takeElement swar pos d=.error why {d with pos := p}
    | .done raw rest =>
      takeElement swar pos d=.ok (BitVec.ofNat 64 raw,d.seek rest) {d with pos := p} := by
  have hlen := restFrom_length hd pos
  by_cases hten : 10 ≤ d.n-pos
  · have htake : varintTake swar (d.restFrom pos)=spelledIn (d.restFrom pos) := by
      cases swar with
      | true => exact varintTake_swar (by omega)
      | false => exact varintTake_serial (by omega)
    refine ⟨d.pos,?_⟩
    rw [takeElement,run_get_bind,if_pos hten,htake,spelledIn]
    cases hr : Varint.read overlong (d.restFrom pos) with
    | more =>
      have hshort := Varint.readFrom_more_length (Nat.zero_le 9) hr
      omega
    | bad why =>
      rw [(Varint.read_bad_iff.mp hr).1]
      rfl
    | done raw rest =>
      have hsuf := ((Varint.stable_read overlong).suffix hr).length_le
      have hseek : pos+((d.restFrom pos).length-rest.length)=d.seek rest := by
        rw [Dec.seek]
        omega
      dsimp only
      rw [hseek]
      rfl
  · rw [takeElement,run_get_bind,if_neg hten,varintRefill_eq]
    cases hr : Varint.read overlong (d.restFrom pos) with
    | more => exact ⟨d.pos,rfl⟩
    | bad why => exact ⟨pos,rfl⟩
    | done raw rest => exact ⟨d.seek rest,rfl⟩

/-- The loop of both routes scans the bytes left and stores what it scanned, where its test is
that of a width and its store that of the interpreted engine. -/
theorem elementsLoop_run (swar : Bool) (c : Config V) {outside : BitVec 64 → Bool}
    {keep : ℕ → BitVec 64 → List ℤ → DecM V (List ℤ)} {bound : Bound} {zigzag : Bool}
    {into : Option Sink} {base top : ℕ}
    (hout : ∀ raw < 2^64, outside (BitVec.ofNat 64 raw)=bound.outside (element zigzag raw))
    (hkeep : ∀ i < top, ∀ raw < 2^64, bound.outside (element zigzag raw)=false → ∀ out,
      keep i (BitVec.ofNat 64 raw) out=keepElement c into base i (element zigzag raw) out)
    (hd : d.Filled) (left i pos : ℕ) (hp : pos ≤ d.n) (htop : i+left ≤ top) (out : List ℤ) :
    LoopEnds (elementsLoop swar outside keep left i pos out d) d
      (if into.isSome then out else out++(scan bound zigzag left (d.restFrom pos)).1)
      (fillFrom c (into.map (·,base)) i (scan bound zigzag left (d.restFrom pos)).1 d.store)
      (scan bound zigzag left (d.restFrom pos)).2 := by
  induction left generalizing d i pos out with
  | zero =>
    show elementsLoop swar outside keep 0 i pos out d=
      .ok _ {d with pos := d.seek (d.restFrom pos), store := d.store}
    rw [seek_restFrom hd hp]
    cases into with
    | none => rw [scan,List.append_nil]; rfl
    | some sink => rfl
  | succ left ih =>
    obtain ⟨p,htake⟩ := takeElement_run swar hd pos
    rw [elementsLoop,scan]
    cases hv : Varint.read overlong (d.restFrom pos) with
    | more =>
      rw [hv] at htake
      rw [run_bind_error htake]
      rfl
    | bad why =>
      rw [hv] at htake
      rw [run_bind_error htake]
      exact ⟨p,rfl⟩
    | done raw rest =>
      rw [hv] at htake
      rw [run_bind_ok htake]
      have hraw := Varint.read_lt hv
      have hsuf := (Varint.stable_read overlong).suffix hv
      dsimp only
      rw [hout raw hraw]
      cases ho : bound.outside (element zigzag raw) with
      | true =>
        rw [if_pos rfl,if_pos rfl]
        exact ⟨p,rfl⟩
      | false =>
        simp only [Bool.false_eq_true,if_false]
        rw [hkeep i (by omega) raw hraw ho]
        refine LoopEnds.of_pos (p:=p) (loopEnds_keep (d:={d with pos := p}) fun s => ?_)
        have h := ih (d:={d with pos := p, store := s}) hd (i+1) (d.seek rest)
          (by show d.n-rest.length ≤ d.n; omega) (by omega)
          (if into.isSome then out else out++[element zigzag raw])
        have hrest : Dec.restFrom {d with pos := p, store := s} (d.seek rest)=rest :=
          restFrom_seek hd hsuf
        rw [hrest] at h
        cases into with
        | none => simpa only [Option.isSome_none,Bool.false_eq_true,if_false,
            List.append_assoc,List.singleton_append] using h
        | some sink => exact h

end Elements

section Words

/-- Half of a word, which is not negative as a signed one. -/
theorem half_word {raw : ℕ} (h : raw < 2^64) :
    BitVec.ofNat 64 raw >>> 1=BitVec.ofNat 64 (raw/2) := by
  apply BitVec.eq_of_toNat_eq
  rw [BitVec.toNat_ushiftRight,BitVec.toNat_ofNat,BitVec.toNat_ofNat,Nat.shiftRight_eq_div_pow,
    Nat.mod_eq_of_lt h]
  omega

/-- The lowest bit of a word. -/
theorem parity_word (raw : ℕ) : BitVec.ofNat 64 raw &&& 1#64=BitVec.ofNat 64 (raw%2) := by
  apply BitVec.eq_of_toNat_eq
  rw [BitVec.toNat_and,BitVec.toNat_ofNat,BitVec.toNat_ofNat,BitVec.toNat_ofNat,
    Nat.mod_eq_of_lt (show 1 < 2^64 by decide),Nat.and_one_is_mod]
  omega

/-- Decoding a word is decoding its number. -/
theorem zigzagDecode_toInt {raw : ℕ} (h : raw < 2^64) :
    (zigzagDecode (BitVec.ofNat 64 raw)).toInt=Zigzag.decode raw := by
  rw [zigzagDecode,half_word h,parity_word]
  rcases Nat.even_or_odd' raw with ⟨k,rfl | rfl⟩
  · have hk : 2*k/2=k := by omega
    have hbit : 2*k%2=0 := by omega
    rw [Zigzag.decode_even,hk,hbit,BitVec.neg_zero,BitVec.xor_zero,
      BitVec.toInt_eq_toNat_cond,BitVec.toNat_ofNat]
    omega
  · have hk : (2*k+1)/2=k := by omega
    have hbit : (2*k+1)%2=1 := by omega
    have hones : -BitVec.ofNat 64 1=BitVec.allOnes 64 := by decide
    rw [Zigzag.decode_odd,hk,hbit,hones,BitVec.xor_allOnes,BitVec.toInt_eq_toNat_cond,
      BitVec.toNat_not,BitVec.toNat_ofNat]
    omega

/-- The word an element is stored as is the element modulo the size of a word. -/
theorem word_element (zigzag : Bool) {raw : ℕ} (h : raw < 2^64) :
    (((if zigzag then zigzagDecode (BitVec.ofNat 64 raw) else BitVec.ofNat 64 raw).toNat : ℕ) : ℤ)=
      element zigzag raw%2^64 := by
  cases zigzag with
  | false =>
    simp only [Bool.false_eq_true,if_false,element,BitVec.toNat_ofNat]
    omega
  | true =>
    have hint := zigzagDecode_toInt h
    rw [BitVec.toInt_eq_toNat_cond] at hint
    simp only [if_true,element,←hint]
    have hlt := (zigzagDecode (BitVec.ofNat 64 raw)).isLt
    split <;> omega

/-- The test at an element compares it with the sides as the route reads them. -/
theorem elementOutside_iff {zigzag bounded : Bool} {lo hi : BitVec 64} {raw : ℕ}
    (h : raw < 2^64) :
    elementOutside zigzag bounded lo hi (BitVec.ofNat 64 raw)=true ↔
      bounded=true ∧ if zigzag then element zigzag raw < lo.toInt ∨ hi.toInt < element zigzag raw
        else (hi.toNat : ℤ) < element zigzag raw := by
  cases zigzag with
  | false =>
    have hword : (BitVec.ofNat 64 raw).toNat=raw := by
      rw [BitVec.toNat_ofNat]
      omega
    simp only [elementOutside,element,BitVec.ult,hword]
    simp
  | true =>
    have hint := zigzagDecode_toInt h
    simp [elementOutside,element,BitVec.slt_iff_toInt_lt,hint]

end Words

section Items

/-- Bytes of a number are those of what it is modulo their number. -/
theorem leBytes_congr {n a b : ℕ} (h : a%256^n=b%256^n) : leBytes n a=leBytes n b := by
  have hmod : ∀ x : ℕ, leBytes n x=leBytes n (x%256^n) := by
    intro x
    have hback := leBytes_leNat (leBytes n x)
    rw [leBytes_length,leNat_leBytes] at hback
    exact hback.symm
  rw [hmod a,h,←hmod b]

variable {c : Config V} {dst : Dst}

/-- A word is stored as its element is assigned, where the item holds it. -/
theorem storeItem_put {zigzag : Bool} {i raw : ℕ} (hraw : raw < 2^64) (hsize : dst.itemsize ≤ 8)
    (hroom : (i+1)*dst.itemsize ≤ dst.nbytes)
    (hrange : (itemRange dst.signed dst.itemsize).1 ≤ element zigzag raw ∧
      element zigzag raw ≤ (itemRange dst.signed dst.itemsize).2) :
    storeItem dst dst.itemsize i
        (if zigzag then zigzagDecode (BitVec.ofNat 64 raw) else BitVec.ofNat 64 raw)=
      Sink.put c (.buffer dst) i (element zigzag raw) := by
  rw [storeItem,Sink.put,if_pos hroom]
  dsimp only
  rw [if_pos hrange]
  have hword := word_element zigzag hraw
  generalize (if zigzag then zigzagDecode (BitVec.ofNat 64 raw) else BitVec.ofNat 64 raw).toNat=w
    at hword ⊢
  have hpow : (256 : ℕ)^dst.itemsize=2^(8*dst.itemsize) := by rw [Nat.pow_mul]
  have hdvd : (2 : ℤ)^(8*dst.itemsize) ∣ 2^64 := pow_dvd_pow 2 (by omega)
  have hmod : (w : ℤ)%2^(8*dst.itemsize)=element zigzag raw%2^(8*dst.itemsize) := by
    rw [hword,Int.emod_emod_of_dvd _ hdvd]
  have hbytes : leBytes dst.itemsize w=
      leBytes dst.itemsize (element zigzag raw%2^(8*dst.itemsize)).toNat := by
    apply leBytes_congr
    rw [hpow,←hmod]
    have hnat : ((w : ℤ)%2^(8*dst.itemsize)).toNat=w%2^(8*dst.itemsize) := by
      exact_mod_cast Int.toNat_natCast (w%2^(8*dst.itemsize))
    rw [hnat,Nat.mod_mod]
  rw [hbytes]

end Items

section Casts

/-- A lower side as the fill is given it. -/
def castLo (lo : Option ℤ) : BitVec 64 := BitVec.ofInt 64 (lo.getD (-2^63))

/-- An upper side as the fill is given it. -/
def castHi (hi : Option ℤ) : BitVec 64 := BitVec.ofInt 64 (hi.getD (2^64-1))

/-- The width the elements are judged by once its sides are cast, in a list or in a buffer. -/
def castBound (zigzag stored : Bool) (lo hi : Option ℤ) : Bound :=
  if zigzag then
    { bounded := lo.isSome || hi.isSome, lo := lo.getD (-2^63)
      hi := hi.getD (if stored then -1 else 2^63-1), checkFast := true }
  else {bounded := hi.isSome, lo := 0, hi := hi.getD 0, checkFast := true}

/-- The side is a value of the elements' domain. -/
def InDomain (zigzag : Bool) (x : ℤ) : Prop :=
  if zigzag then -2^63 ≤ x ∧ x < 2^63 else 0 ≤ x ∧ x < 2^64

/-- The sides can be cast. -/
structure Castable (lo hi : Option ℤ) : Prop where
  /-- The lower one is a signed word. -/
  lo : ∀ l, lo=some l → -2^63 ≤ l ∧ l < 2^63
  /-- The upper one is an unsigned word. -/
  hi : ∀ h, hi=some h → 0 ≤ h ∧ h < 2^64

variable {lo hi : Option ℤ}

/-- A signed word is what it is a cast of. -/
theorem ofInt_toInt {x : ℤ} (hx : -2^63 ≤ x ∧ x < 2^63) : (BitVec.ofInt 64 x).toInt=x := by
  rw [BitVec.toInt_ofInt]
  exact Int.bmod_eq_of_le (by omega) (by omega)

/-- An unsigned word is what it is a cast of. -/
theorem ofInt_toNat {x : ℤ} (hx : 0 ≤ x ∧ x < 2^64) : ((BitVec.ofInt 64 x).toNat : ℤ)=x := by
  rw [BitVec.toNat_ofInt]
  omega

/-- An element of an unsigned array is a number. -/
theorem element_unsigned (raw : ℕ) : element false raw=(raw : ℤ) := rfl

/-- An element of a signed array is a signed word. -/
theorem element_signed {raw : ℕ} (h : raw < 2^64) :
    -2^63 ≤ element true raw ∧ element true raw < 2^63 := Zigzag.decode_range h

/-- An open lower side is the least signed word. -/
theorem castLo_toInt (hc : Castable lo hi) : (castLo lo).toInt=lo.getD (-2^63) := by
  apply ofInt_toInt
  cases lo with
  | none => decide
  | some l => exact hc.lo l rfl

/-- An open upper side is the greatest unsigned word. -/
theorem castHi_toNat (hc : Castable lo hi) : ((castHi hi).toNat : ℤ)=hi.getD (2^64-1) := by
  apply ofInt_toNat
  cases hi with
  | none => decide
  | some h => exact hc.hi h rfl

/-- An open upper side is the greatest unsigned word, which is minus one as a signed word. -/
theorem castHi_toInt (hc : Castable lo hi) (hhi : ∀ h, hi=some h → h < 2^63) :
    (castHi hi).toInt=hi.getD (-1) := by
  cases hi with
  | none => decide
  | some h =>
    have h0 := hc.hi h rfl
    have h63 := hhi h rfl
    have hrange : -2^63 ≤ h ∧ h < 2^63 := by omega
    exact ofInt_toInt hrange

/-- The test of the fill is that of the width as it was cast. -/
theorem elementOutside_cast {zigzag : Bool} (hc : Castable lo hi)
    (hhi : ∀ h, hi=some h → h < 2^63) {raw : ℕ} (hraw : raw < 2^64) :
    elementOutside zigzag (lo.isSome || hi.isSome) (castLo lo) (castHi hi) (BitVec.ofNat 64 raw)=
      (castBound zigzag true lo hi).outside (element zigzag raw) := by
  rw [Bool.eq_iff_iff,elementOutside_iff hraw]
  cases zigzag with
  | false =>
    rw [castHi_toNat hc,element_unsigned]
    cases hi with
    | none =>
      simp [castBound,Bound.outside]
      omega
    | some h =>
      simp [castBound,Bound.outside]
  | true =>
    rw [castLo_toInt hc,castHi_toInt hc hhi]
    simp [castBound,Bound.outside]

end Casts

section Listed

variable {c : Config V} {v : V} {fid count : ℕ} {d : Dec V} {p : Pending} {lo hi : Option ℤ}

/-- A signed word is cast. -/
theorem asInt64_ok {x : ℤ} (hx : -2^63 ≤ x ∧ x < 2^63) : asInt64 x=.ok (BitVec.ofInt 64 x) :=
  if_pos hx

/-- An unsigned word is cast. -/
theorem asUInt64_ok {x : ℤ} (hx : 0 ≤ x ∧ x < 2^64) : asUInt64 x=.ok (BitVec.ofInt 64 x) :=
  if_pos hx

/-- A list is scanned off the bytes left, by the test of a width. -/
theorem readVarints_words (swar : Bool) (c : Config V) (count : ℕ) {zigzag bounded : Bool}
    {lo hi : BitVec 64} {bound : Bound}
    (hout : ∀ raw < 2^64, elementOutside zigzag bounded lo hi (BitVec.ofNat 64 raw)=
      bound.outside (element zigzag raw)) (hd : d.Filled) (hp : d.pos ≤ d.n) :
    LoopEnds (readVarints swar count zigzag bounded lo hi d) d (scan bound zigzag count d.rest).1
      (fillFrom c none 0 (scan bound zigzag count d.rest).1 d.store)
      (scan bound zigzag count d.rest).2 := by
  have hkeep : ∀ i < count, ∀ raw < 2^64, bound.outside (element zigzag raw)=false →
      ∀ out : List ℤ, (pure (out++[if zigzag then (zigzagDecode (BitVec.ofNat 64 raw)).toInt
        else ((BitVec.ofNat 64 raw).toNat : ℤ)]) : DecM V (List ℤ))=
        keepElement c none 0 i (element zigzag raw) out := by
    intro i _ raw hraw _ out
    have hword : (BitVec.ofNat 64 raw).toNat=raw := by
      rw [BitVec.toNat_ofNat]
      omega
    rw [zigzagDecode_toInt hraw,hword]
    rfl
  rw [readVarints,run_get_bind]
  show LoopEnds _ d (if (none : Option Sink).isSome then [] else []++_)
    (fillFrom c ((none : Option Sink).map (·,0)) 0 _ d.store) _
  exact elementsLoop_run swar c hout hkeep hd count 0 d.pos hp (Nat.zero_add count).le []

/-- A list is read by a plan. -/
theorem listed_reads (swar : Bool) {zigzag bounded : Bool} {lo hi : BitVec 64} {bound : Bound}
    (hout : ∀ raw < 2^64, elementOutside zigzag bounded lo hi (BitVec.ofNat 64 raw)=
      bound.outside (element zigzag raw)) (hd : d.Filled) (hp : d.pos ≤ d.n) (hq : d.pending=some p)
    {k : List ℤ → Effect V} (hk : ∀ xs, (k xs).Quiet) {m : DecM V (List ℤ)}
    (hm : m=arm >>= fun _ => readVarints swar count zigzag bounded lo hi >>= fun out =>
      setPending none >>= fun _ => pure out) :
    ReadEnds ((m >>= fun out => perform (k out)) d) d p
      ((Plan.elements count bound zigzag none k).read c d.store d.rest) := by
  have hloop := readVarints_words swar c count hout (d:={d with keep := d.pos}) hd hp
  have hend : ∀ xs s rest, ReadEnds ((setPending none >>= fun _ => perform (k xs) : DecM V Unit)
      {d with keep := d.pos, pos := d.seek rest, store := s}) d p (.of (k xs s) rest) := by
    intro xs s rest
    exact (readEnds_of (d:={d with store := s}) (hk xs) rest).of_start
  rw [hm,bind_assoc,arm_bind,bind_assoc]
  exact LoopEnds.reads none 0 (m:=fun out => setPending none >>= fun _ => perform (k out)) hq hloop
    hend

/-- An unsigned list is read by a plan. -/
theorem readUnsignedArray_reads (swar : Bool) (hd : d.Filled) (hp : d.pos ≤ d.n)
    (hq : d.pending=some p) (lo : Option ℤ) (hhi : ∀ h, hi=some h → 0 ≤ h ∧ h < 2^63)
    {k : List ℤ → Effect V} (hk : ∀ xs, (k xs).Quiet) :
    ReadEnds ((readUnsignedArray swar count hi >>= fun out => perform (k out)) d) d p
      ((Plan.elements count (castBound false false lo hi) false none k).read c d.store d.rest) := by
  cases hi with
  | none =>
    have hout : ∀ raw < 2^64, elementOutside false false 0#64 0#64 (BitVec.ofNat 64 raw)=
      (castBound false false lo none).outside (element false raw) := by
      simp [elementOutside,castBound,Bound.outside]
    exact listed_reads swar hout hd hp hq hk rfl
  | some h =>
    have hrange := hhi h rfl
    have hcast : asInt64 h=.ok (BitVec.ofInt 64 h) := asInt64_ok (by omega)
    have hword : ((BitVec.ofInt 64 h).toNat : ℤ)=h := ofInt_toNat (by omega)
    have hout : ∀ raw < 2^64,
        elementOutside false true 0#64 (BitVec.ofInt 64 h) (BitVec.ofNat 64 raw)=
        (castBound false false lo (some h)).outside (element false raw) := by
      intro raw hraw
      rw [Bool.eq_iff_iff,elementOutside_iff hraw,hword,element_unsigned]
      simp [castBound,Bound.outside]
    refine listed_reads swar hout hd hp hq hk ?_
    rw [readUnsignedArray]
    dsimp only
    rw [hcast]
    rfl

/-- A signed list is read by a plan. -/
theorem readSignedArray_reads (swar : Bool) (hd : d.Filled) (hp : d.pos ≤ d.n)
    (hq : d.pending=some p) (hlo : ∀ l, lo=some l → -2^63 ≤ l ∧ l < 2^63)
    (hhi : ∀ h, hi=some h → -2^63 ≤ h ∧ h < 2^63) {k : List ℤ → Effect V}
    (hk : ∀ xs, (k xs).Quiet) :
    ReadEnds ((readSignedArray swar count lo hi >>= fun out => perform (k out)) d) d p
      ((Plan.elements count (castBound true false lo hi) true none k).read c d.store d.rest) := by
  have hout : ∀ raw < 2^64, elementOutside true (lo.isSome || hi.isSome)
      (BitVec.ofInt 64 (lo.getD (-2^63))) (BitVec.ofInt 64 (hi.getD (2^63-1)))
      (BitVec.ofNat 64 raw)=(castBound true false lo hi).outside (element true raw) := by
    intro raw hraw
    have hlow : (BitVec.ofInt 64 (lo.getD (-2^63))).toInt=lo.getD (-2^63) := by
      apply ofInt_toInt
      cases lo with
      | none => decide
      | some l => exact hlo l rfl
    have hhigh : (BitVec.ofInt 64 (hi.getD (2^63-1))).toInt=hi.getD (2^63-1) := by
      apply ofInt_toInt
      cases hi with
      | none => decide
      | some h => exact hhi h rfl
    rw [Bool.eq_iff_iff,elementOutside_iff hraw,hlow,hhigh]
    simp [castBound,Bound.outside]
  cases lo with
  | none =>
    cases hi with
    | none =>
      have hnone : ∀ raw < 2^64, elementOutside true false 0#64 0#64 (BitVec.ofNat 64 raw)=
        (castBound true false none none).outside (element true raw) := by
        simp [elementOutside,castBound,Bound.outside]
      exact listed_reads swar hnone hd hp hq hk rfl
    | some h =>
      have hmin : BitVec.ofInt 64 (-2^63)=BitVec.intMin 64 := by decide
      refine listed_reads swar hout hd hp hq hk ?_
      rw [readSignedArray.eq_def,Option.getD_none,hmin]
      dsimp only
      rw [asInt64_ok (hhi h rfl)]
      rfl
  | some l =>
    refine listed_reads swar hout hd hp hq hk ?_
    rw [readSignedArray.eq_def]
    cases hi with
    | none =>
      have hmax : BitVec.ofInt 64 (2^63-1)=BitVec.intMax 64 := by decide
      rw [Option.getD_none,hmax]
      dsimp only
      rw [asInt64_ok (hlo l rfl)]
      rfl
    | some h =>
      dsimp only
      rw [asInt64_ok (hlo l rfl),asInt64_ok (hhi h rfl)]
      rfl

end Listed

section Stored

variable {c : Config V} {v : V} {fid count : ℕ} {d : Dec V} {p : Pending} {lo hi : Option ℤ}
variable {b : Dst} {size : ℕ} {zigzag : Bool}

/-- A buffer is filled by a plan, where what its test lets through fits its items. -/
theorem fillVarintsAt_reads (swar : Bool) (c : Config V) (hb : b.Holds size count)
    (hsize : size ≤ 8) {bounded : Bool} {lo hi : BitVec 64} {bound : Bound}
    (hout : ∀ raw < 2^64, elementOutside zigzag bounded lo hi (BitVec.ofNat 64 raw)=
      bound.outside (element zigzag raw))
    (hfit : ∀ raw < 2^64, bound.outside (element zigzag raw)=false →
      (itemRange b.signed size).1 ≤ element zigzag raw ∧
        element zigzag raw ≤ (itemRange b.signed size).2)
    (hd : d.Filled) (hp : d.pos ≤ d.n) (hq : d.pending=some p) :
    ReadEnds (fillVarintsAt swar b size count zigzag bounded lo hi d) d p
      ((Plan.elements count bound zigzag (some (.buffer b,0)) fun _ => .done).read c d.store
        d.rest) := by
  obtain ⟨-,rfl,hroom⟩ := hb
  have hkeep : ∀ i < count, ∀ raw < 2^64, bound.outside (element zigzag raw)=false →
      ∀ out : List ℤ, (perform (storeItem b b.itemsize i (if zigzag then
        zigzagDecode (BitVec.ofNat 64 raw) else BitVec.ofNat 64 raw)) >>= fun _ => pure out)=
        keepElement c (some (.buffer b)) 0 i (element zigzag raw) out := by
    intro i hi raw hraw hin out
    have hslot : (i+1)*b.itemsize ≤ b.nbytes := (Nat.mul_le_mul_right _ hi).trans hroom
    rw [storeItem_put (c:=c) hraw hsize hslot (hfit raw hraw hin),keepElement,Nat.zero_add]
  have hend : ∀ xs s rest, ReadEnds ((setPending none : DecM V Unit)
      {d with keep := d.pos, pos := d.seek rest, store := s}) d p
      (.of ((fun _ => Effect.done : List ℤ → Effect V) xs s) rest) := fun _ _ _ => ⟨d.pos,rfl⟩
  rw [fillVarintsAt,arm_bind,run_get_bind]
  refine LoopEnds.reads (some (.buffer b)) 0 (m:=fun _ => setPending none) hq ?_ hend
  exact elementsLoop_run swar c hout hkeep (d:={d with keep := d.pos}) hd count 0 d.pos hp
    (Nat.zero_add count).le []

/-- The sides of the declared width are cast. -/
theorem castable_run (hc : Castable lo hi) : fillLo lo=.ok (castLo lo) ∧ fillHi hi=.ok (castHi hi) := by
  constructor
  · cases lo with
    | none =>
      have hmin : BitVec.intMin 64=castLo none := by decide
      rw [fillLo,hmin]
    | some l => exact asInt64_ok (hc.lo l rfl)
  · cases hi with
    | none =>
      have hmax : BitVec.allOnes 64=castHi none := by decide
      rw [fillHi,hmax]
    | some h => exact asUInt64_ok (hc.hi h rfl)

/-- A destination that holds the elements is refused for its width or filled. -/
theorem varintsInto_cast (swar : Bool) (hc : Castable lo hi) (hb : b.Holds size count)
    (hsize : size=1 ∨ size=2 ∨ size=4 ∨ size=8) :
    (varintsInto swar b count zigzag lo hi : DecM V Unit)=
      if size≠8 ∧ !widthFits size zigzag (lo.isSome || hi.isSome) (castLo lo) (castHi hi) then
        throw (.argument
          s!"on_array_begin declared a width that does not fit its {size}-byte destination")
      else fillVarintsAt swar b size count zigzag (lo.isSome || hi.isSome) (castLo lo)
        (castHi hi) := by
  obtain ⟨hwritable,rfl,hroom⟩ := hb
  have hview : SofaBuffers.writable "on_array_begin" (.buffer b)=.ok b := if_pos hwritable
  obtain ⟨hlo,hhi⟩ := castable_run hc
  rw [varintsInto,hlo,hhi,hview,ofExcept,pure_bind,ofExcept,pure_bind,ofExcept,pure_bind]
  dsimp only
  rw [if_neg (not_not.mpr hsize),if_neg (Nat.not_lt.mpr hroom)]

end Stored

end Native

end SofaBuffers
