import SofaBuffers.Farray
import SofaBuffers.Native.Declared
import SofaBuffers.Native.Utf8
import SofaBuffers.Tandem

/-!
# How the compiled decoder reads a value

The compiled decoder takes a payload in place where its bytes are there, and stores words
without asking whether there is a slot for them. Where the interpreted reads do not raise
something no caller is promised, the compiled ones end in the same way.
-/

set_option autoImplicit false

namespace SofaBuffers

open Resumable
open Dec

variable {V : Type}

/-- The class is none of those a feed answers with, or a caller may count on. -/
def ExnClass.Foreign : ExnClass → Prop
  | .decode | .incomplete | .limit | .argument => False
  | .buffer | .index | .value | .overflow | .assertion | .turns => True

/-- A change of the storage came to what another one did, unless that raised something foreign. -/
inductive Ended (V : Type) : Store V × Option Exn → Store V × Option Exn → Prop
  /-- Both went well. -/
  | done (s : Store V) : Ended V (s,none) (s,none)
  /-- Both raised. -/
  | raised {why why' : Exn} (hw : why.cls=why'.cls) (s : Store V) :
      Ended V (s,some why) (s,some why')
  /-- The first raised something foreign. -/
  | foreign {why : Exn} (hx : why.cls.Foreign) (s : Store V) (r : Store V × Option Exn) :
      Ended V (s,some why) r

/-- A change of the storage does what another one does, unless that raises something foreign. -/
def Effect.Like (f g : Effect V) : Prop := ∀ s, Ended V (f s) (g s)

/-- A reading ends as another one, unless that ends in something foreign. -/
inductive Reading.Like : Reading V → Reading V → Prop
  /-- Both are done. -/
  | done (s : Store V) (rest : List UInt8) : Like (.done s rest) (.done s rest)
  /-- Both want more. -/
  | more (s : Store V) : Like (.more s) (.more s)
  /-- Both are refused. -/
  | bad {why why' : Exn} (hw : why.cls=why'.cls) (s : Store V) : Like (.bad why s) (.bad why' s)
  /-- The first ends in something foreign. -/
  | foreign {why : Exn} (hx : why.cls.Foreign) (s : Store V) (rd : Reading V) :
      Like (.bad why s) rd

/-- A plan is read as another one, unless that comes to something foreign. -/
def Plan.Like (c : Config V) (pl pl' : Plan V) : Prop :=
  ∀ s xs, (pl.read c s xs).Like (pl'.read c s xs)

section Likeness

variable {c : Config V} {f f' g g' : Effect V}

/-- What comes to the same comes to the same. -/
theorem Ended.refl (r : Store V × Option Exn) : Ended V r r := by
  obtain ⟨s,_ | why⟩ := r
  · exact .done s
  · exact .raised rfl s

/-- A change does what it does. -/
theorem Effect.Like.refl (f : Effect V) : f.Like f := fun s => .refl (f s)

/-- Changes that are alike are alike one after another. -/
theorem Effect.Like.andThen (hf : f.Like f') (hg : g.Like g') :
    (f.andThen g).Like (f'.andThen g') := by
  intro s
  have hone := hf s
  rw [Effect.andThen,Effect.andThen]
  generalize f s=r,f' s=r' at hone
  cases hone with
  | done s => exact hg s
  | raised hw s => exact .raised hw s
  | foreign hx s r => exact .foreign hx s _

/-- A change that raises something foreign asks nothing. -/
theorem Effect.Like.raise {why : Exn} (hx : why.cls.Foreign) (g : Effect V) :
    (Effect.raise why).Like g := fun s => .foreign hx s (g s)

/-- A word is stored. -/
theorem like_putWord (c : Config V) (i : ℕ) (w : BitVec 64) :
    (Effect.putWord c i w).Like (.update (·.setWord i w)) := by
  rw [Effect.putWord]
  split
  · exact .refl _
  · exact .raise (show Exn.index.cls.Foreign from trivial) _

/-- A reading ends as itself. -/
theorem Reading.Like.refl (rd : Reading V) : rd.Like rd := by
  cases rd with
  | done s rest => exact .done s rest
  | more s => exact .more s
  | bad why s => exact .bad rfl s

/-- What is done with a value that was there. -/
theorem Ended.reading {r r' : Store V × Option Exn} (h : Ended V r r') (rest : List UInt8) :
    (Reading.of r rest).Like (.of r' rest) := by
  cases h with
  | done s => exact .done s rest
  | raised hw s => exact .bad hw s
  | foreign hx s r => exact .foreign hx s _

/-- A varint that is stored. -/
theorem like_scalar {k k' : ℕ → Effect V} (hk : ∀ raw < 2^64, (k raw).Like (k' raw)) :
    Plan.Like c (.scalar k) (.scalar k') := by
  intro s xs
  rw [Plan.read,Plan.read]
  cases hv : Varint.read overlong xs with
  | done raw rest => exact (hk raw (Varint.read_lt hv) s).reading rest
  | more => exact .more s
  | bad why => exact .bad rfl s

/-- A payload that is stored. -/
theorem like_payload {n : ℕ} {k k' : List UInt8 → Effect V}
    (hk : ∀ data, data.length=n → (k data).Like (k' data)) :
    Plan.Like c (.payload n k) (.payload n k') := by
  intro s xs
  rw [Plan.read,Plan.read]
  split
  · exact .more s
  · next hlen =>
    have htake : (xs.take n).length=n := by
      rw [List.length_take]
      omega
    exact (hk _ htake s).reading _

/-- Elements that are stored alike; only what is done behind the last may differ. -/
theorem like_elements {count : ℕ} {bound : Bound} {zigzag : Bool} {into : Option (Sink × ℕ)}
    {k k' : List ℤ → Effect V} (hk : ∀ xs, (k xs).Like (k' xs)) :
    Plan.Like c (.elements count bound zigzag into k) (.elements count bound zigzag into k') := by
  intro s xs
  cases hscan : scan bound zigzag count xs with
  | mk ys t =>
    cases hfill : fillFrom c into 0 ys s with
    | mk s e =>
      cases e with
      | some e =>
        rw [read_unstored hscan hfill,read_unstored hscan hfill]
        exact .refl _
      | none =>
        rw [read_scanned hscan hfill,read_scanned hscan hfill]
        cases t with
        | done rest => exact (hk _ s).reading rest
        | more => exact .more s
        | bad why => exact .bad rfl s

/-- A compiled read from `d` ends as the reading of the interpreted plan does, unless that comes to
something foreign; `p` is the value still pending when it does not end well. -/
inductive ReadLike (r : EStateM.Result Exn (Dec V) Unit) (d : Dec V) (p : Pending) :
    Reading V → Prop
  /-- It ends in a reading of its own. -/
  | reads {rd rd' : Reading V} (h : ReadEnds r d p rd') (hl : rd.Like rd') : ReadLike r d p rd
  /-- The plan comes to something foreign. -/
  | foreign {why : Exn} (hx : why.cls.Foreign) (s : Store V) : ReadLike r d p (.bad why s)

/-- What storage and what pending value a compiled read started from does not matter. -/
theorem ReadLike.of_start {r : EStateM.Result Exn (Dec V) Unit} {d : Dec V} {p : Pending}
    {s : Store V} {q : Option Pending} {rd : Reading V}
    (h : ReadLike r {d with pending := q, store := s} p rd) : ReadLike r d p rd := by
  cases h with
  | reads h hl => exact .reads h.of_start hl
  | foreign hx s => exact .foreign hx s

end Likeness

namespace Native

namespace Decoder

/-- The varint at the cursor (`_varint`). -/
def varint (swar : Bool) : DecM V (BitVec 64) := do
  let (value,pos) ← takeElement swar (← get).pos
  setPos pos
  pure value

/-- Consume the pending scalar (`_take_scalar`). -/
def takeScalar (swar : Bool) : DecM V (BitVec 64) := do
  arm
  let value ← varint swar
  setPending none
  pure value

/-- A payload in place where its bytes are there, else through the reader that suspends
(`_take_fixlen_ptr`). -/
def takeFixlenPtr (n : ℕ) : DecM V (List UInt8) := do
  let d ← get
  if n ≤ d.n-d.pos then
    setPending none
    setPos (d.pos+n)
    pure ((d.buf.drop d.pos).take n)
  else
    arm
    let data ← readExact n
    setPending none
    pure data

/-- On-wire payload size of a fixlen array, the product of two words (`_farray_nbytes`). -/
def farrayNbytes (count elemSize : ℕ) : DecM V ℕ := do
  let total := count*elemSize%2^64
  if elemSize≠0 ∧ total/elemSize≠count then suspend "truncated payload"
  else if sysMaxsize < total then suspend "truncated payload"
  else pure total

/-- The payload of a fixlen array (`_take_farray_ptr`). -/
def takeFarrayPtr (count elemSize : ℕ) : DecM V (List UInt8) := do
  let n ← farrayNbytes count elemSize
  takeFixlenPtr n

/-- One single (`_unpack_f32`): a NaN is widened by hand, which keeps its bits. -/
def unpackF32 (p : List UInt8) : BitVec 64 :=
  let bits := unpackU32 p
  if isNan32 bits then widenNan bits else structF32 bits

/-- The elements of a fixlen array, one by one. -/
def farrayValues (count width : ℕ) (p : List UInt8) : List (BitVec 64) :=
  (elements width count p).map (if width=4 then unpackF32 else unpackF64)

/-- The caller's destination as a buffer to write to. -/
def writable (refusal : String) (dst : Obj) : Except Exn Dst :=
  match dst with
  | .buffer view => if view.writable then .ok view else .error (.argument refusal)
  | _ => .error (.argument refusal)

/-- A buffer of single bytes with room for a payload. -/
def byteView (who what : String) (dst : Obj) (size : ℕ) : Except Exn Dst := do
  let view ← writable s!"{who} gave a destination that is not a writable, contiguous buffer" dst
  let room := view.nbytes
  if view.itemsize≠1 then .error (.argument s!"{who}'s destination must hold single bytes")
  else if room < size then
    .error (.argument s!"{who} gave {room} bytes for a {what} of {size}")
  else .ok view

/-- Copy bytes to the front of a buffer (`memcpy`). -/
def copy (view : Dst) (payload : List UInt8) : Effect V := .update (·.setMem view.base payload)

/-- Copy a blob's payload into the caller's buffer (`_take_blob_into`). -/
def takeBlobInto (dst : Obj) (size : ℕ) (who : String) : DecM V Unit := do
  let view ← ofExcept (byteView who "blob" dst size)
  let p ← takeFixlenPtr size
  perform (copy view p)

/-- Validate a string's payload and copy it into the caller's buffer (`_take_string_into`). -/
def takeStringInto (dst : Obj) (size : ℕ) (who : String) : DecM V Unit := do
  let view ← ofExcept (byteView who "string" dst size)
  let p ← takeFixlenPtr size
  if decodeUtf8Checked p=some true then perform (copy view p)
  else throw (.decode "invalid UTF-8 in string field")

/-- The text of a payload (`PyUnicode_DecodeUTF8`). -/
def decodeText (p : List UInt8) : Except Exn (List ℕ) :=
  match Utf8.decode p with
  | some text => .ok text
  | none => .error (.decode "invalid UTF-8 in string field")

/-- What a typed read makes of a value that is not of its kind (`_mismatch`). For one of another
kind the source has `None` handed on, which the driver has ruled out. -/
def mismatch {α : Type} : DecM V α := do
  match (← get).pending with
  | none => throw (.argument "no value pending for the current field")
  | some (.limit msg _) => throw (.limit msg)
  | some _ => throw .assertion

/-- Consume the pending value of an unsigned field (`_unsigned`). -/
def unsigned (swar : Bool) : DecM V (BitVec 64) := do
  match (← get).pending with
  | some (.scalar false) => takeScalar swar
  | _ => mismatch

/-- Consume the pending value of a signed field (`_signed`). -/
def signed (swar : Bool) : DecM V (BitVec 64) := do
  match (← get).pending with
  | some (.scalar true) => do
    let value ← takeScalar swar
    pure (zigzagDecode value)
  | _ => mismatch

/-- Consume the pending payload of a subtype, so many bytes of it. -/
def payload (st : FixlenSubtype) (size : ℕ → ℕ) : DecM V (List UInt8) := do
  match (← get).pending with
  | some (.fixlen st' length) => if st'=st then takeFixlenPtr (size length) else mismatch
  | _ => mismatch

/-- Consume the pending single (`_float32`). -/
def float32 : DecM V (BitVec 64) := do
  let p ← payload .fp32 fun _ => 4
  pure (unpackF32 p)

/-- Consume the pending single, as its wire bits (`_float32_bits`). -/
def float32Bits : DecM V (BitVec 32) := do
  let p ← payload .fp32 fun _ => 4
  pure (unpackU32 p)

/-- Consume the pending double (`_float64`). -/
def float64 : DecM V (BitVec 64) := do
  let p ← payload .fp64 fun _ => 8
  pure (unpackF64 p)

/-- Consume the pending string (`_string`). -/
def string : DecM V (List ℕ) := do
  let p ← payload .string id
  ofExcept (decodeText p)

/-- Consume the pending blob (`_bytes`). -/
def bytes : DecM V (List UInt8) := payload .blob id

/-- Consume the pending fixlen array of a subtype (`_read_farray`). -/
def readFarray (st : FixlenSubtype) (width : ℕ) : DecM V (List (BitVec 64)) := do
  match (← get).pending with
  | some (.farray st' count elemSize) =>
    if st'=st then
      let p ← takeFarrayPtr count elemSize
      pure (farrayValues count width p)
    else mismatch
  | _ => mismatch

/-- The compiled reader of varints parses a varint into a word. -/
theorem parses_varint (swar : Bool) : Parses (varint swar : DecM V (BitVec 64))
    (Varint.read overlong >>= fun raw => pure (BitVec.ofNat 64 raw)) := by
  intro d hd hp
  obtain ⟨p,h⟩ := takeElement_run swar hd d.pos
  show ParseEnds ((takeElement swar d.pos >>= fun r => setPos r.2 >>= fun _ => pure r.1) d) d _
  have hrest : d.restFrom d.pos=d.rest := rfl
  rw [hrest] at h
  cases hv : Varint.read overlong d.rest with
  | done raw rest =>
    rw [hv] at h
    rw [bind_done hv,run_bind_ok h]
    rfl
  | more =>
    rw [hv] at h
    rw [bind_more hv,run_bind_error h]
    exact ⟨_,rfl⟩
  | bad why =>
    rw [hv] at h
    rw [bind_bad hv,run_bind_error h]
    exact ⟨p,rfl⟩

section Reads

variable {c : Config V} {d : Dec V} {p : Pending}

/-- A scalar is read and then stored. -/
theorem takeScalar_like (swar : Bool) (hd : d.Filled) (hp : d.pos ≤ d.n) (hq : d.pending=some p)
    {k : ℕ → Effect V} {g : BitVec 64 → Effect V}
    (hk : ∀ raw < 2^64, (k raw).Like (g (BitVec.ofNat 64 raw))) (hquiet : ∀ w, (g w).Quiet) :
    ReadLike ((takeScalar swar >>= fun w => perform (g w)) d) d p
      ((Plan.scalar k).read c d.store d.rest) := by
  refine .reads ?_ (like_scalar hk d.store d.rest)
  have h := parses_varint swar {d with keep := d.pos} hd hp
  have hrest : Dec.rest {d with keep := d.pos}=d.rest := rfl
  rw [hrest] at h
  rw [takeScalar,bind_assoc,arm_bind,Plan.read,bind_assoc]
  cases hv : Varint.read overlong d.rest with
  | done raw rest =>
    rw [bind_done hv] at h
    rw [run_bind_ok h]
    exact readEnds_of (hquiet _) rest
  | more =>
    rw [bind_more hv] at h
    obtain ⟨msg,h⟩ := h
    rw [run_bind_error h]
    exact readEnds_more hq
  | bad why =>
    rw [bind_bad hv] at h
    obtain ⟨pos,h⟩ := h
    rw [run_bind_error h]
    have hcls : why.cls=.decode := by rw [(Varint.read_bad_iff.mp hv).1]; rfl
    refine ⟨by rw [hcls]; decide,_,rfl,rfl,rfl,fun harg => ?_⟩
    rw [hcls] at harg
    cases harg

/-- A payload is taken where it is there. -/
theorem takeFixlenPtr_run (hd : d.Filled) (hp : d.pos ≤ d.n) (n : ℕ) :
    takeFixlenPtr n d=
      if d.rest.length < n then .error (.incomplete "truncated payload") {d with keep := d.pos}
      else .ok (d.rest.take n) {d with pos := d.seek (d.rest.drop n), pending := none} := by
  have hlen : d.rest.length=d.n-d.pos := restFrom_length hd d.pos
  rw [takeFixlenPtr,run_get_bind]
  by_cases hl : d.rest.length < n
  · have h := readExact_run (d:={d with keep := d.pos}) hd hp n
    have hrest : Dec.rest {d with keep := d.pos}=d.rest := rfl
    rw [hrest,if_pos hl] at h
    rw [if_neg (by omega),if_pos hl,arm_bind,run_bind_error h]
  · have hseek : d.seek (d.rest.drop n)=d.pos+n := by
      rw [rest,←restFrom_drop,seek_restFrom hd (by omega)]
    rw [if_pos (by omega),if_neg hl,hseek,←slice_eq (by omega)]
    rfl

/-- A payload is taken and then stored. -/
theorem takeFixlenPtr_like (hd : d.Filled) (hp : d.pos ≤ d.n) (hq : d.pending=some p) {n : ℕ}
    {k g : List UInt8 → Effect V} (hk : ∀ data, data.length=n → (k data).Like (g data))
    (hquiet : ∀ data, (g data).Quiet) :
    ReadLike ((takeFixlenPtr n >>= fun data => perform (g data)) d) d p
      ((Plan.payload n k).read c d.store d.rest) := by
  refine .reads ?_ (like_payload hk d.store d.rest)
  have h := takeFixlenPtr_run hd hp n
  rw [Plan.read]
  by_cases hl : d.rest.length < n
  · rw [if_pos hl] at h ⊢
    rw [run_bind_error h]
    exact readEnds_more hq
  · rw [if_neg hl] at h ⊢
    rw [run_bind_ok h]
    exact readEnds_of (hquiet _) _

/-- No fixlen array the format allows is too large for a word. -/
theorem farrayNbytes_eq {count size : ℕ} (hc : count ≤ arrayMax) (hs : size ≤ 8) :
    (farrayNbytes count size : DecM V ℕ)=pure (count*size) ∧ ¬sysMaxsize < count*size := by
  have hle : count*size ≤ arrayMax*8 := Nat.mul_le_mul hc hs
  rw [arrayMax] at hle
  have htotal : count*size%2^64=count*size := Nat.mod_eq_of_lt (by omega)
  have hmax : ¬sysMaxsize < count*size := by
    rw [sysMaxsize]
    omega
  refine ⟨?_,hmax⟩
  rw [farrayNbytes,htotal,if_neg,if_neg hmax]
  rintro ⟨hne,hdiv⟩
  exact hdiv (Nat.mul_div_cancel _ (Nat.pos_of_ne_zero hne))

/-- The payload of a fixlen array is taken and then stored. -/
theorem takeFarrayPtr_like (hd : d.Filled) (hp : d.pos ≤ d.n) (hq : d.pending=some p)
    {count size : ℕ} (hc : count ≤ arrayMax) (hs : size ≤ 8) {k k' : List UInt8 → Effect V}
    (hk : ∀ data, data.length=count*size → (k data).Like (k' data))
    (hquiet : ∀ data, (k' data).Quiet) :
    ReadLike ((takeFarrayPtr count size >>= fun data => perform (k' data)) d) d p
      ((Plan.span count size k).read c d.store d.rest) := by
  obtain ⟨hbytes,hmax⟩ := @farrayNbytes_eq V _ _ hc hs
  rw [takeFarrayPtr,hbytes,pure_bind,Plan.span,if_neg hmax]
  exact takeFixlenPtr_like hd hp hq hk hquiet

/-- A single is widened as the interpreted engine widens it. -/
theorem unpackF32_eq (data : List UInt8) :
    unpackF32 data=SofaBuffers.unpackF32 structF32 data := by
  rw [unpackF32,SofaBuffers.unpackF32,unpackF32Bits]
  by_cases hn : isNan32 (unpackU32 data)=true
  · rw [if_pos hn,if_pos (structF32_nan hn)]
  · have hnum := (structF32_exact (by simpa using hn)).number (by simpa using hn)
    rw [if_neg hn,hnum]
    rfl

/-- The elements of an array of singles are widened as the interpreted engine widens them. -/
theorem farrayValues_eq (count width : ℕ) (data : List UInt8) :
    farrayValues count width data=Farray.values structF32 width (elements width count data) := by
  rw [farrayValues,Farray.values]
  split
  · rw [unpackF32Block_eq]
    exact List.map_congr_left fun e _ => unpackF32_eq e
  · rfl

/-- Both engines look at a destination alike. -/
theorem writable_like (who refusal : String) (dst : Obj) :
    (∃ view, dst=.buffer view ∧ SofaBuffers.writable who dst=.ok view ∧
        writable refusal dst=.ok view) ∨
      ∃ msg, SofaBuffers.writable who dst=.error (.argument msg) ∧
        writable refusal dst=.error (.argument refusal) := by
  cases dst with
  | buffer view =>
    rw [SofaBuffers.writable,writable]
    cases view.writable with
    | true => exact .inl ⟨view,rfl,rfl,rfl⟩
    | false => exact .inr ⟨_,rfl,rfl⟩
  | _ => exact .inr ⟨_,rfl,rfl⟩

/-- Both engines look at a buffer of single bytes alike. -/
theorem byteView_like (who what : String) (dst : Obj) (size : ℕ) :
    (∃ view, SofaBuffers.byteView who what dst size=.ok view ∧ byteView who what dst size=.ok view) ∨
      ∃ why why' : Exn, why.cls=why'.cls ∧ SofaBuffers.byteView who what dst size=.error why ∧
        byteView who what dst size=.error why' := by
  rw [byteView,SofaBuffers.byteView]
  have hsame : ∀ r : Except Exn Dst, (∃ view, r=.ok view ∧ r=.ok view) ∨
      ∃ why why' : Exn, why.cls=why'.cls ∧ r=.error why ∧ r=.error why' := by
    intro r
    cases r with
    | ok view => exact .inl ⟨view,rfl,rfl⟩
    | error why => exact .inr ⟨why,why,rfl,rfl,rfl⟩
  rcases writable_like who s!"{who} gave a destination that is not a writable, contiguous buffer" dst
    with ⟨view,-,hold,hnew⟩ | ⟨msg,hold,hnew⟩
  · rw [hold,hnew]
    exact hsame _
  · rw [hold,hnew]
    refine .inr ⟨.argument msg,_,?_,rfl,rfl⟩
    rfl

/-- What both engines copy into a buffer. -/
theorem like_copy (view : Dst) (data : List UInt8) :
    (copyInto view data : Effect V).Like (copy view data) := by
  rw [copyInto,copy]
  split
  · exact .raise (show Exn.value.cls.Foreign from trivial) _
  · exact .refl _

/-- What both engines copy of a text into a buffer. -/
theorem like_copyText (view : Dst) (data : List UInt8) :
    (copyText view data : Effect V).Like
      (if decodeUtf8Checked data=some true then copy view data
      else .raise (.decode "invalid UTF-8 in string field")) := by
  rw [copyText,decodeUtf8Checked_eq]
  cases Utf8.valid data with
  | true => exact like_copy view data
  | false => exact .refl _

/-- Copying is quiet. -/
theorem quiet_copy (view : Dst) (data : List UInt8) : (copy view data : Effect V).Quiet :=
  quiet_update _

/-- Copying a text is quiet. -/
theorem quiet_copyChecked (view : Dst) (data : List UInt8) :
    (if decodeUtf8Checked data=some true then copy view data
      else .raise (.decode "invalid UTF-8 in string field") : Effect V).Quiet := by
  split
  · exact quiet_copy view data
  · exact quiet_raise (by decide)

/-- A refused view of single bytes is refused for the caller's sake. -/
theorem byteView_cls {who what : String} {dst : Obj} {size : ℕ} {why : Exn}
    (h : byteView who what dst size=.error why) : why.cls≠.incomplete := by
  rcases byteView_like who what dst size with ⟨view,-,hview⟩ | ⟨e,e',hcls,hold,hnew⟩
  · rw [hview] at h
    cases h
  · rw [hnew] at h
    cases h
    rw [←hcls]
    exact byteView_error hold

/-- A payload is copied into a buffer that was looked at first. -/
theorem into_like (hd : d.Filled) (hp : d.pos ≤ d.n) (hq : d.pending=some p)
    (who what : String) (dst : Obj) (size : ℕ) {k k' : Dst → List UInt8 → Effect V}
    (hk : ∀ view data, (k view data).Like (k' view data))
    (hquiet : ∀ view data, (k' view data).Quiet) :
    ReadLike ((ofExcept (byteView who what dst size) >>= fun view => takeFixlenPtr size >>=
      fun data => perform (k' view data)) d) d p
      ((bytesPlan (SofaBuffers.byteView who what dst size) size k).read c d.store d.rest) := by
  rcases byteView_like who what dst size with ⟨view,hold,hnew⟩ | ⟨why,why',hcls,hold,hnew⟩
  · rw [hold,hnew]
    exact takeFixlenPtr_like hd hp hq (fun data _ => hk view data) (hquiet view)
  · rw [hold,hnew]
    exact .reads (readEnds_bad (k:=d.keep) (byteView_cls hnew) hq) (.bad hcls d.store)

/-- A blob is copied into the caller's buffer as the interpreted engine copies it. -/
theorem takeBlobInto_like (hd : d.Filled) (hp : d.pos ≤ d.n) (hq : d.pending=some p) (dst : Obj)
    (size : ℕ) (who : String) {g g' : Effect V} (hg : g.Like g') (hquiet : g'.Quiet) :
    ReadLike ((takeBlobInto dst size who >>= fun _ => perform g') d) d p
      ((bytesPlan (SofaBuffers.byteView who "blob" dst size) size fun view data =>
        (copyInto view data).andThen g).read c d.store d.rest) := by
  have h := into_like (c:=c) hd hp hq who "blob" dst size
    (fun view data => (like_copy view data).andThen hg)
    fun view data => (quiet_copy view data).andThen hquiet
  rw [takeBlobInto]
  simpa only [bind_assoc,perform_andThen] using h

/-- A string is copied into the caller's buffer as the interpreted engine copies it. -/
theorem takeStringInto_like (hd : d.Filled) (hp : d.pos ≤ d.n) (hq : d.pending=some p) (dst : Obj)
    (size : ℕ) (who : String) {g g' : Effect V} (hg : g.Like g') (hquiet : g'.Quiet) :
    ReadLike ((takeStringInto dst size who >>= fun _ => perform g') d) d p
      ((bytesPlan (SofaBuffers.byteView who "string" dst size) size fun view data =>
        (copyText view data).andThen g).read c d.store d.rest) := by
  have h := into_like (c:=c) hd hp hq who "string" dst size
    (fun view data => (like_copyText view data).andThen hg)
    fun view data => (quiet_copyChecked view data).andThen hquiet
  have hcheck : ∀ view data, (if decodeUtf8Checked data=some true then perform (copy view data)
      else throw (.decode "invalid UTF-8 in string field") : DecM V Unit)=
        perform (if decodeUtf8Checked data=some true then copy view data
          else .raise (.decode "invalid UTF-8 in string field")) := by
    intro view data
    split <;> rfl
  rw [takeStringInto]
  simp only [bind_assoc,hcheck]
  simpa only [perform_andThen] using h

end Reads

end Decoder

end Native

end SofaBuffers
