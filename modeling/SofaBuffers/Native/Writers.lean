import SofaBuffers.Encoder.Writers
import SofaBuffers.Native.Encoder

/-!
# The writers of the compiled encoder

Its calls are those of the interpreted encoder, in the same order of checks. What
is held back is a block of ids that is copied before it goes out, and an array of
floats is packed into the buffer in one go where all of it has room.
-/

set_option autoImplicit false

namespace SofaBuffers

namespace Native

/-- Map a signed word to an unsigned one (`_zigzag_encode`). -/
def zigzagEncode (v : BitVec 64) : BitVec 64 := (v <<< 1) ^^^ v.sshiftRight 63

/-- Raise what went wrong, or go on with the value. -/
def checked {α : Type} (r : Except Exn α) : EncM α :=
  match r with
  | .ok a => pure a
  | .error why => throw why

/-- Raise an error, or latch the first one of a sticky encoder (`_fail`). -/
def fail (why : Exn) : EncM Unit := do
  let e ← get
  if e.sticky then
    if e.error.isNone then set {e with error := some why} else pure ()
  else throw why

/-- A writer is skipped once an error is latched (`_begin`), and fails with the library's
errors. -/
def guarded (body : EncM Unit) : EncM Unit := fun e =>
  if e.sticky && e.error.isSome then .ok () e
  else
    match body e with
    | .ok _ e => .ok () e
    | .error why e => if why.isSofa then fail why e else .error why e

/-- A payload is settled before the header is reached: a refusal is the writer's, and the
payload goes on to be written. -/
def settledThen {α : Type} (r : Except Exn α) (write : α → EncM Unit) : EncM Unit := fun e =>
  if e.sticky && e.error.isSome then .ok () e
  else
    match r with
    | .error why => fail why e
    | .ok a => write a e

/-- A number in the upper bits of a word and a tag in the lowest three. -/
def tagged (n : BitVec 64) (tag : ℕ) : BitVec 64 := (n <<< 3) ||| BitVec.ofNat 64 tag

section Writers

variable (b : Build) (o : Outlet)

/-- Emit the headers of these sequences, outermost first. -/
def emitRun : List (BitVec 32) → EncM Unit
  | [] => pure ()
  | id::ids => do
    emitVarint b o (tagged (id.setWidth 64) WireType.sequenceStart.toNat)
    emitRun ids

/-- Emit the held-back sequence headers from a copy of them (`_commit_pending`). -/
def commitPending : EncM Unit := do
  let e ← get
  let run := e.pending.take e.npending
  set {e with npending := 0}
  emitRun b o run

/-- Commit what is held back, if anything is. -/
def commitHeld : EncM Unit := do
  if (← get).npending≠0 then commitPending b o else pure ()

/-- Write the header of a field whose id was validated (`_header_c`). -/
def headerC (fieldId : BitVec 64) (wtype : WireType) : EncM Unit := do
  commitHeld b o
  emitVarint b o (tagged fieldId wtype.toNat)

/-- Write a field header (`_header`). -/
def header (fieldId : Given) (wtype : WireType) : EncM Unit := do
  let fid ← checked (idArg b.digits fieldId)
  headerC b o fid wtype

/-- Write an unsigned integer field (`write_unsigned`). -/
def writeUnsigned (fieldId value : Given) : EncM Unit := guarded do
  let uv ← checked (u64Arg b.digits value)
  let fid ← checked (idArg b.digits fieldId)
  headerC b o fid .unsigned
  emitVarint b o uv

/-- Write a signed integer field (`write_signed`). -/
def writeSigned (fieldId value : Given) : EncM Unit := guarded do
  let sv ← checked (i64Arg b.digits value)
  let fid ← checked (idArg b.digits fieldId)
  headerC b o fid .signed
  emitVarint b o (zigzagEncode sv)

/-- An unsigned argument in the range of a width, the 64-bit range first. -/
def unsignedWithin (w : Width) (value : Given) : Except Exn (BitVec 64) :=
  match u64Arg b.digits value with
  | .error why => .error why
  | .ok uv =>
    if w.range.2 < uv.toNat then
      .error (.argument s!"unsigned value {uv.toNat} exceeds {w.name}")
    else .ok uv

/-- A signed argument in the range of a width, the 64-bit range first. -/
def signedWithin (w : Width) (value : Given) : Except Exn (BitVec 64) :=
  match i64Arg b.digits value with
  | .error why => .error why
  | .ok sv =>
    if sv.toInt < w.range.1 ∨ w.range.2 < sv.toInt then
      .error (.argument s!"signed value {sv.toInt} outside {w.name}")
    else .ok sv

/-- The writer of an unsigned field of a width. -/
def unsignedScalar (w : Width) (fieldId value : Given) : EncM Unit := guarded do
  let uv ← checked (unsignedWithin b w value)
  let fid ← checked (idArg b.digits fieldId)
  headerC b o fid .unsigned
  emitVarint b o uv

/-- The writer of a signed field of a width. -/
def signedScalar (w : Width) (fieldId value : Given) : EncM Unit := guarded do
  let sv ← checked (signedWithin b w value)
  let fid ← checked (idArg b.digits fieldId)
  headerC b o fid .signed
  emitVarint b o (zigzagEncode sv)

/-- The writer of a field of a width (`write_u8` to `write_i32`); the two 64-bit ones bear the
plain names. -/
def writeSized (w : Width) (fieldId value : Given) : EncM Unit :=
  match w with
  | .u8 | .u16 | .u32 => unsignedScalar b o w fieldId value
  | .i8 | .i16 | .i32 => signedScalar b o w fieldId value
  | .u64 => writeUnsigned b o fieldId value
  | .i64 => writeSigned b o fieldId value

/-- Write a boolean as an unsigned field (`write_bool`). -/
def writeBool (fieldId : Given) (value : Bool) : EncM Unit := guarded do
  let fid ← checked (idArg b.digits fieldId)
  headerC b o fid .unsigned
  emitVarint b o (if value then 1 else 0)

/-- Write a fixlen field (`_write_fixlen_raw` and `_write_fixlen_bytes`). -/
def writeFixlen (fieldId : Given) (data : List UInt8) (subtype : FixlenSubtype) : EncM Unit :=
  guarded do
    checked (fixlenSize data.length)
    header b o fieldId .fixlen
    emitVarint b o (tagged (BitVec.ofNat 64 data.length) subtype.toNat)
    put o data

section Floats

variable (narrow : BitVec 64 → Option (BitVec 32))

/-- The C cast of a double that is no NaN to a single: what is too large becomes an infinity. -/
def castF32 (value : BitVec 64) : BitVec 32 :=
  match narrow value with
  | some bits => bits
  | none => f32Exp|||(if value.msb then 0x80000000 else 0)

/-- The bits of a single made of a double, a NaN narrowed by hand. -/
def packedF32 (value : BitVec 64) : BitVec 32 :=
  if isNan64 value then
    let bits := ((value>>>63).setWidth 32<<<31)|||0x7F800000|||
      ((value>>>29)&&&0x007FFFFF).setWidth 32
    if bits&&&0x007FFFFF=0 then bits|||0x00400000 else bits
  else castF32 narrow value

/-- The four bytes of a word, lowest first. -/
def store4 (bits : BitVec 32) : List UInt8 :=
  [UInt8.ofNat (bits&&&0xFF).toNat,UInt8.ofNat ((bits>>>8)&&&0xFF).toNat,
    UInt8.ofNat ((bits>>>16)&&&0xFF).toNat,UInt8.ofNat ((bits>>>24)&&&0xFF).toNat]

/-- Pack a single (`_pack_f32`). -/
def packF32 (value : BitVec 64) : List UInt8 := store4 (packedF32 narrow value)

/-- Pack a double, a byte a turn (`_pack_f64`). -/
def packF64 (value : BitVec 64) : List UInt8 :=
  (List.range 8).map fun i => UInt8.ofNat ((value>>>(8*i))&&&0xFF).toNat

/-- Write a 32-bit float (`write_float32`). -/
def writeFloat32 (fieldId : Given) (value : BitVec 64) : EncM Unit :=
  writeFixlen b o fieldId (packF32 narrow value) .fp32

end Floats

/-- The bits of a single. -/
def f32Word (bits : Given) : Except Exn (BitVec 32) :=
  match indexArg bits "unsigned value" with
  | .error why => .error why
  | .ok value =>
    if value < 0 ∨ 0xFFFFFFFF < value then
      .error (.argument s!"fp32 bits {value} out of range 0..4294967295")
    else .ok (BitVec.ofInt 32 value)

/-- Write a 32-bit float from its raw bits (`write_float32_bits`). -/
def writeFloat32Bits (fieldId bits : Given) : EncM Unit :=
  settledThen (f32Word bits) fun raw => writeFixlen b o fieldId (store4 raw) .fp32

/-- Write a 64-bit float (`write_float64`). -/
def writeFloat64 (fieldId : Given) (value : BitVec 64) : EncM Unit :=
  writeFixlen b o fieldId (packF64 value) .fp64

/-- Write a string (`write_string`). -/
def writeString (fieldId : Given) (text : List ℕ) : EncM Unit :=
  settledThen (utf8Payload text) fun data => writeFixlen b o fieldId data .string

/-- Write a blob (`write_bytes`). -/
def writeBytes (fieldId : Given) (data : Blob) : EncM Unit :=
  settledThen (blobPayload data) fun data => writeFixlen b o fieldId data .blob

/-- The caller's bound as a word, or that it is to be compared as a number (`_u_limit`). -/
def uLimit (bound : ℤ) : Option ℕ :=
  match toU64 b.digits bound with
  | some lim => some lim.toNat
  | none => if unsignedMax < bound then some unsignedMax else none

/-- A number is above the caller's bound (`_u_over`, `_u_over_fast`). -/
def uOver (v : ℕ) (bound : ℤ) : Bool :=
  match uLimit b bound with
  | some lim => decide (lim < v)
  | none => decide (bound < v)

/-- A payload within the caller's bound. -/
def withinMaxlen (maxlen : Option ℤ) (refusal : ℕ → ℤ → String)
    (r : Except Exn (List UInt8)) : Except Exn (List UInt8) :=
  match r,maxlen with
  | .ok data,some most =>
    if uOver b data.length most then .error (.argument (refusal data.length most)) else .ok data
  | r,_ => r

/-- Write a string within a bound on its bytes (`write_string_bounded`). -/
def writeStringBounded (fieldId : Given) (text : List ℕ) (maxlen : Option ℤ) : EncM Unit :=
  settledThen
    (withinMaxlen b maxlen (fun n most => s!"string of {n} UTF-8 bytes exceeds maxlen {most}")
      (utf8Payload text))
    fun data => writeFixlen b o fieldId data .string

/-- Write a blob within a bound on its bytes (`write_bytes_bounded`). -/
def writeBytesBounded (fieldId : Given) (data : Blob) (maxlen : Option ℤ) : EncM Unit :=
  settledThen
    (withinMaxlen b maxlen (fun n most => s!"blob of {n} bytes exceeds maxlen {most}")
      (blobPayload data))
    fun data => writeFixlen b o fieldId data .blob

/-- Write the header and the count of an array (`_array_header`). -/
def arrayHeader (fieldId : Given) (wtype : WireType) (count : ℕ) : EncM Unit := do
  if count > arrayMax then
    throw (.argument s!"array count {count} out of range 0..{arrayMax}")
  header b o fieldId wtype
  emitVarint b o (BitVec.ofNat 64 count)

/-- Emit the words of an array's elements, each being checked when its turn comes. -/
def emitElements {α : Type} (element : α → Except Exn (BitVec 64)) : List α → EncM Unit
  | [] => pure ()
  | v::vs => do
    let word ← checked (element v)
    emitVarint b o word
    emitElements element vs

/-- An element of an unsigned array of a width (`_u64_elem`, then the width). -/
def unsignedElement (w : Width) (value : Given) : Except Exn (BitVec 64) :=
  match wordArg (toU64 b.digits) value "unsigned array value" with
  | .error why => .error why
  | .ok uv =>
    if w.range.2 < uv.toNat then
      .error (.argument s!"unsigned array value {uv.toNat} exceeds {w.name}")
    else .ok uv

/-- An element of a signed array of a width (`_i64_elem`, then the width). -/
def signedElement (w : Width) (value : Given) : Except Exn (BitVec 64) :=
  match wordArg (toI64 b.digits) value "signed array value" with
  | .error why => .error why
  | .ok sv =>
    if sv.toInt < w.range.1 ∨ w.range.2 < sv.toInt then
      .error (.argument s!"signed array value {sv.toInt} outside {w.name}")
    else .ok (zigzagEncode sv)

/-- Write an unsigned array (`write_unsigned_array`). -/
def writeUnsignedArray (fieldId : Given) (values : List Given) : EncM Unit := guarded do
  arrayHeader b o fieldId .arrayUnsigned values.length
  emitElements b o (fun v => wordArg (toU64 b.digits) v "unsigned array value") values

/-- Write a signed array (`write_signed_array`). -/
def writeSignedArray (fieldId : Given) (values : List Given) : EncM Unit := guarded do
  arrayHeader b o fieldId .arraySigned values.length
  emitElements b o
    (fun v => (wordArg (toI64 b.digits) v "signed array value").map zigzagEncode) values

/-- The writer of an array of a width (`write_u8_array` to `write_i64_array`). -/
def writeSizedArray (w : Width) (fieldId : Given) (values : List Given) (cap : ℤ) : EncM Unit :=
  -- the bound is converted to a C `ssize_t` before the body runs
  if cap > 2^63-1 ∨ cap < -2^63 then throw .overflow
  else guarded do
    if cap ≥ 0 ∧ values.length > cap then
      throw (.argument s!"array of {values.length} elements exceeds cap {cap}")
    arrayHeader b o fieldId (if w.signed then .arraySigned else .arrayUnsigned) values.length
    emitElements b o (if w.signed then signedElement b w else unsignedElement b w) values

/-- A count within the caller's bound (`_check_cap`). -/
def checkCap (count : ℕ) (cap : Option ℤ) : Except Exn Unit :=
  match cap with
  | none => .ok ()
  | some cap =>
    let refused : Except Exn Unit :=
      .error (.argument s!"array of {count} elements exceeds cap {cap}")
    match toU64 b.digits cap with
    | some lim => if lim.toNat < count then refused else .ok ()
    | none =>
      if cap < 0 then .ok ()
      else if uOver b count cap then refused else .ok ()

/-- `write_bool_array_bounded`. -/
def writeBoolArrayBounded (fieldId : Given) (values : List Bool) (cap : Option ℤ) : EncM Unit :=
  guarded do
    checked (checkCap b values.length cap)
    arrayHeader b o fieldId .arrayUnsigned values.length
    emitElements b o (fun v => .ok (if v then 1 else 0)) values

/-- `write_bool_array`. -/
def writeBoolArray (fieldId : Given) (values : List Bool) : EncM Unit := guarded do
  arrayHeader b o fieldId .arrayUnsigned values.length
  emitElements b o (fun v => .ok (if v then 1 else 0)) values

/-- Pack values into a region of the buffer, one behind the other. -/
def packRegion (pack : BitVec 64 → List UInt8) : List (BitVec 64) → List UInt8 → ℕ → List UInt8
  | [], fixed, _ => fixed
  | v::vs, fixed, at_ => packRegion pack vs (splice fixed at_ (pack v)) (at_+(pack v).length)

/-- Write packed values one after the other (`_put_f32`, `_put_f64`). -/
def putEach (pack : BitVec 64 → List UInt8) : List (BitVec 64) → EncM Unit
  | [] => pure ()
  | v::vs => do
    put o (pack v)
    putEach pack vs

/-- The payload of an array of floats: packed straight into the buffer when all of it has room,
and element by element otherwise. -/
def putFloats (pack : BitVec 64 → List UInt8) (elemSize : ℕ) (values : List (BitVec 64)) :
    EncM Unit := do
  let e ← get
  if e.cursor+values.length*elemSize ≤ e.cap then
    set {e with
      fixed := packRegion pack values e.fixed e.cursor
      cursor := e.cursor+values.length*elemSize}
  else putEach o pack values

/-- Write an array of floats (`_write_float_array`). -/
def writeFloatArray (fieldId : Given) (values : List (BitVec 64)) (subtype : FixlenSubtype)
    (pack : BitVec 64 → List UInt8) (elemSize : ℕ) (cap : Option ℤ) : EncM Unit := guarded do
  checked (checkCap b values.length cap)
  arrayHeader b o fieldId .arrayFixlen values.length
  -- the element word is there even when no element is
  emitVarint b o (tagged (BitVec.ofNat 64 elemSize) subtype.toNat)
  if values.length=0 then pure () else putFloats o pack elemSize values

/-- The payload of singles is a whole number of them, and as many as are stated; the count is a
C `ssize_t`. -/
def f32Payload (n : ℕ) (count : Option ℤ) : Except Exn ℕ :=
  if n%4≠0 then .error (.argument
    s!"an fp32 array payload of {n} bytes is not a whole number of 4-byte elements")
  else
    match count with
    | none => .ok (n/4)
    | some count =>
      if count > 2^63-1 ∨ count < -2^63 then .error .overflow
      else if count≠(n/4 : ℕ) then .error (.argument
        s!"count={count} does not match the {n/4} elements {n} payload bytes carry")
      else .ok (n/4)

/-- Write an array of singles from its raw bytes (`write_float32_array_bits`). -/
def writeFloat32ArrayBits (fieldId : Given) (payload : List UInt8) (count : Option ℤ) :
    EncM Unit := guarded do
  let have_ ← checked (f32Payload payload.length count)
  arrayHeader b o fieldId .arrayFixlen have_
  emitVarint b o (tagged 4 FixlenSubtype.fp32.toNat)
  if payload.length=0 then pure () else put o payload

/-- Nesting is at its limit. -/
def tooDeeplyNested : Exn := .argument "nesting exceeds MAX_DEPTH=255"

/-- Append an id to what is held back (`_pending_push`). -/
def pendingPush (fieldId : BitVec 32) : EncM Unit := do
  let e ← get
  if e.pending.length ≤ e.npending then throw tooDeeplyNested
  else set {e with pending := e.pending.set e.npending fieldId, npending := e.npending+1}

/-- Hold a sequence's header back (`write_sequence_begin_lazy`). -/
def writeSequenceBeginLazy (fieldId : Given) : EncM Unit := guarded do
  if (← get).depth ≥ maxDepth then throw tooDeeplyNested
  let fid ← checked (idArg b.digits fieldId)
  pendingPush (fid.setWidth 32)
  modify fun e => {e with depth := e.depth+1}

/-- The frame of a sequence ends. -/
def endFrame : EncM Unit := do
  emitVarint b o (BitVec.ofNat 64 WireType.sequenceEnd.toNat)
  modify fun e => {e with depth := e.depth-1}

/-- Close the innermost sequence, letting it vanish if nothing was written in it
(`write_sequence_end`). -/
def writeSequenceEnd : EncM Unit := guarded do
  let e ← get
  if e.depth ≤ 0 then throw unmatchedEnd
  else if e.npending≠0 then set {e with npending := e.npending-1, depth := e.depth-1}
  else endFrame b o

/-- Close the innermost sequence, keeping its frame (`write_sequence_end_keep`). -/
def writeSequenceEndKeep : EncM Unit := guarded do
  if (← get).depth ≤ 0 then throw unmatchedEnd
  commitHeld b o
  endFrame b o

/-- Carry a call out. -/
def run (narrow : BitVec 64 → Option (BitVec 32)) : Call → EncM Unit
  | .unsigned fieldId value => writeUnsigned b o fieldId value
  | .signed fieldId value => writeSigned b o fieldId value
  | .sized w fieldId value => writeSized b o w fieldId value
  | .bool fieldId value => writeBool b o fieldId value
  | .float32 fieldId value => writeFloat32 b o narrow fieldId value
  | .float32Bits fieldId bits => writeFloat32Bits b o fieldId bits
  | .float64 fieldId value => writeFloat64 b o fieldId value
  | .string fieldId text => writeString b o fieldId text
  | .stringBounded fieldId text maxlen => writeStringBounded b o fieldId text maxlen
  | .bytes fieldId data => writeBytes b o fieldId data
  | .bytesBounded fieldId data maxlen => writeBytesBounded b o fieldId data maxlen
  | .unsignedArray fieldId values => writeUnsignedArray b o fieldId values
  | .signedArray fieldId values => writeSignedArray b o fieldId values
  | .sizedArray w fieldId values cap => writeSizedArray b o w fieldId values cap
  | .boolArray fieldId values => writeBoolArray b o fieldId values
  | .boolArrayBounded fieldId values cap => writeBoolArrayBounded b o fieldId values cap
  | .float32Array fieldId values => writeFloatArray b o fieldId values .fp32 (packF32 narrow) 4 none
  | .float32ArrayBounded fieldId values cap =>
    writeFloatArray b o fieldId values .fp32 (packF32 narrow) 4 cap
  | .float32ArrayBits fieldId payload count => writeFloat32ArrayBits b o fieldId payload count
  | .float64Array fieldId values => writeFloatArray b o fieldId values .fp64 packF64 8 none
  | .float64ArrayBounded fieldId values cap =>
    writeFloatArray b o fieldId values .fp64 packF64 8 cap
  | .sequenceBeginLazy fieldId => writeSequenceBeginLazy b fieldId
  | .sequenceEnd => writeSequenceEnd b o
  | .sequenceEndKeep => writeSequenceEndKeep b o

end Writers

end Native

end SofaBuffers
