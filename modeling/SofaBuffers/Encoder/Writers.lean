import SofaBuffers.Encoder.State

/-!
# The writers

Every call that puts a field, opens a sequence or closes one. A writer checks
its arguments before the header, and the header before the payload; only the
elements of an integer array are checked where the loop reaches them.
-/

set_option autoImplicit false

namespace SofaBuffers

/-- Take an argument as an integer (`_as_int`). -/
def asInt (value : Given) (what : String) : Except Exn ℤ :=
  match value with
  | .int v => .ok v
  | .other typeName => .error (.argument s!"{what} must be an integer, not {typeName}")

/-- An argument in the place of a blob. -/
inductive Blob
  /-- A byte string: `bytes`, `bytearray` or a view of bytes. -/
  | bytes (data : List UInt8)
  /-- Something else; a view of wider items has a format. -/
  | other (typeName : String) (format : Option String)
  deriving DecidableEq, Repr

/-- The bytes of a blob (`_blob_len`). -/
def blobBytes (data : Blob) : Except Exn (List UInt8) :=
  match data with
  | .bytes data => .ok data
  | .other typeName none => .error (.argument
      s!"blob must be bytes, bytearray or a memoryview of format 'B', not {typeName}")
  | .other typeName (some format) => .error (.argument
      s!"blob must be bytes, bytearray or a memoryview of format 'B', not {typeName} of format '{format}'")

/-- The declared integer widths. -/
inductive Width
  | u8 | u16 | u32 | u64 | i8 | i16 | i32 | i64
  deriving DecidableEq, Repr

/-- What a width is called. -/
def Width.name : Width → String
  | .u8 => "u8"
  | .u16 => "u16"
  | .u32 => "u32"
  | .u64 => "u64"
  | .i8 => "i8"
  | .i16 => "i16"
  | .i32 => "i32"
  | .i64 => "i64"

/-- The least and the greatest value of a width (`_WIDTHS`). -/
def Width.range : Width → ℤ × ℤ
  | .u8 => (0,0xFF)
  | .u16 => (0,0xFFFF)
  | .u32 => (0,0xFFFFFFFF)
  | .u64 => (0,unsignedMax)
  | .i8 => (-0x80,0x7F)
  | .i16 => (-0x8000,0x7FFF)
  | .i32 => (-0x80000000,0x7FFFFFFF)
  | .i64 => (signedMin,signedMax)

/-- The values of a width are signed. -/
def Width.signed : Width → Bool
  | .u8 | .u16 | .u32 | .u64 => false
  | .i8 | .i16 | .i32 | .i64 => true

/-- The error is one of the library's own. -/
def Exn.isSofa : Exn → Bool
  | .decode _ | .incomplete _ | .limit _ | .argument _ | .buffer _ => true
  | .index | .value | .overflow | .assertion | .turns => false

/-- Raise what went wrong, or go on with the value. -/
def checked {α : Type} (r : Except Exn α) : EncM α :=
  match r with
  | .ok a => pure a
  | .error why => throw why

/-- Raise an error, or latch the first one of a sticky encoder (`_fail`). -/
def fail (why : Exn) : EncM Unit := do
  let e ← get
  if e.sticky then
    if e.error.isNone then set {e with error := some why} else pure ()
  else throw why

/-- A writer is skipped once an error is latched (`_begin`), and fails with the
library's errors. -/
def guarded (body : EncM Unit) : EncM Unit := fun e =>
  if e.sticky && e.error.isSome then .ok () e
  else
    match body e with
    | .ok _ e => .ok () e
    | .error why e => if why.isSofa then fail why e else .error why e

/-- Emit the held-back headers of a list of slots, `left` of them from slot `i` on. -/
def commitLoop (o : Outlet) (side : Bool) : ℕ → ℕ → EncM Unit
  | 0, _ => pure ()
  | left+1, i => do
    emitVarint o (((← get).runs side).getD i 0*8+WireType.sequenceStart.toNat)
    commitLoop o side left (i+1)

/-- Emit the held-back sequence headers, outermost first (`_commit_pending`). -/
def commitPending (o : Outlet) : EncM Unit := do
  let e ← get
  -- the lists are swapped before the first byte goes out
  set {e with active := !e.active, npending := 0}
  commitLoop o e.active e.npending 0

/-- A field id within the format's ceiling. -/
def checkedId (fieldId : Given) : Except Exn ℕ :=
  match asInt fieldId "id" with
  | .error why => .error why
  | .ok id =>
    if id < 0 ∨ id > idMax then .error (.argument s!"id {id} out of range 0..{idMax}")
    else .ok id.toNat

/-- Commit what is held back, if anything is. -/
def commitHeld (o : Outlet) : EncM Unit := do
  if (← get).npending≠0 then commitPending o else pure ()

/-- Write a field header (`_header`). -/
def header (o : Outlet) (fieldId : Given) (wtype : WireType) : EncM Unit := do
  let id ← checked (checkedId fieldId)
  commitHeld o
  emitVarint o (id*8+wtype.toNat)

/-- An unsigned value in the 64-bit range. -/
def unsignedValue (value : Given) : Except Exn ℕ :=
  match asInt value "unsigned value" with
  | .error why => .error why
  | .ok v =>
    if v < 0 ∨ v > unsignedMax then .error (.argument s!"unsigned value {v} out of range")
    else .ok v.toNat

/-- A signed value in the 64-bit range. -/
def signedValue (value : Given) : Except Exn ℤ :=
  match asInt value "signed value" with
  | .error why => .error why
  | .ok v =>
    if v < signedMin ∨ v > signedMax then .error (.argument s!"signed value {v} out of range")
    else .ok v

/-- Write an unsigned integer field (`write_unsigned`). -/
def writeUnsigned (o : Outlet) (fieldId value : Given) : EncM Unit := guarded do
  let v ← checked (unsignedValue value)
  header o fieldId .unsigned
  emitVarint o v

/-- Write a signed integer field (`write_signed`). -/
def writeSigned (o : Outlet) (fieldId value : Given) : EncM Unit := guarded do
  let v ← checked (signedValue value)
  header o fieldId .signed
  emitVarint o (Zigzag.encode v)

/-- An unsigned value in the range of a width, the 64-bit range first. -/
def unsignedWithin (w : Width) (value : Given) : Except Exn ℕ :=
  match unsignedValue value with
  | .error why => .error why
  | .ok v =>
    if v > w.range.2 then .error (.argument s!"unsigned value {v} exceeds {w.name}") else .ok v

/-- A signed value in the range of a width, the 64-bit range first. -/
def signedWithin (w : Width) (value : Given) : Except Exn ℤ :=
  match signedValue value with
  | .error why => .error why
  | .ok v =>
    if v < w.range.1 ∨ v > w.range.2 then .error (.argument s!"signed value {v} outside {w.name}")
    else .ok v

/-- The writer of an unsigned field of a width (`_unsigned_scalar`). -/
def unsignedScalar (o : Outlet) (w : Width) (fieldId value : Given) : EncM Unit := guarded do
  let v ← checked (unsignedWithin w value)
  header o fieldId .unsigned
  emitVarint o v

/-- The writer of a signed field of a width (`_signed_scalar`). -/
def signedScalar (o : Outlet) (w : Width) (fieldId value : Given) : EncM Unit := guarded do
  let v ← checked (signedWithin w value)
  header o fieldId .signed
  emitVarint o (Zigzag.encode v)

/-- `write_u8`. -/
def writeU8 (o : Outlet) := unsignedScalar o .u8
/-- `write_u16`. -/
def writeU16 (o : Outlet) := unsignedScalar o .u16
/-- `write_u32`. -/
def writeU32 (o : Outlet) := unsignedScalar o .u32
/-- `write_i8`. -/
def writeI8 (o : Outlet) := signedScalar o .i8
/-- `write_i16`. -/
def writeI16 (o : Outlet) := signedScalar o .i16
/-- `write_i32`. -/
def writeI32 (o : Outlet) := signedScalar o .i32

/-- Write a boolean as an unsigned field (`write_bool`). -/
def writeBool (o : Outlet) (fieldId : Given) (value : Bool) : EncM Unit :=
  writeUnsigned o fieldId (.int (if value then 1 else 0))

/-- A fixlen length within the format's ceiling. -/
def fixlenSize (n : ℕ) : Except Exn Unit :=
  if n > fixlenMax then
    .error (.argument s!"fixlen payload of {n} bytes exceeds FIXLEN_MAX={fixlenMax}")
  else .ok ()

/-- Write a fixlen field (`_write_fixlen`). -/
def writeFixlen (o : Outlet) (fieldId : Given) (data : List UInt8) (subtype : FixlenSubtype) :
    EncM Unit := guarded do
  checked (fixlenSize data.length)
  header o fieldId .fixlen
  emitVarint o (data.length*8+subtype.toNat)
  put o data

section Floats

variable (narrow : BitVec 64 → Option (BitVec 32))

/-- Narrow a double to a single, a NaN bit for bit and what is too large to an
infinity (`_pack_f32_bits`); `narrow` is the narrowing of `struct`, which raises on
what is too large. -/
def packF32Bits (value : BitVec 64) : BitVec 32 :=
  if isNan64 value then
    let bits := ((value>>>63).setWidth 32<<<31)|||f32Exp|||((value>>>29).setWidth 32&&&f32Mant)
    -- a payload that lived in the dropped bits only must not become an infinity
    if bits&&&f32Mant=0 then bits|||0x00400000 else bits
  else
    match narrow value with
    | some bits => bits
    | none => f32Exp|||(if value.msb then 0x80000000 else 0)

/-- Pack a single (`pack_f32`). -/
def packF32 (value : BitVec 64) : List UInt8 :=
  if isNan64 value then leBytes 4 (packF32Bits narrow value).toNat
  else
    match narrow value with
    | some bits => leBytes 4 bits.toNat
    | none => leBytes 4 (packF32Bits narrow value).toNat

/-- Pack a double (`pack_f64`). -/
def packF64 (value : BitVec 64) : List UInt8 := leBytes 8 value.toNat

/-- Narrow all values, unless one of them is too large. -/
def narrowAll : List (BitVec 64) → Option (List (BitVec 32))
  | [] => some []
  | v::vs =>
    match narrow v,narrowAll vs with
    | some b,some bs => some (b::bs)
    | _,_ => none

/-- Pack singles, in one go when none of them needs care (`pack_f32_array`). -/
def packF32Array (values : List (BitVec 64)) : List UInt8 :=
  let one := (values.map (packF32Bits narrow)).flatMap fun b => leBytes 4 b.toNat
  if values.any isNan64 then one
  else
    match narrowAll narrow values with
    | some bits => bits.flatMap fun b => leBytes 4 b.toNat
    | none => one

/-- Pack doubles (`pack_f64_array`). -/
def packF64Array (values : List (BitVec 64)) : List UInt8 := values.flatMap packF64

/-- Write a 32-bit float (`write_float32`). -/
def writeFloat32 (o : Outlet) (fieldId : Given) (value : BitVec 64) : EncM Unit :=
  writeFixlen o fieldId (packF32 narrow value) .fp32

end Floats

/-- The bits of a single. -/
def f32Word (bits : Given) : Except Exn ℕ :=
  match asInt bits "fp32 bits" with
  | .error why => .error why
  | .ok raw =>
    if raw < 0 ∨ raw > 0xFFFFFFFF then
      .error (.argument s!"fp32 bits {raw} out of range 0..4294967295")
    else .ok raw.toNat

/-- A payload is settled before the header is reached: a refusal is the writer's, and
the payload goes on to be written. -/
def settledThen {α : Type} (r : Except Exn α) (write : α → EncM Unit) : EncM Unit := fun e =>
  if e.sticky && e.error.isSome then .ok () e
  else
    match r with
    | .error why => fail why e
    | .ok a => write a e

/-- Write a 32-bit float from its raw bits (`write_float32_bits`). -/
def writeFloat32Bits (o : Outlet) (fieldId bits : Given) : EncM Unit :=
  settledThen (f32Word bits) fun raw => writeFixlen o fieldId (leBytes 4 raw) .fp32

/-- Write a 64-bit float (`write_float64`). -/
def writeFloat64 (o : Outlet) (fieldId : Given) (value : BitVec 64) : EncM Unit :=
  writeFixlen o fieldId (packF64 value) .fp64

/-- The UTF-8 of a text. -/
def utf8Payload (text : List ℕ) : Except Exn (List UInt8) :=
  match Utf8.encode text with
  | some data => .ok data
  | none => .error (.argument "string field is not valid UTF-8")

/-- Write a string (`write_string`). -/
def writeString (o : Outlet) (fieldId : Given) (text : List ℕ) : EncM Unit :=
  settledThen (utf8Payload text) fun data => writeFixlen o fieldId data .string

/-- The bytes of a blob, within the format's ceiling. -/
def blobPayload (data : Blob) : Except Exn (List UInt8) :=
  match blobBytes data with
  | .error why => .error why
  | .ok data =>
    match fixlenSize data.length with
    | .error why => .error why
    | .ok _ => .ok data

/-- Write a blob (`write_bytes`). -/
def writeBytes (o : Outlet) (fieldId : Given) (data : Blob) : EncM Unit :=
  settledThen (blobPayload data) fun data => writeFixlen o fieldId data .blob

/-- A payload within the caller's bound. -/
def withinMaxlen (maxlen : Option ℤ) (refusal : ℕ → ℤ → String)
    (r : Except Exn (List UInt8)) : Except Exn (List UInt8) :=
  match r,maxlen with
  | .ok data,some most =>
    if data.length > most then .error (.argument (refusal data.length most)) else .ok data
  | r,_ => r

/-- Write a string within a bound on its bytes (`write_string_bounded`). -/
def writeStringBounded (o : Outlet) (fieldId : Given) (text : List ℕ) (maxlen : Option ℤ) :
    EncM Unit :=
  settledThen
    (withinMaxlen maxlen (fun n most => s!"string of {n} UTF-8 bytes exceeds maxlen {most}")
      (utf8Payload text))
    fun data => writeFixlen o fieldId data .string

/-- Write a blob within a bound on its bytes (`write_bytes_bounded`). -/
def writeBytesBounded (o : Outlet) (fieldId : Given) (data : Blob) (maxlen : Option ℤ) :
    EncM Unit :=
  settledThen
    (withinMaxlen maxlen (fun n most => s!"blob of {n} bytes exceeds maxlen {most}")
      (blobPayload data))
    fun data => writeFixlen o fieldId data .blob

/-- Write the header and the count of an array (`_array_header`). -/
def arrayHead (o : Outlet) (fieldId : Given) (wtype : WireType) (count : ℕ) : EncM Unit := do
  if count > arrayMax then
    throw (.argument s!"array count {count} out of range 0..{arrayMax}")
  header o fieldId wtype
  emitVarint o count

/-- A count within the caller's bound, which a negative one does not set. -/
def withinCap (cap : Option ℤ) (count : ℕ) : Except Exn Unit :=
  match cap with
  | none => .ok ()
  | some cap =>
    if cap ≥ 0 ∧ count > cap then
      .error (.argument s!"array of {count} elements exceeds cap {cap}")
    else .ok ()

/-- The text an element is refused with (`_elem_refusal`). -/
def elemRefusal (w : Width) (v : ℤ) : Exn :=
  if w.signed then
    if v < signedMin ∨ v > signedMax then .argument s!"signed array value {v} out of range"
    else .argument s!"signed array value {v} outside {w.name}"
  else if v < 0 ∨ v > unsignedMax then .argument s!"unsigned array value {v} out of range"
  else .argument s!"unsigned array value {v} exceeds {w.name}"

/-- The 64-bit word of a signed element, whose range makes a mask superfluous. -/
def zigzagWord (v : ℤ) : ℕ := (Int.xor (v*2) (v/2^63)).toNat

/-- The word an element of an array of a width is written as. -/
def elementWordOf (w : Width) (value : Given) : Except Exn ℕ :=
  match asInt value (if w.signed then "signed array value" else "unsigned array value") with
  | .error why => .error why
  | .ok v =>
    if v < w.range.1 ∨ v > w.range.2 then .error (elemRefusal w v)
    else .ok (if w.signed then zigzagWord v else v.toNat)

/-- Put the cursor where a loop's own is. -/
def setCursor (cursor : ℕ) : EncM Unit := modify fun e => {e with cursor := cursor}

/-- Write through a buffer that was looked up when so many had been installed; a buffer
that was replaced since is not the encoder's. -/
def pokeAt (seen cursor : ℕ) (bs : List UInt8) : EncM Unit := modify fun e =>
  if e.installs=seen then {e with fixed := splice e.fixed cursor bs} else e

/-- The last cursor a whole varint fits at. -/
def varintLimit (e : Enc) : ℤ := (e.cap : ℤ)-varintMax

/-- The element loop of the integer array writers: the buffer as it was looked up, its
limit and the cursor are the loop's own. -/
def elementLoop (o : Outlet) (word : Given → Except Exn ℕ) :
    List Given → ℕ → ℤ → ℕ → EncM Unit
  | [], _, _, cursor => setCursor cursor
  | v::vs, seen, limit, cursor =>
    match word v with
    | .error why => do
      setCursor cursor
      throw why
    | .ok u =>
      if (cursor : ℤ) > limit then do
        -- too close to the end: the element goes through a drain, and everything the
        -- loop holds on to is looked up again
        setCursor cursor
        put o (encodeVarint u)
        let e ← get
        elementLoop o word vs e.installs (varintLimit e) e.cursor
      else do
        pokeAt seen cursor (inlineVarint u)
        elementLoop o word vs seen limit (cursor+(inlineVarint u).length)

/-- The writer of an integer array of a width (`_unsigned_array_writer` and
`_signed_array_writer`). -/
def arrayWriter (o : Outlet) (w : Width) (fieldId : Given) (values : List Given) (cap : ℤ) :
    EncM Unit :=
  -- the bound is converted before the body runs
  if cap > 2^63-1 ∨ cap < -2^63 then throw .overflow
  else guarded do
    checked (withinCap (some cap) values.length)
    arrayHead o fieldId (if w.signed then .arraySigned else .arrayUnsigned) values.length
    let e ← get
    elementLoop o (elementWordOf w) values e.installs (varintLimit e) e.cursor

/-- `write_u8_array`. -/
def writeU8Array (o : Outlet) := arrayWriter o .u8
/-- `write_u16_array`. -/
def writeU16Array (o : Outlet) := arrayWriter o .u16
/-- `write_u32_array`. -/
def writeU32Array (o : Outlet) := arrayWriter o .u32
/-- `write_u64_array`. -/
def writeU64Array (o : Outlet) := arrayWriter o .u64
/-- `write_i8_array`. -/
def writeI8Array (o : Outlet) := arrayWriter o .i8
/-- `write_i16_array`. -/
def writeI16Array (o : Outlet) := arrayWriter o .i16
/-- `write_i32_array`. -/
def writeI32Array (o : Outlet) := arrayWriter o .i32
/-- `write_i64_array`. -/
def writeI64Array (o : Outlet) := arrayWriter o .i64

/-- `write_unsigned_array`. -/
def writeUnsignedArray (o : Outlet) (fieldId : Given) (values : List Given) : EncM Unit :=
  writeU64Array o fieldId values (-1)

/-- `write_signed_array`. -/
def writeSignedArray (o : Outlet) (fieldId : Given) (values : List Given) : EncM Unit :=
  writeI64Array o fieldId values (-1)

/-- The byte of a boolean. -/
def boolByte (v : Bool) : UInt8 := if v then 1 else 0

/-- The element loop of the boolean array writer. -/
def boolLoop (o : Outlet) : List Bool → ℕ → ℕ → ℕ → EncM Unit
  | [], _, _, cursor => setCursor cursor
  | v::vs, seen, room, cursor =>
    if cursor ≥ room then do
      setCursor cursor
      put o [boolByte v]
      let e ← get
      boolLoop o vs e.installs e.cap e.cursor
    else do
      pokeAt seen cursor [boolByte v]
      boolLoop o vs seen room (cursor+1)

/-- `write_bool_array_bounded`. -/
def writeBoolArrayBounded (o : Outlet) (fieldId : Given) (values : List Bool) (cap : Option ℤ) :
    EncM Unit := guarded do
  checked (withinCap cap values.length)
  arrayHead o fieldId .arrayUnsigned values.length
  let e ← get
  boolLoop o values e.installs e.cap e.cursor

/-- `write_bool_array`. -/
def writeBoolArray (o : Outlet) (fieldId : Given) (values : List Bool) : EncM Unit :=
  writeBoolArrayBounded o fieldId values none

/-- Write an array of floats (`_write_float_array`). -/
def writeFloatArray (o : Outlet) (fieldId : Given) (values : List (BitVec 64))
    (subtype : FixlenSubtype) (packArray : List (BitVec 64) → List UInt8) (elemSize : ℕ)
    (cap : Option ℤ) : EncM Unit := guarded do
  checked (withinCap cap values.length)
  arrayHead o fieldId .arrayFixlen values.length
  -- the element word is there even when no element is
  emitVarint o (elemSize*8+subtype.toNat)
  put o (packArray values)

/-- `write_float32_array_bounded`. -/
def writeFloat32ArrayBounded (o : Outlet) (narrow : BitVec 64 → Option (BitVec 32))
    (fieldId : Given) (values : List (BitVec 64)) (cap : Option ℤ) : EncM Unit :=
  writeFloatArray o fieldId values .fp32 (packF32Array narrow) 4 cap

/-- `write_float32_array`. -/
def writeFloat32Array (o : Outlet) (narrow : BitVec 64 → Option (BitVec 32)) (fieldId : Given)
    (values : List (BitVec 64)) : EncM Unit :=
  writeFloat32ArrayBounded o narrow fieldId values none

/-- `write_float64_array_bounded`. -/
def writeFloat64ArrayBounded (o : Outlet) (fieldId : Given) (values : List (BitVec 64))
    (cap : Option ℤ) : EncM Unit :=
  writeFloatArray o fieldId values .fp64 packF64Array 8 cap

/-- `write_float64_array`. -/
def writeFloat64Array (o : Outlet) (fieldId : Given) (values : List (BitVec 64)) : EncM Unit :=
  writeFloat64ArrayBounded o fieldId values none

/-- The payload of singles is a whole number of them, and as many as are stated. -/
def f32Payload (n : ℕ) (count : Option ℤ) : Except Exn ℕ :=
  let refused : Except Exn ℕ := .error (.argument
    s!"an fp32 array payload of {n} bytes is not a whole number of 4-byte elements")
  if n%4≠0 then refused
  else
    match count with
    | none => .ok (n/4)
    | some count =>
      if count≠(n/4 : ℕ) then .error (.argument
        s!"count={count} does not match the {n/4} elements {n} payload bytes carry")
      else .ok (n/4)

/-- Write an array of singles from its raw bytes (`write_float32_array_bits`). -/
def writeFloat32ArrayBits (o : Outlet) (fieldId : Given) (payload : List UInt8)
    (count : Option ℤ) : EncM Unit := guarded do
  let elems ← checked (f32Payload payload.length count)
  arrayHead o fieldId .arrayFixlen elems
  emitVarint o (4*8+FixlenSubtype.fp32.toNat)
  put o payload

/-- Hold a sequence's header back (`write_sequence_begin_lazy`). -/
def writeSequenceBeginLazy (fieldId : Given) : EncM Unit := guarded do
  let e ← get
  if e.depth ≥ maxDepth then throw (.argument "nesting exceeds MAX_DEPTH=255")
  let id ← checked (checkedId fieldId)
  if (e.runs e.active).length ≤ e.npending then throw .index
  set {e with
    runs := Function.update e.runs e.active ((e.runs e.active).set e.npending id)
    npending := e.npending+1, depth := e.depth+1}

/-- No sequence is open. -/
def unmatchedEnd : Exn := .argument "sequence_end without matching begin"

/-- The frame of a sequence ends. -/
def endFrame (o : Outlet) : EncM Unit := do
  emitVarint o WireType.sequenceEnd.toNat
  modify fun e => {e with depth := e.depth-1}

/-- Close the innermost sequence, letting it vanish if nothing was written in it
(`write_sequence_end`). -/
def writeSequenceEnd (o : Outlet) : EncM Unit := guarded do
  let e ← get
  if e.depth ≤ 0 then throw unmatchedEnd
  else if e.npending≠0 then set {e with npending := e.npending-1, depth := e.depth-1}
  else endFrame o

/-- Close the innermost sequence, keeping its frame (`write_sequence_end_keep`). -/
def writeSequenceEndKeep (o : Outlet) : EncM Unit := guarded do
  if (← get).depth ≤ 0 then throw unmatchedEnd
  commitHeld o
  endFrame o

/-- A call of a writer. -/
inductive Call
  /-- `write_unsigned`. -/
  | unsigned (fieldId value : Given)
  /-- `write_signed`. -/
  | signed (fieldId value : Given)
  /-- `write_u8` to `write_i32`. -/
  | sized (w : Width) (fieldId value : Given)
  /-- `write_bool`. -/
  | bool (fieldId : Given) (value : Bool)
  /-- `write_float32`. -/
  | float32 (fieldId : Given) (value : BitVec 64)
  /-- `write_float32_bits`. -/
  | float32Bits (fieldId bits : Given)
  /-- `write_float64`. -/
  | float64 (fieldId : Given) (value : BitVec 64)
  /-- `write_string`. -/
  | string (fieldId : Given) (text : List ℕ)
  /-- `write_string_bounded`. -/
  | stringBounded (fieldId : Given) (text : List ℕ) (maxlen : Option ℤ)
  /-- `write_bytes`. -/
  | bytes (fieldId : Given) (data : Blob)
  /-- `write_bytes_bounded`. -/
  | bytesBounded (fieldId : Given) (data : Blob) (maxlen : Option ℤ)
  /-- `write_unsigned_array`. -/
  | unsignedArray (fieldId : Given) (values : List Given)
  /-- `write_signed_array`. -/
  | signedArray (fieldId : Given) (values : List Given)
  /-- `write_u8_array` to `write_i64_array`. -/
  | sizedArray (w : Width) (fieldId : Given) (values : List Given) (cap : ℤ)
  /-- `write_bool_array`. -/
  | boolArray (fieldId : Given) (values : List Bool)
  /-- `write_bool_array_bounded`. -/
  | boolArrayBounded (fieldId : Given) (values : List Bool) (cap : Option ℤ)
  /-- `write_float32_array`. -/
  | float32Array (fieldId : Given) (values : List (BitVec 64))
  /-- `write_float32_array_bounded`. -/
  | float32ArrayBounded (fieldId : Given) (values : List (BitVec 64)) (cap : Option ℤ)
  /-- `write_float32_array_bits`. -/
  | float32ArrayBits (fieldId : Given) (payload : List UInt8) (count : Option ℤ)
  /-- `write_float64_array`. -/
  | float64Array (fieldId : Given) (values : List (BitVec 64))
  /-- `write_float64_array_bounded`. -/
  | float64ArrayBounded (fieldId : Given) (values : List (BitVec 64)) (cap : Option ℤ)
  /-- `write_sequence_begin_lazy`. -/
  | sequenceBeginLazy (fieldId : Given)
  /-- `write_sequence_end`. -/
  | sequenceEnd
  /-- `write_sequence_end_keep`. -/
  | sequenceEndKeep
  deriving DecidableEq, Repr

/-- The writer of a field of a width; the two 64-bit ones bear the plain names. -/
def writeSized (o : Outlet) (w : Width) (fieldId value : Given) : EncM Unit :=
  match w with
  | .u8 => writeU8 o fieldId value
  | .u16 => writeU16 o fieldId value
  | .u32 => writeU32 o fieldId value
  | .u64 => writeUnsigned o fieldId value
  | .i8 => writeI8 o fieldId value
  | .i16 => writeI16 o fieldId value
  | .i32 => writeI32 o fieldId value
  | .i64 => writeSigned o fieldId value

/-- The writer of an array of a width. -/
def writeSizedArray (o : Outlet) (w : Width) (fieldId : Given) (values : List Given) (cap : ℤ) :
    EncM Unit :=
  match w with
  | .u8 => writeU8Array o fieldId values cap
  | .u16 => writeU16Array o fieldId values cap
  | .u32 => writeU32Array o fieldId values cap
  | .u64 => writeU64Array o fieldId values cap
  | .i8 => writeI8Array o fieldId values cap
  | .i16 => writeI16Array o fieldId values cap
  | .i32 => writeI32Array o fieldId values cap
  | .i64 => writeI64Array o fieldId values cap

/-- Carry a call out. -/
def Call.run (o : Outlet) (narrow : BitVec 64 → Option (BitVec 32)) : Call → EncM Unit
  | .unsigned fieldId value => writeUnsigned o fieldId value
  | .signed fieldId value => writeSigned o fieldId value
  | .sized w fieldId value => writeSized o w fieldId value
  | .bool fieldId value => writeBool o fieldId value
  | .float32 fieldId value => writeFloat32 narrow o fieldId value
  | .float32Bits fieldId bits => writeFloat32Bits o fieldId bits
  | .float64 fieldId value => writeFloat64 o fieldId value
  | .string fieldId text => writeString o fieldId text
  | .stringBounded fieldId text maxlen => writeStringBounded o fieldId text maxlen
  | .bytes fieldId data => writeBytes o fieldId data
  | .bytesBounded fieldId data maxlen => writeBytesBounded o fieldId data maxlen
  | .unsignedArray fieldId values => writeUnsignedArray o fieldId values
  | .signedArray fieldId values => writeSignedArray o fieldId values
  | .sizedArray w fieldId values cap => writeSizedArray o w fieldId values cap
  | .boolArray fieldId values => writeBoolArray o fieldId values
  | .boolArrayBounded fieldId values cap => writeBoolArrayBounded o fieldId values cap
  | .float32Array fieldId values => writeFloat32Array o narrow fieldId values
  | .float32ArrayBounded fieldId values cap => writeFloat32ArrayBounded o narrow fieldId values cap
  | .float32ArrayBits fieldId payload count => writeFloat32ArrayBits o fieldId payload count
  | .float64Array fieldId values => writeFloat64Array o fieldId values
  | .float64ArrayBounded fieldId values cap => writeFloat64ArrayBounded o fieldId values cap
  | .sequenceBeginLazy fieldId => writeSequenceBeginLazy fieldId
  | .sequenceEnd => writeSequenceEnd o
  | .sequenceEndKeep => writeSequenceEndKeep o

end SofaBuffers
