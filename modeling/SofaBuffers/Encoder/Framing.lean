import SofaBuffers.Encoder.Elements

/-!
# Framing without a buffer

What a call of a writer means once the buffer is taken away: bytes behind the
headers of the sequences held back, an id to hold back, or the end of a
sequence. A call that is refused means nothing at all.
-/

set_option autoImplicit false

namespace SofaBuffers

/-- A message being framed. -/
structure Framing where
  /-- The bytes of it that are out. -/
  out : List UInt8 := []
  /-- How many more there is room for, if there is an end to it. -/
  room : Option ℕ := none
  /-- The innermost open sequences, their headers still held back. -/
  held : List ℕ := []
  /-- Sequences open. -/
  depth : ℕ := 0
  deriving DecidableEq, Repr

/-- The header of a field. -/
def headerBytes (id : ℕ) (wtype : WireType) : List UInt8 := Varint.encode (id*8+wtype.toNat)

/-- The headers of sequences, outermost first. -/
def startBytes (ids : List ℕ) : List UInt8 := ids.flatMap fun id => headerBytes id .sequenceStart

/-- The end marker of a sequence. -/
def stopBytes : List UInt8 := Varint.encode WireType.sequenceEnd.toNat

/-- The nesting is as deep as it can be. -/
def tooDeep : Exn := .argument "nesting exceeds MAX_DEPTH=255"

/-- What a call of a writer means. -/
inductive Move
  /-- It is refused for its arguments. -/
  | refused (why : Exn)
  /-- A field; the call may be refused behind its bytes. -/
  | field (bytes : List UInt8) (rejected : Option Exn)
  /-- A sequence opens, if its id is one. -/
  | start (id : Except Exn ℕ)
  /-- A sequence closes, its frame being kept or not. -/
  | stop (keep : Bool)

/-- What a call is refused for before anything of it is written, so many sequences being
open. -/
def Move.refusal (depth : ℕ) : Move → Option Exn
  | .refused why => some why
  | .field .. => none
  | .start id =>
    if depth ≥ maxDepth then some tooDeep
    else
      match id with
      | .error why => some why
      | .ok _ => none
  | .stop _ => if depth ≤ 0 then some unmatchedEnd else none

namespace Framing

/-- Put bytes out, as far as there is room. -/
def emit (f : Framing) (bs : List UInt8) : Framing × Option Exn :=
  match f.room with
  | none => ({f with out := f.out++bs},none)
  | some n =>
    if bs.length ≤ n then ({f with out := f.out++bs, room := some (n-bs.length)},none)
    else ({f with out := f.out++bs.take n, room := some 0},some bufferFull)

/-- Put bytes out behind the headers held back, then go on. -/
def commit (f : Framing) (bs : List UInt8) (next : Framing → Framing × Option Exn) :
    Framing × Option Exn :=
  match ({f with held := []} : Framing).emit (startBytes f.held++bs) with
  | (f,none) => next f
  | r => r

/-- What a call does to the message. -/
def step (f : Framing) : Move → Framing × Option Exn
  | .refused why => (f,some why)
  | .field bytes rejected => f.commit bytes fun f => (f,rejected)
  | .start id =>
    if f.depth ≥ maxDepth then (f,some tooDeep)
    else
      match id with
      | .error why => (f,some why)
      | .ok id => ({f with held := f.held++[id], depth := f.depth+1},none)
  | .stop keep =>
    if f.depth ≤ 0 then (f,some unmatchedEnd)
    else if f.held≠[] ∧ keep=false then
      ({f with held := f.held.dropLast, depth := f.depth-1},none)
    else f.commit stopBytes fun f => ({f with depth := f.depth-1},none)

end Framing

/-- A field of one varint. -/
def scalarMove (fieldId : Given) (wtype : WireType) (value : Except Exn ℕ) : Move :=
  match value with
  | .error why => .refused why
  | .ok v =>
    match checkedId fieldId with
    | .error why => .refused why
    | .ok id => .field (headerBytes id wtype++Varint.encode v) none

/-- A fixlen field. -/
def fixlenMove (fieldId : Given) (subtype : FixlenSubtype) (payload : Except Exn (List UInt8)) :
    Move :=
  match payload with
  | .error why => .refused why
  | .ok data =>
    match fixlenSize data.length with
    | .error why => .refused why
    | .ok _ =>
      match checkedId fieldId with
      | .error why => .refused why
      | .ok id => .field
          (headerBytes id .fixlen++(Varint.encode (data.length*8+subtype.toNat)++data)) none

/-- An array, after the check of its arguments; its elements may be refused one by one. -/
def arrayMove (fieldId : Given) (wtype : WireType) (count : Except Exn ℕ)
    (body : List UInt8 × Option Exn) : Move :=
  match count with
  | .error why => .refused why
  | .ok count =>
    if count > arrayMax then .refused (.argument s!"array count {count} out of range 0..{arrayMax}")
    else
      match checkedId fieldId with
      | .error why => .refused why
      | .ok id => .field (headerBytes id wtype++(Varint.encode count++body.1)) body.2

/-- The count of an array within the caller's bound. -/
def cappedCount (cap : Option ℤ) (count : ℕ) : Except Exn ℕ :=
  (withinCap cap count).map fun _ => count

/-- An array of integers of a width. -/
def sizedArrayMove (w : Width) (fieldId : Given) (values : List Given) (cap : ℤ) : Move :=
  arrayMove fieldId (if w.signed then .arraySigned else .arrayUnsigned)
    (cappedCount (some cap) values.length) (encodeElements (elementWordOf w) values)

/-- An array of booleans. -/
def boolArrayMove (fieldId : Given) (values : List Bool) (cap : Option ℤ) : Move :=
  arrayMove fieldId .arrayUnsigned (cappedCount cap values.length) (values.map boolByte,none)

/-- An array of floats, packed. -/
def floatArrayMove (fieldId : Given) (subtype : FixlenSubtype) (elemSize : ℕ)
    (count : Except Exn ℕ) (payload : List UInt8) : Move :=
  arrayMove fieldId .arrayFixlen count
    (Varint.encode (elemSize*8+subtype.toNat)++payload,none)

/-- A signed value as its zigzag word. -/
def zigzagged (value : Except Exn ℤ) : Except Exn ℕ := value.map Zigzag.encode

/-- A field of a declared width. -/
def sizedMove (w : Width) (fieldId value : Given) : Move :=
  if w.signed then scalarMove fieldId .signed (zigzagged (signedWithin w value))
  else scalarMove fieldId .unsigned (unsignedWithin w value)

/-- The four bytes of a single's bits. -/
def f32Bytes (bits : Given) : Except Exn (List UInt8) := (f32Word bits).map (leBytes 4)

/-- What a call means. -/
def Call.move (narrow : BitVec 64 → Option (BitVec 32)) : Call → Move
  | .unsigned fieldId value => scalarMove fieldId .unsigned (unsignedValue value)
  | .signed fieldId value => scalarMove fieldId .signed (zigzagged (signedValue value))
  | .sized .u64 fieldId value => scalarMove fieldId .unsigned (unsignedValue value)
  | .sized .i64 fieldId value => scalarMove fieldId .signed (zigzagged (signedValue value))
  | .sized w fieldId value => sizedMove w fieldId value
  | .bool fieldId value =>
    scalarMove fieldId .unsigned (unsignedValue (.int (if value then 1 else 0)))
  | .float32 fieldId value => fixlenMove fieldId .fp32 (.ok (packF32 narrow value))
  | .float32Bits fieldId bits => fixlenMove fieldId .fp32 (f32Bytes bits)
  | .float64 fieldId value => fixlenMove fieldId .fp64 (.ok (packF64 value))
  | .string fieldId text => fixlenMove fieldId .string (utf8Payload text)
  | .stringBounded fieldId text maxlen =>
    fixlenMove fieldId .string (withinMaxlen maxlen
      (fun n most => s!"string of {n} UTF-8 bytes exceeds maxlen {most}") (utf8Payload text))
  | .bytes fieldId data => fixlenMove fieldId .blob (blobPayload data)
  | .bytesBounded fieldId data maxlen =>
    fixlenMove fieldId .blob (withinMaxlen maxlen
      (fun n most => s!"blob of {n} bytes exceeds maxlen {most}") (blobPayload data))
  | .unsignedArray fieldId values => sizedArrayMove .u64 fieldId values (-1)
  | .signedArray fieldId values => sizedArrayMove .i64 fieldId values (-1)
  | .sizedArray w fieldId values cap => sizedArrayMove w fieldId values cap
  | .boolArray fieldId values => boolArrayMove fieldId values none
  | .boolArrayBounded fieldId values cap => boolArrayMove fieldId values cap
  | .float32Array fieldId values =>
    floatArrayMove fieldId .fp32 4 (cappedCount none values.length) (packF32Array narrow values)
  | .float32ArrayBounded fieldId values cap =>
    floatArrayMove fieldId .fp32 4 (cappedCount cap values.length) (packF32Array narrow values)
  | .float32ArrayBits fieldId payload count =>
    floatArrayMove fieldId .fp32 4 (f32Payload payload.length count) payload
  | .float64Array fieldId values =>
    floatArrayMove fieldId .fp64 8 (cappedCount none values.length) (packF64Array values)
  | .float64ArrayBounded fieldId values cap =>
    floatArrayMove fieldId .fp64 8 (cappedCount cap values.length) (packF64Array values)
  | .sequenceBeginLazy fieldId => .start (checkedId fieldId)
  | .sequenceEnd => .stop false
  | .sequenceEndKeep => .stop true

/-- The caps of a call are C integers, as its parameters are. -/
def Call.Sized : Call → Prop
  | .sizedArray _ _ _ cap => -2^63 ≤ cap ∧ cap ≤ 2^63-1
  | _ => True

namespace Framing

variable {f : Framing} {bs cs : List UInt8}

/-- Opening a sequence holds its id back, unless it is refused. -/
theorem step_start (f : Framing) (id : Except Exn ℕ) :
    f.step (.start id)=
      if f.depth ≥ maxDepth then (f,some tooDeep)
      else
        match id with
        | .error why => (f,some why)
        | .ok id => ({f with held := f.held++[id], depth := f.depth+1},none) := rfl

/-- Closing a sequence forgets the id that is held back or emits the end marker. -/
theorem step_stop (f : Framing) (keep : Bool) :
    f.step (.stop keep)=
      if f.depth ≤ 0 then (f,some unmatchedEnd)
      else if f.held≠[] ∧ keep=false then
        ({f with held := f.held.dropLast, depth := f.depth-1},none)
      else f.commit stopBytes fun f => ({f with depth := f.depth-1},none) := rfl

/-- Bytes do not go out for want of room only. -/
theorem emit_error {g : Framing} {why : Exn} (h : f.emit bs=(g,some why)) : why=bufferFull := by
  rw [emit] at h
  grind

/-- A call raises for its arguments or the depth, for an element, or for want of room. -/
theorem step_error {m : Move} {g : Framing} {why : Exn} (h : f.step m=(g,some why)) :
    why=bufferFull ∨ m.refusal f.depth=some why ∨ ∃ bytes, m=.field bytes (some why) := by
  have hfull := fun (f g : Framing) bs why => @emit_error f bs g why
  cases m with
  | refused w =>
    injection h with _ h
    exact Or.inr (Or.inl h)
  | field bytes rejected =>
    rw [step,commit] at h
    grind
  | start id =>
    rw [step_start] at h
    rw [Move.refusal.eq_def]
    grind
  | stop keep =>
    rw [step_stop,commit] at h
    rw [Move.refusal.eq_def]
    grind

end Framing

end SofaBuffers
