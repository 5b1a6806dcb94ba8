import SofaBuffers.Encoder.State
import SofaBuffers.Native.Digits
import SofaBuffers.Native.Varint

/-!
# The buffer of the compiled encoder

The compiled encoder writes into the memory of the installed buffer and drains it
as the interpreted one does. A varint with room for ten bytes is stored there a
word at a time, so that what lies behind it may change.
-/

set_option autoImplicit false

namespace SofaBuffers

namespace Native

/-- What an engine was built for. -/
structure Build where
  /-- Varints are stored a word at a time (`__SOFAB_SWAR`). -/
  swar : Bool
  /-- How an `int` is read. -/
  digits : Digits
  deriving DecidableEq, Repr

/-- A compiled encoder between two calls. -/
structure Enc where
  /-- The memory of the installed buffer (`_fixed_ptr`). -/
  fixed : List UInt8
  /-- The length of the installed buffer (`_fixed_cap`). -/
  cap : ℕ
  /-- Where the next byte goes. -/
  cursor : ℕ
  /-- The drained chunks of the in-memory model. -/
  result : Option (List (List UInt8)) := none
  /-- Buffers installed so far. -/
  installs : ℕ
  /-- What passed between the encoder and its sink, in order. -/
  transfers : List Transfer
  /-- The first error is latched instead of raised. -/
  sticky : Bool := false
  /-- The first error of a sticky encoder. -/
  error : Option Exn := none
  /-- Sequences open. -/
  depth : ℕ := 0
  /-- The block of held-back ids, of `_pcap` entries. -/
  pending : List (BitVec 32) := List.replicate maxDepth 0
  /-- Entries of it in use. -/
  npending : ℕ := 0

/-- A method of the compiled encoder. -/
abbrev EncM := EStateM Exn Enc

/-- Who takes the drained bytes. -/
inductive Outlet
  /-- The result of the in-memory model. -/
  | result
  /-- A writer, which copies. -/
  | writer
  /-- A flush sink, which may install a buffer before it returns. -/
  | sink (react : EncM Unit)
  /-- Nobody takes the bytes of the buffer. -/
  | closed

/-- Whether a flush can occur (`_has_sink`). -/
def Outlet.hasSink : Outlet → Bool
  | .closed => false
  | _ => true

/-- Whether bytes are drained into the result (`_in_memory`). -/
def Outlet.inMemory : Outlet → Bool
  | .result => true
  | _ => false

/-- The greatest C `int`. -/
def intMax : ℕ := 2^31-1

/-- Install a fixed output buffer (`buffer_set`), whose offset is a C `int`. -/
def bufferSet (o : Outlet) (buffer : List UInt8) (offset : ℕ) : EncM Unit := do
  let e ← get
  let size := buffer.length
  if intMax < offset then throw .overflow
  else if size < offset then throw (.argument "offset must be within the buffer")
  else if size-offset < minOutputBuffer ∧ o.hasSink then
    throw (.argument s!"a buffer installed with a flush sink needs at least MIN_OUTPUT_BUFFER=1 usable byte(s), got {size-offset}")
  else
    set {e with
      fixed := buffer, cap := size, cursor := offset, installs := e.installs+1
      transfers := e.transfers++[Transfer.installed buffer offset]}

/-- Hand the written bytes over. -/
def hand : EncM Unit := modify fun e =>
  {e with transfers := e.transfers++[Transfer.handed (e.fixed.take e.cursor)]}

/-- Go on at the front of the buffer. -/
def rewind : EncM Unit := modify fun e => {e with cursor := 0}

/-- Let the buffer's bytes go (`_drain`). -/
def drain (o : Outlet) : EncM Unit := do
  let e ← get
  match o with
  | .result =>
    set {e with result := some (e.result.getD []++[e.fixed.take e.cursor]), cursor := 0}
  | .closed => throw bufferFull
  | .writer =>
    hand
    rewind
  | .sink react =>
    hand
    react
    -- a sink that installed nothing copied, and the buffer is the encoder's again
    if (← get).installs=e.installs then rewind else pure ()

/-- Copy bytes to the cursor, which are known to fit. -/
def poke (bs : List UInt8) : EncM Unit := modify fun e =>
  {e with fixed := splice e.fixed e.cursor bs, cursor := e.cursor+bs.length}

/-- Drain a buffer that is full. -/
def makeRoom (o : Outlet) : EncM Unit := do
  let e ← get
  if e.cap ≤ e.cursor then
    drain o
    let e ← get
    if e.cap ≤ e.cursor then throw bufferFull else pure ()
  else pure ()

/-- Copy bytes through the buffer, a bufferful at a time, with the turns left. -/
def putLoop (o : Outlet) (data : List UInt8) : ℕ → ℕ → EncM Unit
  | 0, _ => throw .turns
  | turns+1, pos =>
    if pos < data.length then do
      makeRoom o
      let e ← get
      let take := min (e.cap-e.cursor) (data.length-pos)
      poke ((data.drop pos).take take)
      putLoop o data turns (pos+take)
    else pure ()

/-- Drain what is buffered before a chunk that bypasses the buffer. -/
def drainUsed (o : Outlet) : EncM Unit := do
  if (← get).cursor≠0 then drain o else pure ()

/-- Write a run of bytes (`_put`). -/
def put (o : Outlet) (data : List UInt8) : EncM Unit := do
  let e ← get
  if o.inMemory && e.cap ≤ data.length then
    drainUsed o
    modify fun e => {e with result := some (e.result.getD []++[data])}
  else putLoop o data (data.length+1) 0

/-- The bytes of a varint, made outside of the buffer. -/
def varintBytes (b : Build) (value : BitVec 64) : List UInt8 :=
  let r := varintPut b.swar (List.replicate varintMax 0) value
  r.1.take r.2

/-- Write a varint, straight into the buffer when ten bytes have room (`_emit_varint`). -/
def emitVarint (b : Build) (o : Outlet) (value : BitVec 64) : EncM Unit := do
  let e ← get
  if e.cursor+varintMax ≤ e.cap then
    let r := varintPut b.swar (e.fixed.drop e.cursor) value
    set {e with fixed := e.fixed.take e.cursor++r.1, cursor := e.cursor+r.2}
  else put o (varintBytes b value)

/-- Drain what is buffered; how much that was (`flush`). -/
def flush (o : Outlet) : EncM ℕ := do
  let used := (← get).cursor
  if used≠0 ∧ o.hasSink then drain o
  pure used

/-- The encoded message of the in-memory model (`getvalue`). -/
def getvalue (o : Outlet) : EncM (List UInt8) := do
  let e ← get
  if !o.inMemory then
    throw (.argument "getvalue() is only valid for the in-memory model")
  else
    match e.result with
    | none => pure (e.fixed.take e.cursor)
    | some chunks =>
      if e.cursor=0 then pure chunks.flatten
      else pure (chunks++[e.fixed.take e.cursor]).flatten

/-- An encoder over a buffer that was installed once. -/
def Enc.over (buffer : List UInt8) (offset : ℕ) (sticky : Bool) : Enc :=
  {fixed := buffer, cap := buffer.length, cursor := offset, installs := 1
   transfers := [Transfer.installed buffer offset], sticky := sticky}

/-- An encoder over a scratch buffer of its own (`Encoder()` and `Encoder(writer)`), none of whose
bytes is read before it is written. -/
def Enc.scratch (sticky : Bool) : Enc := .over (List.replicate scratchSize 0) 0 sticky

/-- An encoder over the caller's buffer (`over_buffer`). -/
def overBuffer (o : Outlet) (buffer : List UInt8) (offset : ℕ) (sticky : Bool) :
    Except Exn Enc :=
  let blank : Enc :=
    {fixed := [], cap := 0, cursor := 0, installs := 0, transfers := [], sticky := sticky}
  match bufferSet o buffer offset blank with
  | .ok _ e => .ok e
  | .error why _ => .error why

end Native

end SofaBuffers
