import SofaBuffers.Run
import SofaBuffers.Core
import SofaBuffers.Varint
import SofaBuffers.Zigzag

/-!
# The encoder's buffer

An encoder writes into a fixed output buffer and drains it when it is full: to
the chunks of its result, to a writer, or to a flush sink, which may install
another buffer before it returns. What passes between an encoder and its sink
is kept in order.
-/

set_option autoImplicit false

namespace SofaBuffers

/-- Size of the scratch buffer the convenience constructors install. -/
def scratchSize : ℕ := 1024

/-- Bytes a varint can occupy. -/
def varintMax : ℕ := 10

/-- What passes between an encoder and whoever takes its bytes. -/
inductive Transfer
  /-- A buffer is installed, its first bytes being reserved. -/
  | installed (buffer : List UInt8) (offset : ℕ)
  /-- The bytes at the front of the installed buffer are handed over. -/
  | handed (view : List UInt8)
  deriving DecidableEq, Repr

/-- An encoder between two calls. -/
structure Enc where
  /-- The installed buffer. -/
  fixed : List UInt8
  /-- The length of the installed buffer. -/
  cap : ℕ
  /-- Where the next byte goes. -/
  cursor : ℕ
  /-- The drained chunks of the in-memory model. -/
  result : Option (List (List UInt8)) := none
  /-- Buffers installed so far. -/
  installs : ℕ
  /-- What passed between the encoder and its sink, in order. -/
  transfers : List Transfer
  /-- The first error is latched instead of raised. -/
  sticky : Bool := false
  /-- The first error of a sticky encoder. -/
  error : Option Exn := none
  /-- Sequences open. -/
  depth : ℕ := 0
  /-- The two lists of slots for held-back ids. -/
  runs : Bool → List ℕ := fun _ => List.replicate maxDepth 0
  /-- Which of the two lists is `_pending`; the other is `_spare`. -/
  active : Bool := false
  /-- Slots of it in use. -/
  npending : ℕ := 0

/-- A method of the encoder. -/
abbrev EncM := EStateM Exn Enc

/-- Who takes the drained bytes. -/
inductive Outlet
  /-- The result of the in-memory model. -/
  | result
  /-- A writer, which copies. -/
  | writer
  /-- A flush sink, which may call the encoder before it returns. -/
  | sink (react : EncM Unit)
  /-- Nobody takes the bytes of the buffer. -/
  | closed

/-- Whether a flush can occur (`_has_sink`). -/
def Outlet.hasSink : Outlet → Bool
  | .closed => false
  | _ => true

/-- The buffer is full and nobody takes its bytes. -/
def bufferFull : Exn := .buffer "encoder buffer full"

/-- Install a fixed output buffer (`buffer_set`). -/
def bufferSet (o : Outlet) (buffer : List UInt8) (offset : ℕ) : EncM Unit := do
  let e ← get
  let usable := buffer.length-offset
  if buffer.length < offset then throw (.argument "offset must be within the buffer")
  else if usable < minOutputBuffer ∧ o.hasSink then
    throw (.argument s!"a buffer installed with a flush sink needs at least MIN_OUTPUT_BUFFER=1 usable byte(s), got {usable}")
  else
    set {e with
      fixed := buffer, cap := buffer.length, cursor := offset, installs := e.installs+1
      transfers := e.transfers++[Transfer.installed buffer offset]}

/-- Hand the written bytes over. -/
def hand : EncM Unit := modify fun e =>
  {e with transfers := e.transfers++[Transfer.handed (e.fixed.take e.cursor)]}

/-- Go on at the front of the buffer. -/
def rewind : EncM Unit := modify fun e => {e with cursor := 0}

/-- Let the buffer's bytes go (`_drain`). -/
def drain (o : Outlet) : EncM Unit := do
  let e ← get
  match o with
  | .result =>
    set {e with result := some (e.result.getD []++[e.fixed.take e.cursor]), cursor := 0}
  | .closed => throw bufferFull
  | .writer =>
    hand
    rewind
  | .sink react =>
    hand
    react
    -- a sink that installed nothing copied, and the buffer is the encoder's again
    if (← get).installs=e.installs then rewind else pure ()

/-- Write bytes at the cursor, which are known to fit. -/
def poke (bs : List UInt8) : EncM Unit := modify fun e =>
  {e with fixed := splice e.fixed e.cursor bs, cursor := e.cursor+bs.length}

/-- Drain a buffer that is full. -/
def makeRoom (o : Outlet) : EncM Unit := do
  let e ← get
  if e.cap ≤ e.cursor then
    drain o
    let e ← get
    if e.cap ≤ e.cursor then throw bufferFull else pure ()
  else pure ()

/-- Copy bytes through the buffer, a bufferful at a time, with the turns left. -/
def putLoop (o : Outlet) (data : List UInt8) : ℕ → ℕ → EncM Unit
  | 0, _ => throw .turns
  | turns+1, pos =>
    if pos < data.length then do
      makeRoom o
      let e ← get
      let take := min (e.cap-e.cursor) (data.length-pos)
      poke ((data.drop pos).take take)
      putLoop o data turns (pos+take)
    else pure ()

/-- Drain what is buffered before a chunk that bypasses the buffer. -/
def drainUsed (o : Outlet) : EncM Unit := do
  if (← get).cursor≠0 then drain o else pure ()

/-- Whether bytes are drained into the result (`_in_memory`). -/
def Outlet.inMemory : Outlet → Bool
  | .result => true
  | _ => false

/-- Write a run of bytes (`_put`). -/
def put (o : Outlet) (data : List UInt8) : EncM Unit := do
  let e ← get
  if o.inMemory && e.cap ≤ data.length then
    drainUsed o
    modify fun e => {e with result := some (e.result.getD []++[data])}
  else putLoop o data (data.length+1) 0

/-- A varint's groups from the third on, two of them a turn. -/
def wideGroups : ℕ → ℕ → List UInt8
  | 0, _ => []
  | turns+1, v =>
    if 0x4000 ≤ v then
      UInt8.ofNat (v%128+128)::UInt8.ofNat (v/128%128+128)::wideGroups turns (v/0x4000)
    else if 0x80 ≤ v then [UInt8.ofNat (v%128+128),UInt8.ofNat (v/128)]
    else [UInt8.ofNat v]

/-- A varint as it is written in place, by its width. -/
def inlineVarint (v : ℕ) : List UInt8 :=
  if v < 0x80 then [UInt8.ofNat v]
  else if v < 0x4000 then [UInt8.ofNat (v%128+128),UInt8.ofNat (v/128)]
  else wideGroups (v.log2+1) v

/-- The shared varint codec (`encode_varint`). -/
def encodeVarint (v : ℕ) : List UInt8 := Varint.encode v

/-- Write a varint, in place when a whole one has room (`_emit_varint`). -/
def emitVarint (o : Outlet) (v : ℕ) : EncM Unit := do
  let e ← get
  if e.cursor+varintMax ≤ e.cap then poke (inlineVarint v)
  else put o (encodeVarint v)

/-- Drain what is buffered; how much that was (`flush`). -/
def flush (o : Outlet) : EncM ℕ := do
  let used := (← get).cursor
  if used≠0 ∧ o.hasSink then drain o
  pure used

/-- The encoded message of the in-memory model (`getvalue`). -/
def getvalue (o : Outlet) : EncM (List UInt8) := do
  let e ← get
  if !o.inMemory then
    throw (.argument "getvalue() is only valid for the in-memory model")
  else
    match e.result with
    | none => pure (e.fixed.take e.cursor)
    | some chunks => pure (chunks.flatten++e.fixed.take e.cursor)

/-- An encoder over a buffer that was installed once. -/
def Enc.over (buffer : List UInt8) (offset : ℕ) (sticky : Bool) : Enc :=
  {fixed := buffer, cap := buffer.length, cursor := offset, installs := 1
   transfers := [Transfer.installed buffer offset], sticky := sticky}

/-- An encoder over a scratch buffer of its own (`Encoder()` and `Encoder(writer)`). -/
def Enc.scratch (sticky : Bool) : Enc := .over (List.replicate scratchSize 0) 0 sticky

/-- An encoder over the caller's buffer (`over_buffer`). -/
def overBuffer (o : Outlet) (buffer : List UInt8) (offset : ℕ) (sticky : Bool) :
    Except Exn Enc :=
  let blank : Enc :=
    {fixed := [], cap := 0, cursor := 0, installs := 0, transfers := [], sticky := sticky}
  match bufferSet o buffer offset blank with
  | .ok _ e => .ok e
  | .error why _ => .error why

end SofaBuffers
