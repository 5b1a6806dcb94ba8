import SofaBuffers.Run
import SofaBuffers.Binding
import SofaBuffers.Utf8

/-!
# The decoder's state

Every attribute a decoder keeps, the storage its handler supplies, and the
monad its methods run in. An exception keeps the state it was raised in, as an
exception of the source does.
-/

set_option autoImplicit false

namespace SofaBuffers

/-- What the constructor settles: the handler, the caps and the sizes of the
storage. -/
structure Config (V : Type) where
  /-- The destination tables, root first. -/
  forest : Option Forest := none
  /-- The hooks of every handler. -/
  hooks : V → Hooks V
  /-- The handler the decoder is given. -/
  visitor : Option V := none
  /-- Receiver cap on array counts. -/
  maxDynArrayCount : ℕ := arrayMax
  /-- Receiver cap on string lengths. -/
  maxDynStringLen : ℕ := fixlenMax
  /-- Receiver cap on blob lengths. -/
  maxDynBlobLen : ℕ := fixlenMax
  /-- Slots of the `words` buffer. -/
  nwords : ℕ := 0
  /-- Entries of the `objects` list. -/
  nobjects : ℕ := 0

variable {V : Type}

/-- Whether any cap is tighter than the format's own ceiling. -/
def Config.capped (c : Config V) : Bool :=
  c.maxDynArrayCount < arrayMax || c.maxDynStringLen < fixlenMax || c.maxDynBlobLen < fixlenMax

/-- The row of a table that takes an id. -/
def Config.lookup (c : Config V) (r id : ℕ) : Option Entry := c.forest.bind (·.lookup r id)

/-- Whether the table was built closed (`_bclosed`). -/
def Config.closed (c : Config V) (r : ℕ) : Bool :=
  match c.forest with
  | some f => (f.table r).closed
  | none => false

/-- What the handler's storage holds, and what was called so far. -/
structure Store (V : Type) where
  /-- The 64-bit slots of the `words` buffer. -/
  word : ℕ → BitVec 64
  /-- The entries of the `objects` list. -/
  obj : ℕ → Obj
  /-- The memory the handler's own buffers lie in. -/
  mem : ℕ → UInt8
  /-- The calls made on the handlers, in order. -/
  log : List (Event V) := []

/-- A value whose header has been read. -/
inductive Pending
  /-- `_SCALAR`: one varint, signed or not. -/
  | scalar (signed : Bool)
  /-- `_FIXLEN`: so many payload bytes. -/
  | fixlen (st : FixlenSubtype) (length : ℕ)
  /-- `_VARRAY`: so many varints. -/
  | varray (signed : Bool) (count : ℕ)
  /-- `_FARRAY`: so many elements of a size. -/
  | farray (st : FixlenSubtype) (count elemSize : ℕ)
  /-- `_LIMIT`: a value a receiver cap rejected, with the verdict it is due. -/
  | limit (msg : String) (real : Pending)
  /-- `_DISCARD`: bytes and varints still to drop, and how many bytes of the
  varint in flight are gone. -/
  | discard (nbytes nvarints vbytes : ℕ)
  deriving DecidableEq, Repr

/-- The value itself, read through a parked cap. -/
def Pending.real : Pending → Pending
  | .limit _ p => p
  | p => p

/-- What the driver was doing when the bytes ran out. -/
inductive Resume
  | none | skip | visit
  deriving DecidableEq, Repr

/-- A decoder between two steps. -/
structure Dec (V : Type) where
  /-- The bytes being walked. -/
  buf : List UInt8 := []
  /-- Whether they are the reassembly buffer itself. -/
  bufIsR : Bool := false
  /-- How many of them there are. -/
  n : ℕ := 0
  /-- The cursor. -/
  pos : ℕ := 0
  /-- Where the call in flight started. -/
  keep : ℕ := 0
  /-- The reassembly buffer. -/
  rbuf : List UInt8
  /-- Start of the span of it in use. -/
  rstart : ℕ := 0
  /-- End of the span of it in use. -/
  rend : ℕ := 0
  /-- Sequences open. -/
  depth : ℕ := 0
  /-- The value not yet consumed. -/
  pending : Option Pending := none
  /-- Id of the last header. -/
  curId : ℕ := 0
  /-- Subtype of the last header. -/
  curSubtype : Option FixlenSubtype := none
  /-- Wire type a visit was last entered with. -/
  curWtypeResume : WireType := .sequenceEnd
  /-- What to resume. -/
  resumeKind : Resume := .none
  /-- The row to resume, if a row's value is. -/
  resumeEntry : Option Entry := none
  /-- The depth a skip in flight walks back to. -/
  skipDepth : Option ℕ := none
  /-- The current handler. -/
  visitor : Option V
  /-- The handlers suspended by a descent, with the depth each scope closes to. -/
  vstack : List (V × ℕ) := []
  /-- The current table. -/
  bmap : Option ℕ := none
  /-- The tables suspended by a descent. -/
  bstack : List (Option ℕ) := []
  /-- Outcome of the last feed. -/
  status : Status := .complete
  /-- The failure behind an invalid outcome. -/
  error : Option Exn := none
  /-- The receiver-limit rejection, once reached. -/
  limit : Option Exn := none
  /-- The handler's storage. -/
  store : Store V

/-- A method of the decoder. -/
abbrev DecM (V : Type) := EStateM Exn (Dec V)

section Run

variable {α β : Type}

/-- Update the state when the method runs out of bytes, and let it. -/
def onIncomplete (m : DecM V α) (f : Dec V → Dec V) : DecM V α := fun d =>
  match m d with
  | .error (.incomplete msg) d' => .error (.incomplete msg) (f d')
  | r => r

end Run

/-- Rewind to the first byte of the call in flight and report `INCOMPLETE`. -/
def suspend {α : Type} (msg : String) : DecM V α := do
  modify fun d => {d with pos := d.keep}
  throw (.incomplete msg)

/-- Raise what went wrong, or go on with the value. -/
def ofExcept {α : Type} (r : Except Exn α) : DecM V α :=
  match r with
  | .ok a => pure a
  | .error e => throw e

/-- The byte at a position of the buffer. -/
def byteAt (pos : ℕ) : DecM V UInt8 := do
  match (← get).buf[pos]? with
  | some b => pure b
  | none => throw .index

/-- Move the cursor. -/
def setPos (pos : ℕ) : DecM V Unit := modify fun d => {d with pos := pos}

/-- Replace the value not yet consumed. -/
def setPending (p : Option Pending) : DecM V Unit := modify fun d => {d with pending := p}

/-- Open a resume transaction at the cursor. -/
def arm : DecM V Unit := modify fun d => {d with keep := d.pos}

/-- Record a call on a handler. -/
def Store.call (s : Store V) (e : Event V) : Store V := {s with log := s.log++[e]}

/-- Write a slot of the `words` buffer. -/
def Store.setWord (s : Store V) (i : ℕ) (w : BitVec 64) : Store V :=
  {s with word := Function.update s.word i w}

/-- Write an entry of the `objects` list. -/
def Store.setObj (s : Store V) (i : ℕ) (o : Obj) : Store V :=
  {s with obj := Function.update s.obj i o}

/-- Write bytes to the caller's memory. -/
def Store.setMem (s : Store V) (a : ℕ) (bs : List UInt8) : Store V :=
  {s with mem := fun i => if a ≤ i ∧ i < a+bs.length then bs.getD (i-a) 0 else s.mem i}

/-- Write consecutive slots of the `words` buffer. -/
def Store.setWords (s : Store V) (i : ℕ) (ws : List (BitVec 64)) : Store V :=
  {s with word := fun k => if i ≤ k ∧ k < i+ws.length then ws.getD (k-i) 0 else s.word k}

/-- A change of the handler's storage, which may raise halfway. -/
def Effect (V : Type) := Store V → Store V × Option Exn

namespace Effect

/-- Change nothing. -/
def done : Effect V := fun s => (s,none)

/-- Raise. -/
def raise (e : Exn) : Effect V := fun s => (s,some e)

/-- Change the storage. -/
def update (f : Store V → Store V) : Effect V := fun s => (f s,none)

/-- One change, and unless it raised the next. -/
def andThen (f g : Effect V) : Effect V := fun s =>
  match f s with
  | (s,none) => g s
  | (s,some e) => (s,some e)

/-- Changes in order, up to the first that raises. -/
def all : List (Effect V) → Effect V
  | [] => done
  | f::fs => f.andThen (all fs)

/-- Assign a slot of the `words` buffer. -/
def putWord (c : Config V) (i : ℕ) (w : BitVec 64) : Effect V :=
  if i < c.nwords then update (·.setWord i w) else raise .index

/-- Assign an entry of the `objects` list. -/
def putObj (c : Config V) (i : ℕ) (o : Obj) : Effect V :=
  if i < c.nobjects then update (·.setObj i o) else raise .index

/-- Call a hook. -/
def call (e : Event V) : Effect V := update (·.call e)

/-- Call a typed hook, which may raise. -/
def deliver (c : Config V) (v : V) (id : ℕ) (value : Value) : Effect V :=
  (call (.value v id value)).andThen
    (match (c.hooks v).onValue id value with
    | none => done
    | some r => raise r.toExn)

end Effect

/-- Carry out a change of the storage. -/
def perform (f : Effect V) : DecM V Unit := fun d =>
  match f d.store with
  | (s,none) => .ok () {d with store := s}
  | (s,some e) => .error e {d with store := s}

/-- Read a slot of the `words` buffer. -/
def getWord (c : Config V) (i : ℕ) : DecM V (BitVec 64) := do
  if i < c.nwords then pure ((← get).store.word i) else throw .index

/-- Read an entry of the `objects` list. -/
def getObj (c : Config V) (i : ℕ) : DecM V Obj := do
  if i < c.nobjects then pure ((← get).store.obj i) else throw .index

/-- Where the elements of an integer array go as they are decoded. -/
inductive Sink
  /-- The `words` slots from `base` on, as unsigned words. -/
  | unsignedWords
  /-- The `words` slots from `base` on, as signed words. -/
  | signedWords
  /-- The items of a buffer. -/
  | buffer (d : Dst)
  deriving DecidableEq, Repr

/-- The least and the largest integer an item of so many bytes holds. -/
def itemRange (signed : Bool) (itemsize : ℕ) : ℤ × ℤ :=
  if signed then (-2^(8*itemsize-1),2^(8*itemsize-1)-1) else (0,2^(8*itemsize)-1)

/-- Assign one item: the index is checked first, then the value. -/
def Sink.put (c : Config V) (into : Sink) (i : ℕ) (x : ℤ) : Effect V :=
  match into with
  | .unsignedWords =>
    if i < c.nwords then
      if 0 ≤ x ∧ x < 2^64 then .update (·.setWord i (BitVec.ofInt 64 x)) else .raise .value
    else .raise .index
  | .signedWords =>
    if i < c.nwords then
      if -2^63 ≤ x ∧ x < 2^63 then .update (·.setWord i (BitVec.ofInt 64 x)) else .raise .value
    else .raise .index
  | .buffer d =>
    if (i+1)*d.itemsize ≤ d.nbytes then
      let range := itemRange d.signed d.itemsize
      if range.1 ≤ x ∧ x ≤ range.2 then
        .update (·.setMem (d.base+i*d.itemsize)
          (leBytes d.itemsize (x%2^(8*d.itemsize)).toNat))
      else .raise .value
    else .raise .index

end SofaBuffers
