import SofaBuffers.Native.Header
import SofaBuffers.Native.Visits

/-!
# The push driver of the compiled decoder

The compiled decoder keeps what the interpreted one keeps, and besides it the wire type of the
last header and the position of the row it is suspended at. Its walk looks rows up in compiled
tables, pushes to stacks that were sized once without asking whether there is room, and carries
along whether a table is current.
-/

set_option autoImplicit false

namespace SofaBuffers

variable {V : Type}

namespace Native

/-- A compiled decoder between two steps. -/
structure Decoder (V : Type) extends Dec V where
  /-- Wire type of the last header, none before the first and at the end (`_cur_wtype`). -/
  curWtype : Option WireType := none
  /-- Position of the row to resume, if a row's value is (`_resume_entry`). -/
  resumeRow : Option ℕ := none

/-- A method of the compiled decoder. -/
abbrev NatM (V : Type) := EStateM Exn (Decoder V)

/-- A method that touches what both decoders keep. -/
def within {α : Type} (m : DecM V α) : NatM V α := fun s =>
  match m s.toDec with
  | .ok a d => .ok a {s with toDec := d}
  | .error why d => .error why {s with toDec := d}

/-- Update the state when the method runs out of bytes, and let it. -/
def onIncomplete {α : Type} (m : NatM V α) (f : Decoder V → Decoder V) : NatM V α := fun s =>
  match m s with
  | .error (.incomplete msg) s' => .error (.incomplete msg) (f s')
  | r => r

namespace Decoder

/-- Parse one field header (`_next_wire`): the wire type is the current one from then on, unless the
bytes run out. -/
def nextWire (swar : Bool) (c : Config V) : NatM V (Option WireType) := do
  let t ← within (header swar c)
  modify fun s => {s with curWtype := t}
  pure t

/-- Walk on until the depth is back to `target`. -/
def skipTo (swar : Bool) (c : Config V) (target : ℕ) : ℕ → NatM V Unit
  | 0 => throw .turns
  | turns+1 => do
    if target < (← get).depth then
      match ← nextWire swar c with
      | none => within (suspend "truncated sequence")
      | some _ => skipTo swar c target turns
    else modify fun s => {s with skipDepth := none}

/-- Skip a whole sequence from the start marker just read, or else the pending value (`_skip`). -/
def skip (swar : Bool) (c : Config V) : NatM V Unit := do
  let s ← get
  if s.skipDepth.isSome || s.curWtype=some .sequenceStart then
    let target := s.skipDepth.getD (s.depth-1)
    modify fun s => {s with skipDepth := some target}
    skipTo swar c target (s.n-s.pos+1)
  else if s.pending.isSome then within (skipPending swar)
  else pure ()

/-- Skip the sequence just opened, resuming the skip on the next feed. -/
def skipResumable (swar : Bool) (c : Config V) : NatM V Unit :=
  onIncomplete (skip swar c) fun s => {s with resumeKind := .skip}

/-- Hand the pending value to the handler, by the wire type of its header (`_visit_value`). -/
def visit (swar : Bool) (c : Config V) (v : V) : NatM V Unit := do
  let t := (← get).curWtype.getD .sequenceEnd
  within (visitValue swar c v t)

/-- Store the pending value where a row says, by the wire type of its header (`_mapped_field`). -/
def storeMapped (swar : Bool) (c : Config V) (k : Compiled) (b : BEntry) : NatM V Unit := do
  let t := (← get).curWtype.getD .sequenceEnd
  within (mappedField swar c k b t)

/-- Suspend the current table for a scope (`_push_table`): the stack was sized at construction. -/
def pushTable (tab : Option ℕ) : DecM V Unit :=
  modify fun d => {d with bstack := d.bmap::d.bstack, bmap := tab}

/-- Suspend the current handler for a child's scope; the stack of handlers was sized at
construction. -/
def pushVisitor (outer child : V) : DecM V Unit :=
  modify fun d => {d with vstack := (outer,d.depth-1)::d.vstack, visitor := some child}

/-- The end marker of a sequence was read: whether a table is current behind it. -/
def endSequence (mapped : Bool) : DecM V Bool := do
  let d ← get
  match d.bstack with
  | outer::rest =>
    set {d with bmap := outer, bstack := rest}
    if mapped then pure outer.isSome
    else
      closeScope
      pure outer.isSome
  | [] =>
    closeScope
    pure mapped

/-- One more occurrence of a sequence row. -/
def countOccurrence (b : BEntry) : Effect V :=
  match b.countAt with
  | none => .done
  | some i => .update fun s => s.setWord i (s.word i+1)

/-- The walk descends into a sequence a row names. -/
def startMapped (c : Config V) (k : Compiled) (b : BEntry) : DecM V Bool := do
  perform (arrive c k b)
  pushTable b.child
  perform (countOccurrence b)
  pure b.child.isSome

/-- Keep the enclosing table from matching inside a scope the handler opens. -/
def hideTable (k : Option Compiled) (mapped : Bool) : DecM V Bool :=
  if k.isSome then do
    pushTable none
    pure false
  else pure mapped

/-- The handler is asked about a sequence no row names. -/
def startVisited (swar : Bool) (c : Config V) (k : Option Compiled) (mapped : Bool) (v : V)
    (id : ℕ) : NatM V Bool := do
  match ← within (sequenceAnswer c v id) with
  | .skip =>
    skipResumable swar c
    pure mapped
  | .stay => within (hideTable k mapped)
  | .descend child =>
    let mapped ← within (hideTable k mapped)
    within (pushVisitor v child)
    pure mapped

/-- A value no row names is offered to the handler. -/
def offerField (swar : Bool) (c : Config V) (v : V) (t : WireType) : NatM V Unit := do
  if ← within (fieldAnswer c v t) then
    within (schemaBound c v (← get).curId)
    onIncomplete (visit swar c v) fun s => {s with resumeKind := .visit, resumeRow := none}
  else pure ()

end Decoder

/-- Does the wire tag contradict what the row declares? -/
def BEntry.mismatch (b : BEntry) (t : WireType) (st : Option FixlenSubtype) : Bool :=
  b.wt≠t || (b.st.isSome && b.st≠st)

namespace Decoder

/-- The row the current table has for an id, and its position; none where no table is current. -/
def rowOf (k : Compiled) (mapped : Bool) (tab : Option ℕ) (id : ℕ) : Option (ℕ × BEntry) :=
  if mapped then
    (tab.bind fun tab => k.lookup tab id).bind fun ei => (k.bent[ei]?).map fun b => (ei,b)
  else none

/-- What the walk does with the construct whose header was just read: whether a table is current
behind it. -/
def dispatch (swar : Bool) (c : Config V) (k : Option Compiled) (mapped : Bool) (t : WireType) :
    NatM V Bool := do
  let s ← get
  let tables := k.getD {}
  let entry := rowOf tables mapped s.bmap s.curId
  let matched := entry.filter fun e => !e.2.mismatch t s.curSubtype
  if t=.sequenceEnd then within (endSequence mapped)
  else if entry.isSome && matched.isNone && t≠.sequenceStart then
    -- the tag contradicts the row: skipped like an unknown id
    pure mapped
  else if matched.isNone && mapped && s.bmap.any fun tab => (tables.table tab).closed then
    if t=.sequenceStart then skipResumable swar c
    pure mapped
  else if t=.sequenceStart then
    match matched,s.visitor with
    | some e,_ => within (startMapped c tables e.2)
    | none,none =>
      skipResumable swar c
      pure mapped
    | none,some v => startVisited swar c k mapped v s.curId
  else
    match matched,s.visitor with
    | some e,_ =>
      onIncomplete (storeMapped swar c tables e.2) fun s =>
        {s with resumeKind := .visit, resumeRow := some e.1}
      pure mapped
    | none,none => pure mapped
    | none,some v =>
      offerField swar c v t
      pure mapped

/-- Walk construct after construct. -/
def driveLoop (swar : Bool) (c : Config V) (k : Option Compiled) : ℕ → Bool → NatM V Unit
  | 0, _ => throw .turns
  | turns+1, mapped => do
    match ← nextWire swar c with
    | none => pure ()
    | some t =>
      let mapped ← dispatch swar c k mapped t
      driveLoop swar c k turns mapped

/-- What ran out of bytes last time. -/
def suspended (swar : Bool) (c : Config V) (k : Option Compiled) (kind : Resume) :
    NatM V Unit := do
  let s ← get
  match kind with
  | .visit =>
    match s.resumeRow,s.visitor with
    | some ei,_ =>
      match (k.getD {}).bent[ei]? with
      | some b => storeMapped swar c (k.getD {}) b
      | none => throw .index
    | none,some v => visit swar c v
    | none,none => throw .assertion
  | _ => skip swar c

/-- Finish what ran out of bytes last time. -/
def resume (swar : Bool) (c : Config V) (k : Option Compiled) : NatM V Unit := do
  let kind := (← get).resumeKind
  modify fun s => {s with resumeKind := .none}
  onIncomplete (suspended swar c k kind) fun s => {s with resumeKind := kind}

/-- Are all of the pending value's bytes buffered (`_value_ready`)? -/
def valueReady (d : Dec V) : Bool :=
  match d.pending with
  | some (.fixlen _ length) => length ≤ d.n-d.pos
  | some (.farray _ count elemSize) =>
    if elemSize≠0 ∧ sysMaxsize/elemSize < count then false
    else count*elemSize%2^64 ≤ d.n-d.pos
  | _ => true

/-- Walk the fed bytes; `true` when it stopped short of a value whose bytes have not all arrived
(`_drive_push`). -/
def drivePush (swar : Bool) (c : Config V) (k : Option Compiled) : NatM V Bool := do
  let s ← get
  let mapped := s.bmap.isSome
  if s.resumeKind=.visit && !valueReady s.toDec then pure true
  else
    if s.resumeKind≠.none then resume swar c k
    let s ← get
    driveLoop swar c k (s.n-s.pos+1) mapped
    pure false

/-- Settle the outcome of a walk (the `try` of `feed`). -/
def conclude (walk : NatM V Bool) : NatM V Status := fun s =>
  match walk s with
  | .ok true s => within (leave (pure .incomplete)) {s with status := .incomplete}
  | .ok false s =>
    within (leave (do
      modify fun d => {d with status := .complete}
      pure .complete)) s
  | .error e s =>
    match e with
    | .incomplete _ => within (leave (pure .incomplete)) {s with status := .incomplete}
    | .limit _ => within (leave (throw e)) {s with limit := some e, error := some e}
    | .decode _ => within (leave (pure .invalid)) {s with status := .invalid, error := some e}
    | _ => within (leave (throw e)) s

/-- Consume a chunk and report the outcome for the bytes so far (`feed`). -/
def feed (swar : Bool) (c : Config V) (k : Option Compiled) (data : List UInt8) :
    NatM V Status := do
  let s ← get
  match s.limit with
  | some e => throw e
  | none =>
    if s.status=.invalid then pure .invalid
    else
      within (reassemble data)
      within arm
      conclude (drivePush swar c k)

/-- The compiled form of the tables, where there are any (`_compiled_for`). -/
def compiledFor (c : Config V) : Except Exn (Option Compiled) :=
  match c.forest with
  | none => .ok none
  | some f => (Compiled.build f).map some

/-- Build a decoder around a handler (`Decoder.__cinit__`): its tables, and the decoder. -/
def init (c : Config V) (reassembly : Reassembly) (store : Store V) :
    Except Exn (Option Compiled × Decoder V) := do
  let rbuf ← reassembly.buffer
  if c.forest.isNone && c.visitor.isNone then
    throw (.argument "a decoder needs a field handler (binding / visitor)")
  let k ← compiledFor c
  bindWords c
  statedLimit "max_dyn_array_count" c.maxDynArrayCount arrayMax
  statedLimit "max_dyn_string_len" c.maxDynStringLen fixlenMax
  statedLimit "max_dyn_blob_len" c.maxDynBlobLen fixlenMax
  pure (k,{toDec := Dec.fresh c rbuf store})

end Decoder

end Native

end SofaBuffers
