import SofaBuffers.Decoder.Values

/-!
# The push driver

The field walk that hands every construct of the fed bytes to its consumer,
the reassembly of what spans a chunk boundary, and the calls a caller makes.
-/

set_option autoImplicit false

namespace SofaBuffers

variable {V : Type}

/-- Suspend the current table for a scope. -/
def pushMap (inner : Option ℕ) : DecM V Unit := do
  let d ← get
  if d.bstack.length < maxDepth then
    set {d with bstack := d.bmap::d.bstack, bmap := inner}
  else throw .index

/-- Suspend the current handler for a child's scope. -/
def pushVisitor (outer child : V) : DecM V Unit := do
  let d ← get
  if d.vstack.length < maxDepth then
    set {d with vstack := (outer,d.depth-1)::d.vstack, visitor := some child}
  else throw .index

/-- Skip the sequence just opened, resuming the skip on the next feed. -/
def skipResumable (c : Config V) : DecM V Unit :=
  onIncomplete (skipSequence c) fun d => {d with resumeKind := .skip}

/-- Go back to the handler a child's scope suspended, if it was this scope. -/
def popVisitor : DecM V Unit := do
  let d ← get
  match d.vstack with
  | (outer,depth)::rest =>
    if depth=d.depth then set {d with visitor := some outer, vstack := rest}
    else pure ()
  | [] => pure ()

/-- A scope the current handler heard open closes. -/
def closeScope : DecM V Unit := do
  match (← get).visitor with
  | none => pure ()
  | some v => perform (.call (.sequenceEnd v))
  popVisitor

/-- The end marker of a sequence was read. -/
def endSequence : DecM V Unit := do
  let d ← get
  match d.bstack with
  | outer::rest =>
    set {d with bmap := outer, bstack := rest}
    -- the table that was current says whose scope this was
    if d.bmap.isSome then pure () else closeScope
  | [] => closeScope

/-- One more occurrence of a sequence row. -/
def countOccurrence (c : Config V) (e : Entry) : DecM V Unit := do
  match e.countAt with
  | none => pure ()
  | some i =>
    let w ← getWord c i
    perform (Sink.put c .unsignedWords i ((w.toNat : ℤ)+1))

/-- The walk descends into a sequence a row names. -/
def startMapped (c : Config V) (e : Entry) : DecM V Unit := do
  match e.child with
  | none => throw .assertion
  | some child =>
    perform (arrive c e)
    pushMap (some child)
    countOccurrence c e

/-- What the handler answers to a sequence. -/
def sequenceAnswer (c : Config V) (v : V) (id : ℕ) : DecM V (SeqAnswer V) := do
  match (c.hooks v).onSequenceBegin with
  | none => pure .stay
  | some begin =>
    perform (.call (.sequenceBegin v id))
    pure (begin id)

/-- Keep the enclosing table from matching inside a scope the handler opens. -/
def hideMap (c : Config V) : DecM V Unit := if c.forest.isSome then pushMap none else pure ()

/-- The handler is asked about a sequence no row names. -/
def startVisited (c : Config V) (v : V) (id : ℕ) : DecM V Unit := do
  match ← sequenceAnswer c v id with
  | .skip => skipResumable c
  | .stay => hideMap c
  | .descend child =>
    hideMap c
    pushVisitor v child

/-- Whether the handler accepts a field. -/
def fieldAnswer (c : Config V) (v : V) (t : WireType) : DecM V Bool := do
  let d ← get
  match (c.hooks v).onField,d.pending with
  | none,_ => pure true
  | some _,none => throw .assertion
  | some accept,some pending =>
    let field := buildField d.curId t pending
    perform (.call (.field v field))
    pure (accept field)

/-- A value no row names is offered to the handler. -/
def offerField (c : Config V) (v : V) (t : WireType) : DecM V Unit := do
  if ← fieldAnswer c v t then
    schemaBound c v (← get).curId
    onIncomplete (visitValue c v t) fun d => {d with resumeKind := .visit, resumeEntry := none}
  else pure ()

/-- Does the wire tag contradict what the row declares? -/
def Entry.mismatch (e : Entry) (t : WireType) (st : Option FixlenSubtype) : Bool :=
  t≠e.wt || (e.st.isSome && st≠e.st)

/-- What the walk does with the construct whose header was just read. -/
def dispatch (c : Config V) (t : WireType) : DecM V Unit := do
  let d ← get
  let entry := d.bmap.bind fun r => c.lookup r d.curId
  let matched := entry.filter fun e => !e.mismatch t d.curSubtype
  if t=.sequenceEnd then endSequence
  else if entry.isSome && matched.isNone && t≠.sequenceStart then
    -- the tag contradicts the row: skipped like an unknown id
    pure ()
  else if matched.isNone && d.bmap.any c.closed then
    if t=.sequenceStart then skipResumable c else pure ()
  else if t=.sequenceStart then
    match matched,d.visitor with
    | some e,_ => startMapped c e
    | none,none => skipResumable c
    | none,some v => startVisited c v d.curId
  else
    match matched,d.visitor with
    | some e,_ =>
      onIncomplete (mappedField c e) fun d =>
        {d with resumeKind := .visit, resumeEntry := some e}
    | none,none => pure ()
    | none,some v => offerField c v t

/-- Walk construct after construct. -/
def driveLoop (c : Config V) : ℕ → DecM V Unit
  | 0 => throw .turns
  | turns+1 => do
    match ← nextWire c with
    | none => pure ()
    | some t =>
      dispatch c t
      driveLoop c turns

/-- What ran out of bytes last time. -/
def suspended (c : Config V) (kind : Resume) (entry : Option Entry) (visitor : Option V)
    (t : WireType) : DecM V Unit :=
  match kind with
  | .visit =>
    match entry,visitor with
    | some e,_ => mappedField c e
    | none,some v => visitValue c v t
    | none,none => throw .assertion
  | _ => skipSequence c

/-- Finish what ran out of bytes last time. -/
def resume (c : Config V) : DecM V Unit := do
  let d ← get
  let kind := d.resumeKind
  modify fun d => {d with resumeKind := .none}
  onIncomplete (suspended c kind d.resumeEntry d.visitor d.curWtypeResume)
    fun d => {d with resumeKind := kind}

/-- Walk the fed bytes; `true` when it stopped short of a value whose bytes
have not all arrived (`_drive_push`). -/
def drivePush (c : Config V) : DecM V Bool := do
  let d ← get
  if d.resumeKind=.visit && d.pending.isNone then throw .assertion
  else if d.resumeKind=.visit && !valueReady d then pure true
  else
    if d.resumeKind≠.none then resume c
    let d ← get
    driveLoop c (d.n-d.pos+1)
    pure false

/-- The reassembly buffer cannot hold the construct. -/
def tooLong (room need : ℕ) : Exn :=
  .argument
    s!"reassembly buffer holds {room} bytes; the construct spanning this chunk needs {need}"

/-- Slide what is held to the front when so many bytes do not fit behind it. -/
def slide (n : ℕ) : DecM V Unit := modify fun d =>
  if d.rend+n > d.rbuf.length ∧ d.rstart≠0 then
    {d with
      rbuf := splice d.rbuf 0 ((d.rbuf.take d.rend).drop d.rstart)
      rstart := 0, rend := d.rend-d.rstart}
  else d

/-- Put the chunk behind what is held. -/
def append (data : List UInt8) : DecM V Unit := do
  let d ← get
  let n := data.length
  if d.rend+n > d.rbuf.length then
    throw (tooLong d.rbuf.length (d.rend-d.rstart+n))
  else
    let r := splice d.rbuf d.rend data
    set {d with
      rbuf := r, rend := d.rend+n, buf := r, bufIsR := true, n := d.rend+n, pos := d.rstart}

/-- Put the chunk where the walk can reach it (`_reassemble`). -/
def reassemble (data : List UInt8) : DecM V Unit := do
  let d ← get
  let held := d.rend-d.rstart
  if held=0 then
    set {d with buf := data, bufIsR := false, n := data.length, rstart := 0, rend := 0, pos := 0}
  else
    slide data.length
    append data

/-- Let the chunk go, nothing of it being kept. -/
def release : DecM V Unit :=
  modify fun d => {d with rstart := 0, rend := 0, buf := [], bufIsR := false, n := 0, pos := 0}

/-- Keep whatever the feed did not consume (`_retain`). -/
def retain : DecM V Unit := do
  let d ← get
  let carry := d.n-d.pos
  if d.status=.invalid ∨ d.limit.isSome then release
  else if carry=0 then release
  else if d.bufIsR then set {d with rstart := d.pos}
  else if carry > d.rbuf.length then throw (tooLong d.rbuf.length carry)
  else
    let r := splice d.rbuf 0 ((d.buf.take d.n).drop d.pos)
    set {d with
      rbuf := r, rstart := 0, rend := carry, buf := r, bufIsR := true, n := carry, pos := 0}

/-- Keep what the walk left, and answer or raise. -/
def leave (out : DecM V Status) : DecM V Status := do
  retain
  out

/-- Settle the outcome of a walk (the `try` of `feed`). -/
def conclude (walk : DecM V Bool) : DecM V Status := fun d =>
  match walk d with
  | .ok true d => leave (pure .incomplete) {d with status := .incomplete}
  | .ok false d =>
    leave (do
      modify fun d => {d with status := .complete}
      pure .complete) d
  | .error e d =>
    match e with
    | .incomplete _ => leave (pure .incomplete) {d with status := .incomplete}
    | .limit _ => leave (throw e) {d with limit := some e, error := some e}
    | .decode _ => leave (pure .invalid) {d with status := .invalid, error := some e}
    | _ => leave (throw e) d

/-- Consume a chunk and report the outcome for the bytes so far (`feed`). -/
def feed (c : Config V) (data : List UInt8) : DecM V Status := do
  let d ← get
  match d.limit with
  | some e => throw e
  | none =>
    if d.status=.invalid then pure .invalid
    else
      reassemble data
      arm
      conclude (drivePush c)

/-- Forget the stream and start a new message (`reset`). -/
def reset (d : Dec V) : Dec V :=
  {d with
    buf := [], bufIsR := false, n := 0, pos := 0, rstart := 0, rend := 0, depth := 0
    pending := none, keep := 0, status := .complete, error := none, limit := none
    visitor := match d.vstack.getLast? with
      | some (v,_) => some v
      | none => d.visitor
    vstack := []
    resumeKind := .none, resumeEntry := none, skipDepth := none
    bmap := match d.bstack.getLast? with
      | some r => r
      | none => d.bmap
    bstack := []}

/-- The reassembly storage a caller states. -/
inductive Reassembly
  /-- A `bytearray` of the caller's. -/
  | storage (r : List UInt8)
  /-- A byte count. -/
  | size (n : ℤ)

/-- The reassembly buffer a decoder starts with. -/
def Reassembly.buffer : Reassembly → Except Exn (List UInt8)
  | .storage r => .ok r
  | .size n =>
    if n < minReassembly then
      .error (.argument s!"reassembly={n} is too small; 16 bytes is the least that can hold a construct spanning a chunk")
    else .ok (List.replicate n.toNat 0)

/-- A receiver cap the caller states (`_stated_limit`). -/
def statedLimit (name : String) (value ceiling : ℕ) : Except Exn Unit :=
  if ceiling < value then .error (.argument s!"{name}={value} is outside 0..{ceiling}")
  else .ok ()

/-- Check the storage against the tables (`_bind_words`). -/
def bindWords (c : Config V) : Except Exn Unit :=
  match c.forest with
  | none => .ok ()
  | some f =>
    let words := c.nwords
    let objects := c.nobjects
    let wordsNeeded := f.treeWordsRequired
    let objectsNeeded := f.treeObjectsRequired
    if words < wordsNeeded then
      .error (.argument s!"words buffer holds {words} slots, the binding needs {wordsNeeded}")
    else if objects < objectsNeeded then
      .error (.argument s!"objects holds {objects} entries, the binding needs {objectsNeeded}")
    else .ok ()

/-- A decoder over a reassembly buffer, nothing fed yet. -/
def Dec.fresh (c : Config V) (rbuf : List UInt8) (store : Store V) : Dec V :=
  {rbuf := rbuf, visitor := c.visitor, bmap := c.forest.map fun _ => 0, store := store}

/-- Build a decoder around a handler (`Decoder.__init__`). -/
def Dec.init (c : Config V) (reassembly : Reassembly) (store : Store V) :
    Except Exn (Dec V) := do
  if c.forest.isNone && c.visitor.isNone then
    throw (.argument "a decoder needs a field handler (binding / visitor)")
  statedLimit "max_dyn_array_count" c.maxDynArrayCount arrayMax
  statedLimit "max_dyn_string_len" c.maxDynStringLen fixlenMax
  statedLimit "max_dyn_blob_len" c.maxDynBlobLen fixlenMax
  let rbuf ← reassembly.buffer
  bindWords c
  pure (Dec.fresh c rbuf store)

/-- A visitor that answers every hook as the base class does. -/
def listener : Config Unit :=
  { hooks := fun _ => {}, visitor := some () }

/-- Storage nothing was delivered to. -/
def blank : Store Unit where
  word := fun _ => 0
  obj := fun _ => .empty
  mem := fun _ => 0

/-- A decoder under a listener can be built. -/
theorem init_listener :
    Dec.init listener (.size 16) blank=.ok (Dec.fresh listener (List.replicate 16 0) blank) :=
  rfl

end SofaBuffers
