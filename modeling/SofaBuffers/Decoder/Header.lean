import SofaBuffers.Decoder.Varints

/-!
# The header walk and the skips

Parsing one field header, discarding the value a header announced, and walking
over a whole sub-tree.
-/

set_option autoImplicit false

namespace SofaBuffers

variable {V : Type}

/-- A varint whose first byte is known to be there, read inline when it has at
most two bytes. -/
def inlineWord : DecM V ℕ := do
  let d ← get
  let b ← byteAt d.pos
  if b.toNat < 0x80 then
    setPos (d.pos+1)
    pure b.toNat
  else if d.pos+1 < d.n then
    let b' ← byteAt (d.pos+1)
    if b'.toNat < 0x80 then
      setPos (d.pos+2)
      pure (b.toNat%128|||b'.toNat<<<7)
    else varint
  else varint

/-- On-wire payload size of a fixlen array (`_farray_nbytes`). -/
def farrayNbytes (count elemSize : ℕ) : DecM V ℕ := do
  if sysMaxsize < count*elemSize then suspend "truncated payload"
  else pure (count*elemSize)

/-- Drop varints off the front of the buffer: `left` of them, `vbytes` bytes of
the first being gone already. -/
def drainVarints : ℕ → ℕ → ℕ → ℕ → DecM V Unit
  | 0, _, _, _ => throw .turns
  | _+1, 0, _, pos => setPos pos
  | turns+1, left+1, vbytes, pos => do
    let d ← get
    if d.n ≤ pos then
      setPos pos
      setPending (some (.discard 0 (left+1) vbytes))
      throw (.incomplete "skipped array spans this chunk")
    else
      let b ← byteAt pos
      if vbytes+1=10 then
        if 1 < b.toNat then throw (.decode "overlong varint")
        else drainVarints turns left 0 (pos+1)
      else if b.toNat < 0x80 then drainVarints turns left 0 (pos+1)
      else drainVarints turns (left+1) (vbytes+1) (pos+1)

/-- Drop as much of a discarded construct as the chunk holds (`_drain_discard`). -/
def drainDiscard (nbytes nvarints vbytes : ℕ) : DecM V Unit := do
  let d ← get
  if d.n-d.pos < nbytes then
    setPos d.n
    setPending (some (.discard (nbytes-(d.n-d.pos)) nvarints vbytes))
    throw (.incomplete "skipped payload spans this chunk")
  else
    setPos (d.pos+nbytes)
    if nvarints=0 then setPending none
    else
      drainVarints (d.n-(d.pos+nbytes)+1) nvarints vbytes (d.pos+nbytes)
      setPending none

/-- Commit a construct to being discarded. -/
def discard (nbytes nvarints : ℕ) : DecM V Unit := do
  setPending (some (.discard nbytes nvarints 0))
  drainDiscard nbytes nvarints 0

/-- Discard a value of which nothing was discarded yet. -/
def skipReal (real : Pending) : DecM V Unit :=
  match real with
  | .scalar _ => do
    let _ ← varint
    setPending none
  | .fixlen _ length => discard length 0
  | .farray _ count elemSize => do
    let nbytes ← farrayNbytes count elemSize
    discard nbytes 0
  | .varray _ count => discard 0 count
  | .limit .. | .discard .. => throw .assertion

/-- Discard the value the last header announced (`_skip_pending`). -/
def skipPending : DecM V Unit := do
  match (← get).pending with
  | none => throw .assertion
  | some (.discard nbytes nvarints vbytes) => drainDiscard nbytes nvarints vbytes
  | some (.limit _ real) =>
    -- a skipped field is not capped
    setPending (some real)
    skipReal real
  | some real => skipReal real

/-- Park a value a receiver cap rejects. -/
def park (c : Config V) (p : Pending) : Pending :=
  if c.capped then
    match p with
    | .fixlen .string length =>
      let cap := c.maxDynStringLen
      if length > cap then
        .limit s!"string length {length} exceeds max_dyn_string_len {cap}" p
      else p
    | .fixlen .blob length =>
      let cap := c.maxDynBlobLen
      if length > cap then .limit s!"blob length {length} exceeds max_dyn_blob_len {cap}" p
      else p
    | .varray _ count =>
      let cap := c.maxDynArrayCount
      if count > cap then .limit s!"array count {count} exceeds max_dyn_array_count {cap}" p
      else p
    | .farray _ count _ =>
      let cap := c.maxDynArrayCount
      if count > cap then .limit s!"array count {count} exceeds max_dyn_array_count {cap}" p
      else p
    | p => p
  else p

/-- The rules a fixlen length word is held to. -/
def fixlenWord (word : ℕ) : Except Exn (FixlenSubtype × ℕ) :=
  let length := word/8
  match word%8 with
  | 0 => if length≠4 then .error (.decode "fp32 fixlen length must be 4") else .ok (.fp32,length)
  | 1 => if length≠8 then .error (.decode "fp64 fixlen length must be 8") else .ok (.fp64,length)
  | 2 =>
    if fixlenMax < length then .error (.decode "fixlen length out of range")
    else .ok (.string,length)
  | 3 =>
    if fixlenMax < length then .error (.decode "fixlen length out of range")
    else .ok (.blob,length)
  | subtype => .error (.decode s!"invalid fixlen subtype {subtype}")

/-- The rules a fixlen array's element word is held to. -/
def elementWord (word : ℕ) : Except Exn (FixlenSubtype × ℕ) :=
  let size := word/8
  match word%8 with
  | 0 =>
    if size≠4 then .error (.decode "fp32 fixlen-array element size must be 4")
    else .ok (.fp32,size)
  | 1 =>
    if size≠8 then .error (.decode "fp64 fixlen-array element size must be 8")
    else .ok (.fp64,size)
  | subtype => .error (.decode s!"invalid fixlen-array subtype {subtype}")

/-- The subtype and length behind a fixlen header. -/
def fixlenHeader : DecM V (FixlenSubtype × ℕ) := do
  let d ← get
  let word ← if d.pos < d.n then inlineWord else varint
  ofExcept (fixlenWord word)

/-- The count behind an array header, within the format's ceiling. -/
def arrayHeader : DecM V ℕ := do
  let count ← varint
  if arrayMax < count then throw (.decode s!"array count {count} out of range")
  else pure count

/-- The count, subtype and element size behind a fixlen array header. -/
def farrayHeader : DecM V (ℕ × FixlenSubtype × ℕ) := do
  let count ← arrayHeader
  let word ← varint
  let shape ← ofExcept (elementWord word)
  pure (count,shape)

/-- Publish the value a header announced. -/
def announce (c : Config V) (st : Option FixlenSubtype) (p : Pending) : DecM V Unit :=
  modify fun d => {d with curSubtype := st, pending := some (park c p)}

/-- Parse the header at the cursor; `none` at a clean end. -/
def readHeader (c : Config V) : DecM V (Option WireType) := do
  let d ← get
  if d.n ≤ d.pos then
    if d.depth≠0 then suspend "truncated: unbalanced sequence"
    else pure none
  else
    let header ← inlineWord
    let id := header/8
    modify fun d => {d with curId := id, curSubtype := none}
    if idMax < id then throw (.decode s!"id {id} out of range")
    else
      let wtype := WireType.ofHeader header
      match wtype with
      | .fixlen =>
        let (st,length) ← fixlenHeader
        announce c (some st) (.fixlen st length)
      | .unsigned => announce c none (.scalar false)
      | .signed => announce c none (.scalar true)
      | .sequenceEnd =>
        let d ← get
        if d.depth ≤ 0 then throw (.decode "unbalanced sequence end")
        else modify fun d => {d with depth := d.depth-1}
      | .sequenceStart =>
        let d ← get
        if maxDepth ≤ d.depth then throw (.decode "nesting exceeds MAX_DEPTH=255")
        else modify fun d => {d with depth := d.depth+1}
      | .arrayUnsigned =>
        let count ← arrayHeader
        announce c none (.varray false count)
      | .arraySigned =>
        let count ← arrayHeader
        announce c none (.varray true count)
      | .arrayFixlen =>
        let (count,st,size) ← farrayHeader
        announce c (some st) (.farray st count size)
      pure (some wtype)

/-- Parse one field header, discarding first a value nobody read
(`_next_wire`). -/
def nextWire (c : Config V) : DecM V (Option WireType) := do
  arm
  if (← get).pending.isSome then
    skipPending
    -- the skip committed, so it must not be replayed
    arm
  readHeader c

/-- Walk on until the depth is back to `target`. -/
def skipTo (c : Config V) (target : ℕ) : ℕ → DecM V Unit
  | 0 => throw .turns
  | turns+1 => do
    if target < (← get).depth then
      match ← nextWire c with
      | none => suspend "truncated sequence"
      | some _ => skipTo c target turns
    else modify fun d => {d with skipDepth := none}

/-- Skip a whole sequence from the start marker just read (`_skip_sequence`). -/
def skipSequence (c : Config V) : DecM V Unit := do
  let d ← get
  let target := d.skipDepth.getD (d.depth-1)
  modify fun d => {d with skipDepth := some target}
  skipTo c target (d.n-d.pos+1)

end SofaBuffers
