import SofaBuffers.Decoder.Header

/-!
# Reading a value

How the value behind a header reaches its consumer: through a typed hook, into
a buffer the handler answered with, or into the slots a table row names. Every
read consumes nothing when the bytes run out.
-/

set_option autoImplicit false

namespace SofaBuffers

variable {V : Type}

/-- The caller's destination as a writable view (`_writable`). -/
def writable (who : String) (o : Obj) : Except Exn Dst :=
  let refuse := Exn.argument
    s!"{who} returned a destination that is not a writable, contiguous buffer"
  match o with
  | .buffer d => if d.writable then .ok d else .error refuse
  | _ => .error refuse

/-- Does the declared element width fit a slot of so many bytes (`_width_fits`)? -/
def widthFits (itemsize : ℕ) (zigzag : Bool) (lo hi : Option ℤ) : Bool :=
  let bits := itemsize*8
  if zigzag then
    match lo,hi with
    | some lo,some hi => -2^(bits-1) ≤ lo && hi < 2^(bits-1)
    | _,_ => false
  else
    match hi with
    | some hi => hi < 2^bits
    | none => false

/-- A writable view of single bytes with room for a payload. -/
def byteView (who what : String) (dst : Obj) (size : ℕ) : Except Exn Dst :=
  match writable who dst with
  | .error e => .error e
  | .ok view =>
    let room := view.nbytes
    if view.itemsize≠1 then
      .error (.argument s!"{who}'s destination must hold single bytes")
    else if room < size then
      .error (.argument s!"{who} gave {room} bytes for a {what} of {size}")
    else .ok view

/-- Copy a payload to the front of a view, which must be of unsigned bytes. -/
def copyInto (view : Dst) (payload : List UInt8) : Effect V :=
  if view.signed then .raise .value else .update (·.setMem view.base payload)

/-- Consume the pending scalar (`_take_scalar_matched`). -/
def takeScalarMatched : DecM V ℕ := do
  arm
  let value ← varint
  setPending none
  pure value

/-- Consume a fixlen payload (`_take_fixlen_matched`). -/
def takeFixlenMatched (length : ℕ) : DecM V (List UInt8) := do
  arm
  let data ← readExact length
  setPending none
  pure data

/-- Consume a string payload as text (`_take_text_matched`). -/
def takeTextMatched (size : ℕ) : DecM V (List ℕ) := do
  arm
  let data ← readExact size
  setPending none
  match Utf8.decode data with
  | some text => pure text
  | none => throw (.decode "invalid UTF-8 in string field")

/-- Copy a blob's payload into the caller's buffer (`_take_blob_into`). -/
def takeBlobInto (dst : Obj) (size : ℕ) (who : String) : DecM V Unit := do
  let view ← ofExcept (byteView who "blob" dst size)
  arm
  let d ← get
  if d.n < d.pos+size then suspend "truncated payload"
  else
    perform (copyInto view ((d.buf.drop d.pos).take size))
    setPos (d.pos+size)
    setPending none

/-- Validate a string's payload and copy it into the caller's buffer
(`_take_string_into`). -/
def takeStringInto (dst : Obj) (size : ℕ) (who : String) : DecM V Unit := do
  let view ← ofExcept (byteView who "string" dst size)
  arm
  let d ← get
  if d.n < d.pos+size then suspend "truncated payload"
  else if !utf8Valid d.buf d.pos size then throw (.decode "invalid UTF-8 in string field")
  else
    perform (copyInto view ((d.buf.drop d.pos).take size))
    setPos (d.pos+size)
    setPending none

/-- Where the doubles of a fixlen array go. -/
inductive FloatSink
  /-- Consecutive `words` slots. -/
  | words
  /-- The eight-byte items of a buffer. -/
  | buffer (d : Dst)
  deriving DecidableEq, Repr

/-- Assign a slice of doubles; one that does not fit raises. -/
def FloatSink.put (c : Config V) (into : FloatSink) (i : ℕ) (values : List (BitVec 64)) :
    Effect V :=
  match into with
  | .words =>
    if i+values.length ≤ c.nwords then .update (·.setWords i values) else .raise .value
  | .buffer d =>
    if (i+values.length)*8 ≤ d.nbytes then
      .update (·.setMem (d.base+i*8) (values.flatMap fun v => leBytes 8 v.toNat))
    else .raise .value

/-- Elements converted per pass. -/
def farrayChunk : ℕ := 64

/-- Move the elements of a fixlen array to where they go, in blocks
(`unpack_farray_into`). -/
def unpackFarrayInto (c : Config V) (into : FloatSink) (base : ℕ) (data : List UInt8)
    (count width start : ℕ) : ℕ → ℕ → Effect V
  | 0, _ => .raise .turns
  | turns+1, off =>
    if off < count then
      let n := min (count-off) farrayChunk
      let block := elements width n (data.drop (start+off*width))
      let values := if width=4 then unpackF32Block structF32 block else block.map unpackF64
      (into.put c (base+off) values).andThen
        (unpackFarrayInto c into base data count width start turns (off+n))
    else .done

/-- Claim the payload of the pending fixlen array in place. -/
def takeFarray (count elemSize : ℕ) : DecM V (List UInt8 × ℕ) := do
  arm
  let nbytes ← farrayNbytes count elemSize
  let span ← spanExact nbytes
  setPending none
  pure span

/-- Apply a declared count or length (`_settle_bound`). -/
def settleBound (declared : Option ℕ) : DecM V Unit := do
  match declared with
  | none => pure ()
  | some most =>
    match (← get).pending with
    | none => throw .assertion
    | some pending =>
      let real := pending.real
      let refuse (what : String) (n : ℕ) : DecM V Unit :=
        if most < n then
          throw (.decode s!"{what} {n} exceeds the {most} the schema declares")
        -- the schema bounds this field, so the cap never governed it
        else setPending (some real)
      match real with
      | .fixlen _ n => refuse "fixlen length" n
      | .varray _ n => refuse "array count" n
      | .farray _ n _ => refuse "array count" n
      | _ => throw .index

/-- Ask the handler for the declared count or length (`_schema_bound`). -/
def schemaBound (c : Config V) (v : V) (fid : ℕ) : DecM V Unit := do
  match (c.hooks v).onSchemaBound with
  | none => pure ()
  | some bound =>
    let ask (n : ℕ) (wt : WireType) (sub : Option FixlenSubtype) : DecM V Unit := do
      perform (.call (.bound v fid n wt sub))
      let declared := bound fid n wt sub
      settleBound (if declared < 0 then none else some declared.toNat)
    match (← get).pending with
    | none => throw .assertion
    | some pending =>
      match pending.real with
      | .scalar _ => pure ()
      | .fixlen st n =>
        if st=.fp32 ∨ st=.fp64 then pure () else ask n .fixlen (some st)
      | .varray signed n => ask n (if signed then .arraySigned else .arrayUnsigned) none
      | .farray st n _ => ask n .arrayFixlen (some st)
      | _ => throw .index

/-- Store the words an option starts from. -/
def resetWords (c : Config V) (words : List (ℕ × BitVec 64)) : Effect V :=
  .all (words.map fun p => .putWord c p.1 p.2)

/-- Copy a declared default into the buffer a slot holds. -/
def resetInto (c : Config V) (slot : ℕ) (payload : List UInt8) : Effect V := fun s =>
  let who := "a declared default"
  if slot < c.nobjects then
    match writable who (s.obj slot) with
    | .error e => (s,some e)
    | .ok view =>
      let room := view.nbytes
      let need := payload.length
      if view.itemsize≠1 then
        (s,some (.argument "a declared default's destination must hold single bytes"))
      else if room < need then
        (s,some (.argument
          s!"a declared default's destination gave {room} bytes for a default of {need}"))
      else copyInto view payload s
  else (s,some .index)

/-- A different option arrived: the new one starts from its own default
(`_reset_option`). -/
def resetOption (c : Config V) (e : Entry) : Effect V :=
  (resetWords c e.resetWords).andThen
    ((Effect.all (e.resetObjects.map fun p => .putObj c p.1 p.2)).andThen
      (.all (e.resetInto.map fun p => resetInto c p.1 p.2)))

/-- Write the arriving option's id, resetting the option if it was not held. -/
def arrive (c : Config V) (e : Entry) : Effect V :=
  match e.whichAt with
  | none => .done
  | some w => fun s =>
    if w < c.nwords then
      (if s.word w=BitVec.ofNat 64 e.fieldId then Effect.putWord c w (BitVec.ofNat 64 e.fieldId)
      else (resetOption c e).andThen (.putWord c w (BitVec.ofNat 64 e.fieldId))) s
    else (s,some .index)

/-- The second pass over the slots of a boolean array. -/
def normaliseBooleans (c : Config V) : ℕ → ℕ → Effect V
  | 0, _ => .done
  | count+1, i => fun s =>
    if i < c.nwords then
      ((if 1 < (s.word i).toNat then Effect.putWord c i 1 else .done).andThen
        (normaliseBooleans c count (i+1))) s
    else (s,some .index)

/-- Write a row's arrival, if it has a slot for one. -/
def countArrival (c : Config V) (e : Entry) (got : ℕ) : Effect V :=
  match e.countAt with
  | none => .done
  | some i => .putWord c i (BitVec.ofNat 64 got)

/-- The value of a string or blob row. -/
def mappedObject (c : Config V) (e : Entry) : DecM V ℕ := do
  match (← get).pending with
  | none => throw .assertion
  | some pending =>
    if e.into then
      -- the buffer is the caller's, so there is no allocation for a cap to prevent
      setPending (some pending.real)
      match pending.real with
      | .fixlen _ got =>
        let dst ← getObj c e.slot
        if e.kind=.bytes then takeBlobInto dst got "Binding.blob_into"
        else takeStringInto dst got "Binding.string_into"
        pure got
      | _ => throw .index
    else
      match pending with
      | .limit msg _ => throw (.limit msg)
      | .fixlen _ size =>
        if e.kind=.bytes then
          let data ← takeFixlenMatched size
          perform (.putObj c e.slot (.blob data))
        else
          let text ← takeTextMatched size
          perform (.putObj c e.slot (.text text))
        pure 1
      | _ => throw .index

/-- The elements of an array row. -/
def mappedArray (c : Config V) (e : Entry) : DecM V ℕ := do
  match (← get).pending with
  | none => throw .assertion
  | some pending =>
    arm
    let lo := if e.elemBounded then some e.elemLo else none
    let hi := if e.elemBounded then some e.elemHi else none
    let got ← match pending with
      | .varray _ got =>
        match e.kind with
        | .arrayUnsigned =>
          let _ ← readVarints c got none hi false (some .unsignedWords) e.slot
          pure got
        | .arraySigned =>
          let _ ← readVarints c got lo hi true (some .signedWords) e.slot
          pure got
        | .arrayBoolean =>
          let _ ← readVarints c got none none false (some .unsignedWords) e.slot
          perform (normaliseBooleans c got e.slot)
          pure got
        | _ => throw .assertion
      | .farray _ got elemSize =>
        let width := if e.kind=.arrayFloat32 then 4 else 8
        let nbytes ← farrayNbytes got elemSize
        let (buf,off) ← spanExact nbytes
        perform (unpackFarrayInto c .words e.slot buf got width off (got+1) 0)
        pure got
      | _ => throw .assertion
    setPending none
    pure got

/-- Store the value by the row's kind; what its arrival is to be counted as. -/
def mappedKind (c : Config V) (e : Entry) : DecM V ℕ := do
  match e.kind with
  | .unsigned =>
    let raw ← takeScalarMatched
    if e.elemBounded && raw > e.elemHi then throw (.decode "value outside declared width")
    else
      perform (Sink.put c .unsignedWords e.slot raw)
      pure 1
  | .signed =>
    let raw ← takeScalarMatched
    let val := Zigzag.decode raw
    if e.elemBounded && !(e.elemLo ≤ val && val ≤ e.elemHi) then
      throw (.decode "value outside declared width")
    else
      perform (Sink.put c .signedWords e.slot val)
      pure 1
  | .boolean =>
    let raw ← takeScalarMatched
    perform (.putWord c e.slot (if raw≠0 then 1 else 0))
    pure 1
  | .float64 =>
    let data ← takeFixlenMatched 8
    perform (.putWord c e.slot (unpackF64 data))
    pure 1
  | .float32 =>
    let data ← takeFixlenMatched 4
    perform (.putWord c e.slot (unpackF32 structF32 data))
    pure 1
  | .string | .bytes => mappedObject c e
  | .sequence => throw .assertion
  | _ => mappedArray c e

/-- A field a table row names (`_mapped_field`). -/
def mappedField (c : Config V) (e : Entry) : DecM V Unit := do
  perform (arrive c e)
  settleBound e.declared
  let got ← mappedKind c e
  perform (countArrival c e got)

/-- The descriptor `on_field` is handed (`_build_field`). -/
def buildField (id : ℕ) (t : WireType) (pending : Pending) : Field :=
  match pending.real with
  | .fixlen st length => {id := id, type := .fixlen, size := length, subtype := some st}
  | .varray _ count => {id := id, type := t, count := count}
  | .farray st count elemSize =>
    {id := id, type := .arrayFixlen, count := count, size := elemSize, subtype := some st}
  | _ => {id := id, type := t}

/-- The destination and the declared width `on_array_begin` answers. -/
def arrayAnswer (c : Config V) (v : V) (fid : ℕ) (wtype : WireType) (count : ℕ) :
    DecM V (Option Dst × Option ℤ × Option ℤ) := do
  match (c.hooks v).onArrayBegin with
  | none => pure (none,none,none)
  | some begin =>
    perform (.call (.arrayBegin v fid wtype count))
    pure ((begin fid wtype count).getD (none,none,none))

/-- Fill the buffer the handler answered with, as integers come in. -/
def varintsInto (c : Config V) (dst : Dst) (count : ℕ) (zigzag : Bool) (lo hi : Option ℤ) :
    DecM V Unit := do
  let view ← ofExcept (writable "on_array_begin" (.buffer dst))
  let isz := view.itemsize
  let slots := view.nbytes/isz
  if ¬(isz=1 ∨ isz=2 ∨ isz=4 ∨ isz=8) then
    throw (.argument
      s!"on_array_begin's destination holds {isz}-byte items; 1, 2, 4 or 8 are supported")
  else if isz≠8 ∧ !widthFits isz zigzag lo hi then
    throw (.argument
      s!"on_array_begin declared a width that does not fit its {isz}-byte destination")
  else if view.nbytes < count*isz then
    throw (.argument s!"on_array_begin returned {slots} slots for an array of {count}")
  else
    let _ ← readVarints c count lo hi zigzag (some (.buffer view)) 0
    setPending none

/-- Deliver an integer array by the route the handler asks for
(`_visit_varints`). -/
def visitVarints (c : Config V) (v : V) (fid : ℕ) (wtype : WireType) (pending : Pending)
    (count : ℕ) (zigzag : Bool) : DecM V Unit := do
  let (dst,lo,hi) ← arrayAnswer c v fid wtype count
  match pending,dst with
  | .limit msg _,none => throw (.limit msg)
  | _,_ =>
    setPending (some pending.real)
    arm
    match dst with
    | none =>
      let out ← readVarints c count lo hi zigzag none 0
      setPending none
      perform (.deliver c v fid (if zigzag then .signedArray out else .unsignedArray out))
    | some dst => varintsInto c dst count zigzag lo hi

/-- Hand the payload of an fp32 array to the handler raw (`_visit_farray_bits`). -/
def visitFarrayBits (c : Config V) (v : V) (fid : ℕ) (pending : Pending) : DecM V Unit := do
  match pending with
  | .limit msg _ => throw (.limit msg)
  | .farray _ count elemSize =>
    let (buf,off) ← takeFarray count elemSize
    perform (.deliver c v fid (.float32ArrayBits count ((buf.drop off).take (count*4))))
  | _ => throw .index

/-- Fill the buffer the handler answered with, a double for each element. -/
def farrayInto (c : Config V) (dst : Dst) (count elemSize width : ℕ) : DecM V Unit := do
  let view ← ofExcept (writable "on_float_array_begin" (.buffer dst))
  let slots := view.nbytes/8
  if view.itemsize≠8 then
    throw (.argument "on_float_array_begin's destination must hold 8-byte items; a Python float is a double, and so is every value written here")
  else if view.nbytes < count*8 then
    throw (.argument
      s!"on_float_array_begin returned {slots} slots for an array of {count}")
  else
    let (buf,off) ← takeFarray count elemSize
    perform (unpackFarrayInto c (.buffer view) 0 buf count width off (count+1) 0)

/-- Fill the handler's destination with a fixlen array's elements, if it offers
one (`_visit_farray_into`). -/
def visitFarrayInto (c : Config V) (v : V) (fid : ℕ) (pending : Pending) (width : ℕ) :
    DecM V Bool := do
  match (c.hooks v).onFloatArrayBegin with
  | none => pure false
  | some begin =>
    match pending.real with
    | .farray _ count elemSize =>
      let st : FixlenSubtype := if width=4 then .fp32 else .fp64
      perform (.call (.floatArrayBegin v fid st count))
      match begin fid st count with
      | none => pure false
      | some dst =>
        setPending (some pending.real)
        farrayInto c dst count elemSize width
        pure true
    | _ => throw .index

/-- A fixlen array as a list of doubles (`_take_farray_values`). -/
def takeFarrayValues (pending : Pending) (width : ℕ) : DecM V (List (BitVec 64)) := do
  match pending with
  | .limit msg _ => throw (.limit msg)
  | .farray _ count elemSize =>
    let (buf,off) ← takeFarray count elemSize
    pure (if width=4 then unpackF32Array structF32 buf count off else unpackF64Array buf count off)
  | _ => throw .index

/-- The destination a begin hook answers for a string or a blob. -/
def fixlenDestination (c : Config V) (v : V) (fid : ℕ) (st : FixlenSubtype) (size : ℕ) :
    DecM V (Option Dst) := do
  match st,(c.hooks v).onStringBegin,(c.hooks v).onBlobBegin with
  | .string,some begin,_ =>
    perform (.call (.stringBegin v fid size))
    pure (begin fid size)
  | .blob,_,some begin =>
    perform (.call (.blobBegin v fid size))
    pure (begin fid size)
  | _,_,_ => pure none

/-- The fixlen branch of `_visit_value`. -/
def visitFixlen (c : Config V) (v : V) (fid : ℕ) (pending : Pending) : DecM V Unit := do
  match pending.real with
  | .fixlen st size =>
    match ← fixlenDestination c v fid st size with
    | some dst =>
      setPending (some pending.real)
      if st=.string then takeStringInto (.buffer dst) size "on_string_begin"
      else takeBlobInto (.buffer dst) size "on_blob_begin"
    | none =>
      match pending with
      | .limit msg _ => throw (.limit msg)
      | _ =>
        match st with
        | .string =>
          let text ← takeTextMatched size
          perform (.deliver c v fid (.string text))
        | .blob =>
          let data ← takeFixlenMatched size
          perform (.deliver c v fid (.bytes data))
        | .fp32 =>
          let data ← takeFixlenMatched size
          perform (.deliver c v fid (if (c.hooks v).wantsF32Bits then .float32Bits (unpackU32 data)
            else .float32 (unpackF32 structF32 data)))
        | .fp64 =>
          let data ← takeFixlenMatched size
          perform (.deliver c v fid (.float64 (unpackF64 data)))
  | _ => throw .index

/-- The fixlen-array branch of `_visit_value`. -/
def visitFarray (c : Config V) (v : V) (fid : ℕ) (pending : Pending) : DecM V Unit := do
  match pending.real with
  | .farray .fp32 .. =>
    if (c.hooks v).wantsF32ArrayBits then visitFarrayBits c v fid pending
    else if ← visitFarrayInto c v fid pending 4 then pure ()
    else
      let values ← takeFarrayValues pending 4
      perform (.deliver c v fid (.float32Array values))
  | .farray .. =>
    if ← visitFarrayInto c v fid pending 8 then pure ()
    else
      let values ← takeFarrayValues pending 8
      perform (.deliver c v fid (.float64Array values))
  | _ => throw .index

/-- Hand the current field's value to the handler's typed hook
(`_visit_value`). -/
def visitValue (c : Config V) (v : V) (t : WireType) : DecM V Unit := do
  modify fun d => {d with curWtypeResume := t}
  let d ← get
  let fid := d.curId
  match d.pending with
  | none => throw .assertion
  | some pending =>
    match t with
    | .unsigned =>
      let raw ← takeScalarMatched
      perform (.deliver c v fid (.unsigned raw))
    | .signed =>
      let raw ← takeScalarMatched
      perform (.deliver c v fid (.signed (Zigzag.decode raw)))
    | .fixlen => visitFixlen c v fid pending
    | .arrayUnsigned =>
      match pending.real with
      | .varray _ count => visitVarints c v fid t pending count false
      | _ => throw .index
    | .arraySigned =>
      match pending.real with
      | .varray _ count => visitVarints c v fid t pending count true
      | _ => throw .index
    | _ => visitFarray c v fid pending

/-- Are all of the pending value's bytes buffered (`_value_ready`)? -/
def valueReady (d : Dec V) : Bool :=
  match d.pending with
  | some (.fixlen _ length) => length ≤ d.n-d.pos
  | some (.farray _ count elemSize) => count*elemSize ≤ d.n-d.pos
  | _ => true

end SofaBuffers
