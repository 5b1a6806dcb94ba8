import SofaBuffers.Walk.Token

/-!
# What reading a value comes to

Every value is read in one of four ways: a single varint, so many payload
bytes, or so many elements, each followed by a change of the handler's storage;
or the header already settles that it is refused. The plan of a read says
which, and reading a plan off the bytes at hand is the only place that depends
on how many of them there are.
-/

set_option autoImplicit false

namespace SofaBuffers

variable {V : Type}

/-- How a value is read, and what is done with it. -/
inductive Plan (V : Type)
  /-- The header settles it. -/
  | refuse (why : Exn)
  /-- No number of bytes would be enough. -/
  | stuck
  /-- One varint. -/
  | scalar (k : ℕ → Effect V)
  /-- So many bytes. -/
  | payload (n : ℕ) (k : List UInt8 → Effect V)
  /-- So many varints, each stored as it is read when it has somewhere to go. -/
  | elements (count : ℕ) (bound : Bound) (zigzag : Bool) (into : Option (Sink × ℕ))
      (k : List ℤ → Effect V)

/-- How a read ends. -/
inductive Reading (V : Type)
  /-- The value was there and is where it belongs. -/
  | done (s : Store V) (rest : List UInt8)
  /-- The bytes end inside it. -/
  | more (s : Store V)
  /-- The plan refuses what it reads. -/
  | bad (why : Exn) (s : Store V)

/-- Store elements one after the other. -/
def fillFrom (c : Config V) (into : Option (Sink × ℕ)) : ℕ → List ℤ → Effect V
  | _, [] => .done
  | i, x::xs =>
    match into with
    | none => .done
    | some (sink,base) => (sink.put c (base+i) x).andThen (fillFrom c into (i+1) xs)

/-- A read that has its bytes ends in what its effect ends in. -/
def Reading.of (r : Store V × Option Exn) (rest : List UInt8) : Reading V :=
  match r with
  | (s,none) => .done s rest
  | (s,some e) => .bad e s

/-- Read a plan off the bytes at hand. -/
def Plan.read (c : Config V) (pl : Plan V) (s : Store V) (xs : List UInt8) : Reading V :=
  match pl with
  | .refuse why => .bad why s
  | .stuck => .more s
  | .scalar k =>
    match Varint.read overlong xs with
    | .done raw rest => .of (k raw s) rest
    | .more => .more s
    | .bad why => .bad why s
  | .payload n k => if xs.length < n then .more s else .of (k (xs.take n) s) (xs.drop n)
  | .elements count bound zigzag into k =>
    let r := scan bound zigzag count xs
    match fillFrom c into 0 r.1 s with
    | (s,some e) => .bad e s
    | (s,none) =>
      match r.2 with
      | .done rest => .of (k r.1 s) rest
      | .more => .more s
      | .bad why => .bad why s

/-- Apply a declared count or length. -/
def settled (declared : Option ℕ) (p : Pending) : Except Exn Pending :=
  match declared with
  | none => .ok p
  | some most =>
    let refuse (what : String) (n : ℕ) : Except Exn Pending :=
      if most < n then
        .error (.decode s!"{what} {n} exceeds the {most} the schema declares")
      else .ok p.real
    match p.real with
    | .fixlen _ n => refuse "fixlen length" n
    | .varray _ n => refuse "array count" n
    | .farray _ n _ => refuse "array count" n
    | _ => .error .index

/-- The payload of a fixlen array, unless no buffer could hold it. -/
def Plan.span (count elemSize : ℕ) (k : List UInt8 → Effect V) : Plan V :=
  if sysMaxsize < count*elemSize then .stuck else .payload (count*elemSize) k

/-- A payload copied into a buffer of single bytes. -/
def bytesPlan (view : Except Exn Dst) (size : ℕ) (k : Dst → List UInt8 → Effect V) : Plan V :=
  match view with
  | .error e => .refuse e
  | .ok view => .payload size (k view)

/-- Validate and copy a string's payload. -/
def copyText (view : Dst) (payload : List UInt8) : Effect V :=
  if Utf8.valid payload then copyInto view payload
  else .raise (.decode "invalid UTF-8 in string field")

/-- Go on with a payload's text. -/
def withText (payload : List UInt8) (k : List ℕ → Effect V) : Effect V :=
  match Utf8.decode payload with
  | some text => k text
  | none => .raise (.decode "invalid UTF-8 in string field")

/-- The hook calls made before a string or a blob is read, and its destination. -/
def fixlenOffer (c : Config V) (v : V) (fid : ℕ) (st : FixlenSubtype) (size : ℕ) :
    List (Event V) × Option Dst :=
  match st,(c.hooks v).onStringBegin,(c.hooks v).onBlobBegin with
  | .string,some begin,_ => ([.stringBegin v fid size],begin fid size)
  | .blob,_,some begin => ([.blobBegin v fid size],begin fid size)
  | _,_,_ => ([],none)

/-- Deliver a fixlen payload by its subtype. -/
def fixlenDelivery (c : Config V) (v : V) (fid : ℕ) (st : FixlenSubtype) (data : List UInt8) :
    Effect V :=
  match st with
  | .string => withText data fun text => .deliver c v fid (.string text)
  | .blob => .deliver c v fid (.bytes data)
  | .fp32 => .deliver c v fid (if (c.hooks v).wantsF32Bits then .float32Bits (unpackU32 data)
      else .float32 (unpackF32 structF32 data))
  | .fp64 => .deliver c v fid (.float64 (unpackF64 data))

/-- How a visited string, blob or float is read. -/
def fixlenPlan (c : Config V) (v : V) (fid : ℕ) (p : Pending) (st : FixlenSubtype) (size : ℕ) :
    Option Dst → Pending × Plan V
  | some dst =>
    if st=.string then
      (p.real,bytesPlan (byteView "on_string_begin" "string" (.buffer dst) size) size copyText)
    else (p.real,bytesPlan (byteView "on_blob_begin" "blob" (.buffer dst) size) size copyInto)
  | none =>
    match p with
    | .limit msg _ => (p,.refuse (.limit msg))
    | p => (p,.payload size (fixlenDelivery c v fid st))

/-- The hook call made before an integer array is read, and its answer. -/
def arrayOffer (c : Config V) (v : V) (fid : ℕ) (wtype : WireType) (count : ℕ) :
    List (Event V) × Option Dst × Option ℤ × Option ℤ :=
  match (c.hooks v).onArrayBegin with
  | none => ([],none,none,none)
  | some begin => ([.arrayBegin v fid wtype count],(begin fid wtype count).getD (none,none,none))

/-- The verdict on a buffer offered for an integer array. -/
def arrayView (dst : Dst) (zigzag : Bool) (lo hi : Option ℤ) (count : ℕ) : Except Exn Dst :=
  match writable "on_array_begin" (.buffer dst) with
  | .error e => .error e
  | .ok view =>
    let isz := view.itemsize
    let slots := view.nbytes/isz
    if ¬(isz=1 ∨ isz=2 ∨ isz=4 ∨ isz=8) then
      .error (.argument
        s!"on_array_begin's destination holds {isz}-byte items; 1, 2, 4 or 8 are supported")
    else if isz≠8 ∧ !widthFits isz zigzag lo hi then
      .error (.argument
        s!"on_array_begin declared a width that does not fit its {isz}-byte destination")
    else if view.nbytes < count*isz then
      .error (.argument s!"on_array_begin returned {slots} slots for an array of {count}")
    else .ok view

/-- How a visited integer array is read. -/
def arrayPlan (c : Config V) (v : V) (fid : ℕ) (p : Pending) (count : ℕ) (zigzag : Bool) :
    Option Dst × Option ℤ × Option ℤ → Pending × Plan V
  | (none,lo,hi) =>
    match p with
    | .limit msg _ => (p,.refuse (.limit msg))
    | p => (p.real,.elements count (.of lo hi zigzag) zigzag none fun out =>
        .deliver c v fid (if zigzag then .signedArray out else .unsignedArray out))
  | (some dst,lo,hi) =>
    match arrayView dst zigzag lo hi count with
    | .error e => (p.real,.refuse e)
    | .ok view =>
      (p.real,.elements count (.of lo hi zigzag) zigzag (some (.buffer view,0)) fun _ => .done)

/-- The hook call made before a fixlen array is read, and its destination. -/
def farrayOffer (c : Config V) (v : V) (fid : ℕ) (width count : ℕ) :
    List (Event V) × Option Dst :=
  match (c.hooks v).onFloatArrayBegin with
  | none => ([],none)
  | some begin =>
    let st : FixlenSubtype := if width=4 then .fp32 else .fp64
    ([.floatArrayBegin v fid st count],begin fid st count)

/-- The verdict on a buffer offered for a fixlen array. -/
def farrayView (dst : Dst) (count : ℕ) : Except Exn Dst :=
  match writable "on_float_array_begin" (.buffer dst) with
  | .error e => .error e
  | .ok view =>
    let slots := view.nbytes/8
    if view.itemsize≠8 then
      .error (.argument "on_float_array_begin's destination must hold 8-byte items; a Python float is a double, and so is every value written here")
    else if view.nbytes < count*8 then
      .error (.argument
        s!"on_float_array_begin returned {slots} slots for an array of {count}")
    else .ok view

/-- Store the elements of a fixlen array payload where they go. -/
def storeFarray (c : Config V) (into : FloatSink) (base count width : ℕ) (data : List UInt8) :
    Effect V :=
  unpackFarrayInto c into base data count width 0 (count+1) 0

/-- Deliver a fixlen array as a list of doubles. -/
def farrayDelivery (c : Config V) (v : V) (fid count width : ℕ) (data : List UInt8) :
    Effect V :=
  .deliver c v fid (if width=4 then .float32Array (unpackF32Array structF32 data count 0)
    else .float64Array (unpackF64Array data count 0))

/-- How a visited fixlen array is read as values. -/
def farrayPlan (c : Config V) (v : V) (fid : ℕ) (p : Pending) (count elemSize width : ℕ) :
    Option Dst → Pending × Plan V
  | some dst =>
    match farrayView dst count with
    | .error e => (p.real,.refuse e)
    | .ok view => (p.real,.span count elemSize (storeFarray c (.buffer view) 0 count width))
  | none =>
    match p with
    | .limit msg _ => (p,.refuse (.limit msg))
    | p => (p,.span count elemSize (farrayDelivery c v fid count width))

/-- How a visited fp32 array is read as raw bytes. -/
def farrayBitsPlan (c : Config V) (v : V) (fid : ℕ) (p : Pending) (count elemSize : ℕ) :
    Pending × Plan V :=
  match p with
  | .limit msg _ => (p,.refuse (.limit msg))
  | p => (p,.span count elemSize fun data =>
      .deliver c v fid (.float32ArrayBits count (data.take (count*4))))

/-- How a visited fixlen array is read. -/
def visitFarrayPlan (c : Config V) (v : V) (fid : ℕ) (p : Pending) (st : FixlenSubtype)
    (count elemSize : ℕ) : List (Event V) × Pending × Plan V :=
  if st=.fp32 then
    if (c.hooks v).wantsF32ArrayBits then ([],farrayBitsPlan c v fid p count elemSize)
    else
      let offer := farrayOffer c v fid 4 count
      (offer.1,farrayPlan c v fid p count elemSize 4 offer.2)
  else
    let offer := farrayOffer c v fid 8 count
    (offer.1,farrayPlan c v fid p count elemSize 8 offer.2)

/-- How a value is read for a handler: the hook calls made first, the value
still pending after them, and the plan. -/
def visitPlan (c : Config V) (v : V) (fid : ℕ) (t : WireType) (p : Pending) :
    List (Event V) × Pending × Plan V :=
  match t with
  | .unsigned => ([],p,.scalar fun raw => .deliver c v fid (.unsigned raw))
  | .signed => ([],p,.scalar fun raw => .deliver c v fid (.signed (Zigzag.decode raw)))
  | .fixlen =>
    match p.real with
    | .fixlen st size =>
      let offer := fixlenOffer c v fid st size
      (offer.1,fixlenPlan c v fid p st size offer.2)
    | _ => ([],p,.refuse .index)
  | .arrayUnsigned =>
    match p.real with
    | .varray _ count =>
      let offer := arrayOffer c v fid t count
      (offer.1,arrayPlan c v fid p count false offer.2)
    | _ => ([],p,.refuse .index)
  | .arraySigned =>
    match p.real with
    | .varray _ count =>
      let offer := arrayOffer c v fid t count
      (offer.1,arrayPlan c v fid p count true offer.2)
    | _ => ([],p,.refuse .index)
  | _ =>
    match p.real with
    | .farray st count elemSize => visitFarrayPlan c v fid p st count elemSize
    | _ => ([],p,.refuse .index)

/-- How the value of a string or blob row is read. -/
def objectPlan (c : Config V) (e : Entry) (s : Store V) (p : Pending) : Pending × Plan V :=
  if e.into then
    match p.real with
    | .fixlen _ got =>
      if e.slot < c.nobjects then
        if e.kind=.bytes then
          (p.real,bytesPlan (byteView "Binding.blob_into" "blob" (s.obj e.slot) got) got
            fun view data => (copyInto view data).andThen (countArrival c e got))
        else
          (p.real,bytesPlan (byteView "Binding.string_into" "string" (s.obj e.slot) got) got
            fun view data => (copyText view data).andThen (countArrival c e got))
      else (p.real,.refuse .index)
    | _ => (p.real,.refuse .index)
  else
    match p with
    | .limit msg _ => (p,.refuse (.limit msg))
    | .fixlen _ size =>
      if e.kind=.bytes then
        (p,.payload size fun data =>
          (Effect.putObj c e.slot (.blob data)).andThen (countArrival c e 1))
      else
        (p,.payload size fun data =>
          (withText data fun text => .putObj c e.slot (.text text)).andThen (countArrival c e 1))
    | _ => (p,.refuse .index)

/-- How the elements of an array row are read. -/
def mappedArrayPlan (c : Config V) (e : Entry) (p : Pending) : Plan V :=
  let lo := if e.elemBounded then some e.elemLo else none
  let hi := if e.elemBounded then some e.elemHi else none
  match p with
  | .varray _ got =>
    match e.kind with
    | .arrayUnsigned =>
      .elements got (.of none hi false) false (some (.unsignedWords,e.slot)) fun _ =>
        countArrival c e got
    | .arraySigned =>
      .elements got (.of lo hi true) true (some (.signedWords,e.slot)) fun _ =>
        countArrival c e got
    | .arrayBoolean =>
      .elements got (.of none none false) false (some (.unsignedWords,e.slot)) fun _ =>
        (normaliseBooleans c got e.slot).andThen (countArrival c e got)
    | _ => .refuse .assertion
  | .farray _ got elemSize =>
    let width := if e.kind=.arrayFloat32 then 4 else 8
    .span got elemSize fun data =>
      (storeFarray c .words e.slot got width data).andThen (countArrival c e got)
  | _ => .refuse .assertion

/-- How a row's value is read, once its bound is settled. -/
def mappedPlan (c : Config V) (e : Entry) (s : Store V) (p : Pending) : Pending × Plan V :=
  match e.kind with
  | .unsigned => (p,.scalar fun raw =>
      (if e.elemBounded && raw > e.elemHi then Effect.raise (.decode "value outside declared width")
      else Sink.put c .unsignedWords e.slot raw).andThen (countArrival c e 1))
  | .signed => (p,.scalar fun raw =>
      (if e.elemBounded && !(e.elemLo ≤ Zigzag.decode raw && Zigzag.decode raw ≤ e.elemHi) then
        Effect.raise (.decode "value outside declared width")
      else Sink.put c .signedWords e.slot (Zigzag.decode raw)).andThen (countArrival c e 1))
  | .boolean => (p,.scalar fun raw =>
      (Effect.putWord c e.slot (if raw≠0 then 1 else 0)).andThen (countArrival c e 1))
  | .float64 => (p,.payload 8 fun data =>
      (Effect.putWord c e.slot (unpackF64 data)).andThen (countArrival c e 1))
  | .float32 => (p,.payload 4 fun data =>
      (Effect.putWord c e.slot (unpackF32 structF32 data)).andThen (countArrival c e 1))
  | .string | .bytes => objectPlan c e s p
  | .sequence => (p,.refuse .assertion)
  | _ => (p,mappedArrayPlan c e p)

/-- Whose a value is. -/
inductive Route
  /-- The current handler's, by the wire type of its header. -/
  | visit (t : WireType)
  /-- A table row's. -/
  | mapped (e : Entry)
  deriving DecidableEq, Repr

/-- Everything a read does before it looks at the payload: the storage, the
value still pending, and the plan. -/
def prepare (c : Config V) (v : Option V) (id : ℕ) (r : Route) (p : Pending) (s : Store V) :
    Store V × Pending × Plan V :=
  match r with
  | .visit t =>
    match v with
    | none => (s,p,.refuse .assertion)
    | some v =>
      let r := visitPlan c v id t p
      (r.1.foldl Store.call s,r.2)
  | .mapped e =>
    match arrive c e s with
    | (s,some why) => (s,p,.refuse why)
    | (s,none) =>
      match settled e.declared p with
      | .error why => (s,p,.refuse why)
      | .ok p => (s,mappedPlan c e s p)

end SofaBuffers
