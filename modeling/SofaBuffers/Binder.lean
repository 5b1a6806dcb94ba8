import SofaBuffers.Binding
import SofaBuffers.Core
import SofaBuffers.Run
import SofaBuffers.Worklist

/-!
# Building tables

Tables are objects: rows are bound to one at a time, a sequence row refers to
another, and the first use of a table closes it and everything it refers to.
What a decoder is given is the forest of the tables a root reaches.
-/

set_option autoImplicit false

namespace SofaBuffers

namespace Binder

/-- An integer (`_index`). -/
def index (value : Given) (what : String) : Except Exn ℤ :=
  match value with
  | .int v => .ok v
  | .other typeName => .error (.argument s!"{what} must be an integer, got {typeName}")

/-- A number, by what it answers. -/
structure Number where
  /-- The name of its type. -/
  typeName : String
  /-- What `__index__` answers. -/
  index : Option ℤ := none
  /-- What `__float__` answers. -/
  float : Option (BitVec 64) := none
  deriving DecidableEq, Repr

/-- A number in the place of an integer. -/
def Number.given (x : Number) : Given :=
  match x.index with
  | some v => .int v
  | none => .other x.typeName

/-- A declared default, by what it answers. -/
structure Default extends Number where
  /-- The code points of a default that is a `str`. -/
  text : Option (List ℕ) := none
  /-- What `bytes` makes of it. -/
  bytes : Option (List UInt8) := none
  /-- What iterating over it gives. -/
  items : Option (List Number) := none
  deriving DecidableEq, Repr

variable (narrow : BitVec 64 → Option (BitVec 32))

/-- The word a declared default is stored as (`_default_bits`); `narrow` is the
narrowing of `struct`, which raises on what is too large. -/
def defaultBits (kind : Kind) (default : Number) (lo hi : ℤ) : Except Exn (BitVec 64) :=
  if !kind.isScalar then
    .error (.argument "a default belongs to a scalar row or an array element; a string/blob row goes through _default_object and a struct/union row starts from its children (§4.2)")
  else if kind=.float64 ∨ kind=.float32 then
    match default.float with
    | none => .error (.argument s!"default must be a real number, got {default.typeName}")
    | some value =>
      if kind=.float32 then
        match narrow value with
        | none => .error .overflow
        | some single => .ok (structF32 single)
      else .ok value
  else
    match index default.given "default" with
    | .error e => .error e
    | .ok number =>
      if kind=.boolean then .ok (if number≠0 then 1 else 0)
      else if ¬(lo ≤ number ∧ number ≤ hi) then
        .error (.argument s!"default {number} is outside the declared width {lo}..{hi}")
      else .ok (BitVec.ofInt 64 number)

/-- The kind of an array's elements. -/
def scalarOf : Kind → Kind
  | .arrayUnsigned => .unsigned
  | .arraySigned => .signed
  | .arrayBoolean => .boolean
  | .arrayFloat32 => .float32
  | .arrayFloat64 => .float64
  | kind => kind

/-- The words an array default is stored as (`_default_elements`). -/
def defaultElements (kind : Kind) (default : Default) (cap : ℕ) (lo hi : ℤ) :
    Except Exn (List (BitVec 64)) :=
  match default.items with
  | none => .error (.argument s!"an array default must be iterable, got {default.typeName}")
  | some values =>
    let count := values.length
    if cap < count then
      .error (.argument
        s!"default of {count} elements is longer than the declared capacity {cap}")
    else values.mapM fun value => defaultBits narrow (scalarOf kind) value lo hi

/-- A string or blob default and its bytes (`_default_object`). -/
def defaultObject (kind : Kind) (default : Default) (cap : ℕ) :
    Except Exn (DefaultValue × List UInt8) :=
  let fits (value : DefaultValue) (data : List UInt8) : Except Exn (DefaultValue × List UInt8) :=
    let length := data.length
    if cap≠0 ∧ cap < length then
      .error (.argument s!"default of {length} bytes is longer than the declared maxlen {cap}")
    else .ok (value,data)
  if kind=.string then
    match default.text with
    | none => .error (.argument s!"a string default must be str, got {default.typeName}")
    | some text =>
      match Utf8.encode text with
      | none => .error .value
      | some data => fits (.text text) data
  else if default.text.isSome then .error (.argument "a blob default must be bytes, not str")
  else
    match default.bytes with
    | none => .error (.argument s!"a blob default must be bytes-like, got {default.typeName}")
    | some data => fits (.bytes data) data

/-- A string, blob or array default, prepared for the reset (`_default_payload`). -/
def defaultPayload (whichAt : Option ℕ) (kind : Kind) (default : Default) (cap : ℕ) (lo hi : ℤ)
    (into : Bool) : Except Exn DefaultValue :=
  if kind=.sequence then
    .error (.argument "a struct/union row takes no default: it starts from the rows of its child table (§4.2)")
  else if whichAt.isSome then
    .error (.argument "a string/blob/array option must not declare a non-empty default; it starts empty (§4.2). A member of a struct option may declare one")
  else if kind.isObject then
    match defaultObject kind default cap with
    | .error e => .error e
    | .ok (value,data) => .ok (if into then .bytes data else value)
  else
    match defaultElements narrow kind default cap lo hi with
    | .error e => .error e
    | .ok words => .ok (.words words)

/-- What a row with a default starts from. -/
def prepared (whichAt : Option ℕ) (kind : Kind) (default : Option Default) (cap : ℕ) (lo hi : ℤ)
    (into : Bool) : Except Exn (BitVec 64 × Option DefaultValue) :=
  match default with
  | none => .ok (0,none)
  | some default =>
    if kind.isScalar then
      match defaultBits narrow kind default.toNumber lo hi with
      | .error e => .error e
      | .ok bits => .ok (bits,none)
    else
      match defaultPayload narrow whichAt kind default cap lo hi into with
      | .error e => .error e
      | .ok value => .ok (0,some value)

/-- One end of a declared width. -/
def widthEnd (given : Option Given) (what : String) (absent : ℤ) : Except Exn ℤ :=
  match given with
  | none => .ok absent
  | some v => index v what

/-- The largest integer a row of a kind can declare. -/
def widest (kind : Kind) : ℤ :=
  if kind=.signed ∨ kind=.arraySigned then signedMax else unsignedMax

/-- The declared width of a row. -/
def width (kind : Kind) (elemLo elemHi : Option Given) : Except Exn (ℤ × ℤ) :=
  match widthEnd elemLo "elem_min" signedMin with
  | .error e => .error e
  | .ok lo =>
    match widthEnd elemHi "elem_max" (widest kind) with
    | .error e => .error e
    | .ok hi =>
      if ¬(signedMin ≤ lo ∧ lo ≤ signedMax) ∨ ¬(0 ≤ hi ∧ hi ≤ widest kind) then
        .error (.argument "declared element width out of range")
      else .ok (lo,hi)

/-- A field id nothing is bound to yet. -/
def freeId (b : Binding) (fieldId : Given) : Except Exn ℕ :=
  match index fieldId "field id" with
  | .error e => .error e
  | .ok fid =>
    if fid < 0 ∨ fid > idMax then .error (.argument s!"field id {fid} out of range")
    else if (b.find fid.toNat).isSome then .error (.argument s!"field id {fid} is already bound")
    else .ok fid.toNat

/-- A slot index. -/
def slotIndex (slot : Given) (what : String) : Except Exn ℕ :=
  match index slot what with
  | .error e => .error e
  | .ok slot =>
    if slot < 0 then .error (.argument s!"{what} {slot} out of range") else .ok slot.toNat

/-- A capacity. -/
def capacity (kind : Kind) (cap : Given) : Except Exn ℕ :=
  match index cap "capacity" with
  | .error e => .error e
  | .ok n =>
    if n < 0 ∨ n > (if kind.isObject then fixlenMax else arrayMax : ℕ) then
      .error (.argument s!"capacity {n} out of range")
    else .ok n.toNat

/-- A slot that may be left out. -/
def optionalSlot (slot : Option Given) (what : String) : Except Exn (Option ℕ) :=
  match slot with
  | none => .ok none
  | some slot => (slotIndex slot what).map some

/-- Let the buffer be large enough for an arrival. -/
def requireCount (cnt : Option ℕ) (b : Binding) : Binding :=
  match cnt with
  | none => b
  | some c => {b with wordsRequired := max b.wordsRequired (c+1)}

/-- Let the storage be large enough for a value. -/
def requireValue (kind : Kind) (slot n : ℕ) (b : Binding) : Binding :=
  if kind.isObject then {b with objectsRequired := max b.objectsRequired (slot+1)}
  else if kind.isArray then {b with wordsRequired := max b.wordsRequired (slot+n)}
  else if kind≠.sequence then {b with wordsRequired := max b.wordsRequired (slot+1)}
  else b

/-- Raise what a check found, or go on. -/
def check {α : Type} (r : Except Exn α) : EStateM Exn Binding α :=
  match r with
  | .ok a => pure a
  | .error e => throw e

/-- Bind a row (`_add`). -/
def add (kind : Kind) (fieldId slot cap : Given) (countAt : Option Given) (child : Option ℕ)
    (elemLo elemHi : Option Given) (into : Bool) (default : Option Default) :
    EStateM Exn Binding Unit := do
  let fid ← check (freeId (← get) fieldId)
  let slot ← check (slotIndex slot "slot index")
  let n ← check (capacity kind cap)
  let cnt ← check (optionalSlot countAt "count slot")
  -- the storage is claimed before the rest of the row is looked at
  modify (requireCount cnt)
  modify (requireValue kind slot n)
  let declared ← check (width kind elemLo elemHi)
  let start ← check (prepared narrow (← get).whichAt kind default n declared.1 declared.2 into)
  let e : Entry := {
    kind := kind, fieldId := fid, slot := slot, cap := n, countAt := cnt, child := child
    elemLo := declared.1, elemHi := declared.2
    elemBounded := elemLo.isSome || elemHi.isSome, into := into}
  modify fun b => {b with entries := b.entries++[e.init start.1 start.2]}

/-- The binder methods and their arguments; a child is the place of a table, or no table at
all. -/
inductive Method
  | unsigned (fieldId slot : Given) (countAt maxValue : Option Given) (default : Option Default)
  | signed (fieldId slot : Given) (countAt minValue maxValue : Option Given)
      (default : Option Default)
  | boolean (fieldId slot : Given) (countAt : Option Given) (default : Option Default)
  | float32 (fieldId slot : Given) (countAt : Option Given) (default : Option Default)
  | float64 (fieldId slot : Given) (countAt : Option Given) (default : Option Default)
  | string (fieldId slot maxlen : Given) (countAt : Option Given) (default : Option Default)
  | bytes (fieldId slot maxlen : Given) (countAt : Option Given) (default : Option Default)
  | stringInto (fieldId slot maxlen : Given) (countAt : Option Given) (default : Option Default)
  | blobInto (fieldId slot maxlen : Given) (countAt : Option Given) (default : Option Default)
  | unsignedArray (fieldId slot cap : Given) (countAt elemMax : Option Given)
      (default : Option Default)
  | signedArray (fieldId slot cap : Given) (countAt elemMin elemMax : Option Given)
      (default : Option Default)
  | booleanArray (fieldId slot cap : Given) (countAt : Option Given) (default : Option Default)
  | float32Array (fieldId slot cap : Given) (countAt : Option Given) (default : Option Default)
  | float64Array (fieldId slot cap : Given) (countAt : Option Given) (default : Option Default)
  | sequence (fieldId : Given) (child : Option ℕ) (countAt : Option Given)

/-- What a binder method does to its table. -/
def Method.run : Method → EStateM Exn Binding Unit
  | .unsigned fieldId slot countAt maxValue default =>
    add narrow .unsigned fieldId slot (.int 0) countAt none none maxValue false default
  | .signed fieldId slot countAt minValue maxValue default =>
    add narrow .signed fieldId slot (.int 0) countAt none minValue maxValue false default
  | .boolean fieldId slot countAt default =>
    add narrow .boolean fieldId slot (.int 0) countAt none none none false default
  | .float32 fieldId slot countAt default =>
    add narrow .float32 fieldId slot (.int 0) countAt none none none false default
  | .float64 fieldId slot countAt default =>
    add narrow .float64 fieldId slot (.int 0) countAt none none none false default
  | .string fieldId slot maxlen countAt default =>
    add narrow .string fieldId slot maxlen countAt none none none false default
  | .bytes fieldId slot maxlen countAt default =>
    add narrow .bytes fieldId slot maxlen countAt none none none false default
  | .stringInto fieldId slot maxlen countAt default =>
    add narrow .string fieldId slot maxlen countAt none none none true default
  | .blobInto fieldId slot maxlen countAt default =>
    add narrow .bytes fieldId slot maxlen countAt none none none true default
  | .unsignedArray fieldId slot cap countAt elemMax default =>
    add narrow .arrayUnsigned fieldId slot cap countAt none (some (.int 0)) elemMax false default
  | .signedArray fieldId slot cap countAt elemMin elemMax default =>
    add narrow .arraySigned fieldId slot cap countAt none elemMin elemMax false default
  | .booleanArray fieldId slot cap countAt default =>
    add narrow .arrayBoolean fieldId slot cap countAt none none none false default
  | .float32Array fieldId slot cap countAt default =>
    add narrow .arrayFloat32 fieldId slot cap countAt none none none false default
  | .float64Array fieldId slot cap countAt default =>
    add narrow .arrayFloat64 fieldId slot cap countAt none none none false default
  | .sequence fieldId child countAt =>
    add narrow .sequence fieldId (.int 0) (.int 0) countAt child none none false none

/-- The table a method refers to. -/
def Method.child : Method → Option ℕ
  | .sequence _ child _ => child
  | _ => none

/-- The child of the method is no table. -/
def Method.stray : Method → Bool
  | .sequence _ child _ => child.isNone
  | _ => false

/-- A new table (`Binding.__init__`). -/
def create (closed : Bool) (whichAt : Option Given) (defaultId : Given) : Except Exn Binding :=
  match optionalSlot whichAt "which slot" with
  | .error e => .error e
  | .ok which =>
    match index defaultId "default id" with
    | .error e => .error e
    | .ok default =>
      if default < 0 ∨ default > idMax then
        .error (.argument s!"default id {default} out of range")
      else .ok {
        closed := closed, whichAt := which, defaultId := default.toNat
        wordsRequired := match which with
          | none => 0
          | some w => w+1}

/-- A table in memory. -/
structure Cell where
  /-- The table. -/
  table : Binding
  /-- Whether it is in use by a decoder. -/
  frozen : Bool := false

/-- Bind a row to a table; a failed call leaves what it claimed. -/
def bind (heap : List Cell) (r : ℕ) (m : Method) : Except Exn Unit × List Cell :=
  match heap[r]? with
  | none => (.error .index,heap)
  | some self =>
    let taken := m.child.any fun g => match heap[g]? with
      | some child => child.frozen && !self.frozen
      | none => false
    if m.stray then
      (.error (.argument "sequence child must be a Binding"),heap)
    else if taken then
      (.error (.argument "sequence child is already in use by a decoder"),heap)
    else if self.frozen then
      (.error (.argument "this binding is already in use by a decoder; build the table before the decoder, not after"),heap)
    else
      match m.run narrow self.table with
      | .ok _ b => (.ok (),heap.set r {self with table := b})
      | .error e b => (.error e,heap.set r {self with table := b})

/-- The table at a place. -/
def tableAt (heap : List Cell) (r : ℕ) : Binding :=
  match heap[r]? with
  | some cell => cell.table
  | none => {}

/-- The tables the rows of one refer to. -/
def children (heap : List Cell) (r : ℕ) : List ℕ :=
  (tableAt heap r).entries.filterMap Entry.child

/-- A table and every child, each once (`_reachable`). -/
def reachable (heap : List Cell) (root : ℕ) : List ℕ :=
  Worklist.visitFrom (children heap) (heap.length+1) 0 [root]

/-- A table whose rows name their tables by place in an order. -/
def renumbered (order : List ℕ) (b : Binding) : Binding :=
  {b with entries := b.entries.map fun e => {e with child := e.child.map fun g => order.idxOf g}}

/-- The tables a root reaches, in the order they are met in. -/
def tablesOf (heap : List Cell) (root : ℕ) : List Binding :=
  (reachable heap root).map fun r => renumbered (reachable heap root) (tableAt heap r)

/-- Close a table and every child (`freeze`). -/
def freeze (heap : List Cell) (root : ℕ) : List Cell :=
  heap.mapIdx fun r cell => if r ∈ reachable heap root then {cell with frozen := true} else cell

/-- The tables a caller can have built. -/
inductive Built : List Cell → Prop
  /-- A caller starts with no tables. -/
  | empty : Built []
  /-- The caller makes a new table. -/
  | create {heap : List Cell} {closed : Bool} {whichAt : Option Given} {defaultId : Given}
      {b : Binding} (h : create closed whichAt defaultId=.ok b) :
      Built heap → Built (heap++[{table := b}])
  /-- One with a row more, or with what a failed call left of one. -/
  | bind {heap : List Cell} {r : ℕ} {m : Method} (hm : ∀ g, m.child=some g → g < heap.length) :
      Built heap → Built (bind narrow heap r m).2
  /-- Some that are in use. -/
  | freeze {heap : List Cell} {root : ℕ} : Built heap → Built (freeze heap root)

end Binder

end SofaBuffers
