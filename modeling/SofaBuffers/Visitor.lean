import SofaBuffers.Core

/-!
# The decode surface

A handler answers the control hooks from their arguments alone, so a hook is a
function, present when the handler overrides it. What the decoder does to its
caller is recorded in order as events. Handlers are named by the elements of a
type, because a hook may answer with another handler.
-/

set_option autoImplicit false

namespace SofaBuffers

/-- A buffer the caller hands over: its place in the caller's memory and what
its `memoryview` says about it. -/
structure Dst where
  /-- Address of its first byte. -/
  base : ℕ
  /-- Bytes of one item. -/
  itemsize : ℕ
  /-- Bytes altogether. -/
  nbytes : ℕ
  /-- Whether the items are signed integers. -/
  signed : Bool := false
  /-- Whether it is a writable, C-contiguous buffer at all. -/
  writable : Bool := true
  deriving DecidableEq, Repr

/-- A value as a typed hook receives it. -/
inductive Value
  /-- `on_unsigned`. -/
  | unsigned (v : ℕ)
  /-- `on_signed`. -/
  | signed (v : ℤ)
  /-- `on_float32`: the widened double. -/
  | float32 (v : BitVec 64)
  /-- `on_float32_bits`: the wire bits. -/
  | float32Bits (v : BitVec 32)
  /-- `on_float64`. -/
  | float64 (v : BitVec 64)
  /-- `on_string`: the code points. -/
  | string (v : List ℕ)
  /-- `on_bytes`. -/
  | bytes (v : List UInt8)
  /-- `on_unsigned_array`. -/
  | unsignedArray (v : List ℤ)
  /-- `on_signed_array`. -/
  | signedArray (v : List ℤ)
  /-- `on_float32_array`. -/
  | float32Array (v : List (BitVec 64))
  /-- `on_float32_array_bits`: the count and the raw payload. -/
  | float32ArrayBits (count : ℕ) (raw : List UInt8)
  /-- `on_float64_array`. -/
  | float64Array (v : List (BitVec 64))
  deriving DecidableEq, Repr

/-- An error of the library's own that a typed hook may raise. -/
inductive Refusal
  /-- `SofaDecodeError`. -/
  | decode (msg : String)
  /-- `SofaLimitError`. -/
  | limit (msg : String)
  deriving DecidableEq, Repr

/-- The exception a refusal travels as. -/
def Refusal.toExn : Refusal → Exn
  | .decode msg => .decode msg
  | .limit msg => .limit msg

/-- The three answers to `on_sequence_begin`. -/
inductive SeqAnswer (V : Type)
  /-- `False`: skip the whole sub-tree. -/
  | skip
  /-- Another handler takes the sub-tree. -/
  | descend (child : V)
  /-- Anything else: the same handler goes on. -/
  | stay
  deriving DecidableEq, Repr

/-- The hooks of one handler; an optional hook is one it overrides. -/
structure Hooks (V : Type) where
  /-- `on_field`: `false` declines the field. -/
  onField : Option (Field → Bool) := none
  /-- `on_schema_bound`: the declared count or length, negative for none. -/
  onSchemaBound : Option (ℕ → ℕ → WireType → Option FixlenSubtype → ℤ) := none
  /-- `on_sequence_begin`. -/
  onSequenceBegin : Option (ℕ → SeqAnswer V) := none
  /-- `on_array_begin`: a destination and a declared width, each optional. -/
  onArrayBegin : Option (ℕ → WireType → ℕ → Option (Option Dst × Option ℤ × Option ℤ)) := none
  /-- `on_blob_begin`. -/
  onBlobBegin : Option (ℕ → ℕ → Option Dst) := none
  /-- `on_string_begin`. -/
  onStringBegin : Option (ℕ → ℕ → Option Dst) := none
  /-- `on_float_array_begin`. -/
  onFloatArrayBegin : Option (ℕ → FixlenSubtype → ℕ → Option Dst) := none
  /-- Whether `on_float32_bits` is overridden. -/
  wantsF32Bits : Bool := false
  /-- Whether `on_float32_array_bits` is overridden. -/
  wantsF32ArrayBits : Bool := false
  /-- What a typed hook raises on a value, if anything. -/
  onValue : ℕ → Value → Option Refusal := fun _ _ => none

/-- One call the decoder makes on a handler. -/
inductive Event (V : Type)
  /-- A typed value hook. -/
  | value (who : V) (id : ℕ) (v : Value)
  /-- `on_field`. -/
  | field (who : V) (f : Field)
  /-- `on_schema_bound`. -/
  | bound (who : V) (id n : ℕ) (type : WireType) (subtype : Option FixlenSubtype)
  /-- `on_sequence_begin`. -/
  | sequenceBegin (who : V) (id : ℕ)
  /-- `on_sequence_end`. -/
  | sequenceEnd (who : V)
  /-- `on_array_begin`. -/
  | arrayBegin (who : V) (id : ℕ) (type : WireType) (count : ℕ)
  /-- `on_blob_begin`. -/
  | blobBegin (who : V) (id size : ℕ)
  /-- `on_string_begin`. -/
  | stringBegin (who : V) (id size : ℕ)
  /-- `on_float_array_begin`. -/
  | floatArrayBegin (who : V) (id : ℕ) (subtype : FixlenSubtype) (count : ℕ)
  deriving DecidableEq, Repr

/-- The event is a value or a scope event; the rest are the destination hooks,
which a suspended read asks again. -/
def Event.observed {V : Type} : Event V → Bool
  | .value .. | .field .. | .bound .. | .sequenceBegin .. | .sequenceEnd .. => true
  | .arrayBegin .. | .blobBegin .. | .stringBegin .. | .floatArrayBegin .. => false

/-- The event is one half of a scope. -/
def Event.scoped {V : Type} : Event V → Bool
  | .sequenceBegin .. | .sequenceEnd .. => true
  | _ => false

/-- The event delivers a value. -/
def Event.delivers {V : Type} : Event V → Bool
  | .value .. => true
  | _ => false

/-- A destination hook is no half of a scope. -/
theorem Event.unscoped {V : Type} {e : Event V} (h : e.observed=false) : e.scoped=false := by
  cases e <;> first | rfl | cases h

/-- The handler a call is made on. -/
def Event.who {V : Type} : Event V → V
  | .value v .. | .field v _ | .bound v .. | .sequenceBegin v _ | .sequenceEnd v => v
  | .arrayBegin v .. | .blobBegin v .. | .stringBegin v .. | .floatArrayBegin v .. => v

end SofaBuffers
