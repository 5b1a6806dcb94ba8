import Mathlib.Data.Int.Bitwise
import Mathlib.Tactic.Common

/-!
# Wire-format constants, enumerations and outcomes

The shared definitions of the SofaBuffers format: the limits, the eight wire
types, the four fixlen subtypes, the three-valued decode outcome, the field
descriptor handed to a visitor and the exceptions a call can end in.
-/

namespace SofaBuffers

/-- Highest valid field id (`INT32_MAX`). -/
def idMax : ℕ := 0x7FFFFFFF

/-- Largest unsigned wire value (`UINT64_MAX`). -/
def unsignedMax : ℕ := 2^64-1

/-- Smallest signed wire value (`INT64_MIN`). -/
def signedMin : ℤ := -2^63

/-- Largest signed wire value (`INT64_MAX`). -/
def signedMax : ℤ := 2^63-1

/-- Largest fixlen payload length in bytes. -/
def fixlenMax : ℕ := 0x7FFFFFFF

/-- Largest array element count. -/
def arrayMax : ℕ := 0x7FFFFFFF

/-- Maximum nested-sequence depth, on both sides of the wire. -/
def maxDepth : ℕ := 255

/-- Smallest usable room of an output buffer installed with a flush sink. -/
def minOutputBuffer : ℕ := 1

/-- Smallest reassembly size a decoder takes as a byte count. -/
def minReassembly : ℕ := 16

/-- The largest byte count the interpreter can address (`sys.maxsize`). -/
def sysMaxsize : ℕ := 2^63-1

/-- The three low bits of a field header. -/
inductive WireType
  | unsigned
  | signed
  | fixlen
  | arrayUnsigned
  | arraySigned
  | arrayFixlen
  | sequenceStart
  | sequenceEnd
  deriving DecidableEq, Repr

/-- The number a wire type is written as. -/
def WireType.toNat : WireType → ℕ
  | .unsigned => 0
  | .signed => 1
  | .fixlen => 2
  | .arrayUnsigned => 3
  | .arraySigned => 4
  | .arrayFixlen => 5
  | .sequenceStart => 6
  | .sequenceEnd => 7

/-- The wire type named by the low three bits of a header word. -/
def WireType.ofHeader (header : ℕ) : WireType :=
  match header%8 with
  | 0 => .unsigned
  | 1 => .signed
  | 2 => .fixlen
  | 3 => .arrayUnsigned
  | 4 => .arraySigned
  | 5 => .arrayFixlen
  | 6 => .sequenceStart
  | _ => .sequenceEnd

/-- A header built from an id and a wire type names that wire type again. -/
@[simp] theorem WireType.ofHeader_header (id : ℕ) (t : WireType) :
    WireType.ofHeader (id*8+t.toNat)=t := by
  have h : (id*8+t.toNat)%8=t.toNat := by cases t <;> simp only [WireType.toNat] <;> omega
  rw [WireType.ofHeader,h]
  cases t <;> rfl

/-- Every wire type fits the three header bits. -/
theorem WireType.toNat_lt (t : WireType) : t.toNat < 8 := by
  cases t <;> decide

/-- The outcome of a feed for the bytes consumed so far. -/
inductive Status
  | complete
  | incomplete
  | invalid
  deriving DecidableEq, Repr

/-- The three low bits of a fixlen length word. -/
inductive FixlenSubtype
  | fp32
  | fp64
  | string
  | blob
  deriving DecidableEq, Repr

/-- The number a fixlen subtype is written as. -/
def FixlenSubtype.toNat : FixlenSubtype → ℕ
  | .fp32 => 0
  | .fp64 => 1
  | .string => 2
  | .blob => 3

/-- The descriptor of the field a visitor is offered. -/
structure Field where
  /-- Decoded field id. -/
  id : ℕ
  /-- Wire type the header carried. -/
  type : WireType
  /-- Fixlen byte length, or the element size of a fixlen array. -/
  size : ℕ := 0
  /-- Element count of an array. -/
  count : ℕ := 0
  /-- Subtype of a fixlen field or a fixlen array. -/
  subtype : Option FixlenSubtype := none
  deriving DecidableEq, Repr

/-- An argument in the place of an integer. -/
inductive Given
  /-- An integer, or what considers itself one. -/
  | int (v : ℤ)
  /-- Something else, of that type. -/
  | other (typeName : String)
  deriving DecidableEq, Repr

/-- The exceptions a call can leave through: the library's own five, and the
interpreter's for a request the storage underneath cannot answer. -/
inductive Exn
  /-- `SofaDecodeError`: malformed whatever follows. -/
  | decode (msg : String)
  /-- `SofaIncompleteError`: the bytes end inside a construct. -/
  | incomplete (msg : String)
  /-- `SofaLimitError`: a receiver cap refused a well-formed field. -/
  | limit (msg : String)
  /-- `SofaArgumentError`: the caller's own request or storage is at fault. -/
  | argument (msg : String)
  /-- `SofaBufferError`: a fixed output buffer filled with no sink. -/
  | buffer (msg : String)
  /-- `IndexError` of a list, a bytearray or a memoryview. -/
  | index
  /-- `ValueError` of a store that does not fit its slot. -/
  | value
  /-- `OverflowError` of a number past a C integer type. -/
  | overflow
  /-- `AssertionError` of an `assert` in the source. -/
  | assertion
  /-- A loop that was not given enough turns; unreachable. -/
  | turns
  deriving DecidableEq, Repr

/-- The exception classes, without the message one carries. -/
inductive ExnClass
  | decode | incomplete | limit | argument | buffer | index | value | overflow | assertion | turns
  deriving DecidableEq, Repr

/-- The class an exception belongs to. -/
def Exn.cls : Exn → ExnClass
  | .decode _ => .decode
  | .incomplete _ => .incomplete
  | .limit _ => .limit
  | .argument _ => .argument
  | .buffer _ => .buffer
  | .index => .index
  | .value => .value
  | .overflow => .overflow
  | .assertion => .assertion
  | .turns => .turns

end SofaBuffers
