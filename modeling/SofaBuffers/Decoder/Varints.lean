import SofaBuffers.Decoder.State
import SofaBuffers.Zigzag

/-!
# Byte sourcing

The varint readers and the payload readers of the decoder, advancing the
cursor over the buffer.
-/

set_option autoImplicit false

namespace SofaBuffers

variable {V : Type}

/-- The bytes of a varint after the first: `turns` of the eight that cannot
overflow are left, then the tenth. -/
def varintTail : ℕ → ℕ → ℕ → ℕ → DecM V ℕ
  | 0, result, shift, pos => do
    if (← get).n ≤ pos then
      setPos pos
      suspend "truncated varint"
    else
      let b ← byteAt pos
      if 1 < b.toNat then throw (.decode "overlong varint")
      else
        setPos (pos+1)
        pure (result|||b.toNat<<<shift)
  | turns+1, result, shift, pos => do
    if (← get).n ≤ pos then
      setPos pos
      suspend "truncated varint"
    else
      let b ← byteAt pos
      let result := result|||(b.toNat%128)<<<shift
      if b.toNat < 0x80 then
        setPos (pos+1)
        pure result
      else varintTail turns result (shift+7) (pos+1)

/-- Decode one varint (`_varint`). -/
def varint : DecM V ℕ := do
  let d ← get
  if d.n ≤ d.pos then suspend "truncated varint"
  else
    let b ← byteAt d.pos
    if b.toNat < 0x80 then
      setPos (d.pos+1)
      pure b.toNat
    else varintTail 8 (b.toNat%128) 7 (d.pos+1)

/-- The next `n` bytes, copied out (`_read_exact`). -/
def readExact (n : ℕ) : DecM V (List UInt8) := do
  let d ← get
  if d.n < d.pos+n then suspend "truncated payload"
  else
    setPos (d.pos+n)
    pure ((d.buf.drop d.pos).take n)

/-- Claim the next `n` bytes in place: the buffer and where they start
(`_span_exact`). -/
def spanExact (n : ℕ) : DecM V (List UInt8 × ℕ) := do
  let d ← get
  if d.n < d.pos+n then suspend "truncated payload"
  else
    setPos (d.pos+n)
    pure (d.buf,d.pos)

/-- The declared width of an array's elements, each side normalised, and when
a one-byte element has to be compared at all. -/
structure Bound where
  /-- Either side was declared. -/
  bounded : Bool
  /-- The lower end. -/
  lo : ℤ
  /-- The upper end. -/
  hi : ℤ
  /-- A one-byte element may be outside. -/
  checkFast : Bool

/-- Normalise a declared width. -/
def Bound.of (lo hi : Option ℤ) (zigzag : Bool) : Bound :=
  let bounded := lo.isSome || hi.isSome
  let blo := lo.getD signedMin
  let bhi := hi.getD unsignedMax
  {bounded := bounded, lo := blo, hi := bhi
   checkFast := bounded && (if zigzag then blo > -65 || bhi < 63 else blo > 0 || bhi < 127)}

/-- The value of an element. -/
def element (zigzag : Bool) (raw : ℕ) : ℤ := if zigzag then Zigzag.decode raw else raw

/-- The bytes of an element after the first, inside a window of ten bytes, so
that no end-of-buffer test is needed. -/
def windowTail : ℕ → ℕ → ℕ → ℕ → DecM V (ℕ × ℕ)
  | 0, result, shift, pos => do
    let b ← byteAt pos
    if 1 < b.toNat then throw (.decode "overlong varint")
    else pure (result|||b.toNat<<<shift,pos+1)
  | turns+1, result, shift, pos => do
    let b ← byteAt pos
    let result := result|||(b.toNat%128)<<<shift
    if b.toNat < 0x80 then pure (result,pos+1)
    else windowTail turns result (shift+7) (pos+1)

/-- An element of more than one byte, whose first is `b` at `pos`: its raw value
and where it ends. -/
def multiByte (b : UInt8) (pos : ℕ) : DecM V (ℕ × ℕ) := do
  if 9 ≤ (← get).n-(pos+1) then windowTail 8 (b.toNat%128) 7 (pos+1)
  else
    -- replay this element from its first byte
    setPos pos
    let result ← varint
    pure (result,(← get).pos)

/-- Store an element where it goes, or append it to the list being built. -/
def keepElement (c : Config V) (into : Option Sink) (base i : ℕ) (x : ℤ) (out : List ℤ) :
    DecM V (List ℤ) := do
  match into with
  | some sink =>
    perform (sink.put c (base+i) x)
    pure out
  | none => pure (out++[x])

/-- The element loop of `_read_varints`: `left` elements are to be read, `i`
have been, and the local cursor is at `pos`. -/
def readVarintsLoop (c : Config V) (bound : Bound) (zigzag : Bool) (into : Option Sink)
    (base : ℕ) : ℕ → ℕ → ℕ → List ℤ → DecM V (List ℤ)
  | 0, _, pos, out => do
    setPos pos
    pure out
  | left+1, i, pos, out => do
    let d ← get
    if d.n ≤ pos then
      setPos pos
      suspend "truncated varint"
    else
      let b ← byteAt pos
      if b.toNat < 0x80 then
        let x := element zigzag b.toNat
        if bound.checkFast && (x < bound.lo || x > bound.hi) then
          throw (.decode "array element outside declared width")
        else
          let out ← keepElement c into base i x out
          readVarintsLoop c bound zigzag into base left (i+1) (pos+1) out
      else
        let (result,pos) ← multiByte b pos
        let x := element zigzag result
        if bound.bounded && (x < bound.lo || x > bound.hi) then
          throw (.decode "array element outside declared width")
        else
          let out ← keepElement c into base i x out
          readVarintsLoop c bound zigzag into base left (i+1) pos out

/-- Decode `count` consecutive varints (`_read_varints`). -/
def readVarints (c : Config V) (count : ℕ) (lo hi : Option ℤ) (zigzag : Bool)
    (into : Option Sink) (base : ℕ) : DecM V (List ℤ) := do
  readVarintsLoop c (.of lo hi zigzag) zigzag into base count 0 (← get).pos []

end SofaBuffers
