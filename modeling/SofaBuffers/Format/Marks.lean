import SofaBuffers.Format.Grammar

/-!
# A stream as a row of constructs

Whatever a stream comes to, the bytes of it that were read are those of whole
constructs: values, and marks that open and close sequences. A value that is
skipped need not be text, and the marks need not be balanced.
-/

set_option autoImplicit false

namespace SofaBuffers

/-- A construct of a stream. -/
inductive Mark
  /-- A value of a field. -/
  | value (id : ℕ) (x : Datum)
  /-- A sequence opens. -/
  | start (id : ℕ)
  /-- A sequence closes. -/
  | stop
  deriving DecidableEq, Repr

/-- The bytes are a construct's. -/
inductive Mark.Spelled : Mark → List UInt8 → Prop
  /-- The leading words of a value and its bytes. -/
  | value {hd bs : List UInt8} {id : ℕ} {x : Datum} (h : Announces hd (.value id x.extent))
      (hb : Body x bs) : Spelled (.value id x) (hd++bs)
  /-- The header of a sequence. -/
  | start {hd : List UInt8} {id : ℕ} (h : Announces hd (.start id)) : Spelled (.start id) hd
  /-- The end marker of a sequence. -/
  | stop {hd : List UInt8} (h : Announces hd .stop) : Spelled .stop hd

/-- The bytes are those of constructs in a row. -/
inductive Marked : List Mark → List UInt8 → Prop
  /-- No bytes are no constructs. -/
  | nil : Marked [] []
  /-- The bytes of one more construct follow. -/
  | snoc {ms : List Mark} {m : Mark} {xs bs : List UInt8} (h : m.Spelled bs) :
      Marked ms xs → Marked (ms++[m]) (xs++bs)

/-- The bytes do not begin with a construct that is whole. -/
def Unfinished (rest : List UInt8) : Prop := ∀ m bs ys, Mark.Spelled m bs → rest≠bs++ys

/-- Constructs behind constructs are constructs. -/
theorem Marked.append {ms ns : List Mark} {xs ys : List UInt8} (h : Marked ms xs)
    (h' : Marked ns ys) : Marked (ms++ns) (xs++ys) := by
  induction h' with
  | nil => rwa [List.append_nil,List.append_nil]
  | snoc hm _ ih =>
    rw [←List.append_assoc,←List.append_assoc]
    exact .snoc hm ih

/-- One construct comes first. -/
theorem Marked.cons {m : Mark} {ms : List Mark} {bs xs : List UInt8} (hm : m.Spelled bs)
    (h : Marked ms xs) : Marked (m::ms) (bs++xs) :=
  (Marked.snoc hm .nil).append h

/-- The constructs of fields. -/
def Tree.marks : Tree → List Mark
  | .nil => []
  | .value id x rest => .value id x::rest.marks
  | .sequence id inner rest => .start id::(inner.marks++(.stop::rest.marks))

/-- Well-formed fields are their constructs in a row. -/
theorem Fields.marked {room : ℕ} {t : Tree} {xs : List UInt8} (h : Fields room t xs) :
    Marked t.marks xs := by
  induction h with
  | nil => exact .nil
  | value ha hb _ _ ih =>
    rw [←List.append_assoc]
    exact .cons (.value ha hb) ih
  | sequence ha htl _ _ ih ih' => exact .cons (.start ha) (ih.append (.cons (.stop htl) ih'))

end SofaBuffers
