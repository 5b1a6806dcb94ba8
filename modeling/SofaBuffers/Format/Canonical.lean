import SofaBuffers.Format.Grammar

/-!
# One spelling of every message

The grammar lets a varint be padded and an end marker carry any id, so a row of
fields has many spellings. One of them pads nothing and ends every sequence with
the id 0. It is well formed whenever any spelling is, it is no longer than any,
and it is the only one without padding and without ids on its end markers.
-/

set_option autoImplicit false

namespace SofaBuffers

open Varint

/-- The numbers that announce a value, in order. -/
def Extent.numbers (id : ℕ) : Extent → List ℕ
  | .scalar signed => [id*8+(scalarType signed).toNat]
  | .fixlen st n => [id*8+WireType.fixlen.toNat,n*8+st.toNat]
  | .varray signed n => [id*8+(varrayType signed).toNat,n]
  | .farray st n size => [id*8+WireType.arrayFixlen.toNat,n,size*8+st.toNat]

/-- The numbers in the bytes of a value. -/
def Datum.numbers : Datum → List ℕ
  | .scalar _ raw => [raw]
  | .varray _ raws => raws
  | .fixlen .. | .farray .. => []

/-- The bytes of a value that are no varints. -/
def Datum.payload : Datum → List UInt8
  | .fixlen _ data => data
  | .farray _ _ _ data => data
  | .scalar .. | .varray .. => []

/-- The bytes of a value, nothing being padded. -/
def Datum.bytes (id : ℕ) (x : Datum) : List UInt8 :=
  (x.extent.numbers id).flatMap encode++(x.numbers.flatMap encode++x.payload)

/-- The bytes of fields, nothing being padded and every end marker being of id 0. -/
def Tree.bytes : Tree → List UInt8
  | .nil => []
  | .value id x rest => x.bytes id++rest.bytes
  | .sequence id inner rest =>
    encode (id*8+WireType.sequenceStart.toNat)++
      (inner.bytes++(encode WireType.sequenceEnd.toNat++rest.bytes))

/-- The bytes are well-formed fields, and the varints in them and the ids of their end
markers are these, in order. -/
inductive Spelled : ℕ → Tree → List UInt8 → List (List UInt8) → List ℕ → Prop
  /-- There are no fields. -/
  | nil (room : ℕ) : Spelled room .nil [] [] []
  /-- A value and the fields behind it. -/
  | value {room id : ℕ} {x : Datum} {rest : Tree} {ws vs us : List (List UInt8)} {xs : List UInt8}
      {ends : List ℕ} (h : Announces ws.flatten (.value id x.extent))
      (hw : List.Forall₂ Word ws (x.extent.numbers id)) (hb : Body x (vs.flatten++x.payload))
      (hv : List.Forall₂ Word vs x.numbers) (ht : x.Textual) :
      Spelled room rest xs us ends →
      Spelled room (.value id x rest) (ws.flatten++((vs.flatten++x.payload)++xs)) (ws++(vs++us)) ends
  /-- A sequence and the fields behind it. -/
  | sequence {room id last : ℕ} {inner rest : Tree} {hd tl xs ys : List UInt8}
      {us vs : List (List UInt8)} {ends ends' : List ℕ}
      (h : Header hd id .sequenceStart) (ht : Header tl last .sequenceEnd) :
      Spelled room inner xs us ends → Spelled (room+1) rest ys vs ends' →
      Spelled (room+1) (.sequence id inner rest) (hd++(xs++(tl++ys))) (hd::(us++tl::vs))
        (ends++last::ends')

/-- No varint of the bytes is padded, and no end marker of theirs has an id. -/
def Plain (s : List UInt8) : Prop :=
  ∃ t words ends, Spelled maxDepth t s words ends ∧ (∀ w ∈ words, Shortest w) ∧ ∀ id ∈ ends, id=0

/-- The fields of a scope behind others. -/
def Tree.append : Tree → Tree → Tree
  | .nil,u => u
  | .value id x rest,u => .value id x (rest.append u)
  | .sequence id inner rest,u => .sequence id inner (rest.append u)

section Words

variable {id : ℕ} {hd bs : List UInt8} {x : Datum}

/-- The words that announce a value spell its numbers. -/
theorem Announces.words {e : Extent} (h : Announces hd (.value id e)) :
    ∃ ws : List (List UInt8), hd=ws.flatten ∧ List.Forall₂ Word ws (e.numbers id) := by
  cases h with
  | scalar signed h => exact ⟨[hd],by simp,.cons h.1 .nil⟩
  | @fixlen hd wd _ n st h hw hn => exact ⟨[hd,wd],by simp,.cons h.1 (.cons hw .nil)⟩
  | @varray hd cd _ n signed h hc hn => exact ⟨[hd,cd],by simp,.cons h.1 (.cons hc .nil)⟩
  | @farray hd cd wd _ n size st h hc hn hw hs =>
    exact ⟨[hd,cd,wd],by simp,.cons h.1 (.cons hc (.cons hw .nil))⟩

/-- The varints in the bytes of a value spell its numbers, and the payload follows. -/
theorem Body.words (h : Body x bs) :
    ∃ vs : List (List UInt8), bs=vs.flatten++x.payload ∧ List.Forall₂ Word vs x.numbers := by
  cases h with
  | scalar signed h => exact ⟨[bs],by simp [Datum.payload],.cons h .nil⟩
  | fixlen st => exact ⟨[],rfl,.nil⟩
  | varray signed h =>
    obtain ⟨ws,rfl,hws⟩ := h.words
    exact ⟨ws,by simp [Datum.payload],hws⟩
  | farray st h => exact ⟨[],rfl,.nil⟩

/-- A word of 64 bits is spelled by its encoding. -/
theorem word_of_lt {v : ℕ} (h : v < 2^64) : Word (encode v) v := by
  have henc := spells_encode (i:=0) (v:=v) (by omega) (by omega)
  rw [Nat.pow_zero,Nat.mul_one] at henc
  exact henc

/-- A number that is spelled is a word of 64 bits. -/
theorem word_encode {v : ℕ} (h : Word bs v) : Word (encode v) v := word_of_lt h.lt

/-- An end marker without padding and of id 0. -/
theorem stop_encode : Announces (encode WireType.sequenceEnd.toNat) .stop := by
  have h : Header (encode WireType.sequenceEnd.toNat) 0 .sequenceEnd :=
    ⟨word_of_lt (by decide),Nat.zero_le _⟩
  exact .stop h

/-- A header is one however it is spelled. -/
theorem Header.encode {t : WireType} (h : Header hd id t) : Header (encode (id*8+t.toNat)) id t :=
  ⟨word_encode h.1,h.2⟩

/-- What announces a value does so without padding. -/
theorem Announces.encode {e : Extent} (h : Announces hd (.value id e)) :
    Announces ((e.numbers id).flatMap encode) (.value id e) := by
  cases h with
  | scalar signed h =>
    simpa [Extent.numbers] using Announces.scalar signed h.encode
  | fixlen h hw hn =>
    simpa [Extent.numbers] using Announces.fixlen h.encode (word_encode hw) hn
  | varray signed h hc hn =>
    simpa [Extent.numbers] using Announces.varray signed h.encode (word_encode hc) hn
  | farray h hc hn hw hs =>
    simpa [Extent.numbers] using Announces.farray h.encode (word_encode hc) hn (word_encode hw) hs

/-- What the bytes of a value are without padding. -/
theorem Body.encode (h : Body x bs) : Body x (x.numbers.flatMap encode++x.payload) := by
  cases h with
  | scalar signed h =>
    simpa [Datum.numbers,Datum.payload] using Body.scalar signed (word_encode h)
  | fixlen st => exact .fixlen st _
  | @varray bs raws signed h =>
    have hall := spellsAll_encode h.lt
    simpa [Datum.numbers,Datum.payload] using Body.varray signed hall
  | farray st h => exact .farray st h

end Words

section Spelled

variable {room : ℕ} {t : Tree} {s : List UInt8} {words : List (List UInt8)} {ends : List ℕ}

/-- Well-formed fields have varints and end markers. -/
theorem Fields.spelled (h : Fields room t s) : ∃ words ends, Spelled room t s words ends := by
  induction h with
  | nil room => exact ⟨[],[],.nil room⟩
  | value h hb ht _ ih =>
    obtain ⟨words,ends,hrest⟩ := ih
    obtain ⟨ws,rfl,hws⟩ := h.words
    obtain ⟨vs,rfl,hvs⟩ := hb.words
    exact ⟨_,_,.value h hws hb hvs ht hrest⟩
  | sequence h ht _ _ ih ih' =>
    obtain ⟨us,ends,hinner⟩ := ih
    obtain ⟨vs,ends',hrest⟩ := ih'
    cases h with
    | start h =>
      cases ht with
      | stop ht => exact ⟨_,_,.sequence h ht hinner hrest⟩

/-- Bytes whose varints and end markers are told are well-formed fields. -/
theorem Spelled.fields (h : Spelled room t s words ends) : Fields room t s := by
  induction h with
  | nil room => exact .nil room
  | value h hw hb hv ht _ ih => exact .value h hb ht ih
  | sequence h ht _ _ ih ih' => exact .sequence (.start h) (.stop ht) ih ih'

/-- Fields that are well formed are so without padding. -/
theorem Fields.bytes (h : Fields room t s) : Fields room t t.bytes := by
  induction h with
  | nil room => exact .nil room
  | value h hb ht _ ih =>
    rw [Tree.bytes,Datum.bytes,List.append_assoc]
    exact .value h.encode hb.encode ht ih
  | sequence h ht _ _ ih ih' =>
    cases h with
    | start h => exact .sequence (.start h.encode) stop_encode ih ih'

/-- Well-formed fields behind well-formed fields. -/
theorem Fields.append (h : Fields room t s) {u : Tree} {xs : List UInt8} (hu : Fields room u xs) :
    Fields room (t.append u) (s++xs) := by
  induction h with
  | nil => exact hu
  | value h hb ht _ ih =>
    rw [List.append_assoc,List.append_assoc]
    exact .value h hb ht (ih hu)
  | sequence h ht hinner _ _ ih' =>
    rw [List.append_assoc,List.append_assoc,List.append_assoc]
    exact .sequence h ht hinner (ih' hu)

/-- Padding only makes fields longer. -/
theorem Spelled.length (h : Spelled room t s words ends) : t.bytes.length ≤ s.length := by
  induction h with
  | nil room => exact Nat.le_refl _
  | value h hw hb hv ht _ ih =>
    have hws := words_length hw
    have hvs := words_length hv
    simp only [Tree.bytes,Datum.bytes,List.length_append]
    omega
  | @sequence room id last inner rest hd tl xs ys us vs ends ends' h ht _ _ ih ih' =>
    have hhd := h.1.length_encode
    have htl : (encode WireType.sequenceEnd.toNat).length ≤ tl.length := by
      have hone : (encode WireType.sequenceEnd.toNat).length=1 := by decide
      have hpos := ht.1.length.1
      omega
    simp only [Tree.bytes,List.length_append]
    omega

/-- Fields without padding and without ids on their end markers are spelled in one way. -/
theorem Spelled.plain (h : Spelled room t s words ends) (hw : ∀ w ∈ words, Shortest w)
    (he : ∀ id ∈ ends, id=0) : s=t.bytes := by
  induction h with
  | nil room => rfl
  | @value room id x rest ws vs us xs ends h hws hb hvs ht _ ih =>
    have hlead := words_shortest hws fun w hm => hw w (List.mem_append_left _ hm)
    have hbody := words_shortest hvs fun w hm =>
      hw w (List.mem_append_right _ (List.mem_append_left _ hm))
    have hrest := ih (fun w hm => hw w (List.mem_append_right _ (List.mem_append_right _ hm))) he
    simp only [hlead,hbody,hrest,Tree.bytes,Datum.bytes,List.append_assoc]
  | @sequence room id last inner rest hd tl xs ys us vs ends ends' h ht _ _ ih ih' =>
    have hhd := h.1.eq_encode (hw hd List.mem_cons_self)
    have htl := ht.1.eq_encode (hw tl (by simp))
    have hlast : last=0 := he last (by simp)
    have hinner := ih (fun w hm => hw w (by simp [hm])) fun e hm => he e (by simp [hm])
    have hrest := ih' (fun w hm => hw w (by simp [hm])) fun e hm => he e (by simp [hm])
    rw [hlast,Nat.zero_mul,Nat.zero_add] at htl
    rw [Tree.bytes,hhd,htl,hinner,hrest]

end Spelled

end SofaBuffers
