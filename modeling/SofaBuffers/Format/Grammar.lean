import SofaBuffers.Types
import SofaBuffers.Varint
import SofaBuffers.Utf8

/-!
# The grammar of the format

What a string of bytes has to be to be a message. A construct opens with its
leading words, which announce a value, the start of a sequence or the end of
one, and the bytes of an announced value follow. A message is a row of fields,
and a field is a value or a sequence of fields in its turn. The grammar also
says what it is for the first construct that is not whole to be broken on the
bytes there are, and what it is for the bytes to end inside it.
-/

set_option autoImplicit false

namespace SofaBuffers

/-- The bytes are one varint of at most 64 bits. -/
abbrev Word (bs : List UInt8) (v : ℕ) : Prop := Varint.Spells 0 bs v

/-- The bytes are ten bytes of a varint past 64 bits. -/
abbrev Overlong (bs : List UInt8) : Prop := Varint.Overlong 0 bs

/-- The bytes end inside a varint. -/
abbrev CutWord (bs : List UInt8) : Prop := Varint.Cut 0 bs

/-- What the leading words tell of a value. -/
inductive Extent
  /-- One varint. -/
  | scalar (signed : Bool)
  /-- So many payload bytes. -/
  | fixlen (st : FixlenSubtype) (length : ℕ)
  /-- So many varints. -/
  | varray (signed : Bool) (count : ℕ)
  /-- So many elements of a size. -/
  | farray (st : FixlenSubtype) (count size : ℕ)
  deriving DecidableEq, Repr

/-- What the leading words of a construct announce. -/
inductive Lead
  /-- A value of a field. -/
  | value (id : ℕ) (x : Extent)
  /-- A sequence opens. -/
  | start (id : ℕ)
  /-- A sequence closes. -/
  | stop
  deriving DecidableEq, Repr

/-- The wire type of a lone integer. -/
def scalarType (signed : Bool) : WireType := if signed then .signed else .unsigned

/-- The wire type of an integer array. -/
def varrayType (signed : Bool) : WireType := if signed then .arraySigned else .arrayUnsigned

/-- A second word follows the header. -/
def WireType.Worded (t : WireType) : Prop :=
  t=.fixlen ∨ t=.arrayUnsigned ∨ t=.arraySigned ∨ t=.arrayFixlen

/-- The second word is a count of elements. -/
def WireType.Counted (t : WireType) : Prop :=
  t=.arrayUnsigned ∨ t=.arraySigned ∨ t=.arrayFixlen

/-- The lengths a payload of a subtype may have. -/
def FixlenSubtype.Allows (st : FixlenSubtype) (n : ℕ) : Prop :=
  match st with
  | .fp32 => n=4
  | .fp64 => n=8
  | .string | .blob => n ≤ fixlenMax

/-- The sizes an array element of a subtype may have. -/
def FixlenSubtype.Sizes (st : FixlenSubtype) (n : ℕ) : Prop :=
  match st with
  | .fp32 => n=4
  | .fp64 => n=8
  | .string | .blob => False

/-- A header: an id in range and a wire type. -/
def Header (hd : List UInt8) (id : ℕ) (t : WireType) : Prop :=
  Word hd (id*8+t.toNat) ∧ id ≤ idMax

/-- Leading words and what they announce. -/
inductive Announces : List UInt8 → Lead → Prop
  /-- A lone integer. -/
  | scalar {hd : List UInt8} {id : ℕ} (signed : Bool) (h : Header hd id (scalarType signed)) :
      Announces hd (.value id (.scalar signed))
  /-- A payload, by its subtype and length. -/
  | fixlen {hd wd : List UInt8} {id n : ℕ} {st : FixlenSubtype} (h : Header hd id .fixlen)
      (hw : Word wd (n*8+st.toNat)) (hn : st.Allows n) :
      Announces (hd++wd) (.value id (.fixlen st n))
  /-- An integer array, by its count. -/
  | varray {hd cd : List UInt8} {id n : ℕ} (signed : Bool) (h : Header hd id (varrayType signed))
      (hc : Word cd n) (hn : n ≤ arrayMax) : Announces (hd++cd) (.value id (.varray signed n))
  /-- A fixlen array, by its count and then its subtype and element size. -/
  | farray {hd cd wd : List UInt8} {id n size : ℕ} {st : FixlenSubtype}
      (h : Header hd id .arrayFixlen) (hc : Word cd n) (hn : n ≤ arrayMax)
      (hw : Word wd (size*8+st.toNat)) (hs : st.Sizes size) :
      Announces (hd++(cd++wd)) (.value id (.farray st n size))
  /-- The start of a sequence. -/
  | start {hd : List UInt8} {id : ℕ} (h : Header hd id .sequenceStart) : Announces hd (.start id)
  /-- The end of a sequence, under any id in range. -/
  | stop {hd : List UInt8} {id : ℕ} (h : Header hd id .sequenceEnd) : Announces hd .stop

/-- The first leading word that is not well formed is whole. -/
inductive Misannounced : List UInt8 → Prop
  /-- The header is past 64 bits. -/
  | header {hd : List UInt8} (h : Overlong hd) (rest : List UInt8) : Misannounced (hd++rest)
  /-- The id is out of range. -/
  | id {hd : List UInt8} {id : ℕ} {t : WireType} (h : Word hd (id*8+t.toNat)) (hid : idMax < id)
      (rest : List UInt8) : Misannounced (hd++rest)
  /-- The length or the count is past 64 bits. -/
  | second {hd wd : List UInt8} {id : ℕ} {t : WireType} (h : Header hd id t) (ht : t.Worded)
      (hw : Overlong wd) (rest : List UInt8) : Misannounced (hd++(wd++rest))
  /-- The subtype does not exist or does not allow the length. -/
  | length {hd wd : List UInt8} {id w : ℕ} (h : Header hd id .fixlen) (hw : Word wd w)
      (hn : ∀ n (st : FixlenSubtype), w=n*8+st.toNat → ¬st.Allows n) (rest : List UInt8) :
      Misannounced (hd++(wd++rest))
  /-- The count is out of range. -/
  | count {hd cd : List UInt8} {id n : ℕ} {t : WireType} (h : Header hd id t) (ht : t.Counted)
      (hc : Word cd n) (hn : arrayMax < n) (rest : List UInt8) : Misannounced (hd++(cd++rest))
  /-- The element word is past 64 bits. -/
  | third {hd cd wd : List UInt8} {id n : ℕ} (h : Header hd id .arrayFixlen) (hc : Word cd n)
      (hn : n ≤ arrayMax) (hw : Overlong wd) (rest : List UInt8) :
      Misannounced (hd++(cd++(wd++rest)))
  /-- The elements are not floats of their size. -/
  | size {hd cd wd : List UInt8} {id n w : ℕ} (h : Header hd id .arrayFixlen) (hc : Word cd n)
      (hn : n ≤ arrayMax) (hw : Word wd w)
      (hs : ∀ n (st : FixlenSubtype), w=n*8+st.toNat → ¬st.Sizes n) (rest : List UInt8) :
      Misannounced (hd++(cd++(wd++rest)))

/-- The bytes end inside the leading words, none of them being broken. -/
inductive CutLead : List UInt8 → Prop
  /-- The bytes end inside the header. -/
  | header {hd : List UInt8} (h : CutWord hd) : CutLead hd
  /-- Inside the length or the count. -/
  | second {hd wd : List UInt8} {id : ℕ} {t : WireType} (h : Header hd id t) (ht : t.Worded)
      (hw : CutWord wd) : CutLead (hd++wd)
  /-- Inside the element word. -/
  | third {hd cd wd : List UInt8} {id n : ℕ} (h : Header hd id .arrayFixlen) (hc : Word cd n)
      (hn : n ≤ arrayMax) (hw : CutWord wd) : CutLead (hd++(cd++wd))

/-- A value, as far as the wire tells: raw integers and payloads. -/
inductive Datum
  /-- A lone integer. -/
  | scalar (signed : Bool) (raw : ℕ)
  /-- A payload. -/
  | fixlen (st : FixlenSubtype) (data : List UInt8)
  /-- An integer array. -/
  | varray (signed : Bool) (raws : List ℕ)
  /-- The payload of an array of floats. -/
  | farray (st : FixlenSubtype) (count size : ℕ) (data : List UInt8)
  deriving DecidableEq, Repr

/-- What the leading words of a value tell of it. -/
def Datum.extent : Datum → Extent
  | .scalar signed _ => .scalar signed
  | .fixlen st data => .fixlen st data.length
  | .varray signed raws => .varray signed raws.length
  | .farray st count size _ => .farray st count size

/-- The bytes of a value. -/
inductive Body : Datum → List UInt8 → Prop
  /-- One varint. -/
  | scalar {bs : List UInt8} {raw : ℕ} (signed : Bool) (h : Word bs raw) :
      Body (.scalar signed raw) bs
  /-- The payload itself. -/
  | fixlen (st : FixlenSubtype) (data : List UInt8) : Body (.fixlen st data) data
  /-- A varint an element. -/
  | varray {bs : List UInt8} {raws : List ℕ} (signed : Bool) (h : Varint.SpellsAll bs raws) :
      Body (.varray signed raws) bs
  /-- So many elements of a size. -/
  | farray {data : List UInt8} {count size : ℕ} (st : FixlenSubtype)
      (h : data.length=count*size) : Body (.farray st count size data) data

/-- A string is UTF-8. -/
def Datum.Textual : Datum → Prop
  | .fixlen .string data => Utf8.valid data=true
  | _ => True

/-- The bytes of a value break a rule on a part that is whole. -/
inductive BrokenBody : Extent → List UInt8 → Prop
  /-- A lone integer is past 64 bits. -/
  | scalar {bs : List UInt8} (signed : Bool) (h : Overlong bs) (rest : List UInt8) :
      BrokenBody (.scalar signed) (bs++rest)
  /-- A string is not UTF-8. -/
  | text {data : List UInt8} (h : Utf8.valid data=false) (rest : List UInt8) :
      BrokenBody (.fixlen .string data.length) (data++rest)
  /-- An element is past 64 bits. -/
  | element {es bs : List UInt8} {raws : List ℕ} {n : ℕ} (signed : Bool)
      (h : Varint.SpellsAll es raws) (hn : raws.length < n) (ho : Overlong bs) (rest : List UInt8) :
      BrokenBody (.varray signed n) (es++(bs++rest))

/-- The bytes end inside a value. -/
inductive CutBody : Extent → List UInt8 → Prop
  /-- Inside a lone integer. -/
  | scalar {bs : List UInt8} (signed : Bool) (h : CutWord bs) : CutBody (.scalar signed) bs
  /-- Inside a payload. -/
  | fixlen {bs : List UInt8} {n : ℕ} (st : FixlenSubtype) (h : bs.length < n) :
      CutBody (.fixlen st n) bs
  /-- Before or inside an element. -/
  | varray {es bs : List UInt8} {raws : List ℕ} {n : ℕ} (signed : Bool)
      (h : Varint.SpellsAll es raws) (hn : raws.length < n) (hb : CutWord bs) :
      CutBody (.varray signed n) (es++bs)
  /-- Inside the payload of an array. -/
  | farray {bs : List UInt8} {n size : ℕ} (st : FixlenSubtype) (h : bs.length < n*size) :
      CutBody (.farray st n size) bs

/-- The fields of a scope. -/
inductive Tree
  /-- There are no more fields. -/
  | nil
  /-- A value, and the fields behind it. -/
  | value (id : ℕ) (x : Datum) (rest : Tree)
  /-- A sequence with the fields inside it, and the fields behind it. -/
  | sequence (id : ℕ) (inner rest : Tree)
  deriving DecidableEq, Repr

/-- The bytes are well-formed fields, sequences being nested no deeper than there
is room for. -/
inductive Fields : ℕ → Tree → List UInt8 → Prop
  /-- No bytes are no fields. -/
  | nil (room : ℕ) : Fields room .nil []
  /-- A value and the fields behind it. -/
  | value {room id : ℕ} {x : Datum} {rest : Tree} {hd bs xs : List UInt8}
      (h : Announces hd (.value id x.extent)) (hb : Body x bs) (ht : x.Textual) :
      Fields room rest xs → Fields room (.value id x rest) (hd++(bs++xs))
  /-- A sequence, balanced, and the fields behind it. -/
  | sequence {room id : ℕ} {inner rest : Tree} {hd tl xs ys : List UInt8}
      (h : Announces hd (.start id)) (ht : Announces tl .stop) :
      Fields room inner xs → Fields (room+1) rest ys →
      Fields (room+1) (.sequence id inner rest) (hd++(xs++(tl++ys)))

/-- The bytes are a message of the format. -/
def Message (s : List UInt8) : Prop := ∃ t, Fields maxDepth t s

/-- Whole well-formed constructs lead from one depth to another. -/
inductive Leads : ℕ → List UInt8 → ℕ → Prop
  /-- No constructs lead nowhere. -/
  | nil (d : ℕ) : Leads d [] d
  /-- A value. -/
  | value {d e id : ℕ} {x : Datum} {hd bs xs : List UInt8} (h : Announces hd (.value id x.extent))
      (hb : Body x bs) (ht : x.Textual) : Leads d xs e → Leads d (hd++(bs++xs)) e
  /-- A sequence opens. -/
  | start {d e id : ℕ} {hd xs : List UInt8} (h : Announces hd (.start id)) (hd' : d < maxDepth) :
      Leads (d+1) xs e → Leads d (hd++xs) e
  /-- A sequence closes. -/
  | stop {d e : ℕ} {hd xs : List UInt8} (h : Announces hd .stop) :
      Leads d xs e → Leads (d+1) (hd++xs) e

/-- The construct that comes next at a depth breaks a rule on a part that is whole. -/
inductive Broken (d : ℕ) : List UInt8 → Prop
  /-- In its leading words. -/
  | lead {xs : List UInt8} (h : Misannounced xs) : Broken d xs
  /-- The value behind its leading words is broken. -/
  | value {hd xs : List UInt8} {id : ℕ} {x : Extent} (h : Announces hd (.value id x))
      (hb : BrokenBody x xs) : Broken d (hd++xs)
  /-- It opens one sequence too many. -/
  | start {hd : List UInt8} {id : ℕ} (h : Announces hd (.start id)) (hd' : maxDepth ≤ d)
      (rest : List UInt8) : Broken d (hd++rest)
  /-- It closes a sequence and none is open. -/
  | stop {hd : List UInt8} (h : Announces hd .stop) (hd' : d=0) (rest : List UInt8) :
      Broken d (hd++rest)

/-- The bytes end inside the construct that comes next; so many of them belong to
the leading words or to the value they end in. -/
inductive CutShort : List UInt8 → ℕ → Prop
  /-- In its leading words, of which there are some. -/
  | lead {xs : List UInt8} (h : CutLead xs) (hne : xs≠[]) : CutShort xs xs.length
  /-- The bytes end in the value behind its leading words. -/
  | value {hd xs : List UInt8} {id : ℕ} {x : Extent} (h : Announces hd (.value id x))
      (hb : CutBody x xs) : CutShort (hd++xs) xs.length

/-- The first construct that is not whole and well formed is broken. -/
def Malformed (s : List UInt8) : Prop :=
  ∃ done d rest, s=done++rest ∧ Leads 0 done d ∧ Broken d rest

/-- The bytes end inside a construct, or with a sequence open; `n` of them belong to
the part they end in. -/
def Truncated (s : List UInt8) (n : ℕ) : Prop :=
  ∃ done d rest, s=done++rest ∧ Leads 0 done d ∧ (CutShort rest n ∨ (rest=[] ∧ d≠0 ∧ n=0))

/-- The fields of a scope lead back to its depth. -/
theorem Fields.leads {room d e : ℕ} {t : Tree} {xs rest : List UInt8} (h : Fields room t xs)
    (hd : d+room=maxDepth) (hr : Leads d rest e) : Leads d (xs++rest) e := by
  induction h generalizing d e rest with
  | nil room => exact hr
  | value h hb ht _ ih =>
    rw [List.append_assoc,List.append_assoc]
    exact .value h hb ht (ih hd hr)
  | sequence h ht _ _ ih ih' =>
    rw [List.append_assoc,List.append_assoc,List.append_assoc]
    exact .start h (by omega) (ih (by omega) (.stop ht (ih' hd hr)))

/-- The bytes close so many scopes, each behind the fields left in it. -/
inductive Closes : ℕ → List UInt8 → Prop
  /-- No scope is open. -/
  | zero : Closes 0 []
  /-- The innermost closes, and the fields left in the next one follow. -/
  | succ {d : ℕ} {t : Tree} {tl bs tail : List UInt8} (h : Announces tl .stop)
      (hf : Fields (maxDepth-d) t bs) : Closes d tail → Closes (d+1) (tl++(bs++tail))

/-- Constructs that lead to the ground are fields, and closes of what was open. -/
theorem Leads.closes {d : ℕ} {xs : List UInt8} (h : Leads d xs 0) :
    ∃ t bs tail, Fields (maxDepth-d) t bs ∧ Closes d tail ∧ xs=bs++tail := by
  generalize he : 0=e at h
  induction h with
  | nil d =>
    subst he
    exact ⟨.nil,[],[],.nil _,.zero,rfl⟩
  | value h hb ht _ ih =>
    obtain ⟨t,bs',tail,hf,hc,rfl⟩ := ih he
    exact ⟨_,_,tail,.value h hb ht hf,hc,by simp only [List.append_assoc]⟩
  | @start d e id hd xs h hd' _ ih =>
    obtain ⟨t,bs,tail,hf,hc,rfl⟩ := ih he
    cases hc with
    | succ htl hf' hc =>
      have hroom : maxDepth-d=maxDepth-(d+1)+1 := by omega
      rw [hroom] at hf' ⊢
      exact ⟨_,_,_,.sequence h htl hf hf',hc,by simp only [List.append_assoc]⟩
  | stop h _ ih =>
    obtain ⟨t,bs,tail,hf,hc,rfl⟩ := ih he
    exact ⟨.nil,[],_,.nil _,.succ h hf hc,rfl⟩

/-- A message leads from the ground back to it. -/
theorem message_iff {s : List UInt8} : Message s ↔ Leads 0 s 0 := by
  constructor
  · rintro ⟨t,h⟩
    rw [←List.append_nil s]
    exact h.leads (by rw [Nat.zero_add]) (.nil 0)
  · intro h
    obtain ⟨t,bs,tail,hf,hc,rfl⟩ := h.closes
    cases hc
    exact ⟨t,by rw [List.append_nil]; exact hf⟩

end SofaBuffers
