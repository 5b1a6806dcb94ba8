import SofaBuffers.Encoder.Pruning
import SofaBuffers.Format.Canonical
import SofaBuffers.Stream.Recorder

/-!
# What a call writes

The bytes of a field that is taken are a field of the grammar, whose value a
visitor is told as the call was given it. The bytes of a tree of calls are
therefore the fields of a message, and the calls can be read off what a visitor
is told.
-/

set_option autoImplicit false

namespace SofaBuffers

/-- The integer an argument is. -/
def Given.num : Given → ℤ
  | .int v => v
  | .other _ => 0

/-- The bytes an argument is. -/
def Blob.data : Blob → List UInt8
  | .bytes data => data
  | .other .. => []

/-- The four bytes of each single. -/
def singleBytes (bits : List (BitVec 32)) : List UInt8 := bits.flatMap fun b => leBytes 4 b.toNat

section Written

variable (raw : Bool) (narrow : BitVec 64 → Option (BitVec 32))

/-- A single as a visitor takes it. -/
def Value.single (bits : BitVec 32) : Value :=
  if raw then .float32Bits bits else .float32 (unpackF32 structF32 (leBytes 4 bits.toNat))

/-- Singles as a visitor takes them. -/
def Value.singles (payload : List UInt8) : Value :=
  if raw then .float32ArrayBits (payload.length/4) payload
  else .float32Array (unpackF32Array structF32 payload (payload.length/4) 0)

/-- The id and the value of the field a call writes. -/
def Call.written : Call → Option (Given × Value)
  | .unsigned fieldId value => some (fieldId,.unsigned value.num.toNat)
  | .signed fieldId value => some (fieldId,.signed value.num)
  | .sized w fieldId value =>
    some (fieldId,if w.signed then .signed value.num else .unsigned value.num.toNat)
  | .bool fieldId value => some (fieldId,.unsigned (if value then 1 else 0))
  | .float32 fieldId value => some (fieldId,.single raw (packF32Bits narrow value))
  | .float32Bits fieldId bits => some (fieldId,.single raw (BitVec.ofInt 32 bits.num))
  | .float64 fieldId value => some (fieldId,.float64 value)
  | .string fieldId text => some (fieldId,.string text)
  | .stringBounded fieldId text _ => some (fieldId,.string text)
  | .bytes fieldId data => some (fieldId,.bytes data.data)
  | .bytesBounded fieldId data _ => some (fieldId,.bytes data.data)
  | .unsignedArray fieldId values => some (fieldId,.unsignedArray (values.map Given.num))
  | .signedArray fieldId values => some (fieldId,.signedArray (values.map Given.num))
  | .sizedArray w fieldId values _ =>
    some (fieldId,if w.signed then .signedArray (values.map Given.num)
      else .unsignedArray (values.map Given.num))
  | .boolArray fieldId values =>
    some (fieldId,.unsignedArray (values.map fun v => if v then 1 else 0))
  | .boolArrayBounded fieldId values _ =>
    some (fieldId,.unsignedArray (values.map fun v => if v then 1 else 0))
  | .float32Array fieldId values =>
    some (fieldId,.singles raw (singleBytes (values.map (packF32Bits narrow))))
  | .float32ArrayBounded fieldId values _ =>
    some (fieldId,.singles raw (singleBytes (values.map (packF32Bits narrow))))
  | .float32ArrayBits fieldId payload _ => some (fieldId,.singles raw payload)
  | .float64Array fieldId values => some (fieldId,.float64Array values)
  | .float64ArrayBounded fieldId values _ => some (fieldId,.float64Array values)
  | .sequenceBeginLazy _ | .sequenceEnd | .sequenceEndKeep => none

/-- What a visitor is told of a field. -/
def Call.told (c : Call) : List (Event Unit) :=
  match c.written raw narrow with
  | some (fieldId,v) => [.value () fieldId.num.toNat v]
  | none => []

/-- What a visitor is told of a tree of calls, every sequence being framed. -/
def CallTree.told : CallTree → List (Event Unit)
  | .nil => []
  | .field before c => before.told++c.told raw narrow
  | .sequence before id body _ =>
    before.told++.sequenceBegin () id::(body.told++[.sequenceEnd ()])

end Written

/-- The bytes are a field of an id and a value. -/
def Writes (bytes : List UInt8) (fieldId : Given) (x : Datum) : Prop :=
  ∃ (id : ℕ) (hd bs : List UInt8), fieldId=.int id ∧ bytes=hd++bs ∧
    Announces hd (.value id x.extent) ∧ Body x bs ∧ x.Textual

section Moves

variable {fieldId : Given} {bytes : List UInt8}

/-- A header of an id in range is one. -/
theorem header_bytes {id : ℕ} (h : checkedId fieldId=.ok id) (t : WireType) :
    fieldId=.int id ∧ Header (headerBytes id t) id t := by
  have hid := checkedId_le h
  have ht := t.toNat_lt
  have hmax : idMax=0x7FFFFFFF := rfl
  exact ⟨checkedId_given h,word_of_lt (by omega),hid⟩

/-- A field of one varint. -/
theorem writes_scalar (signed : Bool) {value : Except Exn ℕ}
    (h : scalarMove fieldId (scalarType signed) value=.field bytes none)
    (hlt : ∀ u, value=.ok u → u < 2^64) :
    ∃ u, value=.ok u ∧ Writes bytes fieldId (.scalar signed u) := by
  rw [scalarMove.eq_def] at h
  cases value with
  | error why => cases h
  | ok u =>
    dsimp only at h
    cases hid : checkedId fieldId with
    | error why =>
      rw [hid] at h
      cases h
    | ok id =>
      rw [hid] at h
      injection h with hbytes _
      obtain ⟨hf,hhd⟩ := header_bytes hid (scalarType signed)
      exact ⟨u,rfl,id,_,_,hf,hbytes.symm,.scalar signed hhd,
        .scalar signed (word_of_lt (hlt u rfl)),trivial⟩

/-- A fixlen field. -/
theorem writes_fixlen {st : FixlenSubtype} {payload : Except Exn (List UInt8)}
    (h : fixlenMove fieldId st payload=.field bytes none)
    (hall : ∀ data, payload=.ok data → data.length ≤ fixlenMax → st.Allows data.length)
    (htext : ∀ data, payload=.ok data → (Datum.fixlen st data).Textual) :
    ∃ data, payload=.ok data ∧ Writes bytes fieldId (.fixlen st data) := by
  rw [fixlenMove.eq_def] at h
  cases payload with
  | error why => cases h
  | ok data =>
    dsimp only at h
    rw [fixlenSize] at h
    by_cases hlong : data.length > fixlenMax
    · rw [if_pos hlong] at h
      cases h
    · rw [if_neg hlong] at h
      dsimp only at h
      cases hid : checkedId fieldId with
      | error why =>
        rw [hid] at h
        cases h
      | ok id =>
        rw [hid] at h
        injection h with hbytes _
        obtain ⟨hf,hhd⟩ := header_bytes hid .fixlen
        have hle : data.length ≤ fixlenMax := Nat.le_of_not_lt hlong
        have hst : st.toNat < 4 := by cases st <;> decide
        have hmax : fixlenMax=0x7FFFFFFF := rfl
        have hword : Word (Varint.encode (data.length*8+st.toNat)) (data.length*8+st.toNat) :=
          word_of_lt (by omega)
        refine ⟨data,rfl,id,_,data,hf,?_,.fixlen hhd hword (hall data rfl hle),.fixlen st data,
          htext data rfl⟩
        rw [←hbytes,List.append_assoc]

/-- An array, as far as its header and its count. -/
theorem writes_array {t : WireType} {count : Except Exn ℕ} {body : List UInt8 × Option Exn}
    (h : arrayMove fieldId t count body=.field bytes none) :
    ∃ n id, count=.ok n ∧ n ≤ arrayMax ∧ fieldId=.int (id : ℕ) ∧
      Header (headerBytes id t) id t ∧ Word (Varint.encode n) n ∧ body.2=none ∧
      bytes=headerBytes id t++(Varint.encode n++body.1) := by
  rw [arrayMove.eq_def] at h
  cases count with
  | error why => cases h
  | ok n =>
    dsimp only at h
    by_cases hlong : n > arrayMax
    · rw [if_pos hlong] at h
      cases h
    · rw [if_neg hlong] at h
      cases hid : checkedId fieldId with
      | error why =>
        rw [hid] at h
        cases h
      | ok id =>
        rw [hid] at h
        injection h with hbytes hbody
        obtain ⟨hf,hhd⟩ := header_bytes hid t
        have hle : n ≤ arrayMax := Nat.le_of_not_lt hlong
        have hmax : arrayMax=0x7FFFFFFF := rfl
        exact ⟨n,id,rfl,hle,hf,hhd,word_of_lt (by omega),hbody,hbytes.symm⟩

/-- A count within a bound is the count. -/
theorem cappedCount_eq {cap : Option ℤ} {n m : ℕ} (h : cappedCount cap n=.ok m) : m=n := by
  rw [cappedCount] at h
  cases hw : withinCap cap n with
  | error why =>
    rw [hw] at h
    cases h
  | ok u =>
    rw [hw] at h
    injection h with h
    exact h.symm

/-- Elements all of which are taken are the encodings of their words. -/
theorem encodeElements_ok {word : Given → Except Exn ℕ} {values : List Given}
    (h : (encodeElements word values).2=none) :
    ∃ words : List ℕ, values.map word=words.map .ok ∧
      (encodeElements word values).1=words.flatMap Varint.encode := by
  induction values with
  | nil => exact ⟨[],rfl,rfl⟩
  | cons v vs ih =>
    rw [encodeElements] at h ⊢
    cases hv : word v with
    | error why =>
      rw [hv] at h
      cases h
    | ok u =>
      rw [hv] at h
      obtain ⟨words,hmap,henc⟩ := ih h
      refine ⟨u::words,?_,?_⟩
      · rw [List.map_cons,List.map_cons,hv,hmap]
      · rw [List.flatMap_cons,←henc]

/-- An array of integers of a width. -/
theorem writes_integers {w : Width} {values : List Given} {cap : ℤ}
    (h : sizedArrayMove w fieldId values cap=.field bytes none) :
    ∃ words : List ℕ, values.map (elementWordOf w)=words.map .ok ∧
      Writes bytes fieldId (.varray w.signed words) := by
  rw [sizedArrayMove] at h
  obtain ⟨n,id,hn,hle,hf,hhd,hcd,hbody,hbytes⟩ := writes_array h
  obtain ⟨words,hmap,henc⟩ := encodeElements_ok hbody
  have hlen : words.length=values.length := by
    rw [←List.length_map (f:=Except.ok),←hmap,List.length_map]
  have hcount : n=words.length := by
    rw [hlen]
    exact cappedCount_eq hn
  subst hcount
  have hwords : ∀ u ∈ words, u < 2^64 := by
    intro u hu
    have hmem : (Except.ok u : Except Exn ℕ) ∈ values.map (elementWordOf w) := by
      rw [hmap]
      exact List.mem_map_of_mem hu
    obtain ⟨v,-,hv⟩ := List.mem_map.mp hmem
    exact elementWordOf_lt w v u hv
  refine ⟨words,hmap,id,_,_,hf,?_,.varray w.signed hhd hcd hle,
    .varray w.signed (Varint.spellsAll_encode hwords),trivial⟩
  rw [hbytes,henc,List.append_assoc]

/-- The byte of a boolean is the encoding of its number. -/
theorem boolByte_encode (v : Bool) : [boolByte v]=Varint.encode (if v then 1 else 0) := by
  cases v <;> decide

/-- An array of booleans. -/
theorem writes_booleans {values : List Bool} {cap : Option ℤ}
    (h : boolArrayMove fieldId values cap=.field bytes none) :
    Writes bytes fieldId (.varray false (values.map fun v => if v then 1 else 0)) := by
  rw [boolArrayMove] at h
  obtain ⟨n,id,hn,hle,hf,hhd,hcd,-,hbytes⟩ := writes_array h
  have hcount : n=(values.map fun v => if v then 1 else 0).length := by
    rw [List.length_map]
    exact cappedCount_eq hn
  have hbody : ∀ vs : List Bool, vs.map boolByte=
      (vs.map fun v => if v then 1 else 0).flatMap Varint.encode := by
    intro vs
    induction vs with
    | nil => rfl
    | cons v vs ih =>
      rw [List.map_cons,List.map_cons,List.flatMap_cons,←boolByte_encode,ih]
      rfl
  have hwords : ∀ u ∈ values.map (fun v => if v then 1 else 0), u < 2^64 := by
    intro u hu
    obtain ⟨v,-,rfl⟩ := List.mem_map.mp hu
    cases v <;> decide
  subst hcount
  refine ⟨id,_,_,hf,?_,.varray false hhd hcd hle,
    .varray false (Varint.spellsAll_encode hwords),trivial⟩
  rw [hbytes,hbody,List.append_assoc]

/-- An array of floats. -/
theorem writes_floats {st : FixlenSubtype} {size : ℕ} {count : Except Exn ℕ}
    {payload : List UInt8} (h : floatArrayMove fieldId st size count payload=.field bytes none)
    (hs : st.Sizes size) (hlen : ∀ n, count=.ok n → payload.length=n*size) :
    ∃ n, count=.ok n ∧ Writes bytes fieldId (.farray st n size payload) := by
  rw [floatArrayMove] at h
  obtain ⟨n,id,hn,hle,hf,hhd,hcd,-,hbytes⟩ := writes_array h
  have hst : size*8+st.toNat < 2^64 := by
    cases st with
    | fp32 =>
      cases (show size=4 from hs)
      decide
    | fp64 =>
      cases (show size=8 from hs)
      decide
    | string | blob => exact hs.elim
  refine ⟨n,hn,id,_,_,hf,?_,.farray hhd hcd hle (word_of_lt hst) hs,.farray st (hlen n hn),
    trivial⟩
  rw [hbytes]
  simp only [List.append_assoc]

end Moves

section Arguments

variable {value : Given}

/-- An argument taken as an integer is that integer. -/
theorem asInt_num {what : String} {v : ℤ} (h : asInt value what=.ok v) : v=value.num := by
  cases value with
  | int x =>
    injection h with h
    exact h.symm
  | other typeName => cases h

/-- An unsigned value is the argument. -/
theorem unsignedValue_num {u : ℕ} (h : unsignedValue value=.ok u) : (u : ℤ)=value.num := by
  rw [unsignedValue] at h
  cases hv : asInt value "unsigned value" with
  | error why =>
    rw [hv] at h
    cases h
  | ok v =>
    rw [hv] at h
    dsimp only at h
    have hnum := asInt_num hv
    split at h
    · cases h
    · injection h with h
      omega

/-- A signed value is the argument, and has 64 bits. -/
theorem signedValue_num {v : ℤ} (h : signedValue value=.ok v) :
    v=value.num ∧ -2^63 ≤ v ∧ v < 2^63 := by
  have hlo : signedMin=-2^63 := rfl
  have hhi : signedMax=2^63-1 := rfl
  rw [signedValue] at h
  cases hv : asInt value "signed value" with
  | error why =>
    rw [hv] at h
    cases h
  | ok x =>
    rw [hv] at h
    dsimp only at h
    have hnum := asInt_num hv
    split at h
    · cases h
    · injection h with h
      omega

/-- An unsigned value within a width is the argument. -/
theorem unsignedWithin_num {w : Width} {u : ℕ} (h : unsignedWithin w value=.ok u) :
    (u : ℤ)=value.num := by
  rw [unsignedWithin] at h
  cases hv : unsignedValue value with
  | error why =>
    rw [hv] at h
    cases h
  | ok v =>
    rw [hv] at h
    dsimp only at h
    split at h
    · cases h
    · injection h with h
      rw [←h]
      exact unsignedValue_num hv

/-- A signed value within a width is the argument, and has 64 bits. -/
theorem signedWithin_num {w : Width} {v : ℤ} (h : signedWithin w value=.ok v) :
    v=value.num ∧ -2^63 ≤ v ∧ v < 2^63 := by
  rw [signedWithin] at h
  cases hv : signedValue value with
  | error why =>
    rw [hv] at h
    cases h
  | ok x =>
    rw [hv] at h
    dsimp only at h
    split at h
    · cases h
    · injection h with h
      rw [←h]
      exact signedValue_num hv

/-- The zigzag word of a value of 64 bits stands for it. -/
theorem zigzagged_num {r : Except Exn ℤ} {u : ℕ} (h : zigzagged r=.ok u)
    (hr : ∀ v, r=.ok v → v=value.num ∧ -2^63 ≤ v ∧ v < 2^63) : Zigzag.decode u=value.num := by
  cases r with
  | error why => cases h
  | ok v =>
    injection h with h
    obtain ⟨hnum,hlo,hhi⟩ := hr v rfl
    rw [←h,Zigzag.decode_encode hlo hhi,hnum]

/-- The word of an element stands for the argument. -/
theorem elementWordOf_num {w : Width} {u : ℕ} (h : elementWordOf w value=.ok u) :
    element w.signed u=value.num := by
  have hrange : signedMin ≤ w.range.1 ∧ w.range.2 ≤ unsignedMax ∧
      (w.signed=true → w.range.2 ≤ signedMax) ∧ (w.signed=false → 0 ≤ w.range.1) := by
    cases w <;> decide
  have hlo : signedMin=-2^63 := rfl
  have hhi : signedMax=2^63-1 := rfl
  rw [elementWordOf] at h
  split at h
  · cases h
  · next x hx =>
    have hnum := asInt_num hx
    split at h
    · cases h
    · next hin =>
      injection h with h
      rw [element]
      cases hs : w.signed with
      | true =>
        have hmax := hrange.2.2.1 hs
        rw [hs,if_pos rfl,zigzagWord_eq (by omega) (by omega)] at h
        rw [if_pos rfl,←h,Zigzag.decode_encode (by omega) (by omega),hnum]
      | false =>
        have hmin := hrange.2.2.2 hs
        rw [hs,if_neg (by decide)] at h
        rw [if_neg (by decide)]
        omega

/-- The words of elements stand for the arguments. -/
theorem elements_num {w : Width} {values : List Given} {words : List ℕ}
    (h : values.map (elementWordOf w)=words.map .ok) :
    words.map (element w.signed)=values.map Given.num := by
  induction values generalizing words with
  | nil =>
    cases words with
    | nil => rfl
    | cons u us => cases h
  | cons v vs ih =>
    cases words with
    | nil => cases h
    | cons u us =>
      rw [List.map_cons,List.map_cons] at h
      injection h with hv hvs
      rw [List.map_cons,List.map_cons,elementWordOf_num hv,ih hvs]

/-- The UTF-8 of a text is decoded as the text. -/
theorem utf8Payload_text {text : List ℕ} {data : List UInt8} (h : utf8Payload text=.ok data) :
    Utf8.decode data=some text := by
  rw [utf8Payload] at h
  cases ht : Utf8.encode text with
  | none =>
    rw [ht] at h
    cases h
  | some bs =>
    rw [ht] at h
    injection h with h
    rw [←h]
    exact Utf8.decode_encode ht

/-- A payload within a bound is the payload. -/
theorem withinMaxlen_eq {maxlen : Option ℤ} {refusal : ℕ → ℤ → String}
    {r : Except Exn (List UInt8)} {data : List UInt8}
    (h : withinMaxlen maxlen refusal r=.ok data) : r=.ok data := by
  cases r with
  | error why => cases maxlen <;> cases h
  | ok bs =>
    cases maxlen with
    | none => exact h
    | some most =>
      rw [withinMaxlen] at h
      split at h
      · cases h
      · exact h

/-- The payload of a blob is the argument. -/
theorem blobPayload_data {blob : Blob} {data : List UInt8} (h : blobPayload blob=.ok data) :
    data=blob.data := by
  rw [blobPayload] at h
  cases blob with
  | other typeName format => cases format <;> cases h
  | bytes bs =>
    rw [blobBytes] at h
    dsimp only at h
    split at h
    · cases h
    · injection h with h
      exact h.symm

/-- The bits of a single come back from its bytes. -/
theorem unpackU32_leBytes (bits : BitVec 32) : unpackU32 (leBytes 4 bits.toNat)=bits := by
  rw [unpackU32,leNat_leBytes]
  exact BitVec.eq_of_toNat_eq (by rw [BitVec.toNat_ofNat]; omega)

/-- A double comes back from its bytes. -/
theorem unpackF64_packF64 (value : BitVec 64) : unpackF64 (packF64 value)=value := by
  rw [unpackF64,packF64,leNat_leBytes]
  exact BitVec.eq_of_toNat_eq (by rw [BitVec.toNat_ofNat]; omega)

/-- The bytes of a single's bits are those of the argument. -/
theorem f32Bytes_num {data : List UInt8} (h : f32Bytes value=.ok data) :
    data=leBytes 4 (BitVec.ofInt 32 value.num).toNat := by
  rw [f32Bytes,f32Word] at h
  cases hv : asInt value "fp32 bits" with
  | error why =>
    rw [hv] at h
    cases h
  | ok v =>
    rw [hv] at h
    have hnum := asInt_num hv
    dsimp only at h
    by_cases hr : v < 0 ∨ v > 0xFFFFFFFF
    · rw [if_pos hr] at h
      cases h
    · rw [if_neg hr] at h
      injection h with h
      have hbits : (BitVec.ofInt 32 value.num).toNat=v.toNat := by
        rw [BitVec.toNat_ofInt]
        omega
      rw [←h,hbits]

section Singles

variable (narrow : BitVec 64 → Option (BitVec 32))

/-- A single is packed as its bits. -/
theorem packF32_bits (v : BitVec 64) : packF32 narrow v=leBytes 4 (packF32Bits narrow v).toNat := by
  rw [packF32.eq_def]
  split
  · rfl
  · next hnan =>
    split
    · next bits hb =>
      rw [packF32Bits.eq_def,if_neg hnan,hb]
    · rfl

/-- Values that are no NaN and not too large are narrowed to their bits. -/
theorem narrowAll_bits {vs : List (BitVec 64)} {bits : List (BitVec 32)}
    (hnan : vs.any isNan64=false) (h : narrowAll narrow vs=some bits) :
    bits=vs.map (packF32Bits narrow) := by
  induction vs generalizing bits with
  | nil =>
    injection h with h
    exact h.symm
  | cons v vs ih =>
    rw [List.any_cons,Bool.or_eq_false_iff] at hnan
    rw [narrowAll] at h
    cases hv : narrow v with
    | none =>
      rw [hv] at h
      cases h
    | some b =>
      cases hvs : narrowAll narrow vs with
      | none =>
        rw [hv,hvs] at h
        cases h
      | some bs =>
        rw [hv,hvs] at h
        injection h with h
        have hbits : packF32Bits narrow v=b := by
          rw [packF32Bits.eq_def,hnan.1,hv]
          rfl
        rw [←h,List.map_cons,hbits,ih hnan.2 hvs]

/-- Singles are packed as their bits. -/
theorem packF32Array_bits (vs : List (BitVec 64)) :
    packF32Array narrow vs=singleBytes (vs.map (packF32Bits narrow)) := by
  rw [packF32Array.eq_def]
  dsimp only
  split
  · rfl
  · next hnan =>
    split
    · next bits hb =>
      rw [singleBytes,narrowAll_bits narrow (Bool.eq_false_iff.mpr hnan) hb]
    · rfl

end Singles

/-- Singles take four bytes each. -/
theorem singleBytes_length (bits : List (BitVec 32)) : (singleBytes bits).length=bits.length*4 := by
  induction bits with
  | nil => rfl
  | cons b bs ih =>
    rw [singleBytes] at ih ⊢
    rw [List.flatMap_cons,List.length_append,leBytes_length,ih,List.length_cons]
    omega

/-- Doubles take eight bytes each. -/
theorem packF64Array_length (vs : List (BitVec 64)) : (packF64Array vs).length=vs.length*8 := by
  induction vs with
  | nil => rfl
  | cons v vs ih =>
    rw [packF64Array] at ih ⊢
    rw [List.flatMap_cons,List.length_append,packF64,leBytes_length,ih,List.length_cons]
    omega

/-- Doubles come back from their bytes. -/
theorem unpackF64Array_pack (vs : List (BitVec 64)) :
    unpackF64Array (packF64Array vs) vs.length 0=vs := by
  rw [unpackF64Array,List.drop_zero,packF64Array,
    elements_flatMap (f:=packF64) (fun v => leBytes_length 8 v.toNat),List.map_map]
  exact (List.map_congr_left fun v _ => unpackF64_packF64 v).trans (List.map_id vs)

end Arguments

/-- The bytes are a field of an id, whose value a visitor is told as this one. -/
def Tells (raw : Bool) (bytes : List UInt8) (fieldId : Given) (v : Value) : Prop :=
  ∃ x, Writes bytes fieldId x ∧ x.value raw=v

section Tells

variable {raw : Bool} {fieldId : Given} {bytes : List UInt8}

/-- An unsigned field tells its argument. -/
theorem tells_unsigned {value : Except Exn ℕ} {n : ℤ}
    (h : scalarMove fieldId .unsigned value=.field bytes none)
    (hlt : ∀ u, value=.ok u → u < 2^64) (hnum : ∀ u : ℕ, value=.ok u → u=n) :
    Tells raw bytes fieldId (.unsigned n.toNat) := by
  obtain ⟨u,hu,hw⟩ := writes_scalar false h hlt
  have hn := hnum u hu
  refine ⟨_,hw,?_⟩
  rw [←hn,Int.toNat_natCast]
  rfl

/-- A signed field tells its argument. -/
theorem tells_signed {r : Except Exn ℤ} {value : Given}
    (h : scalarMove fieldId .signed (zigzagged r)=.field bytes none)
    (hr : ∀ v, r=.ok v → v=value.num ∧ -2^63 ≤ v ∧ v < 2^63) :
    Tells raw bytes fieldId (.signed value.num) := by
  obtain ⟨u,hu,hw⟩ := writes_scalar true h fun u => zigzagged_lt
  exact ⟨_,hw,congrArg Value.signed (zigzagged_num hu hr)⟩

/-- A field of a declared width tells its argument. -/
theorem tells_sized {w : Width} {value : Given}
    (h : sizedMove w fieldId value=.field bytes none) :
    Tells raw bytes fieldId
      (if w.signed then .signed value.num else .unsigned value.num.toNat) := by
  rw [sizedMove] at h
  cases hs : w.signed with
  | true =>
    rw [hs,if_pos rfl] at h
    exact tells_signed h fun v => signedWithin_num
  | false =>
    rw [hs,if_neg (by decide)] at h
    exact tells_unsigned h (fun u => unsignedWithin_lt) fun u => unsignedWithin_num

/-- A single tells its bits. -/
theorem tells_single {payload : Except Exn (List UInt8)} {bits : BitVec 32}
    (h : fixlenMove fieldId .fp32 payload=.field bytes none)
    (hbits : ∀ data, payload=.ok data → data=leBytes 4 bits.toNat) :
    Tells raw bytes fieldId (.single raw bits) := by
  have hall : ∀ data, payload=.ok data → data.length ≤ fixlenMax →
      FixlenSubtype.fp32.Allows data.length := by
    intro data hd _
    rw [hbits data hd]
    exact leBytes_length 4 bits.toNat
  obtain ⟨data,hd,hw⟩ := writes_fixlen h hall fun _ _ => trivial
  have hdata := hbits data hd
  subst hdata
  refine ⟨_,hw,?_⟩
  rw [Datum.value,Value.single,unpackU32_leBytes]

/-- A double tells itself. -/
theorem tells_double {value : BitVec 64}
    (h : fixlenMove fieldId .fp64 (.ok (packF64 value))=.field bytes none) :
    Tells raw bytes fieldId (.float64 value) := by
  have hall : ∀ data, Except.ok (packF64 value)=(Except.ok data : Except Exn (List UInt8)) →
      data.length ≤ fixlenMax → FixlenSubtype.fp64.Allows data.length := by
    rintro data ⟨⟩ _
    exact leBytes_length 8 value.toNat
  obtain ⟨data,hd,hw⟩ := writes_fixlen h hall fun _ _ => trivial
  injection hd with hd
  subst hd
  exact ⟨_,hw,congrArg Value.float64 (unpackF64_packF64 value)⟩

/-- A string tells its text. -/
theorem tells_string {payload : Except Exn (List UInt8)} {text : List ℕ}
    (h : fixlenMove fieldId .string payload=.field bytes none)
    (htext : ∀ data, payload=.ok data → utf8Payload text=.ok data) :
    Tells raw bytes fieldId (.string text) := by
  have hdecode : ∀ data, payload=.ok data → Utf8.decode data=some text := fun data hd =>
    utf8Payload_text (htext data hd)
  have hvalid : ∀ data, payload=.ok data → (Datum.fixlen .string data).Textual := by
    intro data hd
    show Utf8.valid data=true
    rw [Utf8.valid,hdecode data hd]
    rfl
  obtain ⟨data,hd,hw⟩ := writes_fixlen h (fun _ _ hle => hle) hvalid
  refine ⟨_,hw,?_⟩
  rw [Datum.value,hdecode data hd,Option.getD_some]

/-- A blob tells its bytes. -/
theorem tells_blob {payload : Except Exn (List UInt8)} {blob : Blob}
    (h : fixlenMove fieldId .blob payload=.field bytes none)
    (hblob : ∀ data, payload=.ok data → blobPayload blob=.ok data) :
    Tells raw bytes fieldId (.bytes blob.data) := by
  obtain ⟨data,hd,hw⟩ := writes_fixlen h (fun _ _ hle => hle) fun _ _ => trivial
  exact ⟨_,hw,congrArg Value.bytes (blobPayload_data (hblob data hd))⟩

/-- An array of integers tells its elements. -/
theorem tells_integers {w : Width} {values : List Given} {cap : ℤ}
    (h : sizedArrayMove w fieldId values cap=.field bytes none) :
    Tells raw bytes fieldId (if w.signed then .signedArray (values.map Given.num)
      else .unsignedArray (values.map Given.num)) := by
  obtain ⟨words,hmap,hw⟩ := writes_integers h
  have hnum := elements_num hmap
  refine ⟨_,hw,?_⟩
  cases hs : w.signed with
  | true =>
    rw [hs] at hnum
    rw [Datum.value,hnum,if_pos rfl]
  | false =>
    rw [hs] at hnum
    rw [Datum.value,hnum,if_neg (by decide)]

/-- An array of booleans tells their numbers. -/
theorem tells_booleans {values : List Bool} {cap : Option ℤ}
    (h : boolArrayMove fieldId values cap=.field bytes none) :
    Tells raw bytes fieldId (.unsignedArray (values.map fun v => if v then 1 else 0)) := by
  refine ⟨_,writes_booleans h,?_⟩
  rw [Datum.value,List.map_map]
  refine congrArg Value.unsignedArray (List.map_congr_left fun v _ => ?_)
  cases v <;> rfl

/-- An array of singles tells its payload. -/
theorem tells_singles {count : Except Exn ℕ} {payload : List UInt8}
    (h : floatArrayMove fieldId .fp32 4 count payload=.field bytes none)
    (hlen : ∀ n, count=.ok n → payload.length=n*4) :
    Tells raw bytes fieldId (.singles raw payload) := by
  obtain ⟨n,hn,hw⟩ := writes_floats h rfl hlen
  have hdiv : payload.length/4=n := by
    rw [hlen n hn]
    omega
  refine ⟨_,hw,?_⟩
  rw [Datum.value,Value.singles,hdiv,List.take_of_length_le (by rw [hlen n hn])]

/-- An array of doubles tells its elements. -/
theorem tells_doubles {cap : Option ℤ} {values : List (BitVec 64)}
    (h : floatArrayMove fieldId .fp64 8 (cappedCount cap values.length) (packF64Array values)=
      .field bytes none) : Tells raw bytes fieldId (.float64Array values) := by
  have hlen : ∀ n, cappedCount cap values.length=.ok n → (packF64Array values).length=n*8 := by
    intro n hn
    rw [cappedCount_eq hn,packF64Array_length]
  obtain ⟨n,hn,hw⟩ := writes_floats h rfl hlen
  refine ⟨_,hw,?_⟩
  rw [Datum.value,cappedCount_eq hn,unpackF64Array_pack]
  simp

/-- A payload of singles is as many as are counted. -/
theorem f32Payload_eq {n m : ℕ} {count : Option ℤ} (h : f32Payload n count=.ok m) : n=m*4 := by
  rw [f32Payload.eq_def] at h
  dsimp only at h
  by_cases hmod : n%4≠0
  · rw [if_pos hmod] at h
    cases h
  · rw [if_neg hmod] at h
    cases count with
    | none =>
      injection h with h
      omega
    | some k =>
      dsimp only at h
      split at h
      · cases h
      · injection h with h
        omega

/-- The bytes of a field tell what the call was given. -/
theorem call_tells (raw : Bool) (narrow : BitVec 64 → Option (BitVec 32)) {c : Call}
    (h : c.move narrow=.field bytes none) :
    ∃ fieldId v, c.written raw narrow=some (fieldId,v) ∧ Tells raw bytes fieldId v := by
  have hsingles : ∀ {cap : Option ℤ} {vs : List (BitVec 64)} (n : ℕ),
      cappedCount cap vs.length=.ok n → (packF32Array narrow vs).length=n*4 := by
    intro cap vs n hn
    rw [cappedCount_eq hn,packF32Array_bits,singleBytes_length,List.length_map]
  cases c with
  | unsigned f value =>
    exact ⟨f,_,rfl,tells_unsigned h (fun u => unsignedValue_lt) fun u => unsignedValue_num⟩
  | signed f value => exact ⟨f,_,rfl,tells_signed h fun v => signedValue_num⟩
  | sized w f value =>
    cases w with
    | u64 =>
      exact ⟨f,_,rfl,tells_unsigned h (fun u => unsignedValue_lt) fun u => unsignedValue_num⟩
    | i64 => exact ⟨f,_,rfl,tells_signed h fun v => signedValue_num⟩
    | u8 | u16 | u32 | i8 | i16 | i32 => exact ⟨f,_,rfl,tells_sized h⟩
  | bool f value =>
    have hmove : scalarMove f .unsigned (unsignedValue (.int (if value then 1 else 0)))=
        .field bytes none := h
    have htells : Tells raw bytes f (.unsigned (Given.int (if value then 1 else 0)).num.toNat) :=
      tells_unsigned hmove (fun u => unsignedValue_lt) fun u => unsignedValue_num
    refine ⟨f,_,rfl,?_⟩
    cases value <;> exact htells
  | float32 f value =>
    have hmove : fixlenMove f .fp32 (.ok (packF32 narrow value))=.field bytes none := h
    refine ⟨f,_,rfl,tells_single hmove ?_⟩
    rintro data ⟨⟩
    exact packF32_bits narrow value
  | float32Bits f bits => exact ⟨f,_,rfl,tells_single h fun data => f32Bytes_num⟩
  | float64 f value => exact ⟨f,_,rfl,tells_double h⟩
  | string f text => exact ⟨f,_,rfl,tells_string h fun data hd => hd⟩
  | stringBounded f text most => exact ⟨f,_,rfl,tells_string h fun data => withinMaxlen_eq⟩
  | bytes f data => exact ⟨f,_,rfl,tells_blob h fun data hd => hd⟩
  | bytesBounded f data most => exact ⟨f,_,rfl,tells_blob h fun data => withinMaxlen_eq⟩
  | unsignedArray f values => exact ⟨f,_,rfl,tells_integers (w:=.u64) h⟩
  | signedArray f values => exact ⟨f,_,rfl,tells_integers (w:=.i64) h⟩
  | sizedArray w f values cap => exact ⟨f,_,rfl,tells_integers h⟩
  | boolArray f values => exact ⟨f,_,rfl,tells_booleans h⟩
  | boolArrayBounded f values cap => exact ⟨f,_,rfl,tells_booleans h⟩
  | float32Array f values =>
    refine ⟨f,_,rfl,?_⟩
    rw [←packF32Array_bits]
    exact tells_singles h hsingles
  | float32ArrayBounded f values cap =>
    refine ⟨f,_,rfl,?_⟩
    rw [←packF32Array_bits]
    exact tells_singles h hsingles
  | float32ArrayBits f payload count =>
    exact ⟨f,_,rfl,tells_singles h fun n => f32Payload_eq⟩
  | float64Array f values => exact ⟨f,_,rfl,tells_doubles h⟩
  | float64ArrayBounded f values cap => exact ⟨f,_,rfl,tells_doubles h⟩
  | sequenceBeginLazy f | sequenceEnd | sequenceEndKeep => cases h

end Tells

end SofaBuffers
