import Mathlib.Data.List.Basic
import SofaBuffers.Encoder.Fit
import SofaBuffers.Stream.RoundTrip

/-!
# Transcoding is a normal form

A visitor that writes again whatever it is told drives an encoder to the one
spelling of the message that is not padded. The calls it makes are those of the
message's fields, sequences being kept, so the bytes come out as the fields'.
-/

set_option autoImplicit false

namespace SofaBuffers

/-- The calls a visitor makes on an encoder to write again what it is told; singles come by
their bits. -/
def Event.reemit : Event Unit → List Call
  | .value _ id (.unsigned v) => [.unsigned (.int id) (.int v)]
  | .value _ id (.signed v) => [.signed (.int id) (.int v)]
  | .value _ id (.float32 v) => [.float32 (.int id) v]
  | .value _ id (.float32Bits v) => [.float32Bits (.int id) (.int v.toNat)]
  | .value _ id (.float64 v) => [.float64 (.int id) v]
  | .value _ id (.string v) => [.string (.int id) v]
  | .value _ id (.bytes v) => [.bytes (.int id) (.bytes v)]
  | .value _ id (.unsignedArray v) => [.unsignedArray (.int id) (v.map .int)]
  | .value _ id (.signedArray v) => [.signedArray (.int id) (v.map .int)]
  | .value _ id (.float32Array v) => [.float32Array (.int id) v]
  | .value _ id (.float32ArrayBits count payload) =>
    [.float32ArrayBits (.int id) payload (some count)]
  | .value _ id (.float64Array v) => [.float64Array (.int id) v]
  | .sequenceBegin _ id => [.sequenceBeginLazy (.int id)]
  | .sequenceEnd _ => [.sequenceEndKeep]
  | .field .. | .bound .. | .arrayBegin .. | .blobBegin .. | .stringBegin .. |
    .floatArrayBegin .. => []

/-- What a recording visitor is told of a string, if it is complete. -/
def recorded (s : List UInt8) : Option (List (Event Unit)) :=
  match feed (recorder true) s
      (Dec.fresh (recorder true) (List.replicate 16 0) blank) with
  | .ok .complete d => some d.store.log
  | _ => none

/-- The string a visitor has written again that is fed a string, if that is complete. -/
def transcode (narrow : BitVec 64 → Option (BitVec 32)) (s : List UInt8) : Option (List UInt8) :=
  (recorded s).bind fun log => oneShot narrow (log.flatMap Event.reemit)

section Recorded

variable {s : List UInt8}

/-- Of a message a visitor is told its fields. -/
theorem recorded_fields {t : Tree} (h : Fields maxDepth t s) : recorded s=some (t.log true) := by
  obtain ⟨d',hfeed,hstore⟩ := feed_recorder init_recorder h
  rw [recorded,hfeed]
  dsimp only
  rw [hstore]
  rfl

/-- A string is complete only if it is a message, and then a visitor is told its fields. -/
theorem fields_of_recorded {log : List (Event Unit)} (h : recorded s=some log) :
    ∃ t, Fields maxDepth t s ∧ log=t.log true := by
  rw [recorded] at h
  split at h
  · next d hfeed =>
    cases h
    obtain ⟨t,ht,hlog⟩ := fields_accepted init_recorder hfeed
    exact ⟨t,ht,hlog⟩
  · cases h

end Recorded

section Reemit

variable {narrow : BitVec 64 → Option (BitVec 32)} {id : ℕ} {x : Datum} {hd bs : List UInt8}

/-- The id of a value is in range. -/
theorem Announces.id_le {e : Extent} (h : Announces hd (.value id e)) : id ≤ idMax := by
  cases h with
  | scalar signed h => exact h.2
  | fixlen h | varray signed h | farray h => exact h.2

/-- A payload goes out behind its leading words. -/
theorem fixlen_again {st : FixlenSubtype} {data : List UInt8} (hid : id ≤ idMax)
    (hlen : data.length ≤ fixlenMax) :
    fixlenMove (.int id) st (.ok data)=.field ((Datum.fixlen st data).bytes id) none := by
  rw [fixlenMove,fixlenSize,if_neg (Nat.not_lt.mpr hlen)]
  dsimp only
  rw [checkedId_int hid]
  simp [Datum.bytes,Datum.extent,Extent.numbers,Datum.numbers,Datum.payload,headerBytes]

/-- An array goes out behind its leading words. -/
theorem array_again {t : WireType} {n : ℕ} {body : List UInt8} (hid : id ≤ idMax)
    (hn : n ≤ arrayMax) :
    arrayMove (.int id) t (.ok n) (body,none)=
      .field (headerBytes id t++(Varint.encode n++body)) none := by
  rw [arrayMove,if_neg (Nat.not_lt.mpr hn),checkedId_int hid]

/-- The words of elements that are taken. -/
theorem encodeElements_map {word : Given → Except Exn ℕ} {vs : List ℤ} {words : List ℕ}
    (h : vs.map (fun v => word (.int v))=words.map .ok) :
    encodeElements word (vs.map .int)=(words.flatMap Varint.encode,none) := by
  induction vs generalizing words with
  | nil =>
    cases words with
    | nil => rfl
    | cons u us => cases h
  | cons v vs ih =>
    cases words with
    | nil => cases h
    | cons u us =>
      rw [List.map_cons,List.map_cons] at h
      injection h with hv hvs
      rw [List.map_cons,encodeElements,hv,ih hvs,List.flatMap_cons]

/-- A word of 64 bits is the word of the integer it stands for. -/
theorem elementWordOf_element {w : Width} (hw : w=.u64 ∨ w=.i64) {u : ℕ} (hu : u < 2^64) :
    elementWordOf w (.int (element w.signed u))=.ok u := by
  have hmax : (unsignedMax : ℤ)=2^64-1 := rfl
  rcases hw with rfl | rfl
  · have hin : ¬((u : ℤ) < 0 ∨ (u : ℤ) > unsignedMax) := by omega
    show (if (u : ℤ) < 0 ∨ (u : ℤ) > unsignedMax then _ else Except.ok (u : ℤ).toNat)=_
    rw [if_neg hin,Int.toNat_natCast]
  · have hrange := Zigzag.decode_range hu
    have hlo : signedMin=-2^63 := rfl
    have hhi : signedMax=2^63-1 := rfl
    have hin : ¬(Zigzag.decode u < signedMin ∨ Zigzag.decode u > signedMax) := by omega
    show (if Zigzag.decode u < signedMin ∨ Zigzag.decode u > signedMax then _
      else Except.ok (zigzagWord (Zigzag.decode u)))=_
    rw [if_neg hin,zigzagWord_eq (by omega) (by omega),Zigzag.encode_decode hu]

/-- An integer array of 64 bits is written again with the words it was read from. -/
theorem integers_again {w : Width} (hw : w=.u64 ∨ w=.i64) {raws : List ℕ} (hid : id ≤ idMax)
    (hn : raws.length ≤ arrayMax) (hraws : ∀ u ∈ raws, u < 2^64) :
    sizedArrayMove w (.int id) ((raws.map (element w.signed)).map .int) (-1)=
      .field ((Datum.varray w.signed raws).bytes id) none := by
  have hwords : (raws.map (element w.signed)).map (fun v => elementWordOf w (.int v))=
      raws.map .ok := by
    rw [List.map_map]
    exact List.map_congr_left fun u hu => elementWordOf_element hw (hraws u hu)
  have hcount : cappedCount (some (-1)) ((raws.map (element w.signed)).map Given.int).length=
      .ok raws.length := by
    rw [List.length_map,List.length_map]
    rfl
  rw [sizedArrayMove,encodeElements_map hwords,hcount,array_again hid hn]
  simp [Datum.bytes,Datum.extent,Extent.numbers,Datum.numbers,Datum.payload,headerBytes,varrayType]

/-- The double in eight bytes is packed as they are. -/
theorem packF64_unpackF64 {data : List UInt8} (h : data.length=8) :
    packF64 (unpackF64 data)=data := by
  have hlt := leNat_lt data
  rw [h] at hlt
  rw [packF64,unpackF64,BitVec.toNat_ofNat,Nat.mod_eq_of_lt (by omega),←h,leBytes_leNat]

/-- The doubles in a payload are packed as it is. -/
theorem packF64Array_unpack {n : ℕ} {data : List UInt8} (h : data.length=n*8) :
    packF64Array (unpackF64Array data n 0)=data := by
  have hsize := elements_size h
  rw [packF64Array,unpackF64Array,List.drop_zero,List.flatMap_map]
  have hmap : (elements 8 n data).flatMap (fun e => packF64 (unpackF64 e))=
      (elements 8 n data).flatMap fun e => e :=
    List.flatMap_congr fun e he => packF64_unpackF64 (hsize e he)
  rw [hmap,List.flatMap_id',elements_flatten h]

/-- A value a visitor is told is written again without padding. -/
theorem reemit_value (narrow : BitVec 64 → Option (BitVec 32))
    (ha : Announces hd (.value id x.extent)) (hb : Body x bs) (ht : x.Textual) :
    ∃ c : Call, (Event.value () id (x.value true)).reemit=[c] ∧ c.Sized ∧
      c.move narrow=.field (x.bytes id) none := by
  have hid := ha.id_le
  have hsized : ∀ cap : ℤ, cap=-1 → -2^63 ≤ cap ∧ cap ≤ 2^63-1 := by
    rintro cap rfl
    omega
  cases hb with
  | @scalar bs raw signed h =>
    have hraw := h.lt
    have hmax : (unsignedMax : ℤ)=2^64-1 := rfl
    cases signed with
    | false =>
      refine ⟨_,rfl,trivial,?_⟩
      have hvalue : unsignedValue (.int raw)=.ok raw := by
        rw [unsignedValue,asInt]
        dsimp only
        rw [if_neg (by omega),Int.toNat_natCast]
      show scalarMove (.int id) .unsigned (unsignedValue (.int raw))=_
      rw [hvalue,scalarMove,checkedId_int hid]
      simp [Datum.bytes,Datum.extent,Extent.numbers,Datum.numbers,Datum.payload,headerBytes,
        scalarType]
    | true =>
      have hrange := Zigzag.decode_range hraw
      have hlo : signedMin=-2^63 := rfl
      have hhi : signedMax=2^63-1 := rfl
      refine ⟨_,rfl,trivial,?_⟩
      have hvalue : zigzagged (signedValue (.int (Zigzag.decode raw)))=.ok raw := by
        rw [signedValue,asInt]
        dsimp only
        rw [if_neg (by omega)]
        exact congrArg Except.ok (Zigzag.encode_decode hraw)
      show scalarMove (.int id) .signed (zigzagged (signedValue (.int (Zigzag.decode raw))))=_
      rw [hvalue,scalarMove,checkedId_int hid]
      simp [Datum.bytes,Datum.extent,Extent.numbers,Datum.numbers,Datum.payload,headerBytes,
        scalarType]
  | fixlen st =>
    have hallows : st.Allows bs.length := by
      cases ha with
      | fixlen h hw hn => exact hn
    cases st with
    | fp32 =>
      have hlt := leNat_lt bs
      have hlen : bs.length=4 := hallows
      have hmax : fixlenMax=0x7FFFFFFF := rfl
      rw [hlen] at hlt
      refine ⟨_,rfl,trivial,?_⟩
      have hbits : (unpackU32 bs).toNat=leNat bs := by
        rw [unpackU32,BitVec.toNat_ofNat,Nat.mod_eq_of_lt (by omega)]
      have hvalue : f32Bytes (.int (unpackU32 bs).toNat)=.ok bs := by
        rw [f32Bytes,f32Word,asInt,hbits]
        dsimp only
        rw [if_neg (by omega),Int.toNat_natCast]
        refine congrArg Except.ok ?_
        rw [←hlen,leBytes_leNat]
      show fixlenMove (.int id) .fp32 (f32Bytes (.int (unpackU32 bs).toNat))=_
      rw [hvalue]
      exact fixlen_again hid (by omega)
    | fp64 =>
      have hlen : bs.length=8 := hallows
      have hmax : fixlenMax=0x7FFFFFFF := rfl
      refine ⟨_,rfl,trivial,?_⟩
      show fixlenMove (.int id) .fp64 (.ok (packF64 (unpackF64 bs)))=_
      rw [packF64_unpackF64 hlen]
      exact fixlen_again hid (by omega)
    | string =>
      obtain ⟨text,htext⟩ := Option.isSome_iff_exists.mp ht
      refine ⟨.string (.int id) text,?_,trivial,?_⟩
      · rw [Datum.value,htext]
        rfl
      · show fixlenMove (.int id) .string (utf8Payload text)=_
        rw [utf8Payload,Utf8.encode_decode htext]
        exact fixlen_again hid hallows
    | blob =>
      refine ⟨_,rfl,trivial,?_⟩
      show fixlenMove (.int id) .blob (blobPayload (.bytes bs))=_
      have hvalue : blobPayload (.bytes bs)=.ok bs := by
        rw [blobPayload,blobBytes]
        dsimp only
        rw [fixlenSize,if_neg (Nat.not_lt.mpr hallows)]
      rw [hvalue]
      exact fixlen_again hid hallows
  | @varray bs raws signed h =>
    have hn : raws.length ≤ arrayMax := by
      cases ha with
      | varray signed h hc hn => exact hn
    cases signed with
    | false =>
      exact ⟨_,rfl,trivial,integers_again (w:=.u64) (Or.inl rfl) hid hn h.lt⟩
    | true =>
      exact ⟨_,rfl,trivial,integers_again (w:=.i64) (Or.inr rfl) hid hn h.lt⟩
  | @farray _ count size st h =>
    have hfacts : count ≤ arrayMax ∧ st.Sizes size := by
      cases ha with
      | farray h hc hn hw hs => exact ⟨hn,hs⟩
    obtain ⟨hn,hs⟩ := hfacts
    cases st with
    | fp32 =>
      have hsize : size=4 := hs
      subst hsize
      refine ⟨_,rfl,trivial,?_⟩
      have htake : bs.take (count*4)=bs := List.take_of_length_le (by omega)
      have hcount : f32Payload bs.length (some count)=.ok count := by
        have hmod : ¬bs.length%4≠0 := by omega
        have hdiv : bs.length/4=count := by omega
        rw [f32Payload.eq_def]
        dsimp only
        rw [if_neg hmod,hdiv,if_neg (by simp)]
      show floatArrayMove (.int id) .fp32 4 (f32Payload (bs.take (count*4)).length (some count))
        (bs.take (count*4))=_
      rw [htake,hcount,floatArrayMove,array_again hid hn]
      simp [Datum.bytes,Datum.extent,Extent.numbers,Datum.numbers,Datum.payload,headerBytes]
    | fp64 =>
      have hsize : size=8 := hs
      subst hsize
      refine ⟨_,rfl,trivial,?_⟩
      have hlen : (unpackF64Array bs count 0).length=count := by
        rw [unpackF64Array,List.length_map,elements_length]
      show floatArrayMove (.int id) .fp64 8 (cappedCount none (unpackF64Array bs count 0).length)
        (packF64Array (unpackF64Array bs count 0))=_
      rw [packF64Array_unpack h,hlen,floatArrayMove]
      show arrayMove (.int id) .arrayFixlen (.ok count) _=_
      rw [array_again hid hn]
      simp [Datum.bytes,Datum.extent,Extent.numbers,Datum.numbers,Datum.payload,headerBytes]
    | string | blob => exact hs.elim

/-- What is out of a message, with the headers it holds back. -/
def Framing.shown (f : Framing) : List UInt8 := f.out++startBytes f.held

/-- Calls that put fields behind what is shown, sequences being as deep as before. -/
structure Framing.Puts (f g : Framing) (bs : List UInt8) : Prop where
  /-- They are behind it. -/
  shown : g.shown=f.shown++bs
  /-- As many sequences are open. -/
  depth : g.depth=f.depth
  /-- There is no end to the room. -/
  room : g.room=none
  /-- No header is held back that was not. -/
  held : f.held=[] → g.held=[]

/-- A visitor that is told fields writes them again without padding. -/
theorem reemit_fields (narrow : BitVec 64 → Option (BitVec 32)) {room : ℕ} {t : Tree}
    {s : List UInt8} (h : Fields room t s) {f : Framing} (hf : f.room=none)
    (hd : f.depth+room=maxDepth) :
    ∃ g, f.calls narrow ((t.log true).flatMap Event.reemit)=(g,none) ∧ f.Puts g t.bytes := by
  induction h generalizing f with
  | nil room => exact ⟨f,rfl,(List.append_nil _).symm,rfl,hf,fun h => h⟩
  | @value room id x rest hd' bs xs ha hb ht _ ih =>
    obtain ⟨c,hcall,hsized,hmove⟩ := reemit_value narrow ha hb ht
    have hstep : f.call narrow c=
        ({f with out := f.out++(startBytes f.held++x.bytes id), held := []},none) := by
      rw [Framing.call,if_pos hsized,hmove,Framing.step,Framing.commit_free hf]
    obtain ⟨g,hg,hputs⟩ := ih
      (f:={f with out := f.out++(startBytes f.held++x.bytes id), held := []}) hf hd
    refine ⟨g,?_,?_,hputs.depth,hputs.room,fun _ => hputs.held rfl⟩
    · rw [Tree.log,List.flatMap_cons,hcall]
      exact Framing.calls_append_ok.mpr ⟨_,Framing.calls_cons_ok.mpr ⟨_,hstep,rfl⟩,hg⟩
    · rw [hputs.shown,Tree.bytes]
      simp [Framing.shown,startBytes]
  | @sequence room id inner rest lead tl xs ys ha htl _ _ ih ih' =>
    have hid : id ≤ idMax := by
      cases ha with
      | start h => exact h.2
    have hopen : f.call narrow (.sequenceBeginLazy (.int id))=
        ({f with held := f.held++[id], depth := f.depth+1},none) :=
      Framing.call_begin.mpr ⟨hid,by omega,rfl⟩
    obtain ⟨m,hm,hinner⟩ := ih
      (f:={f with held := f.held++[id], depth := f.depth+1}) hf (by dsimp only; omega)
    have hdepth : m.depth=f.depth+1 := hinner.depth
    have hclose : m.call narrow .sequenceEndKeep=
        ({m with
          out := m.out++(startBytes m.held++stopBytes), held := [], depth := m.depth-1},none) := by
      have hgo : m.call narrow .sequenceEndKeep=m.step (.stop true) := if_pos trivial
      rw [hgo,Framing.step_stop,if_neg (by omega),if_neg (by simp),Framing.commit_free hinner.room]
    obtain ⟨g,hg,hrest⟩ := ih'
      (f:={m with
        out := m.out++(startBytes m.held++stopBytes), held := [], depth := m.depth-1})
      hinner.room (by dsimp only; omega)
    have hlog : ((Tree.sequence id inner rest).log true).flatMap Event.reemit=
        .sequenceBeginLazy (.int id)::((inner.log true).flatMap Event.reemit++
          .sequenceEndKeep::(rest.log true).flatMap Event.reemit) := by
      simp [Tree.log,Event.reemit]
    refine ⟨g,?_,?_,?_,hrest.room,fun _ => hrest.held rfl⟩
    · rw [hlog]
      exact Framing.calls_cons_ok.mpr ⟨_,hopen,Framing.calls_append_ok.mpr
        ⟨m,hm,Framing.calls_cons_ok.mpr ⟨_,hclose,hg⟩⟩⟩
    · have hshown : m.out++startBytes m.held=
          f.out++startBytes (f.held++[id])++inner.bytes := hinner.shown
      have hlast : g.shown=m.out++(startBytes m.held++stopBytes)++rest.bytes := by
        rw [hrest.shown]
        simp [Framing.shown,startBytes]
      rw [hlast,←List.append_assoc m.out,hshown]
      simp [Framing.shown,startBytes,headerBytes,stopBytes,Tree.bytes]
    · rw [hrest.depth]
      dsimp only
      omega

/-- A message is written again without padding. -/
theorem transcode_fields (narrow : BitVec 64 → Option (BitVec 32)) {t : Tree} {s : List UInt8}
    (h : Fields maxDepth t s) : transcode narrow s=some t.bytes := by
  obtain ⟨g,hg,hputs⟩ := reemit_fields narrow h (f:={}) rfl (Nat.zero_add maxDepth)
  have hheld : g.held=[] := hputs.held rfl
  have hout : g.out=t.bytes := by
    have hshown := hputs.shown
    rw [Framing.shown,hheld] at hshown
    simpa [Framing.shown,startBytes] using hshown
  rw [transcode,recorded_fields h]
  exact oneShot_iff.mpr ⟨g,hg,hout⟩

end Reemit

/-- Transcoding is a normal form. A string that is complete is written again as one that is
complete and says the same, is no longer, and is written again as itself; and it is the string
itself if no varint of that is padded and no end marker of it has an id. -/
theorem transcode_normal (narrow : BitVec 64 → Option (BitVec 32)) (s : List UInt8)
    (log : List (Event Unit)) (h : recorded s=some log) :
    ∃ u, transcode narrow s=some u ∧ recorded u=some log ∧ transcode narrow u=some u ∧
      u.length ≤ s.length ∧ (Plain s → u=s) := by
  obtain ⟨t,ht,rfl⟩ := fields_of_recorded h
  refine ⟨t.bytes,transcode_fields narrow ht,recorded_fields ht.bytes,
    transcode_fields narrow ht.bytes,?_,?_⟩
  · obtain ⟨words,ends,hspelled⟩ := ht.spelled
    exact hspelled.length
  · rintro ⟨u,words,ends,hspelled,hwords,hends⟩
    have hbytes := hspelled.plain hwords hends
    have hsame := transcode_fields narrow hspelled.fields
    rw [transcode_fields narrow ht,←hbytes] at hsame
    exact Option.some.inj hsame

/-- A sequence with a padded header and an id on its end marker. -/
def paddedSequence : List UInt8 := [0x8E,0x00,0x0F]

/-- The padded sequence is a message. -/
theorem paddedSequence_fields : Fields maxDepth (.sequence 1 .nil .nil) paddedSequence := by
  have hstart : Header [0x8E,0x00] 1 .sequenceStart :=
    ⟨.group (by decide) (by decide) (.last (by decide) (Or.inl (by decide))),by decide⟩
  have hstop : Header [0x0F] 1 .sequenceEnd :=
    ⟨.last (by decide) (Or.inl (by decide)),by decide⟩
  exact .sequence (.start hstart) (.stop hstop) (.nil _) (.nil _)

/-- The padded sequence is written again as a shorter string that says the same. -/
theorem transcode_normal_padded :
    ∃ u, transcode (fun _ => none) paddedSequence=some u ∧
      recorded u=some [.sequenceBegin () 1,.sequenceEnd ()] ∧
      transcode (fun _ => none) u=some u ∧ u.length ≤ 3 := by
  obtain ⟨u,hu,htold,hagain,hlen,-⟩ := transcode_normal (fun _ => none) paddedSequence
    [.sequenceBegin () 1,.sequenceEnd ()] (recorded_fields paddedSequence_fields)
  exact ⟨u,hu,htold,hagain,hlen⟩

end SofaBuffers
