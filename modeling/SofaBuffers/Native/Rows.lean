import SofaBuffers.Native.Reads
import SofaBuffers.Native.Tables

/-!
# A row's value in the compiled decoder

A row that was looked up is stored by the wire type of its header, straight into the slots its
table was checked for at construction. It is stored as the interpreted engine stores it by kind.
-/

set_option autoImplicit false

namespace SofaBuffers

open Resumable
open Dec

variable {V : Type}

/-- The count an array declares. -/
def Pending.count (p : Pending) : ℕ :=
  match p.real with
  | .varray _ got => got
  | .farray _ got _ => got
  | _ => 0

/-- The value is one a header announces: its count is within the format's ceiling, and no cap parks a
scalar. -/
structure Pending.Sound (p : Pending) : Prop where
  /-- A header can announce it. -/
  announced : p.Announced
  /-- The count of an array is within the ceiling. -/
  count : p.count ≤ arrayMax
  /-- A scalar is not parked. -/
  scalar : ∀ signed, p.real=.scalar signed → p=.scalar signed

namespace Native

namespace Decoder

/-- Copy a declared default into the buffer a slot holds (`_copy_default_into`). -/
def copyDefaultInto (c : Config V) (slot : ℕ) (payload : List UInt8) : Effect V := fun s =>
  if slot < c.nobjects then
    match writable "a declared default returned a destination that is not a writable, contiguous buffer"
      (s.obj slot) with
    | .error why => (s,some why)
    | .ok view =>
      let room := view.nbytes
      let size := payload.length
      if view.itemsize≠1 then
        (s,some (.argument "a declared default's destination must hold single bytes"))
      else if room < size then
        (s,some (.argument
          s!"a declared default's destination gave {room} bytes for a default of {size}"))
      else copy view payload s
  else (s,some .index)

/-- A different option arrived: the new one starts from its own default, off the flat arrays
(`_reset_option`). -/
def resetOption (c : Config V) (k : Compiled) (b : BEntry) : Effect V :=
  (Effect.all ((k.words b).map fun p => .update (·.setWord p.1 p.2))).andThen
    ((Effect.all ((k.objects b).map fun p => .putObj c p.1 p.2)).andThen
      (.all ((k.buffers b).map fun p => copyDefaultInto c p.1 p.2)))

/-- Write the arriving option's id, resetting the option if it was not held. -/
def arrive (c : Config V) (k : Compiled) (b : BEntry) : Effect V :=
  match b.whichAt with
  | none => .done
  | some w => fun s =>
    ((if s.word w≠BitVec.ofNat 64 b.fieldId then resetOption c k b else .done).andThen
      (.update (·.setWord w (BitVec.ofNat 64 b.fieldId)))) s

/-- The count or length a row declares. -/
def declared (b : BEntry) : Option ℕ :=
  if b.kind.isArray then some b.cap
  else if b.kind=.string ∨ b.kind=.bytes then
    if b.cap≠0 then some b.cap else none
  else none

/-- Write a row's arrival, if it has a slot for one. -/
def countArrival (b : BEntry) (got : ℕ) : Effect V :=
  match b.countAt with
  | none => .done
  | some i => .update (·.setWord i (BitVec.ofNat 64 got))

/-- Make every value but 0 a 1 (`_normalize_bools`): so many slots, from `i` on. -/
def normalizeBools : ℕ → ℕ → Effect V
  | 0, _ => .done
  | count+1, i =>
    (Effect.update fun s => s.setWord i (if s.word i≠0 then 1 else 0)).andThen
      (normalizeBools count (i+1))

/-- Decode `count` elements into the row's slots (`_fill_varints`). -/
def fillVarints (swar : Bool) (b : BEntry) (count : ℕ) (zigzag : Bool) : DecM V Unit := do
  arm
  let _ ← elementsLoop swar (elementOutside zigzag b.elemBounded b.elemLo b.elemHi)
    (fun i result out => do
      perform (.update (·.setWord (b.slot+i) (if zigzag then zigzagDecode result else result)))
      pure out)
    count 0 (← get).pos []
  setPending none

/-- Store doubles where they go, without asking whether there is room. -/
def storeDoubles (into : FloatSink) (i : ℕ) (values : List (BitVec 64)) : Effect V :=
  match into with
  | .words => .update (·.setWords i values)
  | .buffer d => .update (·.setMem (d.base+i*8) (values.flatMap fun v => leBytes 8 v.toNat))

/-- Move the elements of a fixlen array to the row's slots (`_fill_farray`). -/
def fillFarray (slot count elemSize width : ℕ) : DecM V Unit := do
  let nbytes ← farrayNbytes count elemSize
  arm
  let d ← get
  if d.n-d.pos < nbytes then suspend "truncated payload"
  else
    perform (storeDoubles .words slot (farrayValues count width ((d.buf.drop d.pos).take nbytes)))
    setPos (d.pos+nbytes)
    setPending none

/-- Store a string or a blob (`_take_object`). -/
def takeObject (b : BEntry) (size : ℕ) : DecM V Unit := do
  let p ← takeFixlenPtr size
  if b.kind=.string then
    let text ← ofExcept (decodeText p)
    perform (.update (·.setObj b.slot (.text text)))
  else perform (.update (·.setObj b.slot (.blob p)))

/-- The strings and blobs of `_mapped_field`: what the arrival is to be counted as. -/
def mappedObject (c : Config V) (b : BEntry) (pending : Pending) (got : ℕ) : DecM V ℕ := do
  if b.into then
    setPending (some pending.real)
    let dst ← getObj c b.slot
    if b.kind=.bytes then takeBlobInto dst got "Binding.blob_into"
    else takeStringInto dst got "Binding.string_into"
    pure got
  else
    match pending with
    | .limit msg _ => throw (.limit msg)
    | _ =>
      takeObject b got
      pure 1

/-- The fixlen branch of `_mapped_field`. -/
def mappedFixlen (c : Config V) (b : BEntry) : DecM V ℕ := do
  match (← get).pending with
  | none => throw .assertion
  | some pending =>
    match pending.real with
    | .fixlen .fp32 _ =>
      let p ← takeFixlenPtr 4
      perform (.update (·.setWord b.slot (unpackF32 p)))
      pure 1
    | .fixlen .fp64 _ =>
      let p ← takeFixlenPtr 8
      perform (.update (·.setWord b.slot (unpackF64 p)))
      pure 1
    | .fixlen _ got => mappedObject c b pending got
    | _ => throw .assertion

/-- The count of the pending array (`_pend_count`). -/
def pendCount : DecM V ℕ := do
  match (← get).pending.map Pending.real with
  | some (.varray _ count) => pure count
  | some (.farray _ count _) => pure count
  | _ => throw .assertion

/-- The fixlen array branches of `_mapped_field`. -/
def mappedFarray (b : BEntry) : DecM V ℕ := do
  match (← get).pending.map Pending.real with
  | some (.farray st got elemSize) =>
    fillFarray b.slot got elemSize (if st=.fp32 then 4 else 8)
    pure got
  | _ => throw .assertion

/-- Store the value by the wire type of its header; what its arrival is to be counted as. -/
def mappedValue (swar : Bool) (c : Config V) (b : BEntry) (t : WireType) : DecM V ℕ := do
  match t with
  | .unsigned =>
    let u ← takeScalar swar
    if b.elemBounded && b.elemHi.ult u then throw (.decode "value outside declared width")
    else
      let u := if b.kind=.boolean then if u≠0 then 1 else 0 else u
      perform (.update (·.setWord b.slot u))
      pure 1
  | .signed =>
    let sv := zigzagDecode (← takeScalar swar)
    if b.elemBounded && (sv.slt b.elemLo || b.elemHi.slt sv) then
      throw (.decode "value outside declared width")
    else
      perform (.update (·.setWord b.slot sv))
      pure 1
  | .fixlen => mappedFixlen c b
  | .arrayUnsigned =>
    let got ← pendCount
    fillVarints swar b got false
    if b.kind=.arrayBoolean then perform (normalizeBools got b.slot)
    pure got
  | .arraySigned =>
    let got ← pendCount
    fillVarints swar b got true
    pure got
  | _ => mappedFarray b

/-- A field the destination map names (`_mapped_field`). -/
def mappedField (swar : Bool) (c : Config V) (k : Compiled) (b : BEntry) (t : WireType) :
    DecM V Unit := do
  perform (arrive c k b)
  settleBound (declared b)
  let got ← mappedValue swar c b t
  perform (countArrival b got)

section Effects

variable {c : Config V} {k : Compiled} {b : BEntry} {e : Entry}

/-- Changes that are alike one by one are alike in order. -/
theorem like_all {α : Type} {xs : List α} {f g : α → Effect V} (h : ∀ x ∈ xs, (f x).Like (g x)) :
    (Effect.all (xs.map f)).Like (Effect.all (xs.map g)) := by
  induction xs with
  | nil => exact .refl _
  | cons x xs ih =>
    exact (h x List.mem_cons_self).andThen (ih fun y hy => h y (List.mem_cons_of_mem x hy))

/-- A declared default is copied as the interpreted engine copies it. -/
theorem like_copyDefault (c : Config V) (slot : ℕ) (payload : List UInt8) :
    (resetInto c slot payload).Like (copyDefaultInto c slot payload) := by
  intro s
  rw [resetInto,copyDefaultInto]
  dsimp only
  by_cases hslot : slot < c.nobjects
  · rw [if_pos hslot,if_pos hslot]
    rcases writable_like "a declared default"
      "a declared default returned a destination that is not a writable, contiguous buffer"
      (s.obj slot) with ⟨view,-,hold,hnew⟩ | ⟨msg,hold,hnew⟩
    · rw [hold,hnew]
      dsimp only
      split
      · exact .refl _
      · split
        · exact .refl _
        · exact like_copy view payload s
    · rw [hold,hnew]
      refine .raised ?_ s
      rfl
  · rw [if_neg hslot,if_neg hslot]
    exact .refl _

/-- The reset of an option is off the flat arrays what it is off the row. -/
theorem like_resetOption (h : Stands k b e) (hw : e.whichAt.isSome) :
    (SofaBuffers.resetOption c e).Like (resetOption c k b) := by
  have hwords : k.words b=e.resetWords := h.words.eq.trans (if_pos hw)
  have hobjects : k.objects b=e.resetObjects := h.objects.eq.trans (if_pos hw)
  have hbuffers : k.buffers b=e.resetInto := h.buffers.eq.trans (if_pos hw)
  rw [SofaBuffers.resetOption,resetOption,hwords,hobjects,hbuffers]
  refine Effect.Like.andThen (like_all fun p _ => like_putWord c p.1 p.2)
    (Effect.Like.andThen (.refl _) (like_all fun p _ => like_copyDefault c p.1 p.2))

/-- The arrival of an option is off the flat arrays what it is off the row. -/
theorem like_arrive (h : Stands k b e) : (SofaBuffers.arrive c e).Like (arrive c k b) := by
  intro s
  rw [SofaBuffers.arrive.eq_def,arrive.eq_def,h.whichAt,h.fieldId]
  cases hw : e.whichAt with
  | none => exact .done s
  | some w =>
    dsimp only
    split
    · by_cases hheld : s.word w=BitVec.ofNat 64 e.fieldId
      · rw [if_pos hheld,if_neg (not_not.mpr hheld)]
        exact like_putWord c w _ s
      · rw [if_neg hheld,if_pos hheld]
        exact (like_resetOption h (by rw [hw]; rfl)).andThen (like_putWord c w _) s
    · exact .foreign (show Exn.index.cls.Foreign from trivial) s _

/-- The arrival of a value is counted alike. -/
theorem like_countArrival (h : Stands k b e) (got : ℕ) :
    (SofaBuffers.countArrival c e got).Like (countArrival b got) := by
  rw [SofaBuffers.countArrival.eq_def,countArrival.eq_def,h.countAt]
  cases e.countAt with
  | none => exact .refl _
  | some i => exact like_putWord c i _

/-- Counting is quiet. -/
theorem quiet_countArrival (b : BEntry) (got : ℕ) : (countArrival b got : Effect V).Quiet := by
  rw [countArrival.eq_def]
  cases b.countAt with
  | none => exact quiet_done
  | some i => exact quiet_update _

/-- Making ones of booleans is quiet. -/
theorem quiet_normalizeBools (count i : ℕ) : (normalizeBools count i : Effect V).Quiet := by
  induction count generalizing i with
  | zero => exact quiet_done
  | succ count ih => exact (quiet_update _).andThen (ih (i+1))

/-- Both engines make ones of booleans. -/
theorem like_normalizeBools (c : Config V) (count i : ℕ) :
    (normaliseBooleans c count i).Like (normalizeBools count i) := by
  induction count generalizing i with
  | zero => exact .refl _
  | succ count ih =>
    intro s
    rw [normaliseBooleans,normalizeBools]
    dsimp only
    split
    · next hi =>
      have hone : (if 1 < (s.word i).toNat then Effect.putWord c i 1 else .done : Effect V) s=
          (Effect.update fun s => s.setWord i (if s.word i≠0 then 1 else 0)) s := by
        rw [Effect.putWord,if_pos hi]
        by_cases hzero : s.word i=0
        · rw [hzero,if_neg (by decide)]
          have hsame : s.setWord i (if s.word i≠0 then 1 else 0)=s := by
            rw [if_neg (not_not.mpr hzero),Store.setWord,←hzero,Function.update_eq_self]
          exact (congrArg (fun s => (s,none)) hsame).symm
        · by_cases hbig : 1 < (s.word i).toNat
          · rw [if_pos hbig]
            have hsame : s.setWord i (if s.word i≠0 then 1 else 0)=s.setWord i 1 := by
              rw [if_pos hzero]
            exact (congrArg (fun s => (s,none)) hsame).symm
          · have hword : s.word i=1 := by
              have hne : (s.word i).toNat≠0 := fun h => hzero (BitVec.eq_of_toNat_eq h)
              exact BitVec.eq_of_toNat_eq (by
                show (s.word i).toNat=1
                omega)
            rw [if_neg hbig]
            have hsame : s.setWord i (if s.word i≠0 then 1 else 0)=s := by
              rw [if_pos hzero,Store.setWord,←hword,Function.update_eq_self]
            exact (congrArg (fun s => (s,none)) hsame).symm
      rw [Effect.andThen,Effect.andThen,hone]
      exact ih (i+1) _
    · exact .foreign (show Exn.index.cls.Foreign from trivial) s _

/-- Doubles are stored alike. -/
theorem like_storeDoubles (c : Config V) (into : FloatSink) (i : ℕ) (values : List (BitVec 64)) :
    (into.put c i values).Like (storeDoubles into i values) := by
  rw [FloatSink.put.eq_def,storeDoubles.eq_def]
  cases into with
  | words =>
    dsimp only
    split
    · exact .refl _
    · exact .raise (show Exn.value.cls.Foreign from trivial) _
  | buffer d =>
    dsimp only
    split
    · exact .refl _
    · exact .raise (show Exn.value.cls.Foreign from trivial) _

/-- No doubles are no change. -/
theorem storeDoubles_nil (into : FloatSink) (i : ℕ) :
    (storeDoubles into i [] : Effect V)=.done := by
  funext s
  cases into with
  | words =>
    have hsame : s.setWords i []=s := by
      rw [Store.setWords]
      congr 1
      funext k
      exact if_neg (by rw [List.length_nil]; omega)
    exact congrArg (fun s => (s,none)) hsame
  | buffer d =>
    have hsame : s.setMem (d.base+i*8) []=s := by
      rw [Store.setMem]
      congr 1
      funext k
      exact if_neg (by rw [List.length_nil]; omega)
    exact congrArg (fun s => (s,none)) hsame

/-- A fixlen array is stored as the interpreted engine stores it, where there is room. -/
theorem like_storeFarray {into : FloatSink} {base count : ℕ}
    (hroom : Farray.FitsIn c into (base+count)) (width : ℕ) (data : List UInt8) :
    (storeFarray c into base count width data).Like
      (storeDoubles into base (farrayValues count width data)) := by
  have hput := @Farray.unpackFarrayInto_put V c into base count width 0 hroom data (count+1) 0
    (Nat.zero_le _) (by omega)
  rw [storeFarray,hput,farrayValues_eq]
  by_cases hc : 0 < count
  · rw [if_pos hc,Nat.add_zero,Nat.sub_zero,Nat.zero_mul,Nat.add_zero,List.drop_zero]
    exact like_storeDoubles c into base _
  · have hzero : count=0 := by omega
    have hnil : Farray.values structF32 width (elements width count data)=[] := by
      rw [hzero,elements,Farray.values]
      split <;> rfl
    rw [if_neg hc,hnil,storeDoubles_nil]
    exact .refl _

end Effects

section Rows

variable {c : Config V} {k : Compiled} {b : BEntry} {e : Entry} {d : Dec V} {p : Pending}

/-- Where an integer array of a row goes. -/
def wordSink (zigzag : Bool) : Sink := if zigzag then .signedWords else .unsignedWords

/-- A word is stored as its element is assigned, where there is a slot. -/
theorem setWord_put {zigzag : Bool} {i raw : ℕ} (hraw : raw < 2^64) (hi : i < c.nwords) :
    Sink.put c (wordSink zigzag) i (element zigzag raw)=
      .update (·.setWord i (if zigzag then zigzagDecode (BitVec.ofNat 64 raw)
        else BitVec.ofNat 64 raw)) := by
  have hword : BitVec.ofInt 64 (element zigzag raw)=
      if zigzag then zigzagDecode (BitVec.ofNat 64 raw) else BitVec.ofNat 64 raw := by
    apply BitVec.eq_of_toNat_eq
    have h := word_element zigzag hraw
    rw [BitVec.toNat_ofInt]
    omega
  cases zigzag with
  | true =>
    rw [wordSink,if_pos rfl,Sink.put,if_pos hi,if_pos (element_signed hraw),hword]
  | false =>
    have hrange : 0 ≤ element false raw ∧ element false raw < 2^64 := by
      rw [element_unsigned]
      omega
    rw [wordSink,if_neg (by decide),Sink.put,if_pos hi,if_pos hrange,hword]

/-- The elements of an array row are stored as the interpreted engine stores them. -/
theorem fillVarints_like (swar : Bool) {zigzag : Bool} {count : ℕ} {bound : Bound}
    (hroom : b.slot+count ≤ c.nwords)
    (hout : ∀ raw < 2^64, elementOutside zigzag b.elemBounded b.elemLo b.elemHi
      (BitVec.ofNat 64 raw)=bound.outside (element zigzag raw))
    {g g' : Effect V} (hg : g.Like g') (hquiet : g'.Quiet) (hd : d.Filled) (hp : d.pos ≤ d.n)
    (hq : d.pending=some p) :
    ReadLike ((fillVarints swar b count zigzag >>= fun _ => perform g') d) d p
      ((Plan.elements count bound zigzag (some (wordSink zigzag,b.slot)) fun _ => g).read c d.store
        d.rest) := by
  refine .reads ?_ (like_elements (fun _ => hg) d.store d.rest)
  have hkeep : ∀ i < count, ∀ raw < 2^64, bound.outside (element zigzag raw)=false →
      ∀ out : List ℤ, (perform (.update (·.setWord (b.slot+i) (if zigzag then
        zigzagDecode (BitVec.ofNat 64 raw) else BitVec.ofNat 64 raw))) >>= fun _ => pure out)=
        keepElement c (some (wordSink zigzag)) b.slot i (element zigzag raw) out := by
    intro i hi raw hraw _ out
    rw [keepElement,setWord_put hraw (by omega)]
  have hend : ∀ xs s rest, ReadEnds ((setPending none >>= fun _ => perform g' : DecM V Unit)
      {d with keep := d.pos, pos := d.seek rest, store := s}) d p
      (.of ((fun _ => g' : List ℤ → Effect V) xs s) rest) := by
    intro xs s rest
    rw [setPending_bind]
    exact (readEnds_of (d:={d with store := s}) hquiet rest).of_start
  rw [fillVarints,bind_assoc,arm_bind]
  simp only [bind_assoc]
  rw [run_get_bind]
  refine LoopEnds.reads (some (wordSink zigzag)) b.slot
    (m:=fun _ => setPending none >>= fun _ => perform g') hq ?_ hend
  exact elementsLoop_run swar c hout hkeep (d:={d with keep := d.pos}) hd count 0 d.pos hp
    (Nat.zero_add count).le []

/-- The elements of a fixlen array row are stored as the interpreted engine stores them. -/
theorem fillFarray_like {slot count size : ℕ} (hroom : slot+count ≤ c.nwords)
    (hc : count ≤ arrayMax) (hs : size ≤ 8) {g g' : Effect V} (hg : g.Like g') (hquiet : g'.Quiet)
    (hd : d.Filled) (hp : d.pos ≤ d.n) (hq : d.pending=some p) :
    ReadLike ((fillFarray slot count size size >>= fun _ => perform g') d) d p
      ((Plan.span count size fun data =>
        (storeFarray c .words slot count size data).andThen g).read c d.store d.rest) := by
  obtain ⟨hbytes,hmax⟩ := @farrayNbytes_eq V _ _ hc hs
  have hlen : d.rest.length=d.n-d.pos := restFrom_length hd d.pos
  have hfits : Farray.FitsIn c .words (slot+count) := hroom
  have hlike : Plan.Like c
      (.payload (count*size) fun data => (storeFarray c .words slot count size data).andThen g)
      (.payload (count*size) fun data =>
        (storeDoubles .words slot (farrayValues count size data)).andThen g') :=
    like_payload fun data _ => (like_storeFarray hfits size data).andThen hg
  rw [Plan.span,if_neg hmax]
  refine .reads ?_ (hlike d.store d.rest)
  rw [fillFarray,hbytes,pure_bind,bind_assoc,arm_bind,bind_assoc,run_get_bind,Plan.read]
  by_cases hl : d.rest.length < count*size
  · rw [if_pos (show d.n-d.pos < count*size by omega),if_pos hl]
    exact readEnds_more hq
  · have hstored : Effect.Quiet (storeDoubles .words slot
        (farrayValues count size ((d.buf.drop d.pos).take (count*size))) : Effect V) :=
      quiet_update _
    have h := readEnds_taken (p:=p) hd (show d.pos+count*size ≤ d.n by omega) hstored hquiet
    rw [if_neg (show ¬d.n-d.pos < count*size by omega),if_neg hl]
    rw [slice_eq (by omega)] at h
    have hslice : (d.buf.drop d.pos).take (count*size)=d.rest.take (count*size) :=
      slice_eq (by omega)
    dsimp only
    rw [hslice]
    simpa only [bind_assoc] using h

/-- A word is stored as its element is assigned. -/
theorem like_put (zigzag : Bool) (i : ℕ) {raw : ℕ} (hraw : raw < 2^64) :
    (Sink.put c (wordSink zigzag) i (element zigzag raw)).Like
      (.update (·.setWord i (if zigzag then zigzagDecode (BitVec.ofNat 64 raw)
        else BitVec.ofNat 64 raw))) := by
  by_cases hi : i < c.nwords
  · rw [setWord_put hraw hi]
    exact .refl _
  · have hindex : Sink.put c (wordSink zigzag) i (element zigzag raw)=.raise .index := by
      cases zigzag with
      | true => rw [wordSink,if_pos rfl,Sink.put,if_neg hi]
      | false => rw [wordSink,if_neg (by decide),Sink.put,if_neg hi]
    rw [hindex]
    exact .raise (show Exn.index.cls.Foreign from trivial) _

/-- A row declares the same count or length. -/
theorem declared_eq (hs : Stands k b e) : declared b=e.declared := by
  rw [declared,Entry.declared,hs.kind,hs.cap]
  cases e.kind <;> simp [Kind.isArray,Kind.isObject]

/-- An element is outside the width of a row where it is outside that of the row it stands for. -/
theorem outside_iff (zigzag : Bool) (hs : Stands k b e) (hhi : zigzag=true → e.elemHi ≤ signedMax)
    {raw : ℕ} (hraw : raw < 2^64) :
    elementOutside zigzag b.elemBounded b.elemLo b.elemHi (BitVec.ofNat 64 raw)=true ↔
      e.elemBounded=true ∧ if zigzag then element zigzag raw < e.elemLo ∨
        e.elemHi < element zigzag raw else e.elemHi < element zigzag raw := by
  rw [elementOutside_iff hraw,hs.elemBounded,hs.elemLo,hs.elemHi]
  cases zigzag with
  | false => exact Iff.rfl
  | true =>
    have hint : b.elemHi.toInt=e.elemHi := by
      have h := hhi rfl
      rw [←hs.elemHi,signedMax] at h
      rw [←hs.elemHi,BitVec.toInt_eq_toNat_cond,if_pos (by omega)]
    rw [hint]

/-- The width of an array row is the one its elements are tested by. -/
theorem outside_row (zigzag : Bool) (hs : Stands k b e) (hhi : zigzag=true → e.elemHi ≤ signedMax)
    {lo hi : Option ℤ} (hlo : zigzag=true → lo=if e.elemBounded then some e.elemLo else none)
    (hun : zigzag=false → lo=none) (hup : hi=if e.elemBounded then some e.elemHi else none) :
    ∀ raw < 2^64, elementOutside zigzag b.elemBounded b.elemLo b.elemHi (BitVec.ofNat 64 raw)=
      (Bound.of lo hi zigzag).outside (element zigzag raw) := by
  intro raw hraw
  rw [Bool.eq_iff_iff,outside_iff zigzag hs hhi hraw,hup]
  cases zigzag with
  | false =>
    rw [hun rfl,element_unsigned]
    cases e.elemBounded with
    | false => simp [Bound.of,Bound.outside]
    | true =>
      simp [Bound.of,Bound.outside,signedMin]
  | true =>
    rw [hlo rfl]
    cases e.elemBounded with
    | false => simp [Bound.of,Bound.outside]
    | true => simp [Bound.of,Bound.outside]

/-- What a scalar row stores of an unsigned varint. -/
def unsignedEffect (b : BEntry) (u : BitVec 64) : Effect V :=
  (if b.elemBounded && b.elemHi.ult u then Effect.raise (.decode "value outside declared width")
    else .update (·.setWord b.slot (if b.kind=.boolean then if u≠0 then 1 else 0 else u))).andThen
    (countArrival b 1)

/-- What a scalar row stores of a signed varint. -/
def signedEffect (b : BEntry) (u : BitVec 64) : Effect V :=
  (if b.elemBounded && ((zigzagDecode u).slt b.elemLo || b.elemHi.slt (zigzagDecode u)) then
      Effect.raise (.decode "value outside declared width")
    else .update (·.setWord b.slot (zigzagDecode u))).andThen (countArrival b 1)

/-- An unsigned varint is taken and then stored. -/
theorem mappedUnsigned_eq (swar : Bool) (c : Config V) (b : BEntry) :
    (mappedValue swar c b .unsigned >>= fun got => perform (countArrival b got))=
      (takeScalar swar >>= fun u => perform (unsignedEffect b u) : DecM V Unit) := by
  rw [mappedValue.eq_def]
  dsimp only
  rw [bind_assoc]
  congr 1
  funext u
  exact guarded_count _ _ _

/-- A signed varint is taken and then stored. -/
theorem mappedSigned_eq (swar : Bool) (c : Config V) (b : BEntry) :
    (mappedValue swar c b .signed >>= fun got => perform (countArrival b got))=
      (takeScalar swar >>= fun u => perform (signedEffect b u) : DecM V Unit) := by
  rw [mappedValue.eq_def]
  dsimp only
  rw [bind_assoc]
  congr 1
  funext u
  exact guarded_count _ _ _

/-- A test that is quiet either way. -/
theorem quiet_guarded {q : Prop} [Decidable q] {f : Effect V} (hf : f.Quiet) (b : BEntry) :
    ((if q then Effect.raise (.decode "value outside declared width") else f).andThen
      (countArrival b 1)).Quiet := by
  refine Effect.Quiet.andThen ?_ (quiet_countArrival b 1)
  split
  · exact quiet_raise (by simp [Exn.cls])
  · exact hf

/-- The unsigned value of a row is stored as the interpreted engine stores it. -/
theorem mappedUnsigned_like (swar : Bool) (hs : Stands k b e) (hw : e.Worded)
    (hk : e.kind=.unsigned ∨ e.kind=.boolean) (hd : d.Filled) (hp : d.pos ≤ d.n)
    (hq : d.pending=some p) (s : Store V) :
    ReadLike ((mappedValue swar c b .unsigned >>= fun got => perform (countArrival b got)) d) d p
      ((mappedPlan c e s p).2.read c d.store d.rest) := by
  have hcount := like_countArrival (c:=c) hs 1
  rw [mappedUnsigned_eq,mappedPlan.eq_def]
  have hquiet : ∀ u, (unsignedEffect b u : Effect V).Quiet := fun u =>
    quiet_guarded (quiet_update _) b
  rcases hk with hk | hk
  · rw [hk]
    refine takeScalar_like swar hd hp hq (fun raw hraw => Effect.Like.andThen ?_ hcount) hquiet
    have hout := outside_iff false hs (by intro h; cases h) hraw
    have hiff : (b.elemBounded && b.elemHi.ult (BitVec.ofNat 64 raw))=true ↔
        (e.elemBounded && decide ((raw : ℤ) > e.elemHi))=true := by
      rw [Bool.and_eq_true e.elemBounded,decide_eq_true_iff]
      exact hout
    have hput := like_put (c:=c) false e.slot hraw
    simp only [hiff]
    split
    · exact .refl _
    · rw [hs.kind,hk,hs.slot]
      exact hput
  · rw [hk]
    refine takeScalar_like swar hd hp hq (fun raw hraw => Effect.Like.andThen ?_ hcount) hquiet
    have hbounded : b.elemBounded=false := hs.elemBounded.trans (hw.boolean (Or.inl hk))
    have hne : (BitVec.ofNat 64 raw≠0) ↔ raw≠0 := by
      constructor
      · intro h hz
        rw [hz] at h
        exact h rfl
      · intro h hz
        have hnat := congrArg BitVec.toNat hz
        rw [BitVec.toNat_ofNat,Nat.mod_eq_of_lt hraw] at hnat
        exact h hnat
    simp only [hbounded,Bool.false_and,Bool.false_eq_true,if_false,hs.kind,hk,if_true,hs.slot,hne]
    exact like_putWord c e.slot _

/-- The signed value of a row is stored as the interpreted engine stores it. -/
theorem mappedSigned_like (swar : Bool) (hs : Stands k b e) (hw : e.Worded)
    (hk : e.kind=.signed) (hd : d.Filled) (hp : d.pos ≤ d.n) (hq : d.pending=some p)
    (s : Store V) :
    ReadLike ((mappedValue swar c b .signed >>= fun got => perform (countArrival b got)) d) d p
      ((mappedPlan c e s p).2.read c d.store d.rest) := by
  rw [mappedSigned_eq,mappedPlan.eq_def,hk]
  refine takeScalar_like swar hd hp hq (fun raw hraw =>
    Effect.Like.andThen ?_ (like_countArrival hs 1)) fun u => quiet_guarded (quiet_update _) b
  have hout := outside_iff true hs (fun _ => hw.hi (Or.inl hk)) hraw
  have hiff : (b.elemBounded && ((zigzagDecode (BitVec.ofNat 64 raw)).slt b.elemLo ||
        b.elemHi.slt (zigzagDecode (BitVec.ofNat 64 raw))))=true ↔
      (e.elemBounded && !(decide (e.elemLo ≤ Zigzag.decode raw) &&
        decide (Zigzag.decode raw ≤ e.elemHi)))=true := by
    rw [Bool.and_eq_true e.elemBounded]
    refine hout.trans (and_congr_right fun _ => ?_)
    rw [if_pos rfl,element,if_pos rfl]
    simp only [Bool.not_eq_true',Bool.and_eq_false_iff,decide_eq_false_iff_not,not_le]
  have hput := like_put (c:=c) true e.slot hraw
  simp only [hiff]
  split
  · exact .refl _
  · rw [hs.slot]
    exact hput

/-- An object is stored. -/
theorem like_putObj (c : Config V) (i : ℕ) (o : Obj) :
    (Effect.putObj c i o).Like (.update (·.setObj i o)) := by
  rw [Effect.putObj]
  split
  · exact .refl _
  · exact .raise (show Exn.index.cls.Foreign from trivial) _

/-- A row takes values of the tag its kind has. -/
theorem takes_tag (ht : e.Takes p) : e.kind.tag=p.tag := by
  obtain ⟨hm,-⟩ := ht
  have hsides := Bool.or_eq_false_iff.mp hm
  have hwt : p.tag.1=e.kind.tag.1 := not_not.mp (of_decide_eq_false hsides.1)
  have hst : e.kind.tag.2.isSome=true → p.tag.2=e.kind.tag.2 := fun hsome =>
    not_not.mp (of_decide_eq_false (Bool.and_eq_false_imp.mp hsides.2 hsome))
  refine Prod.ext hwt.symm ?_
  cases hsome : e.kind.tag.2.isSome with
  | true => exact (hst hsome).symm
  | false =>
    have hnone : ∀ q : Pending, (q.tag.1≠.fixlen ∧ q.tag.1≠.arrayFixlen) → q.tag.2=none := by
      intro q
      induction q with
      | limit msg q ih => exact ih
      | fixlen => intro h; exact absurd rfl h.1
      | farray => intro h; exact absurd rfl h.2
      | scalar | varray | discard => intro _; rfl
    have hkind : e.kind.tag.1≠.fixlen ∧ e.kind.tag.1≠.arrayFixlen := by
      cases hk : e.kind <;> rw [hk] at hsome <;> first | cases hsome; done | decide
    rw [hnone p (by rw [hwt]; exact hkind)]
    exact Option.not_isSome_iff_eq_none.mp (by rw [hsome]; decide)

/-- What a string or blob row does with a payload that is not copied. -/
def objectEffect (b : BEntry) (data : List UInt8) : Effect V :=
  (if b.kind=.string then withText data fun text => .update (·.setObj b.slot (.text text))
    else .update (·.setObj b.slot (.blob data))).andThen (countArrival b 1)

/-- A string or a blob is taken and then stored. -/
theorem takeObject_eq (b : BEntry) (size : ℕ) :
    ((takeObject b size >>= fun _ => pure 1) >>= fun got => perform (countArrival b got))=
      (takeFixlenPtr size >>= fun data => perform (objectEffect b data) : DecM V Unit) := by
  rw [takeObject,bind_assoc,bind_assoc]
  congr 1
  funext data
  rw [pure_bind,objectEffect,perform_andThen]
  congr 1
  split
  · rw [decodeText.eq_def,withText.eq_def]
    cases Utf8.decode data with
    | none => rfl
    | some text => rfl
  · rfl

/-- A blob is stored as the interpreted engine stores it. -/
theorem like_blob (hs : Stands k b e) (hk : e.kind=.bytes) (data : List UInt8) :
    ((Effect.putObj c e.slot (.blob data)).andThen (SofaBuffers.countArrival c e 1)).Like
      (objectEffect b data) := by
  rw [objectEffect,hs.kind,if_neg (by rw [hk]; decide),hs.slot]
  exact (like_putObj c e.slot _).andThen (like_countArrival hs 1)

/-- A string is stored as the interpreted engine stores it. -/
theorem like_text (hs : Stands k b e) (hk : e.kind=.string) (data : List UInt8) :
    ((withText data fun text => .putObj c e.slot (.text text)).andThen
      (SofaBuffers.countArrival c e 1)).Like (objectEffect b data) := by
  rw [objectEffect,hs.kind,if_pos hk,withText.eq_def,withText.eq_def,hs.slot]
  refine Effect.Like.andThen ?_ (like_countArrival hs 1)
  cases Utf8.decode data with
  | none => exact .refl _
  | some text => exact like_putObj c e.slot _

/-- A string or blob is stored quietly. -/
theorem quiet_objectEffect (b : BEntry) (data : List UInt8) :
    (objectEffect b data : Effect V).Quiet := by
  refine Effect.Quiet.andThen ?_ (quiet_countArrival b 1)
  split
  · rw [withText.eq_def]
    cases Utf8.decode data with
    | none => exact quiet_raise (by simp [Exn.cls])
    | some text => exact quiet_update _
  · exact quiet_update _

/-- The string or blob of a row is stored as the interpreted engine stores it. -/
theorem mappedObject_like (hs : Stands k b e) (hk : e.kind.isObject=true) {st : FixlenSubtype}
    {got : ℕ} (hr : p.real=.fixlen st got) (hd : d.Filled) (hp : d.pos ≤ d.n)
    (hq : d.pending=some p) :
    ReadLike ((mappedObject c b p got >>= fun got => perform (countArrival b got)) d) d
      (objectPlan c e d.store p).1 ((objectPlan c e d.store p).2.read c d.store d.rest) := by
  have hkind : e.kind=.string ∨ e.kind=.bytes := by
    cases h : e.kind <;> rw [h] at hk <;> first | cases hk; done | decide
  have hcount := like_countArrival (c:=c) hs got
  have hquiet := quiet_countArrival (V:=V) b got
  rw [mappedObject.eq_def,objectPlan.eq_def,hs.into]
  by_cases hi : e.into
  · rw [if_pos hi,if_pos hi,hr]
    dsimp only
    rw [bind_assoc,setPending_bind,bind_assoc]
    by_cases hn : e.slot < c.nobjects
    · have hslot : (getObj c b.slot : DecM V Obj) {d with pending := some (.fixlen st got)}=
          .ok (d.store.obj e.slot) {d with pending := some (.fixlen st got)} := by
        rw [getObj,hs.slot,if_pos hn]
        rfl
      rw [if_pos hn,run_bind_ok hslot,hs.kind]
      by_cases hb : e.kind=.bytes
      · rw [if_pos hb,if_pos hb,bind_assoc]
        exact (takeBlobInto_like (d:={d with pending := some (.fixlen st got)}) hd hp rfl _ _ _
          hcount hquiet).of_start
      · rw [if_neg hb,if_neg hb,bind_assoc]
        exact (takeStringInto_like (d:={d with pending := some (.fixlen st got)}) hd hp rfl _ _ _
          hcount hquiet).of_start
    · rw [if_neg hn]
      exact .foreign (show Exn.index.cls.Foreign from trivial) _
  · rw [if_neg hi,if_neg hi]
    cases p with
    | limit msg q =>
      dsimp only
      exact .reads (readEnds_bad (k:=d.keep) (by intro h; cases h) hq) (.refl _)
    | fixlen st' size =>
      obtain ⟨-,rfl⟩ := Pending.fixlen.inj hr
      dsimp only
      rw [takeObject_eq]
      by_cases hb : e.kind=.bytes
      · rw [if_pos hb]
        exact takeFixlenPtr_like hd hp hq (fun data _ => like_blob hs hb data)
          fun data => quiet_objectEffect b data
      · rw [if_neg hb]
        exact takeFixlenPtr_like hd hp hq
          (fun data _ => like_text hs (hkind.resolve_right hb) data)
          fun data => quiet_objectEffect b data
    | scalar | varray | farray | discard => cases hr

/-- A value a header can announce is a scalar, a payload or an array, whether a cap parks it or
not. -/
theorem announced_shape (h : p.Announced) :
    p.real.tag=p.tag ∧ ((∃ zigzag, p.real=.scalar zigzag) ∨ (∃ st got, p.real=.fixlen st got) ∨
      (∃ zigzag got, p.real=.varray zigzag got) ∨ ∃ st got size, p.real=.farray st got size) := by
  refine ⟨by cases p <;> rfl,?_⟩
  rw [Pending.Announced] at h
  cases hr : p.real with
  | scalar zigzag => exact Or.inl ⟨zigzag,rfl⟩
  | fixlen st got => exact Or.inr (Or.inl ⟨st,got,rfl⟩)
  | varray zigzag got => exact Or.inr (Or.inr (Or.inl ⟨zigzag,got,rfl⟩))
  | farray st got size => exact Or.inr (Or.inr (Or.inr ⟨st,got,size,rfl⟩))
  | limit | discard =>
    rw [hr] at h
    exact absurd h id

/-- The float, string or blob of a row is stored as the interpreted engine stores it. -/
theorem mappedFixlen_like (hs : Stands k b e) (ht : e.Takes p) (hk : p.tag.1=.fixlen)
    (hd : d.Filled) (hp : d.pos ≤ d.n) (hq : d.pending=some p) :
    ReadLike ((mappedFixlen c b >>= fun got => perform (countArrival b got)) d) d
      (mappedPlan c e d.store p).1 ((mappedPlan c e d.store p).2.read c d.store d.rest) := by
  have htag := takes_tag ht
  have hone := like_countArrival (c:=c) hs 1
  have hquiet : ∀ w, ((Effect.update (·.setWord b.slot w)).andThen (countArrival b 1) :
      Effect V).Quiet := fun w => (quiet_update _).andThen (quiet_countArrival b 1)
  obtain ⟨hreal,hshape⟩ := announced_shape ht.2
  have hst : ∃ st got, p.real=.fixlen st got ∧ e.kind.tag=(.fixlen,some st) := by
    rw [←hreal] at hk
    rcases hshape with ⟨zigzag,hr⟩ | ⟨st,got,hr⟩ | ⟨zigzag,got,hr⟩ | ⟨st,got,size,hr⟩
    · rw [hr] at hk
      cases zigzag <;> cases hk
    · refine ⟨st,got,hr,?_⟩
      rw [htag,←hreal,hr]
      rfl
    · rw [hr] at hk
      cases zigzag <;> cases hk
    · rw [hr] at hk
      cases hk
  obtain ⟨st,got,hr,hst⟩ := hst
  rw [mappedFixlen,bind_assoc,run_get_bind,hq]
  dsimp only
  rw [hr,mappedPlan.eq_def]
  cases hkind : e.kind with
  | float32 =>
    rw [hkind] at hst
    cases hst
    have h := takeFixlenPtr_like (c:=c) hd hp hq (n:=4)
      (g:=fun data => (Effect.update (·.setWord b.slot (unpackF32 data))).andThen (countArrival b 1))
      (fun data _ => (like_putWord c b.slot (unpackF32 data)).andThen hone)
      (fun data => hquiet (unpackF32 data))
    simp only [unpackF32_eq,hs.slot] at h
    simp only [bind_assoc,pure_bind,unpackF32_eq,hs.slot,perform_andThen] at h ⊢
    exact h
  | float64 =>
    rw [hkind] at hst
    cases hst
    have h := takeFixlenPtr_like (c:=c) hd hp hq (n:=8)
      (g:=fun data => (Effect.update (·.setWord b.slot (unpackF64 data))).andThen (countArrival b 1))
      (fun data _ => (like_putWord c b.slot (unpackF64 data)).andThen hone)
      (fun data => hquiet (unpackF64 data))
    simp only [bind_assoc,pure_bind,hs.slot,perform_andThen] at h ⊢
    exact h
  | string | bytes =>
    have hobject := mappedObject_like (c:=c) hs (by rw [hkind]; rfl) hr hd hp hq
    rw [hkind] at hst
    cases hst
    exact hobject
  | unsigned | signed | boolean | arrayUnsigned | arraySigned | arrayBoolean | arrayFloat32
  | arrayFloat64 | sequence =>
    rw [hkind] at hst
    cases hst

/-- The booleans of a row are stored as the interpreted engine stores them. -/
theorem mappedBooleans_like (swar : Bool) {got : ℕ} (hs : Stands k b e) (hw : e.Worded)
    (hk : e.kind=.arrayBoolean) (hroom : e.slot+got ≤ c.nwords) (hd : d.Filled) (hp : d.pos ≤ d.n)
    (hq : d.pending=some p) :
    ReadLike ((fillVarints swar b got false >>= fun _ =>
        perform ((normalizeBools got b.slot).andThen (countArrival b got))) d) d p
      ((Plan.elements got (.of none none false) false (some (.unsignedWords,e.slot)) fun _ =>
        (normaliseBooleans c got e.slot).andThen (SofaBuffers.countArrival c e got)).read c d.store
        d.rest) := by
  have hbounded : e.elemBounded=false := hw.boolean (Or.inr hk)
  have hroom' : b.slot+got ≤ c.nwords := by rw [hs.slot]; exact hroom
  have hout := outside_row false hs (by intro h; cases h)
    (show false=true → none=_ by intro h; cases h) (fun _ => rfl)
    (show none=_ by rw [hbounded]; rfl)
  rw [←hs.slot]
  exact fillVarints_like swar hroom' hout
    ((like_normalizeBools c got b.slot).andThen (like_countArrival hs got))
    ((quiet_normalizeBools got b.slot).andThen (quiet_countArrival b got)) hd hp hq

/-- The integers of a row are stored as the interpreted engine stores them. -/
theorem mappedIntegers_like (swar zigzag : Bool) {got : ℕ} (hs : Stands k b e)
    (hhi : zigzag=true → e.elemHi ≤ signedMax) {lo hi : Option ℤ}
    (hlo : zigzag=true → lo=if e.elemBounded then some e.elemLo else none)
    (hun : zigzag=false → lo=none) (hup : hi=if e.elemBounded then some e.elemHi else none)
    (hroom : e.slot+got ≤ c.nwords) (hd : d.Filled) (hp : d.pos ≤ d.n) (hq : d.pending=some p) :
    ReadLike ((fillVarints swar b got zigzag >>= fun _ => perform (countArrival b got)) d) d p
      ((Plan.elements got (.of lo hi zigzag) zigzag (some (wordSink zigzag,e.slot)) fun _ =>
        SofaBuffers.countArrival c e got).read c d.store d.rest) := by
  have hroom' : b.slot+got ≤ c.nwords := by rw [hs.slot]; exact hroom
  rw [←hs.slot]
  exact fillVarints_like swar hroom' (outside_row zigzag hs hhi hlo hun hup) (like_countArrival hs got)
    (quiet_countArrival b got) hd hp hq

/-- The array of a row is stored as the interpreted engine stores it. -/
theorem mappedArray_like (swar : Bool) (hs : Stands k b e) (hw : e.Worded) (ht : e.Takes p)
    (hk : e.kind.isArray=true) (hr : p.real=p) (hroom : e.slot+p.count ≤ c.nwords)
    (hcount : p.count ≤ arrayMax) (hd : d.Filled) (hp : d.pos ≤ d.n) (hq : d.pending=some p) :
    ReadLike ((mappedValue swar c b p.tag.1 >>= fun got => perform (countArrival b got)) d) d p
      ((mappedArrayPlan c e p).read c d.store d.rest) := by
  have htag := takes_tag ht
  rw [mappedArrayPlan.eq_def]
  cases p with
  | varray zigzag got =>
    have hpend : (pendCount : DecM V ℕ) d=.ok got d := by
      rw [pendCount,run_get_bind,hq]
      rfl
    dsimp only
    cases hkind : e.kind with
    | arrayUnsigned =>
      rw [hkind] at htag
      cases zigzag with
      | true => cases htag
      | false =>
        have h := mappedIntegers_like swar false hs (by intro h; cases h)
          (show false=true → none=_ by intro h; cases h) (fun _ => rfl) rfl hroom hd hp hq
        have hform : ((mappedValue swar c b .arrayUnsigned >>= fun got =>
            perform (countArrival b got)) : DecM V Unit) d=
            (fillVarints swar b got false >>= fun _ => perform (countArrival b got)) d := by
          rw [mappedValue.eq_def]
          dsimp only
          rw [bind_assoc,run_bind_ok hpend,bind_assoc,hs.kind,hkind]
          rfl
        rw [show (Pending.varray false got).tag.1=.arrayUnsigned from rfl,hform]
        exact h
    | arraySigned =>
      rw [hkind] at htag
      cases zigzag with
      | false => cases htag
      | true =>
        have h := mappedIntegers_like swar true hs (fun _ => hw.hi (Or.inr hkind))
          (fun _ => rfl) (by intro h; cases h) rfl hroom hd hp hq
        have hform : ((mappedValue swar c b .arraySigned >>= fun got =>
            perform (countArrival b got)) : DecM V Unit) d=
            (fillVarints swar b got true >>= fun _ => perform (countArrival b got)) d := by
          rw [mappedValue.eq_def]
          dsimp only
          rw [bind_assoc,run_bind_ok hpend,bind_assoc]
          rfl
        rw [show (Pending.varray true got).tag.1=.arraySigned from rfl,hform]
        exact h
    | arrayBoolean =>
      rw [hkind] at htag
      cases zigzag with
      | true => cases htag
      | false =>
        have h := mappedBooleans_like swar hs hw hkind hroom hd hp hq
        have hform : ((mappedValue swar c b .arrayUnsigned >>= fun got =>
            perform (countArrival b got)) : DecM V Unit) d=
            (fillVarints swar b got false >>= fun _ =>
              perform ((normalizeBools got b.slot).andThen (countArrival b got))) d := by
          rw [mappedValue.eq_def,perform_andThen]
          dsimp only
          rw [bind_assoc,run_bind_ok hpend,bind_assoc,hs.kind,hkind]
          simp only [if_true,bind_assoc,pure_bind]
        rw [show (Pending.varray false got).tag.1=.arrayUnsigned from rfl,hform]
        exact h
    | unsigned | signed | boolean | float32 | float64 | string | bytes | sequence =>
      rw [hkind] at hk
      cases hk
    | arrayFloat32 | arrayFloat64 =>
      rw [hkind] at htag
      cases zigzag <;> cases htag
  | farray st got size =>
    have hwidth := ht.width hk
    have hsize : (if st=.fp32 then 4 else 8)=size := by
      have hann : (Pending.farray st got size).Announced := ht.2
      cases st with
      | fp32 => exact Eq.symm hann
      | fp64 => exact Eq.symm hann
      | string | blob => exact absurd hann id
    have hroom' : b.slot+got ≤ c.nwords := by rw [hs.slot]; exact hroom
    have h8 : size ≤ 8 := by rw [←hsize]; split <;> omega
    have h := fillFarray_like hroom' hcount h8 (like_countArrival (c:=c) hs got)
      (quiet_countArrival b got) hd hp hq
    have hform : ((mappedValue swar c b .arrayFixlen >>= fun got =>
        perform (countArrival b got)) : DecM V Unit) d=
        (fillFarray b.slot got size size >>= fun _ => perform (countArrival b got)) d := by
      rw [mappedValue.eq_def]
      dsimp only
      rw [mappedFarray,bind_assoc,run_get_bind,hq]
      dsimp only [Option.map,Pending.real]
      rw [hsize,bind_assoc]
      rfl
    rw [show (Pending.farray st got size).tag.1=.arrayFixlen from rfl,hform]
    dsimp only
    rw [hwidth,←hs.slot]
    exact h
  | scalar zigzag =>
    cases hkind : e.kind <;> rw [hkind] at hk htag <;> first
      | (cases hk; done)
      | cases zigzag <;> cases htag
  | fixlen =>
    cases hkind : e.kind <;> rw [hkind] at hk htag <;> first
      | (cases hk; done)
      | cases htag
  | limit msg q =>
    have hann := ht.2
    have hreal : q=.limit msg q := hr
    have hsize := congrArg sizeOf hreal
    rw [Pending.limit.sizeOf_spec] at hsize
    omega
  | discard => exact absurd ht.2 id

/-- The count of a value is the same whether a cap parks it or not. -/
theorem announced_count (h : p.Announced) : p.real.count=p.count := by
  obtain ⟨-,⟨zigzag,hr⟩ | ⟨st,got,hr⟩ | ⟨zigzag,got,hr⟩ | ⟨st,got,size,hr⟩⟩ := announced_shape h <;>
    rw [Pending.count.eq_def p,hr] <;> rfl

/-- A bound that is settled on an array takes the cap off, and keeps to the slots of the row. -/
theorem settled_array {q : Pending} (hk : e.kind.isArray=true) (ht : e.Takes p)
    (hs : settled e.declared p=.ok q) : q=p.real ∧ q.real=q ∧ q.count ≤ e.cap ∧ q.count=p.count := by
  obtain ⟨hreal,hshape⟩ := announced_shape ht.2
  have htag := (takes_tag ht).trans hreal.symm
  rw [settled.eq_def,Entry.declared,if_pos hk] at hs
  dsimp only at hs
  rcases hshape with ⟨zigzag,hr⟩ | ⟨st,got,hr⟩ | ⟨zigzag,got,hr⟩ | ⟨st,got,size,hr⟩
  · rw [hr] at hs
    cases hs
  · rw [hr] at htag
    cases hkind : e.kind <;> rw [hkind] at hk htag <;> first
      | (cases hk; done)
      | cases htag
  · rw [hr] at hs
    dsimp only at hs
    split at hs
    · cases hs
    · next hle =>
      cases hs
      rw [←hr]
      exact ⟨rfl,by rw [hr]; rfl,by rw [hr]; exact Nat.le_of_not_lt hle,announced_count ht.2⟩
  · rw [hr] at hs
    dsimp only at hs
    split at hs
    · cases hs
    · next hle =>
      cases hs
      rw [←hr]
      exact ⟨rfl,by rw [hr]; rfl,by rw [hr]; exact Nat.le_of_not_lt hle,announced_count ht.2⟩

/-- The value of a row is stored as the interpreted engine stores it, once its bound is settled. -/
theorem mappedValue_like (swar : Bool) (hs : Stands k b e) (hw : e.Worded) (ht : e.Takes p)
    (harray : e.kind.isArray=true → p.real=p ∧ e.slot+p.count ≤ c.nwords)
    (hcount : p.count ≤ arrayMax) (hd : d.Filled) (hp : d.pos ≤ d.n) (hq : d.pending=some p) :
    ReadLike ((mappedValue swar c b p.tag.1 >>= fun got => perform (countArrival b got)) d) d
      (mappedPlan c e d.store p).1 ((mappedPlan c e d.store p).2.read c d.store d.rest) := by
  have htag := takes_tag ht
  have hfixlen := fun h => mappedFixlen_like (c:=c) hs ht h hd hp hq
  have hmany := fun h => mappedArray_like swar hs hw ht h (harray h).1 (harray h).2 hcount hd hp hq
  rw [←htag] at hfixlen hmany ⊢
  cases hkind : e.kind with
  | unsigned =>
    have h := mappedUnsigned_like (c:=c) swar hs hw (Or.inl hkind) hd hp hq d.store
    rw [mappedPlan.eq_def,hkind] at h ⊢
    exact h
  | boolean =>
    have h := mappedUnsigned_like (c:=c) swar hs hw (Or.inr hkind) hd hp hq d.store
    rw [mappedPlan.eq_def,hkind] at h ⊢
    exact h
  | signed =>
    have h := mappedSigned_like (c:=c) swar hs hw hkind hd hp hq d.store
    rw [mappedPlan.eq_def,hkind] at h ⊢
    exact h
  | float32 | float64 | string | bytes =>
    rw [hkind] at hfixlen
    exact hfixlen rfl
  | arrayUnsigned | arraySigned | arrayBoolean | arrayFloat32 | arrayFloat64 =>
    have h := hmany (by rw [hkind]; rfl)
    rw [hkind] at h
    rw [mappedPlan.eq_def,hkind]
    exact h
  | sequence =>
    obtain ⟨hreal,hshape⟩ := announced_shape ht.2
    rw [hkind,←hreal] at htag
    rcases hshape with ⟨zigzag,hr⟩ | ⟨st,got,hr⟩ | ⟨zigzag,got,hr⟩ | ⟨st,got,size,hr⟩ <;>
      rw [hr] at htag
    · cases zigzag <;> cases htag
    · cases htag
    · cases zigzag <;> cases htag
    · cases htag

/-- A row's value is stored as the interpreted engine stores it: the arrival of an option first,
then the declared bound, then the value by its wire type, and last its arrival. -/
theorem mappedField_like (swar : Bool) (hs : Stands k b e) (hw : e.Worded) (ht : e.Takes p)
    (hroom : e.kind.isArray=true → e.slot+e.cap ≤ c.nwords) (hcount : p.count ≤ arrayMax)
    (hd : d.Filled) (hp : d.pos ≤ d.n) (hq : d.pending=some p) (v : Option V) (id : ℕ) :
    ReadLike (mappedField swar c k b p.tag.1 d) d
      (prepare c v id (.mapped e) p d.store).2.1 ((prepare c v id (.mapped e) p d.store).2.2.read c
        (prepare c v id (.mapped e) p d.store).1 d.rest) := by
  rw [prepare,mappedField]
  have harrive := like_arrive (c:=c) hs d.store
  generalize ha : SofaBuffers.arrive c e d.store=r at harrive ⊢
  generalize hb : arrive c k b d.store=r' at harrive
  cases harrive with
  | foreign hx s => exact .foreign hx s
  | raised hcls s =>
    rw [run_bind_error (perform_error hb)]
    refine .reads (readEnds_bad (d:={d with store := s}) (k:=d.keep) ?_ hq).of_start (.bad hcls s)
    rw [←hcls]
    exact firm_arrive _ _ _ _ _ ha
  | done s =>
    rw [run_bind_ok (perform_ok hb)]
    have hsettle := settleBound_run (d:={d with store := s}) hq (declared b)
    rw [declared_eq hs] at hsettle ⊢
    dsimp only
    cases hset : settled e.declared p with
    | error why =>
      rw [hset] at hsettle
      rw [run_bind_error hsettle]
      exact .reads (readEnds_bad (d:={d with store := s}) (k:=d.keep) (settled_cls hset) hq).of_start
        (.refl _)
    | ok q =>
      rw [hset] at hsettle
      rw [run_bind_ok hsettle]
      have hq' : q.tag=p.tag ∧ q.count=p.count := by
        rcases settled_eq hset with rfl | rfl
        · exact ⟨rfl,rfl⟩
        · exact ⟨(announced_shape ht.2).1,announced_count ht.2⟩
      have h := mappedValue_like (c:=c) (d:={d with pending := some q, store := s}) swar hs hw
        (ht.settled hset) (fun hk => by
          obtain ⟨-,hreal,hle,-⟩ := settled_array hk ht hset
          exact ⟨hreal,(Nat.add_le_add_left hle _).trans (hroom hk)⟩)
        (by rw [hq'.2]; exact hcount) hd hp rfl
      rw [hq'.1] at h
      exact h.of_start

end Rows

end Decoder

end Native

end SofaBuffers
