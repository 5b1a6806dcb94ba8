import SofaBuffers.Encoder.Refine

/-!
# A refused write leaves no trace

A call refused for its arguments, for the depth or for an unmatched end leaves
the encoder exactly as it was. A call of an integer array that is refused for an
element has written its header, its count and the elements before that one.
-/

set_option autoImplicit false

namespace SofaBuffers

/-- The encoder a call leaves. -/
def left {α : Type} : EStateM.Result Exn Enc α → Enc
  | .ok _ e => e
  | .error _ e => e

/-- What a call leaves an encoder as, whether it raises or not. -/
def Enc.next {α : Type} (m : EncM α) (e : Enc) : Enc := left (m e)

/-- What calls in order leave an encoder as. -/
def Enc.after (o : Outlet) (narrow : BitVec 64 → Option (BitVec 32)) (calls : List Call)
    (e : Enc) : Enc :=
  calls.foldl (fun e c => e.next (c.run o narrow)) e

/-- The encoders there can be over an outlet. -/
inductive Reached (o : Outlet) (narrow : BitVec 64 → Option (BitVec 32)) : Enc → Prop
  /-- `Encoder()` and `Encoder(writer)`. -/
  | scratch (sticky : Bool) (ho : o=.result ∨ o=.writer) : Reached o narrow (.scratch sticky)
  /-- `Encoder.over_buffer`. -/
  | buffered {buffer : List UInt8} {offset : ℕ} {sticky : Bool} {e : Enc} (ho : o.inMemory=false)
      (h : overBuffer o buffer offset sticky=.ok e) : Reached o narrow e
  /-- A write. -/
  | call {e : Enc} (h : Reached o narrow e) (c : Call) : Reached o narrow (e.next (c.run o narrow))
  /-- A flush. -/
  | flush {e : Enc} (h : Reached o narrow e) : Reached o narrow (e.next (flush o))
  /-- The caller installs another buffer. -/
  | bufferSet {e : Enc} (h : Reached o narrow e) (buffer : List UInt8) (offset : ℕ) :
      Reached o narrow (e.next (bufferSet o buffer offset))

/-- What a call is refused for before anything of it is written. -/
def Call.refusal (narrow : BitVec 64 → Option (BitVec 32)) (c : Call) (e : Enc) : Option Exn :=
  (c.move narrow).refusal e.depth

/-- The width, the id, the elements and the cap of a call that writes integers. -/
def Call.integers : Call → Option (Width × Given × List Given × ℤ)
  | .unsignedArray fieldId values => some (.u64,fieldId,values,-1)
  | .signedArray fieldId values => some (.i64,fieldId,values,-1)
  | .sizedArray w fieldId values cap => some (w,fieldId,values,cap)
  | _ => none

section Refusal

variable {o : Outlet} {narrow : BitVec 64 → Option (BitVec 32)} {e : Enc} {c : Call}

/-- A refused body leaves the encoder as it was. -/
theorem Means.untouched {body : EncM Unit} {m : Move} (hm : Means o body m) {why : Exn}
    (h : m.refusal e.depth=some why) : body e=.error why e := by
  rw [Move.refusal.eq_def] at h
  cases m with
  | refused w =>
    injection h with h
    rw [←h]
    exact hm e
  | field bytes rejected => cases h
  | start id =>
    by_cases hd : e.depth ≥ maxDepth
    · have hw : tooDeep=why := by simpa [hd] using h
      rw [←hw]
      exact hm.deep e hd
    · have hlt := Nat.lt_of_not_le hd
      cases id with
      | error w =>
        have hw : w=why := by simpa [hd] using h
        have hst : Starts o body (.error w) := hm
        rw [←hw]
        exact hst.refused e w hlt rfl
      | ok i => simp [hd] at h
  | stop keep =>
    by_cases hd : e.depth ≤ 0
    · have hw : unmatchedEnd=why := by simpa [hd] using h
      rw [←hw]
      exact hm.unmatched e hd
    · simp [hd] at h

/-- The refusals of a move are argument errors. -/
theorem Move.Argues.refusal {m : Move} (hm : m.Argues) {depth : ℕ} {why : Exn}
    (h : m.refusal depth=some why) : why.cls=.argument := by
  have hdeep : tooDeep.cls=.argument := rfl
  have hend : unmatchedEnd.cls=.argument := rfl
  rw [Move.refusal.eq_def] at h
  unfold Move.Argues SofaBuffers.Argues at hm
  grind

/-- A call with a cap past the C integers is none at all. -/
theorem call_unsized (o : Outlet) (h : ¬c.Sized) : c.run o narrow e=.error .overflow e := by
  cases c with
  | sizedArray w fieldId values cap =>
    have hcap : cap > 2^63-1 ∨ cap < -2^63 := by
      by_contra hn
      exact h ⟨by omega,by omega⟩
    have hrun : ∀ w, arrayWriter o w fieldId values cap=throw .overflow := by
      intro w
      rw [arrayWriter,if_pos hcap]
    cases w <;> exact congrFun (hrun _) e
  | _ => exact absurd trivial h

/-- The library's own errors may be latched. -/
theorem isSofa_of_cls {why : Exn} (h : why.cls=.argument) : why.isSofa=true := by
  cases why <;> simp [Exn.cls,Exn.isSofa] at h ⊢

/-- A call that is refused latches its error or raises it, and nothing else. -/
theorem call_refused (o : Outlet) (hc : c.Sized) {why : Exn} (h : c.refusal narrow e=some why)
    (hl : e.latched=false) :
    c.run o narrow e=if e.sticky then .ok () {e with error := some why} else .error why e := by
  obtain ⟨body,hrun,hmeans⟩ := call_frames o narrow hc
  have hsofa := isSofa_of_cls ((call_argues narrow c).refusal h)
  rw [hrun,guarded_run body hl,hmeans.untouched h]
  show (if why.isSofa=true then fail why e else .error why e)=_
  rw [if_pos hsofa,fail_run]
  cases hs : e.sticky with
  | false => rfl
  | true =>
    have hnone : e.error=none := by simpa [Enc.latched,hs] using hl
    rw [hnone]
    rfl

/-- The elements in front of one that is refused. -/
theorem encodeElements_refused {word : Given → Except Exn ℕ} {accepted : List Given}
    {words : List ℕ} (ha : accepted.map word=words.map .ok) {v : Given} {why : Exn}
    (hv : word v=.error why) (rest : List Given) :
    encodeElements word (accepted++v::rest)=(words.flatMap Varint.encode,some why) := by
  induction accepted generalizing words with
  | nil =>
    have hnil : words=[] := by simpa using ha.symm
    rw [hnil,List.nil_append,encodeElements,hv]
    rfl
  | cons a accepted ih =>
    cases words with
    | nil => cases ha
    | cons u words =>
      rw [List.map_cons,List.map_cons] at ha
      injection ha with hu ha
      rw [List.cons_append,encodeElements,hu,List.flatMap_cons]
      simp only [ih ha]

/-- A refused element has elements in front of it that were not. -/
theorem encodeElements_split {word : Given → Except Exn ℕ} {values : List Given} {why : Exn}
    (h : (encodeElements word values).2=some why) :
    ∃ (accepted : List Given) (words : List ℕ) (v : Given) (rest : List Given),
      values=accepted++v::rest ∧ accepted.map word=words.map .ok ∧ word v=.error why := by
  induction values with
  | nil => cases h
  | cons a values ih =>
    rw [encodeElements] at h
    cases ha : word a with
    | error w =>
      rw [ha] at h
      injection h with h
      exact ⟨[],[],a,values,rfl,rfl,ha.trans (by rw [h])⟩
    | ok u =>
      rw [ha] at h
      obtain ⟨accepted,words,v,rest,hval,hacc,hv⟩ := ih h
      refine ⟨a::accepted,u::words,v,rest,by rw [hval]; rfl,?_,hv⟩
      rw [List.map_cons,List.map_cons,ha,hacc]

end Refusal

/-- The wire type of an array of a width. -/
def Width.arrayType (w : Width) : WireType := if w.signed then .arraySigned else .arrayUnsigned

/-- What a call of an array of integers has written when an element is refused: what was
held back, the header, the count and the elements before. -/
def arrayPrefix (e : Enc) (id : ℕ) (w : Width) (count : ℕ) (words : List ℕ) : List UInt8 :=
  startBytes e.held++(headerBytes id w.arrayType++
    (Varint.encode count++words.flatMap Varint.encode))

section Integers

variable {o : Outlet} {narrow : BitVec 64 → Option (BitVec 32)} {e : Enc} {c : Call}
variable {w : Width} {fieldId : Given} {values : List Given} {cap : ℤ}

/-- A call of an array of integers means that array. -/
theorem move_integers (h : c.integers=some (w,fieldId,values,cap)) :
    c.move narrow=sizedArrayMove w fieldId values cap := by
  cases c with
  | unsignedArray | signedArray | sizedArray =>
    injection h with h
    injection h with h1 h2
    injection h2 with h2 h3
    injection h3 with h3 h4
    rw [←h1,←h2,←h3,←h4]
    rfl
  | _ => cases h

/-- A field of one varint has nothing to refuse behind its header. -/
theorem scalarMove_rejected {wtype : WireType} {value : Except Exn ℕ} {bytes : List UInt8}
    {why : Option Exn} (h : scalarMove fieldId wtype value=.field bytes why) : why=none := by
  rw [scalarMove.eq_def] at h
  grind

/-- A fixlen field has nothing to refuse behind its header. -/
theorem fixlenMove_rejected {subtype : FixlenSubtype} {payload : Except Exn (List UInt8)}
    {bytes : List UInt8} {why : Option Exn}
    (h : fixlenMove fieldId subtype payload=.field bytes why) : why=none := by
  rw [fixlenMove.eq_def] at h
  grind

/-- An array has its elements, once its arguments are in order. -/
theorem arrayMove_field {wtype : WireType} {count : Except Exn ℕ}
    {body : List UInt8 × Option Exn} {bytes : List UInt8} {why : Option Exn}
    (h : arrayMove fieldId wtype count body=.field bytes why) :
    ∃ n id, count=.ok n ∧ checkedId fieldId=.ok id ∧ why=body.2 ∧
      bytes=headerBytes id wtype++(Varint.encode n++body.1) := by
  rw [arrayMove.eq_def] at h
  grind

/-- Only the elements of an array of integers are refused behind its header. -/
theorem integers_of_rejected {bytes : List UInt8} {why : Exn}
    (h : c.move narrow=.field bytes (some why)) :
    ∃ w fieldId values cap, c.integers=some (w,fieldId,values,cap) := by
  cases c with
  | unsignedArray | signedArray | sizedArray => exact ⟨_,_,_,_,rfl⟩
  | unsigned | signed | bool => cases scalarMove_rejected h
  | sized w fieldId value => cases w <;> cases scalarMove_rejected h
  | float32 | float32Bits | float64 | string | stringBounded | bytes | bytesBounded =>
    rw [Call.move] at h
    cases fixlenMove_rejected h
  | boolArray | boolArrayBounded | float32Array | float32ArrayBounded | float32ArrayBits |
      float64Array | float64ArrayBounded =>
    rw [Call.move] at h
    obtain ⟨n,id,_,_,hwhy,_⟩ := arrayMove_field h
    cases hwhy
  | sequenceBeginLazy | sequenceEnd | sequenceEndKeep => cases h

/-- An array of integers whose arguments are in order and one of whose elements is refused. -/
theorem move_rejected (narrow : BitVec 64 → Option (BitVec 32)) {id : ℕ} {accepted rest : List Given} {words : List ℕ} {v : Given}
    {why : Exn} (hc : c.integers=some (w,fieldId,accepted++v::rest,cap))
    (hcap : withinCap (some cap) (accepted++v::rest).length=.ok ())
    (hmax : (accepted++v::rest).length ≤ arrayMax) (hid : checkedId fieldId=.ok id)
    (ha : accepted.map (elementWordOf w)=words.map .ok) (hv : elementWordOf w v=.error why) :
    c.move narrow=.field (headerBytes id w.arrayType++
      (Varint.encode (accepted++v::rest).length++words.flatMap Varint.encode)) (some why) := by
  have hcount : cappedCount (some cap) (accepted++v::rest).length=
      .ok (accepted++v::rest).length := by
    rw [cappedCount,hcap]
    rfl
  have hbody := encodeElements_refused ha hv rest
  rw [move_integers hc,sizedArrayMove,hcount,hbody,arrayMove]
  dsimp only
  rw [if_neg (by omega),hid]
  rfl

end Integers

section Reached

variable {o : Outlet} {narrow : BitVec 64 → Option (BitVec 32)} {e : Enc}

/-- A buffer is refused or installed. -/
theorem bufferSet_cases (o : Outlet) (buffer : List UInt8) (offset : ℕ) (e : Enc) :
    (∃ why, bufferSet o buffer offset e=.error why e) ∨
      (offset ≤ buffer.length ∧ (o.hasSink=true → offset < buffer.length)) := by
  unfold bufferSet
  rw [run_get_bind]
  by_cases hin : buffer.length < offset
  · exact Or.inl ⟨_,by rw [if_pos hin]; rfl⟩
  · by_cases huse : buffer.length-offset < minOutputBuffer ∧ o.hasSink=true
    · exact Or.inl ⟨_,by rw [if_neg hin,if_pos huse]; rfl⟩
    · refine Or.inr ⟨by omega,fun hs => ?_⟩
      rw [minOutputBuffer] at huse
      by_contra hge
      exact huse ⟨by omega,hs⟩

/-- Installing a buffer keeps the encoder in order. -/
theorem Enc.Ok.bufferSet (h : e.Ok o) (buffer : List UInt8) (offset : ℕ) :
    (e.next (SofaBuffers.bufferSet o buffer offset)).Ok o := by
  rcases bufferSet_cases o buffer offset e with ⟨why,hw⟩|⟨hin,hroom⟩
  · rw [Enc.next,hw]
    exact h
  · rw [Enc.next,bufferSet_run hin hroom]
    exact h.installed hin hroom _

/-- The slots for held-back ids of a new encoder. -/
theorem blank_slots (side : Bool) :
    ((fun _ => List.replicate maxDepth 0 : Bool → List ℕ) side).length=maxDepth ∧
      ∀ id ∈ (fun _ => List.replicate maxDepth 0 : Bool → List ℕ) side, id ≤ idMax := by
  refine ⟨List.length_replicate,fun id hid => ?_⟩
  rw [List.eq_of_mem_replicate hid]
  exact Nat.zero_le _

/-- An encoder over its own scratch buffer is in order. -/
theorem scratch_ok (o : Outlet) (sticky : Bool) : (Enc.scratch sticky).Ok o where
  cap := rfl
  cursor := Nat.zero_le _
  room _ := by
    show 0 < (List.replicate scratchSize (0 : UInt8)).length
    rw [List.length_replicate]
    decide
  reserved _ := Nat.le_refl _
  front _ := rfl
  size _ := rfl
  orderly := .installed .nil (Nat.zero_le _) fun _ => by
    rw [List.length_replicate]
    decide
  slots side := (blank_slots side).1
  ids side := (blank_slots side).2
  pending := Nat.le_refl _
  depth := Nat.zero_le _

/-- A flush keeps the encoder in order and puts out nothing that was not. -/
theorem flush_run (hf : o.Fair) (h : e.Ok o) :
    ∃ e', flush o e=.ok e.cursor e' ∧ After o e [] e' := by
  unfold flush
  rw [run_get_bind]
  by_cases hd : e.cursor≠0 ∧ o.hasSink=true
  · obtain ⟨e',hdrain,ha,_,_⟩ := drain_run h hf hd.2
    rw [if_pos hd,run_bind_ok hdrain]
    exact ⟨e',rfl,ha⟩
  · rw [if_neg hd]
    exact ⟨e,rfl,.refl h⟩

/-- Latching an error keeps the encoder in order. -/
theorem Enc.Ok.latch (h : e.Ok o) (why : Option Exn) : ({e with error := why} : Enc).Ok o :=
  ⟨h.cap,h.cursor,h.room,h.reserved,h.front,h.size,h.orderly,h.slots,h.ids,h.pending,h.depth⟩

/-- What a settled call leaves is in order. -/
theorem Refines.next_ok {out : Framing × Option Exn} {r : EStateM.Result Exn Enc Unit}
    (h : Refines o e out r) : (left (settle r)).Ok o := by
  cases h with
  | ok hok _ _ => exact hok
  | @error e' why hok _ _ =>
    have hs : settle (.error why e')=
        if why.isSofa=true then fail why e' else .error why e' := rfl
    rw [hs,fail_run]
    split
    · split
      · exact hok.latch _
      · exact hok
    · exact hok

/-- A call keeps the encoder in order. -/
theorem Enc.Ok.call (hf : o.Fair) (h : e.Ok o) (narrow : BitVec 64 → Option (BitVec 32))
    (c : Call) : (e.next (c.run o narrow)).Ok o := by
  by_cases hc : c.Sized
  · cases hl : e.latched with
    | true =>
      obtain ⟨body,hrun,_⟩ := call_frames o narrow hc
      have hskip : c.run o narrow e=.ok () e := by
        rw [hrun]
        exact if_pos hl
      rw [Enc.next,hskip]
      exact h
    | false =>
      obtain ⟨r,hr,hrun⟩ := call_refines hf h narrow hc hl
      rw [Enc.next,hrun]
      exact hr.next_ok
  · rw [Enc.next,call_unsized o hc]
    exact h

/-- Every encoder there can be is in order. -/
theorem Reached.ok (hf : o.Fair) (h : Reached o narrow e) : e.Ok o := by
  induction h with
  | scratch sticky ho => exact scratch_ok o sticky
  | @buffered buffer offset sticky e ho h =>
    rw [overBuffer] at h
    rcases bufferSet_cases o buffer offset
      {fixed := [], cap := 0, cursor := 0, installs := 0, transfers := [], sticky := sticky} with
      ⟨why,hw⟩|⟨hin,hroom⟩
    · simp only [hw] at h
      cases h
    · simp only [bufferSet_run hin hroom] at h
      injection h with h
      rw [←h]
      exact ⟨rfl,hin,fun hs => Nat.zero_lt_of_lt (hroom hs),fun _ => Nat.le_refl _,fun _ => rfl,
        fun _ => rfl,.installed .nil hin hroom,fun side => (blank_slots side).1,
        fun side => (blank_slots side).2,Nat.le_refl _,Nat.zero_le _⟩
  | call _ c ih => exact ih.call hf narrow c
  | @flush e _ ih =>
    obtain ⟨e',hrun,ha⟩ := flush_run hf ih
    rw [Enc.next,hrun]
    exact ha.ok
  | bufferSet _ buffer offset ih => exact ih.bufferSet buffer offset

end Reached

section Claim

variable {o : Outlet} {narrow : BitVec 64 → Option (BitVec 32)} {e : Enc} {c : Call}

/-- A field whose call raises an argument error behind its bytes has written them. -/
theorem field_raised (hf : o.Fair) (h : e.Ok o) (hc : c.Sized) (hs : e.sticky=false)
    {bytes : List UInt8} {why : Exn} (hm : c.move narrow=.field bytes (some why)) :
    (∃ e', c.run o narrow e=.error why e' ∧
      o.output e'=o.output e++(startBytes e.held++bytes) ∧ e'.held=[] ∧ e'.depth=e.depth) ∨
    (o.hasSink=false ∧ e.cap-e.cursor < (startBytes e.held++bytes).length ∧
      ∃ e', c.run o narrow e=.error bufferFull e') := by
  have hl : e.latched=false := by rw [Enc.latched,hs]; rfl
  obtain ⟨body,hrun,hmeans⟩ := call_frames o narrow hc
  have hsofa := isSofa_of_cls ((hm ▸ call_argues narrow c : (Move.field _ _).Argues) why rfl)
  rw [hm] at hmeans
  have hw := hmeans hf e h
  have hsticky := (committed_sticky e).1
  have hraise : ∀ w e', w.isSofa=true → e'.sticky=false →
      settle (.error w e')=.error w e' := by
    intro w e' hsofa hs'
    have hgo : settle (.error w e')=if w.isSofa=true then fail w e' else .error w e' := rfl
    rw [hgo,if_pos hsofa,fail_run,hs']
    rfl
  have hout : o.output e.committed=o.output e := congrArg Framing.out (frame_committed o e)
  have hheld : e.committed.held=[] := congrArg Framing.held (frame_committed o e)
  have hroom : e.committed.cap=e.cap ∧ e.committed.cursor=e.cursor := by
    rw [Enc.committed]
    split <;> exact ⟨rfl,rfl⟩
  rw [hrun,guarded_run body hl]
  generalize body e=r at hw
  cases hw with
  | done hnone _ => cases hnone
  | @raised e' w hw ha =>
    injection hw with hw
    have hs' : e'.sticky=false := (ha.kept.sticky.trans hsticky).trans hs
    have hframe := ha.frame
    refine Or.inl ⟨e',?_,ha.output.trans (by rw [hout]),?_,?_⟩
    · rw [hraise w e' (hw ▸ hsofa) hs',hw]
    · exact (congrArg Framing.held hframe).trans hheld
    · exact ha.kept.depth.trans (committed_depth e)
  | @full e' hclosed hn ha =>
    have hs' : e'.sticky=false := (ha.kept.sticky.trans hsticky).trans hs
    rw [hroom.1,hroom.2] at hn
    exact Or.inr ⟨hclosed,hn,e',hraise _ e' rfl hs'⟩

/-- Behind its bytes a field is refused for one of its elements. -/
theorem field_of_raised (hf : o.Fair) (h : e.Ok o) (hs : e.sticky=false)
    (hr : c.refusal narrow e=none) {msg : String} {e' : Enc}
    (hrun : c.run o narrow e=.error (.argument msg) e') :
    c.Sized ∧ ∃ bytes, c.move narrow=.field bytes (some (.argument msg)) := by
  have hl : e.latched=false := by rw [Enc.latched,hs]; rfl
  have hc : c.Sized := by
    by_contra hc
    rw [call_unsized o hc] at hrun
    cases hrun
  refine ⟨hc,?_⟩
  obtain ⟨r,href,hgo⟩ := call_refines hf h narrow hc hl
  rw [hgo] at hrun
  rw [href.raising hs] at hrun
  subst hrun
  generalize hout : (o.frame e).step (c.move narrow)=out at href
  cases href with
  | error _ _ _ =>
    rcases Framing.step_error hout with hfull|hrefused|hfield
    · cases hfull
    · have hnone : (c.move narrow).refusal e.depth=none := hr
      have hsome : (c.move narrow).refusal e.depth=some (.argument msg) := hrefused
      rw [hnone] at hsome
      cases hsome
    · exact hfield

/-- A call that is refused before anything of it is written might as well not have been
made. -/
theorem after_refused (o : Outlet) {before after : List Call} (hc : c.Sized)
    (hs : (e.after o narrow before).sticky=false) {why : Exn}
    (h : c.refusal narrow (e.after o narrow before)=some why) :
    e.after o narrow (before++c::after)=e.after o narrow (before++after) := by
  have hl : (e.after o narrow before).latched=false := by rw [Enc.latched,hs]; rfl
  have hrun := call_refused o hc h hl
  have hnext : (e.after o narrow before).next (c.run o narrow)=e.after o narrow before := by
    rw [Enc.next,hrun,hs]
    rfl
  rw [Enc.after,List.foldl_append,List.foldl_cons,Enc.after,List.foldl_append]
  rw [Enc.after] at hnext
  rw [hnext]

end Claim

/-- A refused write leaves no trace. A call refused for its id, for the range or the width
of a value, for the text or the length of a string or blob, for the count of an array, for
the shape of raw singles, for the depth or for an unmatched end changes nothing, whatever
the outlet, so that the calls around it do what they do without it; the only other argument
error is that of an element of an array of integers, and then exactly the header, the count
and the elements before it are written, over any buffer and sink. -/
theorem refused_write (o : Outlet) (narrow : BitVec 64 → Option (BitVec 32)) :
    (∀ (c : Call) (e : Enc) (why : Exn), c.Sized → c.refusal narrow e=some why →
      e.latched=false →
      c.run o narrow e=if e.sticky then .ok () {e with error := some why} else .error why e) ∧
    (∀ (before after : List Call) (c : Call) (e : Enc) (why : Exn), c.Sized →
      (e.after o narrow before).sticky=false →
      c.refusal narrow (e.after o narrow before)=some why →
      e.after o narrow (before++c::after)=e.after o narrow (before++after)) ∧
    (o.Fair → ∀ (e : Enc) (c : Call) (msg : String) (e' : Enc), Reached o narrow e →
      e.sticky=false → c.run o narrow e=.error (.argument msg) e' →
      (c.refusal narrow e=some (.argument msg) ∧ e'=e) ∨
      ∃ w fieldId id accepted words v rest cap,
        c.integers=some (w,fieldId,accepted++v::rest,cap) ∧ checkedId fieldId=.ok id ∧
        accepted.map (elementWordOf w)=words.map .ok ∧ elementWordOf w v=.error (.argument msg) ∧
        o.output e'=o.output e++arrayPrefix e id w (accepted++v::rest).length words ∧
        e'.held=[] ∧ e'.depth=e.depth) ∧
    (o.Fair → ∀ (e : Enc) (c : Call) (w : Width) (fieldId : Given) (id : ℕ)
      (accepted : List Given) (words : List ℕ) (v : Given) (rest : List Given) (cap : ℤ)
      (why : Exn), Reached o narrow e → e.sticky=false → c.Sized →
      c.integers=some (w,fieldId,accepted++v::rest,cap) →
      withinCap (some cap) (accepted++v::rest).length=.ok () →
      (accepted++v::rest).length ≤ arrayMax → checkedId fieldId=.ok id →
      accepted.map (elementWordOf w)=words.map .ok → elementWordOf w v=.error why →
      (∃ e', c.run o narrow e=.error why e' ∧
        o.output e'=o.output e++arrayPrefix e id w (accepted++v::rest).length words) ∨
      (o.hasSink=false ∧
        e.cap-e.cursor < (arrayPrefix e id w (accepted++v::rest).length words).length ∧
        ∃ e', c.run o narrow e=.error bufferFull e')) := by
  refine ⟨fun c e why hc h hl => call_refused o hc h hl,
    fun before after c e why hc hs h => after_refused o hc hs h,?_,?_⟩
  · intro hf e c msg e' hreach hs hrun
    have hok := hreach.ok hf
    have hl : e.latched=false := by rw [Enc.latched,hs]; rfl
    cases hr : c.refusal narrow e with
    | some why =>
      have hc : c.Sized := by
        by_contra hc
        rw [call_unsized o hc] at hrun
        cases hrun
      have hgo := call_refused o hc hr hl
      rw [hs,hrun] at hgo
      injection hgo with hwhy he
      exact Or.inl ⟨by rw [hwhy],he⟩
    | none =>
      obtain ⟨hc,bytes,hm⟩ := field_of_raised hf hok hs hr hrun
      obtain ⟨w,fieldId,values,cap,hint⟩ := integers_of_rejected hm
      have harray := (move_integers hint).symm.trans hm
      rw [sizedArrayMove] at harray
      obtain ⟨n,id,hn,hid,hwhy,hbytes⟩ := arrayMove_field harray
      obtain ⟨accepted,words,v,rest,hval,ha,hv⟩ := encodeElements_split hwhy.symm
      have hlen : n=values.length := by
        rw [cappedCount] at hn
        cases hcap : withinCap (some cap) values.length with
        | error why =>
          rw [hcap] at hn
          cases hn
        | ok _ =>
          rw [hcap] at hn
          injection hn with hn
          exact hn.symm
      have hbody : (encodeElements (elementWordOf w) values).1=words.flatMap Varint.encode := by
        rw [hval,encodeElements_refused ha hv rest]
      rcases field_raised hf hok hc hs hm with ⟨e'',hrun',hout,hheld,hdepth⟩|⟨_,_,e'',hrun'⟩
      · rw [hrun] at hrun'
        injection hrun' with _ he
        rw [←he,hbytes,hbody,hlen,hval] at hout
        refine Or.inr ⟨w,fieldId,id,accepted,words,v,rest,cap,?_,hid,ha,hv,hout,?_,?_⟩
        · rw [hint,hval]
        · rw [he]
          exact hheld
        · rw [he]
          exact hdepth
      · rw [hrun] at hrun'
        cases hrun'
  · intro hf e c w fieldId id accepted words v rest cap why hreach hs hc hint hcap hmax hid ha hv
    have hm := move_rejected narrow hint hcap hmax hid ha hv
    rcases field_raised hf (hreach.ok hf) hc hs hm with ⟨e',hrun,hout,_,_⟩|hfull
    · exact Or.inl ⟨e',hrun,hout⟩
    · exact Or.inr hfull

/-- An unmatched end changes nothing, and an array whose second element is out of range
has written its header, its count and the first. -/
theorem refused_write_scratch :
    Call.sequenceEnd.run .result (fun _ => none) (Enc.scratch false)=
      .error unmatchedEnd (Enc.scratch false) ∧
    ∃ e', (Call.sizedArray .u8 (.int 1) [.int 7,.int 256] (-1)).run .result (fun _ => none)
        (Enc.scratch false)=.error (elemRefusal .u8 256) e' ∧
      Outlet.result.output e'=[0x0B,2,7] := by
  refine ⟨(refused_write .result fun _ => none).1 .sequenceEnd (.scratch false) unmatchedEnd
    trivial rfl rfl,?_⟩
  have h := (refused_write .result fun _ => none).2.2.2 trivial (.scratch false)
    (.sizedArray .u8 (.int 1) [.int 7,.int 256] (-1)) .u8 (.int 1) 1 [.int 7] [7] (.int 256) [] (-1)
    (elemRefusal .u8 256) (.scratch false (Or.inl rfl)) rfl ⟨by decide,by decide⟩ rfl rfl (by decide)
    (by decide) (by decide) (by decide)
  rcases h with ⟨e',hrun,hout⟩|⟨hs,_⟩
  · exact ⟨e',hrun,hout.trans (by decide)⟩
  · cases hs

end SofaBuffers
