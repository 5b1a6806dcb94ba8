import SofaBuffers.Encoder.Framing

/-!
# The writers frame

Every writer is its checks, the commit of what is held back and bytes behind
it. An encoder over any buffer and any fair sink does what the framing without
a buffer does, and a refused call leaves it exactly as it was.
-/

set_option autoImplicit false

namespace SofaBuffers

/-- The ids held back, outermost first. -/
def Enc.held (e : Enc) : List ℕ := (e.runs e.active).take e.npending

/-- An error is latched, and the writers are skipped. -/
def Enc.latched (e : Enc) : Bool := e.sticky && e.error.isSome

/-- The lists of slots as a commit leaves them. -/
def Enc.committed (e : Enc) : Enc :=
  if e.npending≠0 then {e with active := !e.active, npending := 0} else e

/-- The message an encoder is framing. -/
def Outlet.frame (o : Outlet) (e : Enc) : Framing :=
  {out := o.output e, room := if o.hasSink then none else some (e.cap-e.cursor)
   held := e.held, depth := e.depth}

/-- The id is in range. -/
theorem checkedId_le {fieldId : Given} {id : ℕ} (h : checkedId fieldId=.ok id) : id ≤ idMax := by
  rw [checkedId] at h
  split at h
  · cases h
  · split at h
    · cases h
    · injection h with h
      omega

section Commit

variable {o : Outlet} {e : Enc}

/-- Swapping the lists of slots is no write. -/
theorem Enc.Ok.committed (h : e.Ok o) : e.committed.Ok o := by
  rw [Enc.committed]
  split
  · exact ⟨h.cap,h.cursor,h.room,h.reserved,h.front,h.size,h.orderly,h.slots,h.ids,
      Nat.zero_le _,h.depth⟩
  · exact h

/-- The headers of the slots from one on are put out. -/
theorem commitLoop_run (hf : o.Fair) (side : Bool) {left i : ℕ} (h : e.Ok o)
    (hi : i+left ≤ maxDepth) :
    Wrote o e (startBytes (((e.runs side).drop i).take left)) none
      (commitLoop o side left i e) := by
  induction left generalizing e i with
  | zero =>
    rw [List.take_zero]
    exact .nil h
  | succ left ih =>
    have hslots := h.slots side
    have hlt : i < (e.runs side).length := by omega
    have hmem := h.ids side ((e.runs side).getD i 0) (by
      rw [List.getD_eq_getElem _ _ hlt]
      exact List.getElem_mem hlt)
    have hcut : ((e.runs side).drop i).take (left+1)=
        (e.runs side).getD i 0::((e.runs side).drop (i+1)).take left := by
      rw [List.drop_eq_getElem_cons hlt,List.take_succ_cons,List.getD_eq_getElem _ _ hlt]
    have hbound : (e.runs side).getD i 0*8+WireType.sequenceStart.toNat < 2^64 := by
      rw [idMax] at hmem
      rw [WireType.toNat]
      omega
    rw [hcut,startBytes,List.flatMap_cons,commitLoop,run_get_bind]
    refine Wrote.bind (emitVarint_run h hf hbound) fun e' ha => ?_
    have hnext := ih ha.ok (show i+1+left ≤ maxDepth by omega)
    rwa [ha.kept.runs] at hnext

/-- What is held back is put out. -/
theorem commitHeld_run (hf : o.Fair) (h : e.Ok o) :
    Wrote o e.committed (startBytes e.held) none (commitHeld o e) := by
  have hlen := h.pending
  have hdepth := h.depth
  rw [commitHeld,run_get_bind]
  by_cases hz : e.npending≠0
  · have hc := h.committed
    have hloop := commitLoop_run hf e.active hc (show 0+e.npending ≤ maxDepth by omega)
    have hruns : e.committed.runs=e.runs := by rw [Enc.committed,if_pos hz]
    rw [hruns,List.drop_zero] at hloop
    rw [if_pos hz,commitPending,run_get_bind,run_set_bind]
    rw [Enc.committed,if_pos hz] at hloop ⊢
    exact hloop
  · have hnone : e.npending=0 := by omega
    rw [if_neg hz,Enc.committed,if_neg hz,Enc.held,hnone,List.take_zero]
    exact .nil h

/-- A header is put out behind what is held back. -/
theorem header_run (hf : o.Fair) (h : e.Ok o) {fieldId : Given} {id : ℕ}
    (hid : checkedId fieldId=.ok id) (wtype : WireType) :
    Wrote o e.committed (startBytes e.held++headerBytes id wtype) none
      (header o fieldId wtype e) := by
  have hle := checkedId_le hid
  have hlt := wtype.toNat_lt
  have hbound : id*8+wtype.toNat < 2^64 := by
    rw [idMax] at hle
    omega
  rw [header,hid]
  exact Wrote.bind (commitHeld_run hf h) fun e' ha => emitVarint_run ha.ok hf hbound

end Commit

/-- One more id is held back. -/
def Enc.holding (e : Enc) (id : ℕ) : Enc :=
  {e with
    runs := Function.update e.runs e.active ((e.runs e.active).set e.npending id)
    npending := e.npending+1, depth := e.depth+1}

/-- The innermost id held back is forgotten. -/
def Enc.dropping (e : Enc) : Enc := {e with npending := e.npending-1, depth := e.depth-1}

/-- A sequence has ended. -/
def Enc.shallower (e : Enc) : Enc := {e with depth := e.depth-1}

/-- A frame is closed by an end marker behind what is held back. -/
def closeFrame (o : Outlet) : EncM Unit := do
  commitHeld o
  emitVarint o WireType.sequenceEnd.toNat

/-- What a body that opens a sequence does. -/
structure Starts (o : Outlet) (body : EncM Unit) (id : Except Exn ℕ) : Prop where
  /-- The nesting may be too deep for it. -/
  deep : ∀ e, e.depth ≥ maxDepth → body e=.error tooDeep e
  /-- The id may be none. -/
  refused : ∀ e why, e.depth < maxDepth → id=.error why → body e=.error why e
  /-- The id is held back. -/
  held : ∀ e i, e.depth < maxDepth → id=.ok i → e.Ok o → body e=.ok () (e.holding i)
  /-- It is in range. -/
  le : ∀ i, id=.ok i → i ≤ idMax

/-- What a body that closes a sequence does. -/
structure Stops (o : Outlet) (body : EncM Unit) (keep : Bool) : Prop where
  /-- Closing is refused where no sequence is open. -/
  unmatched : ∀ e, e.depth ≤ 0 → body e=.error unmatchedEnd e
  /-- A sequence nothing was written in may vanish. -/
  vanishes : ∀ e, 0 < e.depth → e.npending≠0 → keep=false → body e=.ok () e.dropping
  /-- Any other sequence has its frame closed. -/
  framed : ∀ e, 0 < e.depth → e.npending=0 ∨ keep=true → body e=
    match closeFrame o e with
    | .ok _ e => .ok () e.shallower
    | .error why e => .error why e

/-- A writer's body means a move. -/
def Means (o : Outlet) (body : EncM Unit) : Move → Prop
  | .refused why => ∀ e, body e=.error why e
  | .field bytes rejected => o.Fair → ∀ e, e.Ok o →
      Wrote o e.committed (startBytes e.held++bytes) rejected (body e)
  | .start id => Starts o body id
  | .stop keep => Stops o body keep

section Bodies

variable {o : Outlet}

/-- Bytes behind a header, once the arguments are checked. -/
theorem means_header (fieldId : Given) (wtype : WireType) (rest : EncM Unit) {bs : List UInt8}
    {why : Option Exn}
    (hrest : o.Fair → ∀ e, e.Ok o → Wrote o e bs why (rest e)) :
    Means o (do
      header o fieldId wtype
      rest)
      (match checkedId fieldId with
      | .error why => .refused why
      | .ok id => .field (headerBytes id wtype++bs) why) := by
  cases hid : checkedId fieldId with
  | error why =>
    intro e
    have hh : header o fieldId wtype e=.error why e := by rw [header,hid]; rfl
    exact run_bind_error hh
  | ok id =>
    intro hf e h
    rw [←List.append_assoc]
    exact Wrote.bind (header_run hf h hid wtype) fun e' ha => hrest hf e' ha.ok

/-- A field of one varint. -/
theorem means_scalar (fieldId : Given) (wtype : WireType) (value : Except Exn ℕ)
    (hv : ∀ v, value=.ok v → v < 2^64) :
    Means o (do
      let v ← checked value
      header o fieldId wtype
      emitVarint o v) (scalarMove fieldId wtype value) := by
  cases value with
  | error why => exact fun e => rfl
  | ok v => exact means_header fieldId wtype _ fun hf e h => emitVarint_run h hf (hv v rfl)

/-- A fixlen field. -/
theorem means_fixlen (fieldId : Given) (subtype : FixlenSubtype)
    (payload : Except Exn (List UInt8)) :
    Means o (do
      let data ← checked payload
      checked (fixlenSize data.length)
      header o fieldId .fixlen
      emitVarint o (data.length*8+subtype.toNat)
      put o data) (fixlenMove fieldId subtype payload) := by
  cases payload with
  | error why => exact fun e => rfl
  | ok data =>
    rw [fixlenMove]
    cases hsize : fixlenSize data.length with
    | error why =>
      have hc : checked (fixlenSize data.length)=throw why := by rw [hsize]; rfl
      intro e
      show ((checked (fixlenSize data.length) : EncM Unit) >>= fun _ => _) e=_
      rw [hc]
      rfl
    | ok _ =>
      have hle : data.length ≤ fixlenMax := by
        rw [fixlenSize] at hsize
        split at hsize
        · cases hsize
        · omega
      have hst : subtype.toNat < 8 := by cases subtype <;> decide
      have hbound : data.length*8+subtype.toNat < 2^64 := by
        rw [fixlenMax] at hle
        omega
      have hgo := means_header fieldId .fixlen
        (do
          emitVarint o (data.length*8+subtype.toNat)
          put o data)
        fun hf e h => Wrote.bind (emitVarint_run h hf hbound) fun e' ha => put_run ha.ok hf data
      show Means o ((checked (fixlenSize data.length) : EncM Unit) >>= fun _ => _) _
      rw [hsize]
      exact hgo

/-- An array, its elements being put out by a writer of their own. -/
theorem means_array (fieldId : Given) (wtype : WireType) (count : Except Exn ℕ)
    (rest : ℕ → EncM Unit) {body : List UInt8 × Option Exn}
    (hrest : ∀ n, count=.ok n → o.Fair → ∀ e, e.Ok o → Wrote o e body.1 body.2 (rest n e)) :
    Means o (do
      let n ← checked count
      arrayHead o fieldId wtype n
      rest n) (arrayMove fieldId wtype count body) := by
  cases count with
  | error why => exact fun e => rfl
  | ok n =>
    rw [arrayMove]
    by_cases hbig : n > arrayMax
    · rw [if_pos hbig]
      have hh : ∀ e, arrayHead o fieldId wtype n e=
          .error (.argument s!"array count {n} out of range 0..{arrayMax}") e := by
        intro e
        rw [arrayHead,if_pos hbig]
        rfl
      intro e
      show (arrayHead o fieldId wtype n >>= fun _ => rest n) e=_
      exact run_bind_error (hh e)
    · have hlt : n < 2^64 := by
        rw [arrayMax] at hbig
        omega
      have hh : arrayHead o fieldId wtype n=(do
          header o fieldId wtype
          emitVarint o n) := by
        rw [arrayHead,if_neg hbig]
      have hgo := means_header fieldId wtype
        (do
          emitVarint o n
          rest n)
        fun hf e h => Wrote.bind (emitVarint_run h hf hlt) fun e' ha => hrest n rfl hf e' ha.ok
      rw [if_neg hbig]
      show Means o (arrayHead o fieldId wtype n >>= fun _ => rest n) _
      rw [hh,bind_assoc]
      exact hgo

/-- Opening a sequence does to the encoder what it does to the framing. -/
theorem means_start (fieldId : Given) :
    Means o (do
      let e ← get
      if e.depth ≥ maxDepth then throw (.argument "nesting exceeds MAX_DEPTH=255")
      let id ← checked (checkedId fieldId)
      if (e.runs e.active).length ≤ e.npending then throw .index
      set {e with
        runs := Function.update e.runs e.active ((e.runs e.active).set e.npending id)
        npending := e.npending+1, depth := e.depth+1}) (.start (checkedId fieldId)) where
  deep e hd := by
    rw [run_get_bind,if_pos hd]
    rfl
  refused e why hd hid := by
    rw [run_get_bind,if_neg (by omega),hid]
    rfl
  held e i hd hid h := by
    have hslots := h.slots e.active
    have hle := h.pending
    rw [run_get_bind,if_neg (by omega),hid]
    show (if (e.runs e.active).length ≤ e.npending then _ else _ : EncM Unit) e=_
    rw [if_neg (by omega)]
    rfl
  le i hid := checkedId_le hid

/-- Closing a sequence that may vanish. -/
theorem means_stop :
    Means o (do
      let e ← get
      if e.depth ≤ 0 then throw unmatchedEnd
      else if e.npending≠0 then set {e with npending := e.npending-1, depth := e.depth-1}
      else endFrame o) (.stop false) where
  unmatched e hd := by
    rw [run_get_bind,if_pos hd]
    rfl
  vanishes e hd hn _ := by
    rw [run_get_bind,if_neg (by omega),if_pos hn]
    rfl
  framed e hd hn := by
    have hz : e.npending=0 := by simpa using hn
    have hnone : ¬e.npending≠0 := by omega
    have hc : closeFrame o e=emitVarint o WireType.sequenceEnd.toNat e := by
      rw [closeFrame,commitHeld,run_bind,run_get_bind,if_neg hnone]
      rfl
    rw [run_get_bind,if_neg (by omega),if_neg hnone,hc,endFrame,run_bind]
    cases emitVarint o WireType.sequenceEnd.toNat e <;> rfl

/-- Closing a sequence whose frame is kept. -/
theorem means_stopKeep :
    Means o (do
      if (← get).depth ≤ 0 then throw unmatchedEnd
      commitHeld o
      endFrame o) (.stop true) where
  unmatched e hd := by
    rw [run_get_bind,if_pos hd]
    rfl
  vanishes _ _ _ hk := by cases hk
  framed e hd _ := by
    rw [run_get_bind,if_neg (by omega),closeFrame,run_bind]
    show (commitHeld o >>= fun _ => endFrame o) e=_
    rw [run_bind]
    cases commitHeld o e with
    | error why e' => rfl
    | ok _ e' =>
      dsimp only
      rw [endFrame,run_bind]
      cases emitVarint o WireType.sequenceEnd.toNat e' <;> rfl

end Bodies

/-- The check refuses with an argument error. -/
def Argues {α : Type} (r : Except Exn α) : Prop := ∀ why, r=.error why → why.cls=.argument

section Checks

@[grind =] theorem cls_argument (msg : String) : (Exn.argument msg).cls=.argument := rfl

theorem argues_ok {α : Type} (a : α) : Argues (.ok a : Except Exn α) := by
  rintro why ⟨⟩

theorem argues_asInt (value : Given) (what : String) : Argues (asInt value what) := by
  unfold Argues asInt
  grind

theorem argues_checkedId (fieldId : Given) : Argues (checkedId fieldId) := by
  have h := argues_asInt fieldId "id"
  unfold Argues checkedId at *
  grind

theorem argues_unsignedValue (value : Given) : Argues (unsignedValue value) := by
  have h := argues_asInt value "unsigned value"
  unfold Argues unsignedValue at *
  grind

theorem argues_signedValue (value : Given) : Argues (signedValue value) := by
  have h := argues_asInt value "signed value"
  unfold Argues signedValue at *
  grind

theorem argues_unsignedWithin (w : Width) (value : Given) : Argues (unsignedWithin w value) := by
  have h := argues_unsignedValue value
  unfold Argues unsignedWithin at *
  grind

theorem argues_signedWithin (w : Width) (value : Given) : Argues (signedWithin w value) := by
  have h := argues_signedValue value
  unfold Argues signedWithin at *
  grind

theorem argues_zigzagged {value : Except Exn ℤ} (h : Argues value) : Argues (zigzagged value) := by
  unfold Argues zigzagged Except.map at *
  grind

theorem argues_fixlenSize (n : ℕ) : Argues (fixlenSize n) := by
  unfold Argues fixlenSize
  grind

theorem argues_f32Bytes (bits : Given) : Argues (f32Bytes bits) := by
  have h := argues_asInt bits "fp32 bits"
  unfold Argues f32Bytes f32Word Except.map at *
  grind

theorem argues_utf8Payload (text : List ℕ) : Argues (utf8Payload text) := by
  unfold Argues utf8Payload
  grind

theorem argues_blobPayload (data : Blob) : Argues (blobPayload data) := by
  have h := argues_fixlenSize
  unfold Argues blobPayload blobBytes at *
  grind

theorem argues_withinMaxlen {r : Except Exn (List UInt8)} (h : Argues r) (maxlen : Option ℤ)
    (refusal : ℕ → ℤ → String) : Argues (withinMaxlen maxlen refusal r) := by
  unfold Argues withinMaxlen at *
  grind

theorem argues_cappedCount (cap : Option ℤ) (count : ℕ) : Argues (cappedCount cap count) := by
  unfold Argues cappedCount withinCap Except.map
  grind

theorem argues_f32Payload (n : ℕ) (count : Option ℤ) : Argues (f32Payload n count) := by
  unfold Argues f32Payload
  grind

theorem argues_elementWordOf (w : Width) (value : Given) : Argues (elementWordOf w value) := by
  have h := argues_asInt value
  unfold Argues elementWordOf elemRefusal at *
  grind

/-- A run of elements is refused for what one of them is. -/
theorem argues_encodeElements (w : Width) (values : List Given) :
    ∀ why, (encodeElements (elementWordOf w) values).2=some why → why.cls=.argument := by
  induction values with
  | nil => intro _ h; cases h
  | cons v values ih =>
    rw [encodeElements]
    cases hv : elementWordOf w v with
    | ok u => exact ih
    | error e =>
      rintro why ⟨⟩
      exact argues_elementWordOf w v e hv

/-- An element's word is a 64-bit word. -/
theorem elementWordOf_lt (w : Width) (v : Given) (u : ℕ) (h : elementWordOf w v=.ok u) :
    u < 2^64 := by
  rw [elementWordOf] at h
  split at h
  · cases h
  · next x _ =>
    split at h
    · cases h
    · next hx =>
      injection h with h
      have hrange : signedMin ≤ w.range.1 ∧ w.range.2 ≤ unsignedMax ∧
          (w.signed=true → w.range.2 ≤ signedMax) ∧ (w.signed=false → 0 ≤ w.range.1) := by
        cases w <;> decide
      cases hs : w.signed with
      | true =>
        rw [hs,if_pos rfl,zigzagWord_eq (by omega) (by have := hrange.2.2.1 hs; omega)] at h
        rw [←h]
        exact Zigzag.encode_lt x
      | false =>
        have h0 := hrange.2.2.2 hs
        have hmax : (unsignedMax : ℤ)=2^64-1 := by decide
        rw [hs,if_neg (by decide)] at h
        omega

/-- Whatever a move is refused for is an argument error. -/
def Move.Argues : Move → Prop
  | .refused why => why.cls=.argument
  | .field _ rejected => ∀ why, rejected=some why → why.cls=.argument
  | .start id => SofaBuffers.Argues id
  | .stop _ => True

theorem argues_scalarMove (fieldId : Given) (wtype : WireType) {value : Except Exn ℕ}
    (h : Argues value) : (scalarMove fieldId wtype value).Argues := by
  have hid := argues_checkedId fieldId
  unfold Argues at h hid
  rw [scalarMove.eq_def]
  grind [Move.Argues]

theorem argues_fixlenMove (fieldId : Given) (subtype : FixlenSubtype)
    {payload : Except Exn (List UInt8)} (h : Argues payload) :
    (fixlenMove fieldId subtype payload).Argues := by
  have hid := argues_checkedId fieldId
  have hsize := argues_fixlenSize
  unfold Argues at h hid hsize
  rw [fixlenMove.eq_def]
  grind [Move.Argues]

theorem argues_arrayMove (fieldId : Given) (wtype : WireType) {count : Except Exn ℕ}
    {body : List UInt8 × Option Exn} (h : Argues count)
    (hb : ∀ why, body.2=some why → why.cls=.argument) :
    (arrayMove fieldId wtype count body).Argues := by
  have hid := argues_checkedId fieldId
  unfold Argues at h hid
  rw [arrayMove.eq_def]
  grind [Move.Argues]

theorem argues_sizedArrayMove (w : Width) (fieldId : Given) (values : List Given) (cap : ℤ) :
    (sizedArrayMove w fieldId values cap).Argues :=
  argues_arrayMove fieldId _ (argues_cappedCount _ _) (argues_encodeElements w values)

theorem argues_boolArrayMove (fieldId : Given) (values : List Bool) (cap : Option ℤ) :
    (boolArrayMove fieldId values cap).Argues :=
  argues_arrayMove fieldId _ (argues_cappedCount _ _) fun _ hn => by cases hn

theorem argues_floatArrayMove (fieldId : Given) (subtype : FixlenSubtype) (elemSize : ℕ)
    {count : Except Exn ℕ} (h : Argues count) (payload : List UInt8) :
    (floatArrayMove fieldId subtype elemSize count payload).Argues :=
  argues_arrayMove fieldId _ h fun _ hn => by cases hn

/-- Every call is refused with argument errors. -/
theorem call_argues (narrow : BitVec 64 → Option (BitVec 32)) (c : Call) :
    (c.move narrow).Argues := by
  cases c with
  | unsigned fieldId value => exact argues_scalarMove _ _ (argues_unsignedValue value)
  | signed fieldId value => exact argues_scalarMove _ _ (argues_zigzagged (argues_signedValue value))
  | sized w fieldId value =>
    have hu := argues_unsignedWithin w value
    have hs := argues_zigzagged (argues_signedWithin w value)
    cases w with
    | u64 => exact argues_scalarMove _ _ (argues_unsignedValue value)
    | i64 => exact argues_scalarMove _ _ (argues_zigzagged (argues_signedValue value))
    | u8 | u16 | u32 => exact argues_scalarMove _ _ hu
    | i8 | i16 | i32 => exact argues_scalarMove _ _ hs
  | bool fieldId value => exact argues_scalarMove _ _ (argues_unsignedValue _)
  | float32 fieldId value => exact argues_fixlenMove _ _ (argues_ok _)
  | float32Bits fieldId bits => exact argues_fixlenMove _ _ (argues_f32Bytes bits)
  | float64 fieldId value => exact argues_fixlenMove fieldId .fp64 (argues_ok (packF64 value))
  | string fieldId text => exact argues_fixlenMove _ _ (argues_utf8Payload text)
  | stringBounded fieldId text maxlen =>
    exact argues_fixlenMove _ _ (argues_withinMaxlen (argues_utf8Payload text) _ _)
  | bytes fieldId data => exact argues_fixlenMove _ _ (argues_blobPayload data)
  | bytesBounded fieldId data maxlen =>
    exact argues_fixlenMove _ _ (argues_withinMaxlen (argues_blobPayload data) _ _)
  | unsignedArray fieldId values => exact argues_sizedArrayMove _ _ _ _
  | signedArray fieldId values => exact argues_sizedArrayMove _ _ _ _
  | sizedArray w fieldId values cap => exact argues_sizedArrayMove _ _ _ _
  | boolArray fieldId values => exact argues_boolArrayMove _ _ _
  | boolArrayBounded fieldId values cap => exact argues_boolArrayMove _ _ _
  | float32Array fieldId values => exact argues_floatArrayMove _ _ _ (argues_cappedCount _ _) _
  | float32ArrayBounded fieldId values cap =>
    exact argues_floatArrayMove _ _ _ (argues_cappedCount _ _) _
  | float32ArrayBits fieldId payload count =>
    exact argues_floatArrayMove _ _ _ (argues_f32Payload _ _) _
  | float64Array fieldId values => exact argues_floatArrayMove _ _ _ (argues_cappedCount _ _) _
  | float64ArrayBounded fieldId values cap =>
    exact argues_floatArrayMove _ _ _ (argues_cappedCount _ _) _
  | sequenceBeginLazy fieldId => exact argues_checkedId fieldId
  | sequenceEnd => trivial
  | sequenceEndKeep => trivial

end Checks

section Calls

variable {o : Outlet}

/-- What a check hands on may be computed from behind it. -/
theorem checked_map {α β : Type} (r : Except Exn α) (f : α → β) (k : β → EncM Unit) :
    (checked (r.map f) >>= k)=checked r >>= fun a => k (f a) := by
  cases r <;> rfl

/-- What a payload is settled as may be computed from behind it. -/
theorem settledThen_map {α β : Type} (r : Except Exn α) (f : α → β) (write : β → EncM Unit) :
    settledThen (r.map f) write=settledThen r fun a => write (f a) := by
  cases r <;> rfl

/-- A payload settled before a writer runs is settled by that writer. -/
theorem settledThen_eq {α : Type} {r : Except Exn α} (h : Argues r) (write : α → EncM Unit) :
    settledThen r (fun a => guarded (write a))=guarded (checked r >>= write) := by
  funext e
  unfold settledThen guarded
  by_cases hl : (e.sticky && e.error.isSome)=true
  · rw [if_pos hl,if_pos hl]
  · rw [if_neg hl,if_neg hl]
    cases r with
    | ok a => exact if_neg hl
    | error why =>
      have hcls := h why rfl
      have hsofa : why.isSofa=true := by
        cases why <;> simp [Exn.cls,Exn.isSofa] at hcls ⊢
      exact (if_pos hsofa).symm

/-- An unsigned value is a 64-bit word. -/
theorem unsignedValue_lt {value : Given} {v : ℕ} (h : unsignedValue value=.ok v) : v < 2^64 := by
  have hmax : (unsignedMax : ℤ)=2^64-1 := by decide
  rw [unsignedValue] at h
  grind

/-- A zigzag word is one. -/
theorem zigzagged_lt {value : Except Exn ℤ} {v : ℕ} (h : zigzagged value=.ok v) : v < 2^64 := by
  cases value with
  | error why => cases h
  | ok x =>
    injection h with h
    rw [←h]
    exact Zigzag.encode_lt x

/-- A value within a width is one. -/
theorem unsignedWithin_lt {w : Width} {value : Given} {v : ℕ}
    (h : unsignedWithin w value=.ok v) : v < 2^64 := by
  rw [unsignedWithin] at h
  cases hu : unsignedValue value with
  | error why =>
    rw [hu] at h
    cases h
  | ok x =>
    have hx := unsignedValue_lt hu
    grind

/-- The call is a body behind the sticky gate, and that body means a move. -/
def Frames (o : Outlet) (call : EncM Unit) (m : Move) : Prop :=
  ∃ body, call=guarded body ∧ Means o body m

/-- An unsigned field. -/
theorem frames_unsigned (fieldId value : Given) :
    Frames o (writeUnsigned o fieldId value)
      (scalarMove fieldId .unsigned (unsignedValue value)) :=
  ⟨_,rfl,means_scalar fieldId .unsigned _ fun _ hv => unsignedValue_lt hv⟩

/-- A signed field. -/
theorem frames_signed (fieldId value : Given) :
    Frames o (writeSigned o fieldId value)
      (scalarMove fieldId .signed (zigzagged (signedValue value))) := by
  refine ⟨_,?_,means_scalar fieldId .signed _ fun _ hv => zigzagged_lt hv⟩
  rw [zigzagged,checked_map]
  rfl

/-- An unsigned field of a width. -/
theorem frames_unsignedScalar (w : Width) (fieldId value : Given) :
    Frames o (unsignedScalar o w fieldId value)
      (scalarMove fieldId .unsigned (unsignedWithin w value)) :=
  ⟨_,rfl,means_scalar fieldId .unsigned _ fun _ hv => unsignedWithin_lt hv⟩

/-- A signed field of a width. -/
theorem frames_signedScalar (w : Width) (fieldId value : Given) :
    Frames o (signedScalar o w fieldId value)
      (scalarMove fieldId .signed (zigzagged (signedWithin w value))) := by
  refine ⟨_,?_,means_scalar fieldId .signed _ fun _ hv => zigzagged_lt hv⟩
  rw [zigzagged,checked_map]
  rfl

/-- A fixlen field whose payload is at hand. -/
theorem frames_fixlen (fieldId : Given) (data : List UInt8) (subtype : FixlenSubtype) :
    Frames o (writeFixlen o fieldId data subtype) (fixlenMove fieldId subtype (.ok data)) :=
  ⟨_,rfl,means_fixlen fieldId subtype (.ok data)⟩

/-- A fixlen field whose payload is settled first. -/
theorem frames_settled (fieldId : Given) {payload : Except Exn (List UInt8)} (h : Argues payload)
    (subtype : FixlenSubtype) :
    Frames o (settledThen payload fun data => writeFixlen o fieldId data subtype)
      (fixlenMove fieldId subtype payload) :=
  ⟨_,settledThen_eq h _,means_fixlen fieldId subtype payload⟩

/-- An array of integers of a width. -/
theorem frames_sizedArray (w : Width) (fieldId : Given) (values : List Given) {cap : ℤ}
    (hlo : -2^63 ≤ cap) (hhi : cap ≤ 2^63-1) :
    Frames o (arrayWriter o w fieldId values cap) (sizedArrayMove w fieldId values cap) := by
  refine ⟨_,?_,means_array fieldId _ _
    (fun _ => do
      let e ← get
      elementLoop o (elementWordOf w) values e.installs (varintLimit e) e.cursor)
    fun n hn hf e h => elementLoop_run hf (elementWordOf_lt w) values rfl rfl h⟩
  rw [cappedCount,checked_map,arrayWriter,if_neg (by omega)]

/-- An array of booleans. -/
theorem frames_boolArray (fieldId : Given) (values : List Bool) (cap : Option ℤ) :
    Frames o (writeBoolArrayBounded o fieldId values cap) (boolArrayMove fieldId values cap) := by
  refine ⟨_,?_,means_array fieldId _ _
    (fun _ => do
      let e ← get
      boolLoop o values e.installs e.cap e.cursor)
    fun n hn hf e h => boolLoop_run hf values rfl rfl h⟩
  rw [cappedCount,checked_map,writeBoolArrayBounded]

/-- The element word of a float array and its payload. -/
theorem floats_run {e : Enc} (hf : o.Fair) (h : e.Ok o) {elemSize : ℕ} (hs : elemSize ≤ 8)
    (subtype : FixlenSubtype) (payload : List UInt8) :
    Wrote o e (Varint.encode (elemSize*8+subtype.toNat)++payload) none
      ((do
        emitVarint o (elemSize*8+subtype.toNat)
        put o payload) e) := by
  have hst : subtype.toNat < 8 := by cases subtype <;> decide
  have hbound : elemSize*8+subtype.toNat < 2^64 := by omega
  exact Wrote.bind (emitVarint_run h hf hbound) fun e' ha => put_run ha.ok hf payload

/-- An array of floats. -/
theorem frames_floatArray (fieldId : Given) (values : List (BitVec 64)) (subtype : FixlenSubtype)
    (packArray : List (BitVec 64) → List UInt8) {elemSize : ℕ} (hs : elemSize ≤ 8)
    (cap : Option ℤ) :
    Frames o (writeFloatArray o fieldId values subtype packArray elemSize cap)
      (floatArrayMove fieldId subtype elemSize (cappedCount cap values.length)
        (packArray values)) := by
  refine ⟨_,?_,means_array fieldId _ _
    (fun _ => do
      emitVarint o (elemSize*8+subtype.toNat)
      put o (packArray values))
    fun n hn hf e h => floats_run hf h hs subtype _⟩
  rw [cappedCount,checked_map,writeFloatArray]

/-- An array of singles given by its bytes. -/
theorem frames_floatArrayBits (fieldId : Given) (payload : List UInt8) (count : Option ℤ) :
    Frames o (writeFloat32ArrayBits o fieldId payload count)
      (floatArrayMove fieldId .fp32 4 (f32Payload payload.length count) payload) :=
  ⟨_,rfl,means_array fieldId _ _
    (fun _ => do
      emitVarint o (4*8+FixlenSubtype.fp32.toNat)
      put o payload)
    fun n hn hf e h => floats_run hf h (by omega) .fp32 payload⟩

/-- Every call is a move behind the sticky gate. -/
theorem call_frames (o : Outlet) (narrow : BitVec 64 → Option (BitVec 32)) {c : Call}
    (hc : c.Sized) : Frames o (c.run o narrow) (c.move narrow) := by
  have hneg : (-2^63 : ℤ) ≤ -1 ∧ (-1 : ℤ) ≤ 2^63-1 := by decide
  cases c with
  | unsigned fieldId value => exact frames_unsigned fieldId value
  | signed fieldId value => exact frames_signed fieldId value
  | sized w fieldId value =>
    cases w with
    | u8 => exact frames_unsignedScalar .u8 fieldId value
    | u16 => exact frames_unsignedScalar .u16 fieldId value
    | u32 => exact frames_unsignedScalar .u32 fieldId value
    | u64 => exact frames_unsigned fieldId value
    | i8 => exact frames_signedScalar .i8 fieldId value
    | i16 => exact frames_signedScalar .i16 fieldId value
    | i32 => exact frames_signedScalar .i32 fieldId value
    | i64 => exact frames_signed fieldId value
  | bool fieldId value => exact frames_unsigned fieldId _
  | float32 fieldId value => exact frames_fixlen fieldId _ .fp32
  | float32Bits fieldId bits =>
    have hrun : writeFloat32Bits o fieldId bits=
        settledThen (f32Bytes bits) fun data => writeFixlen o fieldId data .fp32 := by
      rw [f32Bytes,settledThen_map,writeFloat32Bits]
    show Frames o (writeFloat32Bits o fieldId bits) _
    rw [hrun]
    exact frames_settled fieldId (argues_f32Bytes bits) .fp32
  | float64 fieldId value => exact frames_fixlen fieldId _ .fp64
  | string fieldId text => exact frames_settled fieldId (argues_utf8Payload text) .string
  | stringBounded fieldId text maxlen =>
    exact frames_settled fieldId (argues_withinMaxlen (argues_utf8Payload text) _ _) .string
  | bytes fieldId data => exact frames_settled fieldId (argues_blobPayload data) .blob
  | bytesBounded fieldId data maxlen =>
    exact frames_settled fieldId (argues_withinMaxlen (argues_blobPayload data) _ _) .blob
  | unsignedArray fieldId values => exact frames_sizedArray .u64 fieldId values hneg.1 hneg.2
  | signedArray fieldId values => exact frames_sizedArray .i64 fieldId values hneg.1 hneg.2
  | sizedArray w fieldId values cap =>
    cases w <;> exact frames_sizedArray _ fieldId values hc.1 hc.2
  | boolArray fieldId values => exact frames_boolArray fieldId values none
  | boolArrayBounded fieldId values cap => exact frames_boolArray fieldId values cap
  | float32Array fieldId values =>
    exact frames_floatArray fieldId values .fp32 _ (by omega) none
  | float32ArrayBounded fieldId values cap =>
    exact frames_floatArray fieldId values .fp32 _ (by omega) cap
  | float32ArrayBits fieldId payload count => exact frames_floatArrayBits fieldId payload count
  | float64Array fieldId values =>
    exact frames_floatArray fieldId values .fp64 _ (by omega) none
  | float64ArrayBounded fieldId values cap =>
    exact frames_floatArray fieldId values .fp64 _ (by omega) cap
  | sequenceBeginLazy fieldId => exact ⟨_,rfl,means_start fieldId⟩
  | sequenceEnd => exact ⟨_,rfl,means_stop⟩
  | sequenceEndKeep => exact ⟨_,rfl,means_stopKeep⟩

end Calls

/-- What happened to the message happened to the encoder, and nothing else did. -/
inductive Refines (o : Outlet) (e : Enc) :
    Framing × Option Exn → EStateM.Result Exn Enc Unit → Prop
  /-- The call went well. -/
  | ok {e' : Enc} (h : e'.Ok o) (hs : e'.sticky=e.sticky) (he : e'.error=e.error) :
      Refines o e (o.frame e',none) (.ok () e')
  /-- The call raised. -/
  | error {e' : Enc} {why : Exn} (h : e'.Ok o) (hs : e'.sticky=e.sticky)
      (he : e'.error=e.error) : Refines o e (o.frame e',some why) (.error why e')

section Refines

variable {o : Outlet} {e e' : Enc} {bs : List UInt8} {why : Option Exn}
variable {r : EStateM.Result Exn Enc Unit}

/-- Bytes that were written are out, and there is room for so many less. -/
theorem After.frame (h : After o e bs e') :
    o.frame e'={o.frame e with
      out := (o.frame e).out++bs, room := (o.frame e).room.map (·-bs.length)} := by
  have hheld : e'.held=e.held := by
    rw [Enc.held,Enc.held,h.kept.runs,h.kept.active,h.kept.npending]
  simp only [Outlet.frame,h.output,hheld,h.kept.depth]
  cases hs : o.hasSink with
  | true => rfl
  | false =>
    have hc := h.closed hs
    have hroom : e'.cap-e'.cursor=e.cap-e.cursor-bs.length := by omega
    simp [hroom]

/-- Writing bytes puts them out. -/
theorem Wrote.refines (h : Wrote o e bs why r) :
    Refines o e
      (match (o.frame e).emit bs with
      | (f,none) => (f,why)
      | r => r) r := by
  have hfits : ∀ e', After o e bs e' → (o.frame e).emit bs=(o.frame e',none) := by
    intro e' ha
    rw [ha.frame,Framing.emit]
    cases hs : o.hasSink with
    | true => simp [Outlet.frame,hs]
    | false =>
      have hc := ha.closed hs
      have hcur := ha.ok.cursor
      have hle : bs.length ≤ e.cap-e.cursor := by omega
      simp [Outlet.frame,hs,hle]
  cases h with
  | done hw ha =>
    rw [hfits _ ha,hw]
    exact .ok ha.ok ha.kept.sticky ha.kept.error
  | raised hw ha =>
    rw [hfits _ ha,hw]
    exact .error ha.ok ha.kept.sticky ha.kept.error
  | @full e' hs hn ha =>
    have hframe := ha.frame
    have htake : (bs.take (e.cap-e.cursor)).length=e.cap-e.cursor := by
      rw [List.length_take]
      omega
    have hemit : (o.frame e).emit bs=(o.frame e',some bufferFull) := by
      rw [hframe,Framing.emit,htake]
      simp only [Outlet.frame,hs,Bool.false_eq_true,if_false,Option.map_some,Nat.sub_self]
      rw [if_neg (by omega)]
    rw [hemit]
    exact .error ha.ok ha.kept.sticky ha.kept.error

/-- Once a commit is due nothing is held back any more. -/
theorem frame_committed (o : Outlet) (e : Enc) :
    o.frame e.committed={o.frame e with held := []} := by
  rw [Enc.committed]
  by_cases hz : e.npending≠0
  · rw [if_pos hz]
    rfl
  · have hnone : e.npending=0 := by omega
    have hheld : e.held=[] := by rw [Enc.held,hnone,List.take_zero]
    rw [if_neg hz,Outlet.frame,hheld]

/-- The sticky mode is as it was. -/
theorem committed_sticky (e : Enc) : e.committed.sticky=e.sticky ∧ e.committed.error=e.error := by
  rw [Enc.committed]
  split <;> exact ⟨rfl,rfl⟩

/-- The depth is what it was. -/
theorem committed_depth (e : Enc) : e.committed.depth=e.depth := by
  rw [Enc.committed]
  split <;> rfl

/-- An encoder that holds one more id back. -/
theorem Enc.Ok.holding (h : e.Ok o) (hd : e.depth < maxDepth) {id : ℕ} (hid : id ≤ idMax) :
    (e.holding id).Ok o ∧
      o.frame (e.holding id)={o.frame e with held := e.held++[id], depth := e.depth+1} := by
  have hlen := h.slots e.active
  have hle := h.pending
  have hrun : (e.holding id).runs e.active=(e.runs e.active).set e.npending id :=
    Function.update_self _ _ _
  constructor
  · constructor
    · exact h.cap
    · exact h.cursor
    · exact h.room
    · exact h.reserved
    · exact h.front
    · exact h.size
    · exact h.orderly
    · intro side
      by_cases hs : side=e.active
      · rw [hs,hrun,List.length_set]
        exact hlen
      · exact (congrArg List.length (Function.update_of_ne hs _ _)).trans (h.slots side)
    · intro side i hi
      by_cases hs : side=e.active
      · rw [hs,hrun] at hi
        rcases List.mem_or_eq_of_mem_set hi with hi|rfl
        · exact h.ids e.active i hi
        · exact hid
      · have hsame : (e.holding id).runs side=e.runs side := Function.update_of_ne hs _ _
        rw [hsame] at hi
        exact h.ids side i hi
    · exact Nat.succ_le_succ hle
    · exact hd
  · have hheld : (e.holding id).held=e.held++[id] := by
      show ((e.holding id).runs e.active).take (e.npending+1)=_
      have hlt : e.npending < (e.runs e.active).length := by omega
      rw [hrun,List.take_add_one,List.take_set_of_le (Nat.le_refl _),List.getElem?_set_self hlt]
      rfl
    rw [Outlet.frame,hheld]
    rfl

/-- An encoder that forgets the innermost id held back. -/
theorem Enc.Ok.dropping (h : e.Ok o) :
    e.dropping.Ok o ∧
      o.frame e.dropping={o.frame e with held := e.held.dropLast, depth := e.depth-1} := by
  have hle := h.pending
  have hd := h.depth
  have hlen := h.slots e.active
  constructor
  · exact ⟨h.cap,h.cursor,h.room,h.reserved,h.front,h.size,h.orderly,h.slots,h.ids,
      Nat.sub_le_sub_right hle 1,(Nat.sub_le _ _).trans hd⟩
  · have hheld : e.dropping.held=e.held.dropLast := by
      show (e.runs e.active).take (e.npending-1)=((e.runs e.active).take e.npending).dropLast
      rw [List.dropLast_eq_take,List.length_take,List.take_take]
      congr 1
      omega
    rw [Outlet.frame,hheld]
    rfl

/-- An encoder one sequence shallower. -/
theorem Enc.Ok.shallower (h : e.Ok o) (hn : e.npending=0) :
    e.shallower.Ok o ∧ o.frame e.shallower={o.frame e with depth := e.depth-1} := by
  have hd := h.depth
  refine ⟨⟨h.cap,h.cursor,h.room,h.reserved,h.front,h.size,h.orderly,h.slots,h.ids,?_,
    (Nat.sub_le _ _).trans hd⟩,rfl⟩
  show e.npending ≤ e.depth-1
  omega

/-- The ids held back are as many as are pending. -/
theorem Enc.Ok.held_nil (h : e.Ok o) : e.held=[] ↔ e.npending=0 := by
  have hle := h.pending
  have hd := h.depth
  have hlen := h.slots e.active
  have hheld : e.held.length=e.npending := by
    rw [Enc.held,List.length_take]
    omega
  rw [←List.length_eq_zero_iff,hheld]

/-- Closing a frame puts its end marker out behind what is held back. -/
theorem closeFrame_run (hf : o.Fair) (h : e.Ok o) :
    Wrote o e.committed (startBytes e.held++stopBytes) none (closeFrame o e) :=
  Wrote.bind (commitHeld_run hf h) fun _ ha => emitVarint_run ha.ok hf (by decide)

/-- What a writer's body comes to behind the sticky gate. -/
def settle (r : EStateM.Result Exn Enc Unit) : EStateM.Result Exn Enc Unit :=
  match r with
  | .ok _ e => .ok () e
  | .error why e => if why.isSofa then fail why e else .error why e

/-- An error that is not latched is. -/
theorem fail_run (e : Enc) (why : Exn) :
    fail why e=
      if e.sticky then .ok () {e with error := some (e.error.getD why)} else .error why e := by
  rw [fail,run_get_bind]
  cases hs : e.sticky with
  | false => rfl
  | true =>
    rw [if_pos rfl,if_pos rfl]
    cases he : e.error with
    | none => rfl
    | some w =>
      show EStateM.Result.ok () e=_
      rw [Option.getD_some,←he,←hs]

/-- What happens to an encoder later happens to it. -/
theorem Refines.since {e₀ : Enc} {out : Framing × Option Exn} (h : Refines o e out r)
    (hs : e.sticky=e₀.sticky) (he : e.error=e₀.error) : Refines o e₀ out r := by
  cases h with
  | ok hok h1 h2 => exact .ok hok (h1.trans hs) (h2.trans he)
  | error hok h1 h2 => exact .error hok (h1.trans hs) (h2.trans he)

/-- What happens behind a commit happens to the encoder. -/
theorem Refines.of_committed {out : Framing × Option Exn} (h : Refines o e.committed out r) :
    Refines o e out r :=
  h.since (committed_sticky e).1 (committed_sticky e).2

/-- An encoder that raises its errors raises them. -/
theorem Refines.raising {out : Framing × Option Exn} (h : Refines o e out r)
    (hs : e.sticky=false) : settle r=r := by
  cases h with
  | ok _ _ _ => rfl
  | @error e' why _ h1 _ =>
    have hgo : settle (.error why e')=
        if why.isSofa=true then fail why e' else .error why e' := rfl
    rw [hgo,fail_run,h1.trans hs]
    split <;> rfl

/-- A body that means a move does to the encoder what the move does to its message. -/
theorem Means.refines {body : EncM Unit} {m : Move} (hm : Means o body m) (hf : o.Fair)
    (h : e.Ok o) : Refines o e ((o.frame e).step m) (body e) := by
  have hst := committed_sticky e
  cases m with
  | refused why =>
    rw [hm e]
    exact .error h rfl rfl
  | field bytes rejected =>
    have hw := (hm hf e h).refines
    rw [frame_committed] at hw
    exact hw.of_committed
  | start id =>
    rw [Framing.step_start]
    by_cases hd : (o.frame e).depth ≥ maxDepth
    · rw [if_pos hd,hm.deep e hd]
      exact .error h rfl rfl
    · have hlt : e.depth < maxDepth := Nat.lt_of_not_le hd
      rw [if_neg hd]
      cases id with
      | error why =>
        rw [hm.refused e why hlt rfl]
        exact .error h rfl rfl
      | ok i =>
        obtain ⟨hok,hframe⟩ := h.holding hlt (hm.le i rfl)
        rw [hm.held e i hlt rfl h]
        show Refines o e ({o.frame e with held := e.held++[i], depth := e.depth+1},none) _
        rw [←hframe]
        exact .ok hok rfl rfl
  | stop keep =>
    rw [Framing.step_stop]
    by_cases hd : (o.frame e).depth ≤ 0
    · rw [if_pos hd,hm.unmatched e hd]
      exact .error h rfl rfl
    · have hlt : 0 < e.depth := Nat.lt_of_not_le hd
      have hnil := h.held_nil
      rw [if_neg hd]
      by_cases hv : (o.frame e).held≠[] ∧ keep=false
      · have hn : e.npending≠0 := fun hz => hv.1 (hnil.mpr hz)
        obtain ⟨hok,hframe⟩ := h.dropping
        rw [if_pos hv,hm.vanishes e hlt hn hv.2]
        show Refines o e ({o.frame e with held := e.held.dropLast, depth := e.depth-1},none) _
        rw [←hframe]
        exact .ok hok rfl rfl
      · have hn : e.npending=0 ∨ keep=true := by
          by_cases hz : e.npending=0
          · exact Or.inl hz
          · have hne : (o.frame e).held≠[] := fun hnone => hz (hnil.mp hnone)
            exact Or.inr (by simpa [hne] using hv)
        have hw := closeFrame_run hf h
        have hr := hw.refines
        rw [frame_committed] at hr
        rw [if_neg hv,hm.framed e hlt hn,Framing.commit]
        have hheld : (o.frame e).held=e.held := rfl
        rw [hheld]
        replace hr := hr.of_committed
        generalize closeFrame o e=r at hw hr ⊢
        generalize ({o.frame e with held := []} : Framing).emit
          (startBytes e.held++stopBytes)=out at hr ⊢
        rcases out with ⟨f,_|why⟩
        · cases hr with
          | ok hok h1 h2 =>
            cases hw with
            | done _ ha =>
              have hpend : e.committed.npending=0 := by
                rw [Enc.committed]
                split
                · rfl
                · omega
              obtain ⟨hok',hframe⟩ := hok.shallower (ha.kept.npending.trans hpend)
              show Refines o e ({o.frame _ with depth := (Enc.depth _)-1},none) _
              rw [←hframe]
              exact .ok hok' h1 h2
        · cases hr with
          | error hok h1 h2 => exact .error hok h1 h2

/-- The sticky gate is open until an error is latched. -/
theorem guarded_run (body : EncM Unit) {e : Enc} (hl : e.latched=false) :
    guarded body e=settle (body e) := by
  rw [Enc.latched] at hl
  unfold guarded
  rw [hl]
  cases body e with
  | ok => rfl
  | error => rfl

/-- A call does to an encoder what its move does to the message, over any buffer and
any fair sink. -/
theorem call_refines (hf : o.Fair) (h : e.Ok o) (narrow : BitVec 64 → Option (BitVec 32))
    {c : Call} (hc : c.Sized) (hl : e.latched=false) :
    ∃ r, Refines o e ((o.frame e).step (c.move narrow)) r ∧ c.run o narrow e=settle r := by
  obtain ⟨body,hrun,hmeans⟩ := call_frames o narrow hc
  refine ⟨body e,hmeans.refines hf h,?_⟩
  rw [hrun,guarded_run body hl]

end Refines

end SofaBuffers
