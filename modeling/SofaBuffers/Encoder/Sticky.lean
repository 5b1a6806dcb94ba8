import SofaBuffers.Abreast
import SofaBuffers.Encoder.Fit

/-!
# A sticky encoder is cut at the first error

An encoder that latches its first error does what one that raises it does, up to
the call that fails; from there on it does nothing. No writer reads the mode but
at its gate, so the two encoders are alike in every step of a body.
-/

set_option autoImplicit false

namespace SofaBuffers

/-- The encoder, latching its errors. -/
def Enc.stickied (e : Enc) : Enc := {e with sticky := true}

/-- The encoder, with an error latched. -/
def Enc.latching (e : Enc) (why : Exn) : Enc := {e with sticky := true, error := some why}

/-- An encoder that raises its errors, with `k` open sequences at least that are not held
back. -/
structure Enc.Plain (k : ℕ) (e : Enc) : Prop where
  /-- The encoder raises its errors. -/
  sticky : e.sticky=false
  /-- It has latched nothing. -/
  error : e.error=none
  /-- The slots for held-back ids are as many as sequences can be open. -/
  slots : ∀ side, (e.runs side).length=maxDepth
  /-- Only open sequences are held back. -/
  pending : e.npending+k ≤ e.depth

/-- An encoder that raises its errors and one that latches them are alike otherwise. -/
structure Mirrors (k : ℕ) (e e' : Enc) : Prop where
  /-- The one raises. -/
  plain : e.Plain k
  /-- The other is it, latching. -/
  eq : e'=e.stickied

/-- The library's own errors. -/
def Sofa (why : Exn) : Prop := why.isSofa=true

/-- A sink takes no notice of whether the encoder latches its errors, raises nothing but the
library's own, and leaves what the encoder is framing alone. It may copy what it is handed,
and install a buffer or be refused one. -/
def Outlet.Aloof (o : Outlet) : Prop :=
  match o with
  | .sink react => ∀ e : Enc, e.sticky=false → e.error=none →
      Beside (fun m m' => e.Kept m ∧ m'=m.stickied) Sofa (react e) (react e.stickied)
  | _ => True

section Steps

variable {o : Outlet} {k : ℕ}

/-- What writes in the buffer only keeps the encoders alike. -/
theorem Mirrors.written {e e' : Enc} (h : Mirrors k e e') (fixed : List UInt8) (cursor : ℕ)
    (result : Option (List (List UInt8))) (transfers : List Transfer) :
    Mirrors k {e with
      fixed := fixed, cursor := cursor, result := result, transfers := transfers}
      {e' with fixed := fixed, cursor := cursor, result := result, transfers := transfers} := by
  obtain ⟨⟨h1,h2,h3,h4⟩,rfl⟩ := h
  exact ⟨⟨h1,h2,h3,h4⟩,rfl⟩

theorem abreast_poke (bs : List UInt8) : Abreast (Mirrors k) Sofa (poke bs) := by
  refine .modify fun e e' h => ?_
  obtain ⟨hp,rfl⟩ := h
  exact Mirrors.written ⟨hp,rfl⟩ _ _ e.result e.transfers

theorem abreast_setCursor (cursor : ℕ) : Abreast (Mirrors k) Sofa (setCursor cursor) := by
  refine .modify fun e e' h => ?_
  obtain ⟨hp,rfl⟩ := h
  exact Mirrors.written ⟨hp,rfl⟩ e.fixed _ e.result e.transfers

theorem abreast_pokeAt (seen cursor : ℕ) (bs : List UInt8) :
    Abreast (Mirrors k) Sofa (pokeAt seen cursor bs) := by
  refine .modify fun e e' h => ?_
  obtain ⟨hp,rfl⟩ := h
  show Mirrors k (if e.installs=seen then _ else _) (if e.installs=seen then _ else _)
  split
  · exact Mirrors.written ⟨hp,rfl⟩ _ e.cursor e.result e.transfers
  · exact ⟨hp,rfl⟩

theorem abreast_rewind : Abreast (Mirrors k) Sofa rewind := by
  refine .modify fun e e' h => ?_
  obtain ⟨hp,rfl⟩ := h
  exact Mirrors.written ⟨hp,rfl⟩ e.fixed _ e.result e.transfers

theorem abreast_hand : Abreast (Mirrors k) Sofa hand := by
  refine .modify fun e e' h => ?_
  obtain ⟨hp,rfl⟩ := h
  exact Mirrors.written ⟨hp,rfl⟩ e.fixed e.cursor e.result _

/-- A sink reacts to both alike. -/
theorem abreast_react {react : EncM Unit} (ho : (Outlet.sink react).Aloof) :
    Abreast (Mirrors k) Sofa react := by
  rintro e _ ⟨hp,rfl⟩
  have hgo := ho e hp.sticky hp.error
  generalize react e=r,react e.stickied=r' at hgo
  have hkeep : ∀ m m' : Enc, (e.Kept m ∧ m'=m.stickied) → Mirrors k m m' := by
    rintro m _ ⟨hk,rfl⟩
    refine ⟨⟨hk.sticky.trans hp.sticky,hk.error.trans hp.error,fun side => ?_,?_⟩,rfl⟩
    · rw [hk.runs]
      exact hp.slots side
    · rw [hk.npending,hk.depth]
      exact hp.pending
  cases hgo with
  | ok h => exact .ok (hkeep _ _ h)
  | error hw h => exact .error hw (hkeep _ _ h)

/-- The buffer is drained. -/
theorem abreast_drain (ho : o.Aloof) : Abreast (Mirrors k) Sofa (drain o) := by
  refine .get_bind fun e e' h => ?_
  cases o with
  | result =>
    obtain ⟨hp,rfl⟩ := h
    exact .ok (Mirrors.written ⟨hp,rfl⟩ e.fixed _ _ e.transfers)
  | closed => exact .error rfl h
  | writer => exact (abreast_hand.bind fun _ => abreast_rewind) e e' h
  | sink react =>
    have hinstalls : e'.installs=e.installs := by
      rw [h.eq]
      rfl
    refine (abreast_hand e e' h).bind fun _ m m' _ hm => ?_
    refine (abreast_react ho m m' hm).bind fun _ n n' _ hn => ?_
    rw [run_get_bind,run_get_bind]
    obtain ⟨hq,rfl⟩ := hn
    rw [hinstalls]
    exact Beside.ite (p := n.installs=e.installs) (fun _ => abreast_rewind n _ ⟨hq,rfl⟩)
      fun _ => .ok ⟨hq,rfl⟩

/-- A full buffer is drained. -/
theorem abreast_makeRoom (ho : o.Aloof) : Abreast (Mirrors k) Sofa (makeRoom o) := by
  refine .get_bind fun e e' h => ?_
  obtain ⟨hp,rfl⟩ := h
  refine Beside.ite (p := e.cap ≤ e.cursor) (fun _ => ?_) fun _ => .ok ⟨hp,rfl⟩
  refine (abreast_drain ho e _ ⟨hp,rfl⟩).bind fun _ m m' _ hm => ?_
  obtain ⟨hq,rfl⟩ := hm
  exact Beside.ite (p := m.cap ≤ m.cursor) (fun _ => .error rfl ⟨hq,rfl⟩)
    fun _ => .ok ⟨hq,rfl⟩

/-- A buffer with room made has room. -/
theorem makeRoom_room {e m : Enc} (h : makeRoom o e=.ok () m) : m.cursor < m.cap := by
  rw [makeRoom,run_get_bind] at h
  split at h
  · rw [run_bind] at h
    cases hd : drain o e with
    | ok a n =>
      rw [hd] at h
      dsimp only at h
      rw [run_get_bind] at h
      split at h
      · cases h
      · cases h
        omega
    | error why n =>
      rw [hd] at h
      cases h
  · cases h
    omega

/-- Bytes are copied through the buffer; the turns do not run out. -/
theorem abreast_putLoop (ho : o.Aloof) (data : List UInt8) {turns : ℕ} (pos : ℕ)
    (ht : data.length-pos < turns) : Abreast (Mirrors k) Sofa (putLoop o data turns pos) := by
  induction turns generalizing pos with
  | zero => omega
  | succ turns ih =>
    rw [putLoop]
    refine .ite (fun hpos => ?_) fun _ => .pure _
    intro e e' h
    refine (abreast_makeRoom ho e e' h).bind fun _ m m' hmade hm => ?_
    have hroom := makeRoom_room hmade
    obtain ⟨hp,rfl⟩ := hm
    rw [run_get_bind,run_get_bind]
    have hstep : data.length-(pos+min (m.cap-m.cursor) (data.length-pos)) < turns := by omega
    exact ((abreast_poke _).bind fun _ => ih _ hstep) m _ ⟨hp,rfl⟩

/-- A run of bytes is written. -/
theorem abreast_put (ho : o.Aloof) (data : List UInt8) :
    Abreast (Mirrors k) Sofa (put o data) := by
  refine .get_bind fun e e' h => ?_
  have hdrain : Abreast (Mirrors k) Sofa (drainUsed o) := by
    refine .get_bind fun m m' hm => ?_
    obtain ⟨hp,rfl⟩ := hm
    exact Beside.ite (p := m.cursor≠0) (fun _ => abreast_drain ho m _ ⟨hp,rfl⟩)
      fun _ => .ok ⟨hp,rfl⟩
  have hchunk : Abreast (Mirrors k) Sofa
      (modify fun e : Enc => {e with result := some (e.result.getD []++[data])}) := by
    refine .modify fun m m' hm => ?_
    obtain ⟨hp,rfl⟩ := hm
    exact Mirrors.written ⟨hp,rfl⟩ m.fixed m.cursor _ m.transfers
  obtain ⟨hp,rfl⟩ := h
  exact Beside.ite (p := (o.inMemory && e.cap ≤ data.length)=true)
    (fun _ => (hdrain.bind fun _ => hchunk) e _ ⟨hp,rfl⟩)
    fun _ => abreast_putLoop ho data 0 (by omega) e _ ⟨hp,rfl⟩

/-- A varint is written. -/
theorem abreast_emitVarint (ho : o.Aloof) (v : ℕ) :
    Abreast (Mirrors k) Sofa (emitVarint o v) := by
  refine .get_bind fun e e' h => ?_
  obtain ⟨hp,rfl⟩ := h
  exact Beside.ite (p := e.cursor+varintMax ≤ e.cap)
    (fun _ => abreast_poke _ e _ ⟨hp,rfl⟩) fun _ => abreast_put ho _ e _ ⟨hp,rfl⟩

/-- A check is made first; it refuses with an argument error. -/
theorem abreast_checked {α : Type} {r : Except Exn α} (hr : Argues r) {f : α → EncM Unit}
    (hf : ∀ a, Abreast (Mirrors k) Sofa (f a)) : Abreast (Mirrors k) Sofa (checked r >>= f) := by
  intro e e' h
  cases r with
  | ok a => exact hf a e e' h
  | error why => exact .error (isSofa_of_cls (hr why rfl)) h

/-- The elements of an integer array are written. -/
theorem abreast_elementLoop (ho : o.Aloof) (w : Width) (vs : List Given) (seen : ℕ) (limit : ℤ)
    (cursor : ℕ) :
    Abreast (Mirrors k) Sofa (elementLoop o (elementWordOf w) vs seen limit cursor) := by
  induction vs generalizing seen limit cursor with
  | nil => exact abreast_setCursor cursor
  | cons v vs ih =>
    rw [elementLoop]
    cases hv : elementWordOf w v with
    | error why =>
      have hsofa := isSofa_of_cls (argues_elementWordOf w v why hv)
      exact (abreast_setCursor cursor).bind fun _ => .throw hsofa
    | ok u =>
      refine .ite (fun _ => ?_) fun _ => ?_
      · refine (abreast_setCursor cursor).bind fun _ => (abreast_put ho _).bind fun _ => ?_
        refine .get_bind fun m m' hm => ?_
        obtain ⟨hp,rfl⟩ := hm
        exact ih _ _ _ m _ ⟨hp,rfl⟩
      · exact (abreast_pokeAt _ _ _).bind fun _ => ih _ _ _

/-- The elements of a boolean array are written. -/
theorem abreast_boolLoop (ho : o.Aloof) (vs : List Bool) (seen room cursor : ℕ) :
    Abreast (Mirrors k) Sofa (boolLoop o vs seen room cursor) := by
  induction vs generalizing seen room cursor with
  | nil => exact abreast_setCursor cursor
  | cons v vs ih =>
    rw [boolLoop]
    refine .ite (fun _ => ?_) fun _ => ?_
    · refine (abreast_setCursor cursor).bind fun _ => (abreast_put ho _).bind fun _ => ?_
      refine .get_bind fun m m' hm => ?_
      obtain ⟨hp,rfl⟩ := hm
      exact ih _ _ _ m _ ⟨hp,rfl⟩
    · exact (abreast_pokeAt _ _ _).bind fun _ => ih _ _ _

/-- The held-back headers of a list of slots are written. -/
theorem abreast_commitLoop (ho : o.Aloof) (side : Bool) (left i : ℕ) :
    Abreast (Mirrors k) Sofa (commitLoop o side left i) := by
  induction left generalizing i with
  | zero => exact .pure _
  | succ left ih =>
    rw [commitLoop]
    refine .get_bind fun e e' h => ?_
    obtain ⟨hp,rfl⟩ := h
    exact ((abreast_emitVarint ho _).bind fun _ => ih _) e _ ⟨hp,rfl⟩

/-- What is held back is written, and nothing is held back any more. -/
theorem beside_commitHeld (ho : o.Aloof) {j : ℕ} {e e' : Enc} (h : Mirrors j e e')
    (hk : k ≤ e.depth) (hj : e.npending=0 → k ≤ j) :
    Beside (Mirrors k) Sofa (commitHeld o e) (commitHeld o e') := by
  obtain ⟨hp,rfl⟩ := h
  rw [commitHeld,run_get_bind,run_get_bind]
  refine Beside.ite (p := e.npending≠0) (fun _ => ?_) fun hz => ?_
  · rw [commitPending,run_get_bind,run_get_bind,run_set_bind,run_set_bind]
    refine abreast_commitLoop ho _ _ _ _ _ ⟨⟨hp.sticky,hp.error,hp.slots,?_⟩,rfl⟩
    exact (Nat.zero_add k).trans_le hk
  · have hzero : e.npending=0 := by simpa using hz
    have hpending := hp.pending
    have hkj := hj hzero
    exact .ok ⟨⟨hp.sticky,hp.error,hp.slots,by omega⟩,rfl⟩

/-- A header. -/
theorem abreast_header (ho : o.Aloof) (fieldId : Given) (wtype : WireType) :
    Abreast (Mirrors k) Sofa (header o fieldId wtype) := by
  refine abreast_checked (argues_checkedId fieldId) fun id e e' h => ?_
  have hk : k ≤ e.depth := by
    have := h.plain.pending
    omega
  refine (beside_commitHeld ho h hk fun _ => le_refl k).bind fun _ m m' _ hm => ?_
  exact abreast_emitVarint ho _ m m' hm

/-- A field of one varint. -/
theorem abreast_scalar (ho : o.Aloof) (fieldId : Given) (wtype : WireType) {α : Type}
    {value : Except Exn α} (hv : Argues value) (word : α → ℕ) :
    Abreast (Mirrors k) Sofa (do
      let v ← checked value
      header o fieldId wtype
      emitVarint o (word v)) :=
  abreast_checked hv fun v =>
    (abreast_header ho fieldId wtype).bind fun _ => abreast_emitVarint ho (word v)

/-- A fixlen field. -/
theorem abreast_fixlen (ho : o.Aloof) (fieldId : Given) (subtype : FixlenSubtype)
    (data : List UInt8) :
    Abreast (Mirrors k) Sofa (do
      checked (fixlenSize data.length)
      header o fieldId .fixlen
      emitVarint o (data.length*8+subtype.toNat)
      put o data) := by
  refine abreast_checked (argues_fixlenSize _) fun _ => ?_
  refine (abreast_header ho fieldId .fixlen).bind fun _ => ?_
  exact (abreast_emitVarint ho _).bind fun _ => abreast_put ho data

/-- An array. -/
theorem abreast_array (ho : o.Aloof) (fieldId : Given) (wtype : WireType) {α : Type}
    {count : Except Exn α} (hc : Argues count) (number : α → ℕ) {rest : EncM Unit}
    (hrest : Abreast (Mirrors k) Sofa rest) :
    Abreast (Mirrors k) Sofa (do
      let n ← checked count
      arrayHead o fieldId wtype (number n)
      rest) := by
  refine abreast_checked hc fun n => Abreast.bind ?_ fun _ => hrest
  rw [arrayHead]
  by_cases h : number n > arrayMax
  · rw [if_pos h]
    exact fun e e' he => .error rfl he
  · rw [if_neg h]
    exact (abreast_header ho fieldId wtype).bind fun _ => abreast_emitVarint ho _

/-- Opening a sequence holds its header back; there is a slot for it. -/
theorem abreast_begin (fieldId : Given) :
    Abreast (Mirrors 0) Sofa (do
      let e ← get
      if e.depth ≥ maxDepth then throw (.argument "nesting exceeds MAX_DEPTH=255")
      let id ← checked (checkedId fieldId)
      if (e.runs e.active).length ≤ e.npending then throw .index
      set {e with
        runs := Function.update e.runs e.active ((e.runs e.active).set e.npending id)
        npending := e.npending+1, depth := e.depth+1}) := by
  refine .get_bind fun e e' h => ?_
  obtain ⟨hp,rfl⟩ := h
  have hpending := hp.pending
  refine Beside.ite (p := e.depth ≥ maxDepth) (fun _ => .error rfl ⟨hp,rfl⟩) fun hd => ?_
  cases hid : checkedId fieldId with
  | error why => exact .error (isSofa_of_cls (argues_checkedId fieldId why hid)) ⟨hp,rfl⟩
  | ok id =>
    refine Beside.ite (p := (e.runs e.active).length ≤ e.npending) (fun hfull => ?_) fun _ => ?_
    · rw [hp.slots] at hfull
      omega
    · refine .ok ⟨⟨hp.sticky,hp.error,fun side => ?_,?_⟩,rfl⟩
      · dsimp only
        by_cases hside : side=e.active
        · rw [hside,Function.update_self,List.length_set]
          exact hp.slots _
        · rw [Function.update_of_ne hside]
          exact hp.slots side
      · dsimp only
        omega

/-- The frame of a sequence ends. -/
theorem beside_endFrame (ho : o.Aloof) {e e' : Enc} (h : Mirrors 1 e e') :
    Beside (Mirrors 0) Sofa (endFrame o e) (endFrame o e') := by
  have hcalm : ∀ m m' : Enc, Mirrors 1 m m' → Mirrors 0 m m' := by
    rintro m _ ⟨hp,rfl⟩
    have hpending := hp.pending
    exact ⟨⟨hp.sticky,hp.error,hp.slots,by omega⟩,rfl⟩
  have hgo := abreast_emitVarint ho WireType.sequenceEnd.toNat e e' h
  rw [endFrame,run_bind,run_bind]
  generalize emitVarint o WireType.sequenceEnd.toNat e=r,
    emitVarint o WireType.sequenceEnd.toNat e'=r' at hgo
  cases hgo with
  | @ok a m m' hm =>
    obtain ⟨hp,rfl⟩ := hm
    have hpending := hp.pending
    refine .ok ⟨⟨hp.sticky,hp.error,hp.slots,?_⟩,rfl⟩
    dsimp only
    omega
  | error hw hm => exact .error hw (hcalm _ _ hm)

/-- Closing a sequence that may vanish. -/
theorem abreast_end (ho : o.Aloof) :
    Abreast (Mirrors 0) Sofa (do
      let e ← get
      if e.depth ≤ 0 then throw unmatchedEnd
      else if e.npending≠0 then set {e with npending := e.npending-1, depth := e.depth-1}
      else endFrame o) := by
  refine .get_bind fun e e' h => ?_
  obtain ⟨hp,rfl⟩ := h
  have hpending := hp.pending
  refine Beside.ite (p := e.depth ≤ 0) (fun _ => .error rfl ⟨hp,rfl⟩) fun hd => ?_
  refine Beside.ite (p := e.npending≠0) (fun _ => ?_) fun hz => ?_
  · refine .ok ⟨⟨hp.sticky,hp.error,hp.slots,?_⟩,rfl⟩
    dsimp only
    omega
  · exact beside_endFrame ho ⟨⟨hp.sticky,hp.error,hp.slots,by omega⟩,rfl⟩

/-- Closing a sequence whose frame is kept. -/
theorem abreast_endKeep (ho : o.Aloof) :
    Abreast (Mirrors 0) Sofa (do
      if (← get).depth ≤ 0 then throw unmatchedEnd
      commitHeld o
      endFrame o) := by
  refine .get_bind fun e e' h => ?_
  obtain ⟨hp,rfl⟩ := h
  refine Beside.ite (p := e.depth ≤ 0) (fun _ => .error rfl ⟨hp,rfl⟩) fun hd => ?_
  have hcommit : Beside (Mirrors 1) Sofa (commitHeld o e) (commitHeld o e.stickied) := by
    by_cases hz : e.npending=0
    · refine beside_commitHeld (j := 1) ho ⟨⟨hp.sticky,hp.error,hp.slots,?_⟩,rfl⟩ ?_ ?_
      · omega
      · omega
      · exact fun _ => le_refl 1
    · exact beside_commitHeld ho ⟨hp,rfl⟩ (by omega) fun h => absurd h hz
  show Beside _ _ ((commitHeld o >>= fun _ => endFrame o) e)
    ((commitHeld o >>= fun _ => endFrame o) e.stickied)
  rw [run_bind,run_bind]
  generalize commitHeld o e=r,commitHeld o e.stickied=r' at hcommit
  cases hcommit with
  | ok hm => exact beside_endFrame ho hm
  | @error why m m' hw hm =>
    obtain ⟨hq,rfl⟩ := hm
    have hpending := hq.pending
    exact .error hw ⟨⟨hq.sticky,hq.error,hq.slots,by omega⟩,rfl⟩

end Steps

/-- How a call ends on an encoder that raises its errors and on one that latches them. -/
inductive Parts : EStateM.Result Exn Enc Unit → EStateM.Result Exn Enc Unit → Prop
  /-- It went well on both. -/
  | together {e : Enc} (h : e.Plain 0) : Parts (.ok () e) (.ok () e.stickied)
  /-- One raised what the other latched. -/
  | cut {why : Exn} {e : Enc} (h : e.Plain 0) : Parts (.error why e) (.ok () (e.latching why))

section Calls

variable {o : Outlet} {e : Enc}

/-- A body behind the gate. -/
theorem guarded_parts {body : EncM Unit} (hb : Abreast (Mirrors 0) Sofa body) (h : e.Plain 0) :
    Parts (guarded body e) (guarded body e.stickied) := by
  have hgo := hb e e.stickied ⟨h,rfl⟩
  have hplain : e.latched=false := by simp [Enc.latched,h.sticky]
  have hsticky : e.stickied.latched=false := by simp [Enc.latched,Enc.stickied,h.error]
  rw [guarded_run body hplain,guarded_run body hsticky]
  generalize body e=r,body e.stickied=r' at hgo
  cases hgo with
  | ok hm =>
    obtain ⟨hp,rfl⟩ := hm
    exact .together hp
  | @error why m m' hw hm =>
    obtain ⟨hp,rfl⟩ := hm
    have hraise : settle (.error why m)=.error why m := by
      simp [settle,fail_run,hp.sticky]
    have hlatch : settle (.error why m.stickied)=.ok () (m.latching why) := by
      have hsofa : why.isSofa=true := hw
      simp [settle,fail_run,hsofa,Enc.stickied,Enc.latching,hp.error]
    rw [hraise,hlatch]
    exact .cut hp

/-- An unsigned field. -/
theorem unsigned_parts (ho : o.Aloof) (h : e.Plain 0) (fieldId value : Given) :
    Parts (writeUnsigned o fieldId value e) (writeUnsigned o fieldId value e.stickied) :=
  guarded_parts (abreast_scalar ho fieldId .unsigned (argues_unsignedValue value) id) h

/-- A signed field. -/
theorem signed_parts (ho : o.Aloof) (h : e.Plain 0) (fieldId value : Given) :
    Parts (writeSigned o fieldId value e) (writeSigned o fieldId value e.stickied) :=
  guarded_parts (abreast_scalar ho fieldId .signed (argues_signedValue value) Zigzag.encode) h

/-- An unsigned field of a width. -/
theorem unsignedScalar_parts (ho : o.Aloof) (h : e.Plain 0) (w : Width) (fieldId value : Given) :
    Parts (unsignedScalar o w fieldId value e) (unsignedScalar o w fieldId value e.stickied) :=
  guarded_parts (abreast_scalar ho fieldId .unsigned (argues_unsignedWithin w value) id) h

/-- A signed field of a width. -/
theorem signedScalar_parts (ho : o.Aloof) (h : e.Plain 0) (w : Width) (fieldId value : Given) :
    Parts (signedScalar o w fieldId value e) (signedScalar o w fieldId value e.stickied) :=
  guarded_parts
    (abreast_scalar ho fieldId .signed (argues_signedWithin w value) Zigzag.encode) h

/-- A fixlen field. -/
theorem fixlen_parts (ho : o.Aloof) (h : e.Plain 0) (fieldId : Given) (data : List UInt8)
    (subtype : FixlenSubtype) :
    Parts (writeFixlen o fieldId data subtype e) (writeFixlen o fieldId data subtype e.stickied) :=
  guarded_parts (abreast_fixlen ho fieldId subtype data) h

/-- A fixlen field whose payload is settled first. -/
theorem settled_parts (ho : o.Aloof) (h : e.Plain 0) (fieldId : Given) (subtype : FixlenSubtype)
    {α : Type} {r : Except Exn α} (hr : Argues r) (payload : α → List UInt8) :
    Parts (settledThen r (fun a => writeFixlen o fieldId (payload a) subtype) e)
      (settledThen r (fun a => writeFixlen o fieldId (payload a) subtype) e.stickied) := by
  have heq := settledThen_eq hr fun a => (do
    checked (fixlenSize (payload a).length)
    header o fieldId .fixlen
    emitVarint o ((payload a).length*8+subtype.toNat)
    put o (payload a) : EncM Unit)
  have hbody : settledThen r (fun a => writeFixlen o fieldId (payload a) subtype)=_ := heq
  rw [hbody]
  exact guarded_parts (abreast_checked hr fun a => abreast_fixlen ho fieldId subtype _) h

/-- The caller's bound refuses with an argument error. -/
theorem argues_withinCap (cap : Option ℤ) (count : ℕ) : Argues (withinCap cap count) := by
  unfold Argues withinCap
  grind

/-- An array of integers. -/
theorem arrayWriter_parts (ho : o.Aloof) (h : e.Plain 0) (w : Width) (fieldId : Given)
    (values : List Given) (cap : ℤ) (hlo : -2^63 ≤ cap) (hhi : cap ≤ 2^63-1) :
    Parts (arrayWriter o w fieldId values cap e)
      (arrayWriter o w fieldId values cap e.stickied) := by
  rw [arrayWriter,if_neg (by omega)]
  refine guarded_parts
    (abreast_array ho fieldId _ (argues_withinCap _ _) (fun _ => values.length) ?_) h
  refine .get_bind fun m m' hm => ?_
  obtain ⟨hp,rfl⟩ := hm
  exact abreast_elementLoop ho w values _ _ _ m _ ⟨hp,rfl⟩

/-- An array of booleans. -/
theorem boolArray_parts (ho : o.Aloof) (h : e.Plain 0) (fieldId : Given) (values : List Bool)
    (cap : Option ℤ) :
    Parts (writeBoolArrayBounded o fieldId values cap e)
      (writeBoolArrayBounded o fieldId values cap e.stickied) := by
  refine guarded_parts
    (abreast_array ho fieldId _ (argues_withinCap _ _) (fun _ => values.length) ?_) h
  refine .get_bind fun m m' hm => ?_
  obtain ⟨hp,rfl⟩ := hm
  exact abreast_boolLoop ho values _ _ _ m _ ⟨hp,rfl⟩

/-- An array of floats. -/
theorem floatArray_parts (ho : o.Aloof) (h : e.Plain 0) (fieldId : Given)
    (values : List (BitVec 64)) (subtype : FixlenSubtype)
    (packArray : List (BitVec 64) → List UInt8) (elemSize : ℕ) (cap : Option ℤ) :
    Parts (writeFloatArray o fieldId values subtype packArray elemSize cap e)
      (writeFloatArray o fieldId values subtype packArray elemSize cap e.stickied) := by
  refine guarded_parts
    (abreast_array ho fieldId _ (argues_withinCap _ _) (fun _ => values.length) ?_) h
  exact (abreast_emitVarint ho _).bind fun _ => abreast_put ho _

/-- A call raises on the one what it latches on the other, and does the same to both. -/
theorem call_parts (ho : o.Aloof) (narrow : BitVec 64 → Option (BitVec 32)) (h : e.Plain 0)
    {c : Call} (hc : c.Sized) : Parts (c.run o narrow e) (c.run o narrow e.stickied) := by
  cases c with
  | unsigned fieldId value => exact unsigned_parts ho h fieldId value
  | signed fieldId value => exact signed_parts ho h fieldId value
  | sized w fieldId value =>
    cases w with
    | u64 => exact unsigned_parts ho h fieldId value
    | i64 => exact signed_parts ho h fieldId value
    | u8 | u16 | u32 => exact unsignedScalar_parts ho h _ fieldId value
    | i8 | i16 | i32 => exact signedScalar_parts ho h _ fieldId value
  | bool fieldId value => exact unsigned_parts ho h fieldId _
  | float32 fieldId value => exact fixlen_parts ho h fieldId _ .fp32
  | float32Bits fieldId bits =>
    have hbits : Argues (f32Word bits) := by
      have hint := argues_asInt bits "fp32 bits"
      unfold Argues f32Word at *
      grind
    exact settled_parts ho h fieldId .fp32 hbits _
  | float64 fieldId value => exact fixlen_parts ho h fieldId _ .fp64
  | string fieldId text => exact settled_parts ho h fieldId .string (argues_utf8Payload text) id
  | stringBounded fieldId text maxlen =>
    exact settled_parts ho h fieldId .string
      (argues_withinMaxlen (argues_utf8Payload text) maxlen _) id
  | bytes fieldId data => exact settled_parts ho h fieldId .blob (argues_blobPayload data) id
  | bytesBounded fieldId data maxlen =>
    exact settled_parts ho h fieldId .blob
      (argues_withinMaxlen (argues_blobPayload data) maxlen _) id
  | unsignedArray fieldId values =>
    exact arrayWriter_parts ho h .u64 fieldId values (-1) (by decide) (by decide)
  | signedArray fieldId values =>
    exact arrayWriter_parts ho h .i64 fieldId values (-1) (by decide) (by decide)
  | sizedArray w fieldId values cap =>
    cases w <;> exact arrayWriter_parts ho h _ fieldId values cap hc.1 hc.2
  | boolArray fieldId values => exact boolArray_parts ho h fieldId values none
  | boolArrayBounded fieldId values cap => exact boolArray_parts ho h fieldId values cap
  | float32Array fieldId values => exact floatArray_parts ho h fieldId values .fp32 _ 4 none
  | float32ArrayBounded fieldId values cap =>
    exact floatArray_parts ho h fieldId values .fp32 _ 4 cap
  | float32ArrayBits fieldId payload count =>
    refine guarded_parts (abreast_array ho fieldId _ (argues_f32Payload _ _) id ?_) h
    exact (abreast_emitVarint ho _).bind fun _ => abreast_put ho _
  | float64Array fieldId values => exact floatArray_parts ho h fieldId values .fp64 _ 8 none
  | float64ArrayBounded fieldId values cap =>
    exact floatArray_parts ho h fieldId values .fp64 _ 8 cap
  | sequenceBeginLazy fieldId => exact guarded_parts (abreast_begin fieldId) h
  | sequenceEnd => exact guarded_parts (abreast_end ho) h
  | sequenceEndKeep => exact guarded_parts (abreast_endKeep ho) h

end Calls

/-- A new encoder that raises its errors, and one made the same way that latches them. -/
inductive Made (o : Outlet) : Enc → Enc → Prop
  /-- `Encoder()` and `Encoder(writer)`. -/
  | scratch (ho : o=.result ∨ o=.writer) : Made o (.scratch false) (.scratch true)
  /-- `Encoder.over_buffer`. -/
  | buffered {buffer : List UInt8} {offset : ℕ} {e e' : Enc} (ho : o.inMemory=false)
      (h : overBuffer o buffer offset false=.ok e)
      (h' : overBuffer o buffer offset true=.ok e') : Made o e e'

/-- How calls end on an encoder that raises its errors and on one that latches them. -/
inductive Sticky (o : Outlet) (narrow : BitVec 64 → Option (BitVec 32)) (e₀ : Enc)
    (calls : List Call) : EStateM.Result Exn Enc Unit → EStateM.Result Exn Enc Unit → Prop
  /-- No call fails, and no error is latched. -/
  | whole {e : Enc} (he : e.error=none) :
      Sticky o narrow e₀ calls (.ok () e) (.ok () e.stickied)
  /-- One is the first that fails. What it raises is latched, all else is as it is on the other
  at the failure, and no later call changes anything of it. -/
  | cut {done rest : List Call} {c : Call} {e₁ e : Enc} {why : Exn}
      (hcalls : calls=done++c::rest) (hdone : writeAll o narrow done e₀=.ok () e₁)
      (hcall : c.run o narrow e₁=.error why e)
      (hinert : ∀ later : List Call, (∀ c ∈ later, c.Sized) →
        writeAll o narrow later (e.latching why)=.ok () (e.latching why)) :
      Sticky o narrow e₀ calls (.error why e) (.ok () (e.latching why))

section Claim

variable {o : Outlet} {narrow : BitVec 64 → Option (BitVec 32)}

/-- Once an error is latched no call does anything. -/
theorem latching_inert (e : Enc) (why : Exn) {later : List Call} (h : ∀ c ∈ later, c.Sized) :
    writeAll o narrow later (e.latching why)=.ok () (e.latching why) :=
  writeAll_latched o narrow rfl h

/-- Calls in order, up to the first that fails. -/
theorem writeAll_sticky (ho : o.Aloof) {e : Enc} (h : e.Plain 0) {calls : List Call}
    (hc : ∀ c ∈ calls, c.Sized) :
    Sticky o narrow e calls (writeAll o narrow calls e) (writeAll o narrow calls e.stickied) := by
  induction calls generalizing e with
  | nil => exact .whole h.error
  | cons c calls ih =>
    have hrest : ∀ c ∈ calls, c.Sized := fun c' hc' => hc c' (List.mem_cons_of_mem _ hc')
    have hone := call_parts ho narrow h (hc c (List.mem_cons_self ..))
    rw [writeAll,run_bind,run_bind]
    cases hr : c.run o narrow e with
    | ok a m =>
      rw [hr] at hone
      generalize c.run o narrow e.stickied=r' at hone
      cases hone with
      | together hm =>
        have hnext := ih hm hrest
        dsimp only
        generalize writeAll o narrow calls m.stickied=r' at hnext
        cases hrun : writeAll o narrow calls m with
        | ok a n =>
          rw [hrun] at hnext
          cases hnext with
          | whole he => exact .whole he
        | error why n =>
          rw [hrun] at hnext
          cases hnext with
          | @cut done rest c' m' _ _ hcalls hdone hcall hinert =>
            have hdone : writeAll o narrow (c::done) e=.ok () m' := by
              rw [writeAll,run_bind_ok hr]
              exact hdone
            exact .cut (by rw [hcalls,List.cons_append]) hdone hcall hinert
    | error why m =>
      rw [hr] at hone
      generalize c.run o narrow e.stickied=r' at hone
      cases hone with
      | cut hm =>
        dsimp only
        rw [latching_inert m why hrest]
        have hdone : writeAll o narrow [] e=.ok () e := rfl
        exact .cut (List.nil_append _).symm hdone hr fun later => latching_inert m why

/-- A caller's buffer is refused, or there is an encoder over it with nothing written. -/
theorem overBuffer_cases (o : Outlet) (buffer : List UInt8) (offset : ℕ) :
    (∃ why, ∀ sticky, overBuffer o buffer offset sticky=.error why) ∨
      ∀ sticky, overBuffer o buffer offset sticky=.ok (.over buffer offset sticky) := by
  by_cases hin : buffer.length < offset
  · exact .inl ⟨_,fun sticky => by simp [overBuffer,bufferSet,hin]; rfl⟩
  · by_cases hroom : buffer.length-offset < minOutputBuffer ∧ o.hasSink
    · exact .inl ⟨_,fun sticky => by simp [overBuffer,bufferSet,hin,hroom]; rfl⟩
    · exact .inr fun sticky => by simp [overBuffer,bufferSet,hin,hroom]; rfl

/-- An encoder that raises its errors is plain as it is made, and one that latches them is made the
same. -/
theorem Made.plain {e e' : Enc} (h : Made o e e') : e.Plain 0 ∧ e'=e.stickied := by
  have hover : ∀ buffer offset, (Enc.over buffer offset false).Plain 0 :=
    fun _ _ => ⟨rfl,rfl,fun _ => List.length_replicate ..,le_refl 0⟩
  cases h with
  | scratch => exact ⟨hover _ _,rfl⟩
  | @buffered buffer offset _ _ _ h h' =>
    rcases overBuffer_cases o buffer offset with ⟨why,hno⟩ | hyes
    · rw [hno] at h
      cases h
    · rw [hyes] at h h'
      cases h
      cases h'
      exact ⟨hover _ _,rfl⟩

/-- A sink that copies what it is handed, or installs a buffer or is refused one, by what has
passed so far. -/
def deciding (policy : List Transfer → Option (List UInt8 × ℕ)) : EncM Unit := do
  match policy (← get).transfers with
  | none => pure ()
  | some (buffer,offset) => bufferSet (.sink (pure ())) buffer offset

/-- A sink that decides by what has passed takes no notice of the mode. -/
theorem deciding_aloof (policy : List Transfer → Option (List UInt8 × ℕ)) :
    (Outlet.sink (deciding policy)).Aloof := by
  intro e _ _
  rw [deciding,run_get_bind,run_get_bind]
  show Beside _ _ ((match policy e.transfers with
    | none => pure ()
    | some (buffer,offset) => bufferSet (.sink (pure ())) buffer offset : EncM Unit) e)
    ((match policy e.transfers with
    | none => pure ()
    | some (buffer,offset) => bufferSet (.sink (pure ())) buffer offset : EncM Unit) e.stickied)
  cases policy e.transfers with
  | none => exact .ok ⟨.refl e,rfl⟩
  | some place =>
    obtain ⟨buffer,offset⟩ := place
    dsimp only
    rw [bufferSet,run_get_bind,run_get_bind]
    refine Beside.ite (fun _ => .error rfl ⟨.refl e,rfl⟩) fun _ => ?_
    refine Beside.ite (fun _ => .error rfl ⟨.refl e,rfl⟩) fun _ => ?_
    exact .ok ⟨⟨rfl,rfl,rfl,rfl,rfl,rfl⟩,rfl⟩

end Claim

/-- A sticky encoder is the other one cut at its first error. Whatever calls are made, over
whatever buffer and outlet, none of them raises on the encoder that latches its errors. If none
raises on the one that does not, the two end alike and nothing is latched; else the first that
raises is what is latched, the encoder is as the other at that failure but for the mode and the
error, and no later call changes it. -/
theorem sticky_cut {o : Outlet} (ho : o.Aloof) (narrow : BitVec 64 → Option (BitVec 32))
    {e e' : Enc} (h : Made o e e') {calls : List Call} (hc : ∀ c ∈ calls, c.Sized) :
    Sticky o narrow e calls (writeAll o narrow calls e) (writeAll o narrow calls e') := by
  obtain ⟨hp,rfl⟩ := h.plain
  exact writeAll_sticky ho hp hc

/-- A sink that takes every buffer and installs another one of two bytes, and an array whose
second element is out of range inside a sequence: the calls behind it do nothing. -/
theorem sticky_cut_taking :
    let o : Outlet := .sink (deciding fun ts =>
      if ts.getLast?.any (fun t => t matches .handed _) then some ([0,0],0) else none)
    let calls : List Call := [.sequenceBeginLazy (.int 1),.unsigned (.int 1) (.int 300),
      .sizedArray .u8 (.int 2) [.int 7,.int 256] (-1),.bool (.int 3) true,.sequenceEnd]
    let e := Enc.over [0xAA,0,0] 1 false
    let e' := Enc.over [0xAA,0,0] 1 true
    Sticky o (fun _ => none) e calls (writeAll o (fun _ => none) calls e)
      (writeAll o (fun _ => none) calls e') ∧
    (left (writeAll o (fun _ => none) calls e')).error=some (elemRefusal .u8 256) :=
  ⟨sticky_cut (deciding_aloof _) _ (@Made.buffered _ [0xAA,0,0] 1 _ _ rfl rfl rfl) (by decide),
    by decide +kernel⟩

end SofaBuffers
