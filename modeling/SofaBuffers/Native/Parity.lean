import SofaBuffers.Native.Twins
import SofaBuffers.Native.Values

/-!
# The two engines encode the same

Call by call the compiled encoder and the interpreted one put out the same bytes,
hand over the same views and raise errors of one class. A commit copies the run it
emits where the other engine swaps its two lists of slots; a refused element of an
array leaves both at the same byte.
-/

set_option autoImplicit false

namespace SofaBuffers

/-- The bookkeeping of two encoders agrees, but for the texts of errors. -/
structure Books (e : Enc) (n : Native.Enc) : Prop where
  /-- Both latch errors, or raise them. -/
  sticky : n.sticky=e.sticky
  /-- What was latched is of the same class. -/
  error : n.error.map Exn.cls=e.error.map Exn.cls
  /-- As many sequences are open. -/
  depth : n.depth=e.depth
  /-- As many sequences are held back. -/
  npending : n.npending=e.npending
  /-- The ids that are held back are the same. -/
  held : (n.pending.take n.npending).map BitVec.toNat=e.held
  /-- The slots for held-back ids are as many as sequences can be open. -/
  slots : ∀ side, (e.runs side).length=maxDepth
  /-- The entries of the compiled block are as many as sequences can be open. -/
  slots' : n.pending.length=maxDepth
  /-- Only open sequences are held back. -/
  pending : e.npending ≤ e.depth
  /-- No more sequences are open than can be. -/
  deep : e.depth ≤ maxDepth

/-- Two encoders of the two engines that did the same so far. -/
structure Twin (t : Taker) (e : Enc) (n : Native.Enc) : Prop where
  /-- The two encoders put out the same bytes. -/
  alike : Alike e n t e n
  /-- The bookkeeping of the two encoders agrees. -/
  books : Books e n

section Twin

variable {t : Taker} {e₀ e : Enc} {n₀ n : Native.Enc}

/-- What is kept agrees. -/
theorem Books.keep (h : Books e₀ n₀) (hk : e₀.Kept e) (hk' : n₀.Kept n) : Books e n := by
  refine ⟨?_,?_,?_,?_,?_,fun side => ?_,?_,?_,?_⟩
  · rw [hk'.sticky,hk.sticky,h.sticky]
  · rw [hk'.error,hk.error,h.error]
  · rw [hk'.depth,hk.depth,h.depth]
  · rw [hk'.npending,hk.npending,h.npending]
  · rw [hk'.pending,hk'.npending,h.held,Enc.held,Enc.held,hk.runs,hk.active,hk.npending]
  · rw [hk.runs]
    exact h.slots side
  · rw [hk'.pending]
    exact h.slots'
  · rw [hk.npending,hk.depth]
    exact h.pending
  · rw [hk.depth]
    exact h.deep

/-- The bookkeeping is none of the buffers' business. -/
theorem Alike.reframed (h : Alike e₀ n₀ t e n) (sticky sticky' : Bool) (error error' : Option Exn)
    (depth depth' : ℕ) (runs : Bool → List ℕ) (active : Bool) (pending : List (BitVec 32))
    (npending npending' : ℕ) :
    let d : Enc := {e with
      sticky := sticky, error := error, depth := depth, runs := runs, active := active
      npending := npending}
    let m : Native.Enc := {n with
      sticky := sticky', error := error', depth := depth', pending := pending
      npending := npending'}
    Alike d m t d m := by
  intro d m
  cases h with
  | streams hs h =>
    exact .streams hs ⟨.refl d,.refl m,h.sized,h.cap,h.length,h.cursor,h.inside,h.front,h.installs,
      h.transfers,h.result⟩
  | pooled h =>
    exact .pooled ⟨.refl d,.refl m,⟨h.pool.sized,h.pool.inside,h.pool.room⟩,
      ⟨h.pool'.sized,h.pool'.inside,h.pool'.room⟩,h.output⟩

/-- What twins have become is twins. -/
theorem Twin.of_alike (h : Books e₀ n₀) (ha : Alike e₀ n₀ t e n) : Twin t e n :=
  ⟨ha.reframed _ _ _ _ _ _ _ _ _ _ _,h.keep ha.kept ha.kept'⟩

/-- A run of bytes is written. -/
theorem Twin.put (ht : t.Fits) (h : Twin t e n) (data : List UInt8) :
    Tandem (Twin t) (put t.outlet data e) (Native.put t.native data n) :=
  (h.alike.put ht data).imp fun _ _ => .of_alike h.books

/-- Nothing is written of an empty payload. -/
theorem Twin.put_nil (h : Twin t e n) : SofaBuffers.put t.outlet [] e=.ok () e := by
  cases h.alike with
  | streams hs h =>
    rw [SofaBuffers.put,run_get_bind,Taker.outlet_streams hs]
    rfl
  | pooled h =>
    have hroom := h.pool.room
    rw [SofaBuffers.put,run_get_bind,if_neg (by simp; omega)]
    rfl

/-- A varint is written. -/
theorem Twin.emitVarint (ht : t.Fits) (h : Twin t e n) (b : Native.Build) {v : ℕ}
    (hv : v < 2^64) :
    Tandem (Twin t) (emitVarint t.outlet v e)
      (Native.emitVarint b t.native (BitVec.ofNat 64 v) n) :=
  (h.alike.emitVarint ht b hv).imp fun _ _ => .of_alike h.books

/-- A number with a tag is written. -/
theorem Twin.emitTagged (ht : t.Fits) (h : Twin t e n) (b : Native.Build) {v tag : ℕ}
    (hv : v < 2^61) (htag : tag < 8) :
    Tandem (Twin t) (SofaBuffers.emitVarint t.outlet (v*8+tag) e)
      (Native.emitVarint b t.native (Native.tagged (BitVec.ofNat 64 v) tag) n) := by
  rw [Native.tagged_eq hv htag]
  exact h.emitVarint ht b (by omega)

/-- An array of packed values is written. -/
theorem Twin.putFloats (ht : t.Fits) (h : Twin t e n) {pack : BitVec 64 → List UInt8}
    {elemSize : ℕ} (hp : ∀ v, (pack v).length=elemSize) (values : List (BitVec 64)) :
    Tandem (Twin t) (SofaBuffers.put t.outlet (values.flatMap pack) e)
      (Native.putFloats t.native pack elemSize values n) :=
  (h.alike.putFloats ht hp values).imp fun _ _ => .of_alike h.books

/-- The elements of an array of integers are written. -/
theorem Twin.elementLoop (ht : t.Fits) (h : Twin t e n) (b : Native.Build)
    {word : Given → Except Exn ℕ} {element : Given → Except Exn (BitVec 64)}
    (hw : ∀ v, element v=(word v).map (BitVec.ofNat 64)) (hlt : ∀ v u, word v=.ok u → u < 2^64)
    (vs : List Given) :
    Tandem (Twin t) (elementLoop t.outlet word vs e.installs (varintLimit e) e.cursor e)
      (Native.emitElements b t.native element vs n) :=
  (h.alike.elementLoop ht b hw hlt vs).imp fun _ _ => .of_alike h.books

/-- The elements of an array of booleans are written. -/
theorem Twin.boolLoop (ht : t.Fits) (h : Twin t e n) (b : Native.Build)
    {element : Bool → Except Exn (BitVec 64)}
    (hw : ∀ v, element v=(boolWord v).map (BitVec.ofNat 64)) (vs : List Bool) :
    Tandem (Twin t) (boolLoop t.outlet vs e.installs e.cap e.cursor e)
      (Native.emitElements b t.native element vs n) :=
  (h.alike.boolLoop ht b hw vs).imp fun _ _ => .of_alike h.books

end Twin

section Steps

variable {t : Taker} {e₀ e : Enc} {n₀ n : Native.Enc} {b : Native.Build}

/-- A check lets the same through on both sides, or is refused alike. -/
theorem tandem_checked {α γ β : Type} {R : Enc → Native.Enc → Prop} {r : Except Exn α} {f : α → γ}
    {k : α → EncM β} {k' : γ → Native.EncM β} (h : R e n)
    (hk : ∀ a, r=.ok a → Tandem R (k a e) (k' (f a) n)) :
    Tandem R ((checked r >>= k) e) ((Native.checked (r.map f) >>= k') n) := by
  cases hr : r with
  | error why => exact .error rfl h
  | ok a => exact hk a hr

/-- The headers of a run of slots are emitted, or of a copy of it. -/
theorem Alike.commitLoop (ht : t.Fits) {side : Bool} {ids : List (BitVec 32)} {left i : ℕ}
    (h : Alike e₀ n₀ t e n) (hlen : i+left ≤ (e₀.runs side).length)
    (hids : ids.map BitVec.toNat=((e₀.runs side).drop i).take left) :
    Tandem (Alike e₀ n₀ t) (commitLoop t.outlet side left i e)
      (Native.emitRun b t.native ids n) := by
  induction left generalizing i ids e n with
  | zero =>
    rw [List.take_zero] at hids
    rw [List.map_eq_nil_iff.mp hids]
    exact .ok h
  | succ left ih =>
    have hi : i < (e₀.runs side).length := by omega
    rw [List.drop_eq_getElem_cons hi,List.take_succ_cons] at hids
    cases ids with
    | nil => cases hids
    | cons id ids =>
      rw [List.map_cons,List.cons.injEq] at hids
      have hid : (e.runs side).getD i 0=id.toNat := by
        rw [h.kept.runs,List.getD_eq_getElem _ 0 hi,hids.1]
      have hword : id.setWidth 64=BitVec.ofNat 64 id.toNat := (BitVec.ofNat_toNat 64 id).symm
      have hlt := id.isLt
      rw [SofaBuffers.commitLoop,Native.emitRun,run_get_bind,hid,hword,
        Native.tagged_eq (by omega) (Native.wireType_lt _)]
      refine (h.emitVarint ht b ?_).bind fun _ d m h => ih h (by omega) hids.2
      have htag := Native.wireType_lt .sequenceStart
      omega

/-- What is held back is emitted, and nothing is held back any more. -/
theorem Twin.commitHeld (ht : t.Fits) (h : Twin t e n) :
    Tandem (fun d m => Twin t d m ∧ d.npending=0 ∧ d.depth=e.depth) (commitHeld t.outlet e)
      (Native.commitHeld b t.native n) := by
  rw [SofaBuffers.commitHeld,Native.commitHeld,run_get_bind,run_get_bind]
  refine .ite (by rw [h.books.npending]) (fun _ => ?_) fun hno => ?_
  · rw [commitPending,Native.commitPending,run_get_bind,run_get_bind,run_set_bind,run_set_bind]
    have hbooks := h.books
    have hstart := h.alike.reframed e.sticky n.sticky e.error n.error e.depth n.depth e.runs
      (!e.active) n.pending 0 0
    have hempty : Books {e with active := !e.active, npending := 0} {n with npending := 0} :=
      ⟨hbooks.sticky,hbooks.error,hbooks.depth,rfl,rfl,hbooks.slots,hbooks.slots',
        Nat.zero_le _,hbooks.deep⟩
    have hlen : 0+e.npending ≤ (e.runs e.active).length := by
      have hpending := hbooks.pending
      have hdeep := hbooks.deep
      rw [hbooks.slots]
      omega
    refine (hstart.commitLoop ht hlen hbooks.held).imp fun d m hd => ?_
    exact ⟨.of_alike hempty hd,hd.kept.npending,hd.kept.depth⟩
  · exact .ok ⟨h,by omega,rfl⟩

/-- A header is written behind what is held back. -/
theorem Twin.header (ht : t.Fits) (h : Twin t e n) (fieldId : Given) (wtype : WireType) :
    Tandem (Twin t) (header t.outlet fieldId wtype e)
      (Native.header b t.native fieldId wtype n) := by
  rw [SofaBuffers.header,Native.header,Native.idArg_eq]
  refine tandem_checked h fun id hid => ?_
  have hmax := checkedId_le hid
  unfold idMax at hmax
  rw [Native.headerC]
  have hcommit : Tandem (Twin t) (SofaBuffers.commitHeld t.outlet e)
      (Native.commitHeld b t.native n) := (h.commitHeld ht).imp fun _ _ h => h.1
  exact hcommit.bind fun _ d m h => h.emitTagged ht b (by omega) (Native.wireType_lt wtype)

/-- An error is latched, or raised. -/
theorem Twin.fail (h : Twin t e n) {why why' : Exn} (hw : why.cls=why'.cls) :
    Tandem (Twin t) (fail why e) (Native.fail why' n) := by
  have hbooks := h.books
  have hnone : n.error.isNone=e.error.isNone := by
    have herr := hbooks.error
    cases hn : n.error with
    | none =>
      rw [hn] at herr
      rw [Option.map_eq_none_iff.mp herr.symm]
    | some x =>
      cases he : e.error with
      | none =>
        rw [hn,he] at herr
        cases herr
      | some y => rfl
  rw [SofaBuffers.fail,Native.fail,run_get_bind,run_get_bind]
  refine .ite (by rw [hbooks.sticky]) (fun _ => ?_) fun _ => .error hw h
  refine .ite (by rw [hnone]) (fun _ => ?_) fun _ => .ok h
  refine .ok ⟨h.alike.reframed e.sticky n.sticky (some why) (some why') e.depth n.depth e.runs
    e.active n.pending e.npending n.npending,?_⟩
  refine ⟨hbooks.sticky,?_,hbooks.depth,hbooks.npending,hbooks.held,hbooks.slots,hbooks.slots',
    hbooks.pending,hbooks.deep⟩
  exact congrArg some hw.symm

/-- Whether an error is the library's own is a matter of its class. -/
theorem isSofa_cls {why why' : Exn} (h : why.cls=why'.cls) : why'.isSofa=why.isSofa := by
  cases why <;> cases why' <;> first | rfl | cases h

/-- Whether an error is latched. -/
theorem Twin.latched (h : Twin t e n) :
    (n.sticky && n.error.isSome)=(e.sticky && e.error.isSome) := by
  have herr := congrArg Option.isSome h.books.error
  rw [Option.isSome_map,Option.isSome_map] at herr
  rw [h.books.sticky,herr]

/-- Two bodies behind the gate. -/
theorem Twin.guarded (h : Twin t e n) {body : EncM Unit} {body' : Native.EncM Unit}
    (hb : Tandem (Twin t) (body e) (body' n)) :
    Tandem (Twin t) (guarded body e) (Native.guarded body' n) := by
  unfold SofaBuffers.guarded Native.guarded
  rw [h.latched]
  split
  · exact .ok h
  · generalize body e=r,body' n=r' at hb
    cases hb with
    | ok h => exact .ok h
    | error hw h =>
      dsimp only
      rw [isSofa_cls hw]
      split
      · exact h.fail hw
      · exact .error hw h

/-- A payload that is settled first. -/
theorem Twin.settledThen {α γ : Type} {r : Except Exn α} {r' : Except Exn γ}
    {write : α → EncM Unit} {write' : γ → Native.EncM Unit} (h : Twin t e n)
    (hr : (∃ a c, r=.ok a ∧ r'=.ok c ∧ Tandem (Twin t) (write a e) (write' c n)) ∨
      ∃ why why', r=.error why ∧ r'=.error why' ∧ why.cls=why'.cls) :
    Tandem (Twin t) (settledThen r write e) (Native.settledThen r' write' n) := by
  unfold SofaBuffers.settledThen Native.settledThen
  rw [h.latched]
  split
  · exact .ok h
  · rcases hr with ⟨a,c,rfl,rfl,hw⟩ | ⟨why,why',rfl,rfl,hw⟩
    · exact hw
    · exact h.fail hw

end Steps

section Calls

variable {t : Taker} {e : Enc} {n : Native.Enc} {b : Native.Build}

/-- A field of one varint, whose value is checked first. -/
theorem Twin.scalar (ht : t.Fits) (h : Twin t e n) {α γ : Type} {r : Except Exn α} {f : α → γ}
    (word : α → ℕ) (word' : γ → BitVec 64) (fieldId : Given) (wtype : WireType)
    (hw : ∀ a, r=.ok a → word' (f a)=BitVec.ofNat 64 (word a) ∧ word a < 2^64) :
    Tandem (Twin t)
      (SofaBuffers.guarded (do
        let v ← checked r
        SofaBuffers.header t.outlet fieldId wtype
        SofaBuffers.emitVarint t.outlet (word v)) e)
      (Native.guarded (do
        let v ← Native.checked (r.map f)
        let fid ← Native.checked (Native.idArg b.digits fieldId)
        Native.headerC b t.native fid wtype
        Native.emitVarint b t.native (word' v)) n) := by
  refine h.guarded (tandem_checked h fun a ha => ?_)
  have hhead : (do
      let fid ← Native.checked (Native.idArg b.digits fieldId)
      Native.headerC b t.native fid wtype
      Native.emitVarint b t.native (word' (f a)))=
      Native.header b t.native fieldId wtype >>= fun _ =>
        Native.emitVarint b t.native (word' (f a)) := by
    rw [Native.header,bind_assoc]
  rw [hhead,(hw a ha).1]
  exact (h.header ht fieldId wtype).bind fun _ d m h => h.emitVarint ht b (hw a ha).2

/-- An unsigned field. -/
theorem Twin.writeUnsigned (ht : t.Fits) (h : Twin t e n) (fieldId value : Given) :
    Tandem (Twin t) (writeUnsigned t.outlet fieldId value e)
      (Native.writeUnsigned b t.native fieldId value n) := by
  rw [SofaBuffers.writeUnsigned,Native.writeUnsigned,Native.u64Arg_eq]
  exact h.scalar ht id id fieldId .unsigned fun v hv => ⟨rfl,unsignedValue_lt hv⟩

/-- A signed field. -/
theorem Twin.writeSigned (ht : t.Fits) (h : Twin t e n) (fieldId value : Given) :
    Tandem (Twin t) (writeSigned t.outlet fieldId value e)
      (Native.writeSigned b t.native fieldId value n) := by
  rw [SofaBuffers.writeSigned,Native.writeSigned,Native.i64Arg_eq]
  refine h.scalar ht Zigzag.encode Native.zigzagEncode fieldId .signed fun v hv => ?_
  have hrange := Native.signedValue_range hv
  exact ⟨Native.zigzagEncode_eq hrange.1 hrange.2,Zigzag.encode_lt v⟩

/-- An unsigned field of a width. -/
theorem Twin.unsignedScalar (ht : t.Fits) (h : Twin t e n) (w : Width) (fieldId value : Given) :
    Tandem (Twin t) (unsignedScalar t.outlet w fieldId value e)
      (Native.unsignedScalar b t.native w fieldId value n) := by
  rw [SofaBuffers.unsignedScalar,Native.unsignedScalar,Native.unsignedWithin_eq]
  exact h.scalar ht id id fieldId .unsigned fun v hv => ⟨rfl,unsignedWithin_lt hv⟩

/-- A value in the range of a width is in the 64-bit range. -/
theorem signedWithin_range {w : Width} {value : Given} {v : ℤ}
    (h : signedWithin w value=.ok v) : signedMin ≤ v ∧ v ≤ signedMax := by
  rw [signedWithin] at h
  cases hs : signedValue value with
  | error why =>
    rw [hs] at h
    cases h
  | ok x =>
    have hx := Native.signedValue_range hs
    grind

/-- A signed field of a width. -/
theorem Twin.signedScalar (ht : t.Fits) (h : Twin t e n) (w : Width) (fieldId value : Given) :
    Tandem (Twin t) (signedScalar t.outlet w fieldId value e)
      (Native.signedScalar b t.native w fieldId value n) := by
  rw [SofaBuffers.signedScalar,Native.signedScalar,Native.signedWithin_eq]
  refine h.scalar ht Zigzag.encode Native.zigzagEncode fieldId .signed fun v hv => ?_
  have hrange := signedWithin_range hv
  exact ⟨Native.zigzagEncode_eq hrange.1 hrange.2,Zigzag.encode_lt v⟩

/-- A field of a width. -/
theorem Twin.writeSized (ht : t.Fits) (h : Twin t e n) (w : Width) (fieldId value : Given) :
    Tandem (Twin t) (writeSized t.outlet w fieldId value e)
      (Native.writeSized b t.native w fieldId value n) := by
  cases w with
  | u8 => exact h.unsignedScalar ht .u8 fieldId value
  | u16 => exact h.unsignedScalar ht .u16 fieldId value
  | u32 => exact h.unsignedScalar ht .u32 fieldId value
  | u64 => exact h.writeUnsigned ht fieldId value
  | i8 => exact h.signedScalar ht .i8 fieldId value
  | i16 => exact h.signedScalar ht .i16 fieldId value
  | i32 => exact h.signedScalar ht .i32 fieldId value
  | i64 => exact h.writeSigned ht fieldId value

/-- A boolean field. -/
theorem Twin.writeBool (ht : t.Fits) (h : Twin t e n) (fieldId : Given) (value : Bool) :
    Tandem (Twin t) (writeBool t.outlet fieldId value e)
      (Native.writeBool b t.native fieldId value n) := by
  have hone := h.scalar ht (b:=b) (r:=.ok (if value then 1 else 0)) (f:=BitVec.ofNat 64) id id
    fieldId .unsigned fun v hv => ⟨rfl,by cases hv; cases value <;> decide⟩
  have hval : unsignedValue (.int (if value then 1 else 0))=.ok (if value then 1 else 0) := by
    cases value <;> rfl
  have hword : (if value then 1 else 0 : BitVec 64)=BitVec.ofNat 64 (if value then 1 else 0) := by
    cases value <;> rfl
  rw [SofaBuffers.writeBool,SofaBuffers.writeUnsigned,hval,Native.writeBool,hword]
  exact hone

/-- A fixlen field. -/
theorem Twin.writeFixlen (ht : t.Fits) (h : Twin t e n) (fieldId : Given) (data : List UInt8)
    (subtype : FixlenSubtype) :
    Tandem (Twin t) (writeFixlen t.outlet fieldId data subtype e)
      (Native.writeFixlen b t.native fieldId data subtype n) := by
  rw [SofaBuffers.writeFixlen,Native.writeFixlen]
  refine h.guarded ?_
  cases hf : fixlenSize data.length with
  | error why => exact .error rfl h
  | ok u =>
    have hsize : data.length ≤ fixlenMax := by
      rw [fixlenSize] at hf
      by_contra hbig
      rw [if_pos (by omega)] at hf
      cases hf
    unfold fixlenMax at hsize
    refine (h.header ht fieldId .fixlen).bind fun _ d m h => ?_
    refine (h.emitTagged ht b (by omega) (Native.subtype_lt subtype)).bind fun _ d m h => ?_
    exact h.put ht data

/-- A fixlen field whose payload is settled the same on both sides. -/
theorem Twin.settledFixlen (ht : t.Fits) (h : Twin t e n) (r : Except Exn (List UInt8))
    (fieldId : Given) (subtype : FixlenSubtype) :
    Tandem (Twin t)
      (SofaBuffers.settledThen r
        (fun data => SofaBuffers.writeFixlen t.outlet fieldId data subtype) e)
      (Native.settledThen r
        (fun data => Native.writeFixlen b t.native fieldId data subtype) n) := by
  refine h.settledThen ?_
  cases r with
  | error why => exact .inr ⟨why,why,rfl,rfl,rfl⟩
  | ok data => exact .inl ⟨data,data,rfl,rfl,h.writeFixlen ht fieldId data subtype⟩

/-- A single from its raw bits. -/
theorem Twin.writeFloat32Bits (ht : t.Fits) (h : Twin t e n) (fieldId bits : Given) :
    Tandem (Twin t) (writeFloat32Bits t.outlet fieldId bits e)
      (Native.writeFloat32Bits b t.native fieldId bits n) := by
  rw [SofaBuffers.writeFloat32Bits,Native.writeFloat32Bits]
  refine h.settledThen ?_
  rcases Native.f32Word_eq bits with ⟨raw,hr,hlt,hr'⟩ | ⟨why,why',hr,hr'⟩
  · refine .inl ⟨raw,_,hr,hr',?_⟩
    rw [Native.store4_eq,BitVec.toNat_ofNat,Nat.mod_eq_of_lt hlt]
    exact h.writeFixlen ht fieldId _ .fp32
  · exact .inr ⟨_,_,hr,hr',rfl⟩

/-- A payload beyond the format's ceiling is refused like one that was not settled. -/
theorem settledFixlen_over {o : Outlet} {data : List UInt8} (hbig : fixlenMax < data.length)
    (fieldId : Given) (subtype : FixlenSubtype) :
    ∃ text, settledThen (.ok data) (fun data => writeFixlen o fieldId data subtype) e=
      settledThen (.error (.argument text))
        (fun data => writeFixlen o fieldId data subtype) e := by
  refine ⟨s!"fixlen payload of {data.length} bytes exceeds FIXLEN_MAX={fixlenMax}",?_⟩
  rw [settledThen,settledThen]
  split
  · rfl
  · next hlatch =>
    show writeFixlen o fieldId data subtype e=fail _ e
    rw [writeFixlen,guarded,if_neg hlatch,fixlenSize,if_pos hbig]
    rfl

/-- A length that is no C word is above every bound. -/
theorem Native.uOver_huge {v : ℕ} (hv : 2^64 ≤ v) (bound : ℤ) : Native.uOver b v bound=true := by
  have hmax : (unsignedMax : ℤ)=2^64-1 := by decide
  rw [Native.uOver,Native.uLimit,Native.toU64_eq]
  by_cases h : bound < 0 ∨ unsignedMax < bound
  · rw [if_pos h]
    dsimp only
    by_cases hover : (unsignedMax : ℤ) < bound
    · rw [if_pos hover]
      exact decide_eq_true (by omega)
    · rw [if_neg hover]
      exact decide_eq_true (by omega)
  · have hlt := (BitVec.ofInt 64 bound).isLt
    rw [if_neg h]
    exact decide_eq_true (by omega)

/-- A payload within the caller's bound. One that no format could carry is refused by either
engine, by whatever check of its own comes first. -/
theorem Twin.boundedFixlen (ht : t.Fits) (h : Twin t e n) (r : Except Exn (List UInt8))
    (fieldId : Given) (maxlen : Option ℤ) (refusal refusal' : ℕ → ℤ → String)
    (subtype : FixlenSubtype) :
    Tandem (Twin t)
      (SofaBuffers.settledThen (withinMaxlen maxlen refusal r)
        (fun data => SofaBuffers.writeFixlen t.outlet fieldId data subtype) e)
      (Native.settledThen (Native.withinMaxlen b maxlen refusal' r)
        (fun data => Native.writeFixlen b t.native fieldId data subtype) n) := by
  cases r with
  | error why => exact h.settledFixlen ht (.error why) fieldId subtype
  | ok data =>
    cases maxlen with
    | none => exact h.settledFixlen ht (.ok data) fieldId subtype
    | some most =>
      have hkept : Tandem (Twin t)
          (SofaBuffers.settledThen (.ok data)
            (fun data => SofaBuffers.writeFixlen t.outlet fieldId data subtype) e)
          (Native.settledThen (.ok data)
            (fun data => Native.writeFixlen b t.native fieldId data subtype) n) :=
        h.settledFixlen ht (.ok data) fieldId subtype
      rw [withinMaxlen,Native.withinMaxlen]
      by_cases hlt : data.length < 2^64
      · rw [Native.uOver_eq b hlt]
        by_cases hover : data.length > most
        · rw [if_pos hover,if_pos (decide_eq_true hover)]
          exact h.settledThen (.inr ⟨_,_,rfl,rfl,rfl⟩)
        · rw [if_neg hover,if_neg (by simpa using hover)]
          exact hkept
      · obtain ⟨text,htext⟩ := settledFixlen_over (e:=e) (o:=t.outlet)
          (show fixlenMax < data.length by unfold fixlenMax; omega) fieldId subtype
        rw [Native.uOver_huge (by omega),if_pos rfl]
        split
        · exact h.settledThen (.inr ⟨_,_,rfl,rfl,rfl⟩)
        · rw [htext]
          exact h.settledThen (.inr ⟨_,_,rfl,rfl,rfl⟩)

/-- The header and the count of an array. -/
theorem Twin.arrayHead (ht : t.Fits) (h : Twin t e n) (fieldId : Given) (wtype : WireType)
    (count : ℕ) :
    Tandem (Twin t) (arrayHead t.outlet fieldId wtype count e)
      (Native.arrayHeader b t.native fieldId wtype count n) := by
  rw [SofaBuffers.arrayHead,Native.arrayHeader]
  by_cases hc : count > arrayMax
  · rw [if_pos hc,if_pos hc]
    exact .error rfl h
  · rw [if_neg hc,if_neg hc]
    unfold arrayMax at hc
    exact (h.header ht fieldId wtype).bind fun _ d m h => h.emitVarint ht b (by omega)

/-- An array of integers, whose elements are words on both sides. -/
theorem Twin.integers (ht : t.Fits) (h : Twin t e n) (w : Width) (fieldId : Given)
    (wtype : WireType) {element : Given → Except Exn (BitVec 64)}
    (hw : ∀ v, element v=(elementWordOf w v).map (BitVec.ofNat 64)) (values : List Given) :
    Tandem (Twin t)
      ((do
        SofaBuffers.arrayHead t.outlet fieldId wtype values.length
        let e ← get
        SofaBuffers.elementLoop t.outlet (elementWordOf w) values e.installs (varintLimit e)
          e.cursor : EncM Unit) e)
      ((do
        Native.arrayHeader b t.native fieldId wtype values.length
        Native.emitElements b t.native element values : Native.EncM Unit) n) :=
  (h.arrayHead ht fieldId wtype values.length).bind fun _ _ _ h =>
    h.elementLoop ht b hw (elementWordOf_lt w) values

/-- An array of a width. -/
theorem Twin.arrayWriter (ht : t.Fits) (h : Twin t e n) (w : Width) (fieldId : Given)
    (values : List Given) (cap : ℤ) :
    Tandem (Twin t) (arrayWriter t.outlet w fieldId values cap e)
      (Native.writeSizedArray b t.native w fieldId values cap n) := by
  rw [SofaBuffers.arrayWriter,Native.writeSizedArray]
  refine .ite Iff.rfl (fun _ => .error rfl h) fun _ => h.guarded ?_
  rw [withinCap]
  dsimp only
  by_cases hcap : cap ≥ 0 ∧ values.length > cap
  · rw [if_pos hcap,if_pos hcap]
    exact .error rfl h
  · rw [if_neg hcap,if_neg hcap]
    refine h.integers ht w fieldId _ (fun v => ?_) values
    cases hs : w.signed with
    | true => exact Native.signedElement_eq b w hs v
    | false => exact Native.unsignedElement_eq b w hs v

/-- An unsigned array. -/
theorem Twin.writeUnsignedArray (ht : t.Fits) (h : Twin t e n) (fieldId : Given)
    (values : List Given) :
    Tandem (Twin t) (writeUnsignedArray t.outlet fieldId values e)
      (Native.writeUnsignedArray b t.native fieldId values n) := by
  rw [SofaBuffers.writeUnsignedArray,writeU64Array,SofaBuffers.arrayWriter,if_neg (by omega),
    Native.writeUnsignedArray]
  exact h.guarded (h.integers ht .u64 fieldId _ (Native.unsignedWord_element b) values)

/-- A signed array. -/
theorem Twin.writeSignedArray (ht : t.Fits) (h : Twin t e n) (fieldId : Given)
    (values : List Given) :
    Tandem (Twin t) (writeSignedArray t.outlet fieldId values e)
      (Native.writeSignedArray b t.native fieldId values n) := by
  rw [SofaBuffers.writeSignedArray,writeI64Array,SofaBuffers.arrayWriter,if_neg (by omega),
    Native.writeSignedArray]
  exact h.guarded (h.integers ht .i64 fieldId _ (Native.signedWord_element b) values)

/-- A count beyond the caller's bound is refused with an argument error. -/
theorem Native.checkCap_argues (count : ℕ) (cap : Option ℤ) :
    Argues (Native.checkCap b count cap) := by
  intro why hw
  cases cap with
  | none => cases hw
  | some cap =>
    rw [Native.checkCap] at hw
    grind

/-- A count beyond the format's ceiling is refused, whatever the caller's bound. -/
theorem counted_over {o : Outlet} {count : ℕ} (hbig : arrayMax < count) (cap : Option ℤ)
    (fieldId : Given) (wtype : WireType) (rest : EncM Unit) :
    ∃ why : Exn, why.cls=.argument ∧ (do
      SofaBuffers.checked (withinCap cap count)
      SofaBuffers.arrayHead o fieldId wtype count
      rest : EncM Unit) e=.error why e := by
  cases hcap : withinCap cap count with
  | error why => exact ⟨why,argues_withinCap cap count why hcap,rfl⟩
  | ok u =>
    refine ⟨.argument s!"array count {count} out of range 0..{arrayMax}",rfl,?_⟩
    show (SofaBuffers.arrayHead o fieldId wtype count >>= fun _ => rest) e=_
    rw [SofaBuffers.arrayHead,if_pos hbig]
    rfl

/-- A count beyond the format's ceiling is refused by the compiled engine, whatever the cap. -/
theorem Native.counted_over {o : Native.Outlet} {count : ℕ} (hbig : arrayMax < count)
    (cap : Option ℤ) (fieldId : Given) (wtype : WireType) (rest : Native.EncM Unit) :
    ∃ why : Exn, why.cls=.argument ∧ (do
      Native.checked (Native.checkCap b count cap)
      Native.arrayHeader b o fieldId wtype count
      rest : Native.EncM Unit) n=.error why n := by
  cases hcap : Native.checkCap b count cap with
  | error why => exact ⟨why,Native.checkCap_argues count cap why hcap,rfl⟩
  | ok u =>
    refine ⟨.argument s!"array count {count} out of range 0..{arrayMax}",rfl,?_⟩
    show (Native.arrayHeader b o fieldId wtype count >>= fun _ => rest) n=_
    rw [Native.arrayHeader,if_pos hbig]
    rfl

/-- A count beyond the format's ceiling is refused by either engine, whatever the caller's bound;
any other is judged the same. -/
theorem Twin.capped (h : Twin t e n) (count : ℕ) (cap : Option ℤ) (fieldId : Given)
    (wtype : WireType) {rest : EncM Unit} {rest' : Native.EncM Unit}
    (hrest : Tandem (Twin t)
      ((SofaBuffers.arrayHead t.outlet fieldId wtype count >>= fun _ => rest) e)
      ((Native.arrayHeader b t.native fieldId wtype count >>= fun _ => rest') n)) :
    Tandem (Twin t)
      ((do
        SofaBuffers.checked (withinCap cap count)
        SofaBuffers.arrayHead t.outlet fieldId wtype count
        rest) e)
      ((do
        Native.checked (Native.checkCap b count cap)
        Native.arrayHeader b t.native fieldId wtype count
        rest') n) := by
  by_cases hlt : count < 2^64
  · rw [Native.checkCap_eq b hlt]
    cases hcap : withinCap cap count with
    | error why => exact .error rfl h
    | ok u => exact hrest
  · have hbig : arrayMax < count := by
      unfold arrayMax
      omega
    obtain ⟨why,hw,hrun⟩ := counted_over (e:=e) (o:=t.outlet) hbig cap fieldId wtype rest
    obtain ⟨why',hw',hrun'⟩ :=
      Native.counted_over (b:=b) (n:=n) (o:=t.native) hbig cap fieldId wtype rest'
    rw [hrun,hrun']
    exact .error (hw.trans hw'.symm) h

/-- An array of booleans within the caller's bound. -/
theorem Twin.writeBoolArrayBounded (ht : t.Fits) (h : Twin t e n) (fieldId : Given)
    (values : List Bool) (cap : Option ℤ) :
    Tandem (Twin t) (writeBoolArrayBounded t.outlet fieldId values cap e)
      (Native.writeBoolArrayBounded b t.native fieldId values cap n) := by
  rw [SofaBuffers.writeBoolArrayBounded,Native.writeBoolArrayBounded]
  refine h.guarded (h.capped values.length cap fieldId .arrayUnsigned ?_)
  refine (h.arrayHead ht fieldId .arrayUnsigned values.length).bind fun _ _ _ h => ?_
  refine h.boolLoop ht b (fun v => ?_) values
  cases v <;> rfl

/-- An array of booleans. -/
theorem Twin.writeBoolArray (ht : t.Fits) (h : Twin t e n) (fieldId : Given)
    (values : List Bool) :
    Tandem (Twin t) (writeBoolArray t.outlet fieldId values e)
      (Native.writeBoolArray b t.native fieldId values n) := by
  rw [SofaBuffers.writeBoolArray]
  exact h.writeBoolArrayBounded ht fieldId values none

/-- An array of floats. -/
theorem Twin.writeFloatArray (ht : t.Fits) (h : Twin t e n) (fieldId : Given)
    (values : List (BitVec 64)) (subtype : FixlenSubtype)
    {packArray : List (BitVec 64) → List UInt8} {pack : BitVec 64 → List UInt8} {elemSize : ℕ}
    (hp : ∀ v, (pack v).length=elemSize) (hlt : elemSize < 2^61)
    (hpack : packArray values=values.flatMap pack) (cap : Option ℤ) :
    Tandem (Twin t) (writeFloatArray t.outlet fieldId values subtype packArray elemSize cap e)
      (Native.writeFloatArray b t.native fieldId values subtype pack elemSize cap n) := by
  rw [SofaBuffers.writeFloatArray,Native.writeFloatArray]
  refine h.guarded (h.capped values.length cap fieldId .arrayFixlen ?_)
  refine (h.arrayHead ht fieldId .arrayFixlen values.length).bind fun _ _ _ h => ?_
  refine (h.emitTagged ht b hlt (Native.subtype_lt subtype)).bind fun _ d m h => ?_
  rw [hpack]
  split
  · next hnil =>
    rw [List.eq_nil_of_length_eq_zero hnil,List.flatMap_nil,h.put_nil]
    exact .ok h
  · exact h.putFloats ht hp values

/-- An array of singles from its raw bytes. -/
theorem Twin.writeFloat32ArrayBits (ht : t.Fits) (h : Twin t e n) (fieldId : Given)
    (payload : List UInt8) {count : Option ℤ}
    (hc : ∀ c, count=some c → -2^63 ≤ c ∧ c ≤ 2^63-1) :
    Tandem (Twin t) (writeFloat32ArrayBits t.outlet fieldId payload count e)
      (Native.writeFloat32ArrayBits b t.native fieldId payload count n) := by
  rw [SofaBuffers.writeFloat32ArrayBits,Native.writeFloat32ArrayBits,Native.f32Payload_eq _ hc]
  refine h.guarded ?_
  cases hf : f32Payload payload.length count with
  | error why => exact .error rfl h
  | ok elems =>
    refine (h.arrayHead ht fieldId .arrayFixlen elems).bind fun _ _ _ h => ?_
    refine (h.emitTagged (v:=4) ht b (by omega) (Native.subtype_lt .fp32)).bind fun _ d m h => ?_
    split
    · next hnil =>
      rw [List.eq_nil_of_length_eq_zero hnil,h.put_nil]
      exact .ok h
    · exact h.put ht payload

/-- A list up to an entry that was assigned. -/
theorem take_set_succ {α : Type} {l : List α} {i : ℕ} {a : α} (h : i < l.length) :
    (l.set i a).take (i+1)=l.take i++[a] := by
  rw [List.take_add_one,List.take_set_of_le (Nat.le_refl _),List.getElem?_set_self h]
  rfl

/-- One more id is held back by both. -/
theorem Books.holding (h : Books e n) {id : ℕ} (hid : id < 2^32) (hd : e.depth < maxDepth) :
    Books (e.holding id) {n with
      pending := n.pending.set n.npending (BitVec.ofNat 32 id), npending := n.npending+1
      depth := n.depth+1} := by
  have hpending := h.pending
  have hnpending := h.npending
  have hslots := h.slots e.active
  have hslots' := h.slots'
  refine ⟨h.sticky,h.error,?_,?_,?_,fun side => ?_,?_,?_,?_⟩
  · show n.depth+1=e.depth+1
    rw [h.depth]
  · show n.npending+1=e.npending+1
    rw [hnpending]
  · have hheld := h.held
    show ((n.pending.set n.npending (BitVec.ofNat 32 id)).take (n.npending+1)).map BitVec.toNat=
      (Function.update e.runs e.active ((e.runs e.active).set e.npending id) e.active).take
        (e.npending+1)
    rw [Function.update_self,take_set_succ (by omega),take_set_succ (by omega),List.map_append,
      hheld,Enc.held,List.map_singleton,BitVec.toNat_ofNat,Nat.mod_eq_of_lt hid]
  · show (Function.update e.runs e.active ((e.runs e.active).set e.npending id) side).length=_
    rw [Function.update_apply]
    split
    · rw [List.length_set]
      exact hslots
    · exact h.slots side
  · show (n.pending.set n.npending (BitVec.ofNat 32 id)).length=maxDepth
    rw [List.length_set]
    exact hslots'
  · show e.npending+1 ≤ e.depth+1
    omega
  · exact hd

/-- A sequence's header is held back. -/
theorem Twin.writeSequenceBeginLazy (h : Twin t e n) (fieldId : Given) :
    Tandem (Twin t) (writeSequenceBeginLazy fieldId e)
      (Native.writeSequenceBeginLazy b fieldId n) := by
  rw [SofaBuffers.writeSequenceBeginLazy,Native.writeSequenceBeginLazy]
  refine h.guarded ?_
  rw [run_get_bind,run_get_bind,h.books.depth]
  by_cases hd : e.depth ≥ maxDepth
  · rw [if_pos hd,if_pos hd]
    exact .error rfl h
  · rw [if_neg hd,if_neg hd,Native.idArg_eq]
    refine tandem_checked h fun id hid => ?_
    have hmax := checkedId_le hid
    unfold idMax at hmax
    have hpending := h.books.pending
    have hslots := h.books.slots e.active
    have hslots' := h.books.slots'
    have hnpending := h.books.npending
    have hword : (BitVec.ofNat 64 id).setWidth 32=BitVec.ofNat 32 id := by
      apply BitVec.eq_of_toNat_eq
      rw [BitVec.toNat_setWidth,BitVec.toNat_ofNat,BitVec.toNat_ofNat]
      omega
    rw [if_neg (by omega),Native.pendingPush,hword]
    have hbooks := h.books.holding (show id < 2^32 by omega) (Nat.not_le.mp hd)
    show Tandem (Twin t) (.ok () (e.holding id)) _
    rw [run_bind,run_get_bind,if_neg (by omega)]
    exact .ok ⟨h.alike.reframed _ _ _ _ _ _ _ _ _ _ _,hbooks⟩

/-- The frame of a sequence ends, when nothing is held back. -/
theorem Twin.endFrame (ht : t.Fits) (h : Twin t e n) (hp : e.npending=0) :
    Tandem (Twin t) (endFrame t.outlet e) (Native.endFrame b t.native n) := by
  rw [SofaBuffers.endFrame,Native.endFrame,run_bind,run_bind]
  have hemit := h.alike.emitVarint ht b (v:=WireType.sequenceEnd.toNat) (by decide)
  generalize SofaBuffers.emitVarint t.outlet WireType.sequenceEnd.toNat e=r,
    Native.emitVarint b t.native (BitVec.ofNat 64 WireType.sequenceEnd.toNat) n=r' at hemit
  cases hemit with
  | error hw h' => exact .error hw (.of_alike h.books h')
  | @ok _ d m h' =>
    have hbooks := h.books.keep h'.kept h'.kept'
    have hnone : d.npending=0 := h'.kept.npending.trans hp
    have hdeep := hbooks.deep
    refine .ok ⟨h'.reframed _ _ _ _ _ _ _ _ _ _ _,?_⟩
    refine ⟨hbooks.sticky,hbooks.error,?_,hbooks.npending,hbooks.held,hbooks.slots,hbooks.slots',
      ?_,?_⟩
    · show m.depth-1=d.depth-1
      rw [hbooks.depth]
    · show d.npending ≤ d.depth-1
      omega
    · show d.depth-1 ≤ maxDepth
      omega

/-- The innermost sequence is closed, or vanishes. -/
theorem Twin.writeSequenceEnd (ht : t.Fits) (h : Twin t e n) :
    Tandem (Twin t) (writeSequenceEnd t.outlet e) (Native.writeSequenceEnd b t.native n) := by
  rw [SofaBuffers.writeSequenceEnd,Native.writeSequenceEnd]
  refine h.guarded ?_
  rw [run_get_bind,run_get_bind,h.books.depth,h.books.npending]
  refine .ite Iff.rfl (fun _ => .error rfl h) fun hopen => ?_
  refine .ite Iff.rfl (fun hheld => ?_) fun hnone => h.endFrame ht (by omega)
  have hbooks := h.books
  have hpending := hbooks.pending
  have hdeep := hbooks.deep
  refine .ok ⟨h.alike.reframed _ _ _ _ _ _ _ _ _ _ _,?_⟩
  refine ⟨hbooks.sticky,hbooks.error,rfl,rfl,?_,hbooks.slots,hbooks.slots',?_,?_⟩
  · have hcut := congrArg (List.take (e.npending-1)) hbooks.held
    rw [hbooks.npending,Enc.held,List.take_take,←List.map_take,List.take_take,
      Nat.min_eq_left (by omega)] at hcut
    exact hcut
  · show e.npending-1 ≤ e.depth-1
    omega
  · show e.depth-1 ≤ maxDepth
    omega

/-- The innermost sequence is closed, its frame being kept. -/
theorem Twin.writeSequenceEndKeep (ht : t.Fits) (h : Twin t e n) :
    Tandem (Twin t) (writeSequenceEndKeep t.outlet e)
      (Native.writeSequenceEndKeep b t.native n) := by
  rw [SofaBuffers.writeSequenceEndKeep,Native.writeSequenceEndKeep]
  refine h.guarded ?_
  rw [run_get_bind,run_get_bind,h.books.depth]
  by_cases hopen : e.depth ≤ 0
  · rw [if_pos hopen,if_pos hopen]
    exact .error rfl h
  · rw [if_neg hopen,if_neg hopen]
    have hcommit := h.commitHeld (b:=b) ht
    show Tandem (Twin t) ((SofaBuffers.commitHeld t.outlet >>= fun _ =>
      SofaBuffers.endFrame t.outlet) e) ((Native.commitHeld b t.native >>= fun _ =>
      Native.endFrame b t.native) n)
    rw [run_bind,run_bind]
    generalize SofaBuffers.commitHeld t.outlet e=r,Native.commitHeld b t.native n=r' at hcommit
    cases hcommit with
    | error hw h => exact .error hw h.1
    | ok h => exact h.1.endFrame ht h.2.1

/-- A count that is stated is a C `ssize_t`. -/
def Call.Counted : Call → Prop
  | .float32ArrayBits _ _ (some count) => -2^63 ≤ count ∧ count ≤ 2^63-1
  | _ => True

/-- A call does the same on both engines. -/
theorem Twin.call (ht : t.Fits) (h : Twin t e n) (b : Native.Build)
    (narrow : BitVec 64 → Option (BitVec 32)) {c : Call} (hc : c.Counted) :
    Tandem (Twin t) (c.run t.outlet narrow e) (Native.run b t.native narrow c n) := by
  cases c with
  | unsigned fieldId value => exact h.writeUnsigned ht fieldId value
  | signed fieldId value => exact h.writeSigned ht fieldId value
  | sized w fieldId value => exact h.writeSized ht w fieldId value
  | bool fieldId value => exact h.writeBool ht fieldId value
  | float32 fieldId value =>
    rw [Call.run,writeFloat32,Native.run,Native.writeFloat32,Native.packF32_eq]
    exact h.writeFixlen ht fieldId _ .fp32
  | float32Bits fieldId bits => exact h.writeFloat32Bits ht fieldId bits
  | float64 fieldId value =>
    rw [Call.run,writeFloat64,Native.run,Native.writeFloat64,Native.packF64_eq]
    exact h.writeFixlen ht fieldId _ .fp64
  | string fieldId text => exact h.settledFixlen ht (utf8Payload text) fieldId .string
  | stringBounded fieldId text maxlen =>
    exact h.boundedFixlen ht (utf8Payload text) fieldId maxlen _ _ .string
  | bytes fieldId data => exact h.settledFixlen ht (blobPayload data) fieldId .blob
  | bytesBounded fieldId data maxlen =>
    exact h.boundedFixlen ht (blobPayload data) fieldId maxlen _ _ .blob
  | unsignedArray fieldId values => exact h.writeUnsignedArray ht fieldId values
  | signedArray fieldId values => exact h.writeSignedArray ht fieldId values
  | sizedArray w fieldId values cap =>
    have harray : writeSizedArray t.outlet w fieldId values cap=
        SofaBuffers.arrayWriter t.outlet w fieldId values cap := by cases w <;> rfl
    rw [Call.run,harray]
    exact h.arrayWriter ht w fieldId values cap
  | boolArray fieldId values => exact h.writeBoolArray ht fieldId values
  | boolArrayBounded fieldId values cap => exact h.writeBoolArrayBounded ht fieldId values cap
  | float32Array fieldId values =>
    exact h.writeFloatArray ht fieldId values .fp32 (Native.packF32_length narrow) (by omega)
      (Native.packF32Array_eq narrow values) none
  | float32ArrayBounded fieldId values cap =>
    exact h.writeFloatArray ht fieldId values .fp32 (Native.packF32_length narrow) (by omega)
      (Native.packF32Array_eq narrow values) cap
  | float32ArrayBits fieldId payload count =>
    refine h.writeFloat32ArrayBits ht fieldId payload fun c hcount => ?_
    subst hcount
    exact hc
  | float64Array fieldId values =>
    exact h.writeFloatArray ht fieldId values .fp64 Native.packF64_length (by omega)
      (Native.packF64Array_eq values) none
  | float64ArrayBounded fieldId values cap =>
    exact h.writeFloatArray ht fieldId values .fp64 Native.packF64_length (by omega)
      (Native.packF64Array_eq values) cap
  | sequenceBeginLazy fieldId => exact h.writeSequenceBeginLazy fieldId
  | sequenceEnd => exact h.writeSequenceEnd ht
  | sequenceEndKeep => exact h.writeSequenceEndKeep ht

end Calls

end SofaBuffers
