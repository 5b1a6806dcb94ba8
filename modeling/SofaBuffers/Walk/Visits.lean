import SofaBuffers.Walk.Reads

/-!
# A handler's values on the bytes left

The value reads that end in a typed hook or in a buffer a begin hook answered
with are their plans.
-/

set_option autoImplicit false

namespace SofaBuffers

open Resumable Dec

variable {V : Type}


section Visits

variable {c : Config V} {v : V} {fid : ℕ} {d : Dec V} {p : Pending}

/-- The destination hook of a fixlen field is asked. -/
theorem fixlenDestination_run (st : FixlenSubtype) (size : ℕ) :
    fixlenDestination c v fid st size d=
      .ok (fixlenOffer c v fid st size).2
        {d with store := (fixlenOffer c v fid st size).1.foldl Store.call d.store} := by
  rw [fixlenDestination.eq_def,fixlenOffer.eq_def]
  cases st <;> cases (c.hooks v).onStringBegin <;> cases (c.hooks v).onBlobBegin <;> rfl

/-- A fixlen field is read by its plan. -/
theorem visitFixlen_run (hd : d.Filled) (hp : d.pos ≤ d.n) (hq : d.pending=some p)
    {st : FixlenSubtype} {size : ℕ} (hreal : p.real=.fixlen st size) :
    ReadEnds (visitFixlen c v fid p d) d
      (fixlenPlan c v fid p st size (fixlenOffer c v fid st size).2).1
      ((fixlenPlan c v fid p st size (fixlenOffer c v fid st size).2).2.read c
        ((fixlenOffer c v fid st size).1.foldl Store.call d.store) d.rest) := by
  rw [visitFixlen,hreal]
  dsimp only
  rw [run_bind_ok (fixlenDestination_run st size)]
  generalize (fixlenOffer c v fid st size).1.foldl Store.call d.store=s
  cases (fixlenOffer c v fid st size).2 with
  | some dst =>
    dsimp only [fixlenPlan]
    rw [setPending_bind,hreal]
    by_cases hst : st=.string
    · rw [if_pos hst,if_pos hst]
      exact (reads_string (d:={d with pending := some (.fixlen st size), store := s}) hd hp rfl _ _ _
        ).of_start
    · rw [if_neg hst,if_neg hst]
      exact (reads_blob (d:={d with pending := some (.fixlen st size), store := s}) hd hp rfl _ _ _
        ).of_start
  | none =>
    cases p with
    | limit msg q => exact (readEnds_bad (d:={d with store := s}) (by simp [Exn.cls]) hq).of_start
    | fixlen st' size' =>
      cases hreal
      cases st with
      | string =>
        exact (reads_text (d:={d with store := s}) hd hp hq fun _ => quiet_deliver _ _ _ _).of_start
      | blob | fp32 | fp64 =>
        exact (reads_payload (d:={d with store := s}) hd hp hq fun _ => quiet_deliver _ _ _ _).of_start
    | scalar | varray | farray | discard => cases hreal

/-- The array hook is asked. -/
theorem arrayAnswer_run (t : WireType) (count : ℕ) :
    arrayAnswer c v fid t count d=
      .ok (arrayOffer c v fid t count).2
        {d with store := (arrayOffer c v fid t count).1.foldl Store.call d.store} := by
  rw [arrayAnswer,arrayOffer]
  cases (c.hooks v).onArrayBegin <;> rfl

/-- The handler's own buffer is filled by its plan. -/
theorem varintsInto_run (hd : d.Filled) (hp : d.pos ≤ d.n) (hq : d.pending=some p) (dst : Dst)
    (count : ℕ) (zigzag : Bool) (lo hi : Option ℤ) :
    ReadEnds (varintsInto c dst count zigzag lo hi {d with keep := d.pos}) d p
      (match arrayView dst zigzag lo hi count with
      | .error e => .bad e d.store
      | .ok view => (Plan.elements count (.of lo hi zigzag) zigzag (some (.buffer view,0))
          fun _ => .done).read c d.store d.rest) := by
  have hbad : ∀ why : Exn, why.cls≠.incomplete →
      ReadEnds (.error why {d with keep := d.pos}) d p (.bad why d.store) :=
    fun why hw => readEnds_bad hw hq
  rw [varintsInto,arrayView]
  cases hw : writable "on_array_begin" (.buffer dst) with
  | error e => exact hbad e (by rw [writable_error hw]; decide)
  | ok view =>
    rw [ofExcept,pure_bind]
    dsimp only
    by_cases h1 : ¬(view.itemsize=1 ∨ view.itemsize=2 ∨ view.itemsize=4 ∨ view.itemsize=8)
    · rw [if_pos h1,if_pos h1]
      exact hbad _ (by simp [Exn.cls])
    rw [if_neg h1,if_neg h1]
    by_cases h2 : view.itemsize≠8 ∧ !widthFits view.itemsize zigzag lo hi
    · rw [if_pos h2,if_pos h2]
      exact hbad _ (by simp [Exn.cls])
    rw [if_neg h2,if_neg h2]
    by_cases h3 : view.nbytes < count*view.itemsize
    · rw [if_pos h3,if_pos h3]
      exact hbad _ (by simp [Exn.cls])
    rw [if_neg h3,if_neg h3]
    exact reads_elements hd hp hq (some (.buffer view)) fun xs s rest => ⟨d.pos,rfl⟩

/-- An integer array is read by its plan. -/
theorem visitVarints_run (hd : d.Filled) (hp : d.pos ≤ d.n) (hq : d.pending=some p) (t : WireType)
    (count : ℕ) (zigzag : Bool) :
    ReadEnds (visitVarints c v fid t p count zigzag d) d
      (arrayPlan c v fid p count zigzag (arrayOffer c v fid t count).2).1
      ((arrayPlan c v fid p count zigzag (arrayOffer c v fid t count).2).2.read c
        ((arrayOffer c v fid t count).1.foldl Store.call d.store) d.rest) := by
  rw [visitVarints,run_bind_ok (arrayAnswer_run t count)]
  generalize (arrayOffer c v fid t count).1.foldl Store.call d.store=s
  obtain ⟨dst,lo,hi⟩ := (arrayOffer c v fid t count).2
  cases dst with
  | none =>
    have hread : ∀ q : Pending, ReadEnds ((readVarints c count lo hi zigzag none 0 >>= fun out =>
        setPending none >>= fun _ =>
          perform (.deliver c v fid (if zigzag then .signedArray out else .unsignedArray out)))
        {d with pending := some q, store := s, keep := d.pos}) d q
        ((Plan.elements count (.of lo hi zigzag) zigzag none fun out => .deliver c v fid
          (if zigzag then .signedArray out else .unsignedArray out)).read c s d.rest) := by
      intro q
      refine ReadEnds.of_start (q:=some q) (s:=s) (reads_elements
        (d:={d with pending := some q, store := s}) hd hp rfl none fun xs s' rest => ?_)
      exact (readEnds_of (d:={d with store := s'}) (quiet_deliver _ _ _ _) rest).of_start
    cases p with
    | limit msg q => exact (readEnds_bad (d:={d with store := s}) (by simp [Exn.cls]) hq).of_start
    | scalar | fixlen | varray | farray | discard => exact hread _
  | some dst =>
    have hread : ReadEnds (varintsInto c dst count zigzag lo hi
        {d with pending := some p.real, store := s, keep := d.pos}) d p.real
        (match arrayView dst zigzag lo hi count with
        | .error e => .bad e s
        | .ok view => (Plan.elements count (.of lo hi zigzag) zigzag (some (.buffer view,0))
            fun _ => .done).read c s d.rest) :=
      (varintsInto_run (d:={d with pending := some p.real, store := s}) hd hp rfl _ _ _ _ _
        ).of_start
    rw [arrayPlan]
    cases hv : arrayView dst zigzag lo hi count with
    | error e =>
      rw [hv] at hread
      cases p <;> exact hread
    | ok view =>
      rw [hv] at hread
      cases p <;> exact hread

/-- The raw payload of an fp32 array is handed over by its plan. -/
theorem visitFarrayBits_run (hd : d.Filled) (hp : d.pos ≤ d.n) (hq : d.pending=some p)
    {st : FixlenSubtype} {count : ℕ} (hreal : p.real=.farray st count 4) :
    ReadEnds (visitFarrayBits c v fid p d) d (farrayBitsPlan c v fid p count 4).1
      ((farrayBitsPlan c v fid p count 4).2.read c d.store d.rest) := by
  cases p with
  | limit msg q => exact readEnds_bad (k:=d.keep) (by simp [Exn.cls]) hq
  | farray st' count' size =>
    cases hreal
    refine reads_span hd hp hq (k:=fun span => .deliver c v fid (.float32ArrayBits count
      ((span.1.drop span.2).take (count*4)))) (fun _ => quiet_deliver _ _ _ _) fun hl => ?_
    have hn := restFrom_length hd d.pos
    have hin : d.pos+count*4 ≤ d.n := by
      rw [←rest] at hn
      omega
    dsimp only
    rw [slice_eq hin,List.take_take,Nat.min_self]
  | scalar | fixlen | varray | discard => cases hreal

/-- The doubles of a fixlen array are delivered by its plan. -/
theorem takeFarrayValues_run (hd : d.Filled) (hp : d.pos ≤ d.n) (hq : d.pending=some p)
    {st : FixlenSubtype} {count width : ℕ} (hreal : p.real=.farray st count width)
    (hw : width=4 ∨ width=8) :
    ReadEnds ((takeFarrayValues p width >>= fun values => perform (.deliver c v fid
        (if width=4 then .float32Array values else .float64Array values))) d) d
      (farrayPlan c v fid p count width width none).1
      ((farrayPlan c v fid p count width width none).2.read c d.store d.rest) := by
  cases p with
  | limit msg q => exact readEnds_bad (k:=d.keep) (by simp [Exn.cls]) hq
  | farray st' count' size =>
    cases hreal
    rw [takeFarrayValues,bind_assoc]
    refine reads_span hd hp hq (k:=fun span => .deliver c v fid
      (if width=4 then .float32Array (if width=4 then unpackF32Array structF32 span.1 count span.2
          else unpackF64Array span.1 count span.2)
        else .float64Array (if width=4 then unpackF32Array structF32 span.1 count span.2
          else unpackF64Array span.1 count span.2)))
      (fun _ => quiet_deliver _ _ _ _) fun hl => ?_
    have he := elements_span hd hl (show 0+count ≤ count by omega)
    rw [Nat.zero_mul,Nat.add_zero] at he
    dsimp only
    rw [farrayDelivery]
    rcases hw with rfl | rfl
    · rw [if_pos rfl,if_pos rfl,if_pos rfl,unpackF32Array,he,unpackF32Array]
    · rw [if_neg (by decide),if_neg (by decide),if_neg (by decide),unpackF64Array,he,unpackF64Array]
  | scalar | fixlen | varray | discard => cases hreal

/-- The handler's own buffer is filled with doubles by its plan. -/
theorem farrayInto_run (hd : d.Filled) (hp : d.pos ≤ d.n) (hq : d.pending=some p) (dst : Dst)
    (count width : ℕ) :
    ReadEnds (farrayInto c dst count width width d) d p
      (match farrayView dst count with
      | .error e => .bad e d.store
      | .ok view => (Plan.span count width (storeFarray c (.buffer view) 0 count width)).read c
          d.store d.rest) := by
  have hbad : ∀ why : Exn, why.cls≠.incomplete → ReadEnds (.error why d) d p (.bad why d.store) :=
    fun why hw => readEnds_bad (k:=d.keep) hw hq
  rw [farrayInto,farrayView]
  cases hw : writable "on_float_array_begin" (.buffer dst) with
  | error e => exact hbad e (by rw [writable_error hw]; decide)
  | ok view =>
    rw [ofExcept,pure_bind]
    dsimp only
    by_cases h1 : view.itemsize≠8
    · rw [if_pos h1,if_pos h1]
      exact hbad _ (by simp [Exn.cls])
    rw [if_neg h1,if_neg h1]
    by_cases h2 : view.nbytes < count*8
    · rw [if_pos h2,if_pos h2]
      exact hbad _ (by simp [Exn.cls])
    rw [if_neg h2,if_neg h2]
    have h := reads_farray (c:=c) hd hp hq (.buffer view) 0 count width quiet_done
    simpa only [Effect.andThen_done] using h

/-- A fixlen array is filled in or delivered by its plan. -/
theorem visitDoubles_run (hd : d.Filled) (hp : d.pos ≤ d.n) (hq : d.pending=some p)
    {st : FixlenSubtype} {count width : ℕ} (hreal : p.real=.farray st count width)
    (hw : width=4 ∨ width=8) :
    ReadEnds ((visitFarrayInto c v fid p width >>= fun filled => if filled then pure ()
        else takeFarrayValues p width >>= fun values => perform (.deliver c v fid
          (if width=4 then .float32Array values else .float64Array values))) d) d
      (farrayPlan c v fid p count width width (farrayOffer c v fid width count).2).1
      ((farrayPlan c v fid p count width width (farrayOffer c v fid width count).2).2.read c
        ((farrayOffer c v fid width count).1.foldl Store.call d.store) d.rest) := by
  rw [visitFarrayInto,farrayOffer,hreal]
  cases (c.hooks v).onFloatArrayBegin with
  | none => exact takeFarrayValues_run hd hp hq hreal hw
  | some begin =>
    dsimp only
    cases begin fid (if width=4 then .fp32 else .fp64) count with
    | none =>
      exact (takeFarrayValues_run (d:={d with store := d.store.call _}) hd hp hq hreal hw).of_start
    | some dst =>
      have h := farrayInto_run (c:=c) (p:=.farray st count width)
        (d:={d with
          pending := some (.farray st count width)
          store := d.store.call (.floatArrayBegin v fid (if width=4 then .fp32 else .fp64) count)})
        hd hp rfl dst count width
      rw [farrayPlan,hreal]
      show ReadEnds (((farrayInto c dst count width width >>= fun _ => pure true) >>= _)
        {d with
          pending := some (.farray st count width)
          store := d.store.call (.floatArrayBegin v fid (if width=4 then .fp32 else .fp64) count)})
        d _ _
      simp only [bind_assoc,pure_bind,if_true,bind_pure_unit]
      cases hv : farrayView dst count with
      | error e =>
        rw [hv] at h
        exact h.of_start
      | ok view =>
        rw [hv] at h
        exact h.of_start

/-- A fixlen array is read by its plan. -/
theorem visitFarray_run (hd : d.Filled) (hp : d.pos ≤ d.n) (hq : d.pending=some p) (hz : p.Announced)
    {st : FixlenSubtype} {count size : ℕ} (hreal : p.real=.farray st count size) :
    ReadEnds (visitFarray c v fid p d) d (visitFarrayPlan c v fid p st count size).2.1
      ((visitFarrayPlan c v fid p st count size).2.2.read c
        ((visitFarrayPlan c v fid p st count size).1.foldl Store.call d.store) d.rest) := by
  have hz := hz.real
  rw [hreal] at hz
  rw [visitFarray,hreal,visitFarrayPlan]
  cases st with
  | fp32 =>
    cases hz
    dsimp only
    rw [if_pos rfl]
    by_cases hb : (c.hooks v).wantsF32ArrayBits
    · rw [if_pos hb,if_pos hb]
      exact visitFarrayBits_run hd hp hq hreal
    · rw [if_neg hb,if_neg hb]
      exact visitDoubles_run hd hp hq hreal (Or.inl rfl)
  | fp64 =>
    cases hz
    exact visitDoubles_run hd hp hq hreal (Or.inr rfl)
  | string | blob => cases hz

/-- A value is read for a handler by its plan. -/
theorem visitValue_run (hd : d.Filled) (hp : d.pos ≤ d.n) (hq : d.pending=some p) (hz : p.Announced)
    (t : WireType) :
    ReadEnds (visitValue c v t d) {d with curWtypeResume := t} (visitPlan c v d.curId t p).2.1
      ((visitPlan c v d.curId t p).2.2.read c
        ((visitPlan c v d.curId t p).1.foldl Store.call d.store) d.rest) := by
  rw [visitValue,run_modify_bind,run_get_bind]
  have hcur : Dec.curId {d with curWtypeResume := t}=d.curId := rfl
  have hstore : Dec.store {d with curWtypeResume := t}=d.store := rfl
  have hrest : Dec.rest {d with curWtypeResume := t}=d.rest := rfl
  rw [←hcur,←hstore,←hrest]
  have hd : Dec.Filled {d with curWtypeResume := t} := hd
  have hp : Dec.pos {d with curWtypeResume := t} ≤ Dec.n {d with curWtypeResume := t} := hp
  have hq : Dec.pending {d with curWtypeResume := t}=some p := hq
  generalize ({d with curWtypeResume := t} : Dec V)=d at hd hp hq ⊢
  rw [hq]
  have hbad : ReadEnds (.error .index d) d p (.bad .index d.store) := readEnds_bad (k:=d.keep) (by simp [Exn.cls]) hq
  cases t with
  | unsigned =>
    exact reads_scalar hd hq (k:=fun raw => .deliver c v d.curId (.unsigned raw))
      fun _ => quiet_deliver _ _ _ _
  | signed =>
    exact reads_scalar hd hq (k:=fun raw => .deliver c v d.curId (.signed (Zigzag.decode raw)))
      fun _ => quiet_deliver _ _ _ _
  | fixlen =>
    rw [visitPlan.eq_def]
    dsimp only
    cases hreal : p.real with
    | fixlen st size => exact visitFixlen_run hd hp hq hreal
    | scalar | varray | farray | limit | discard =>
      rw [visitFixlen,hreal]
      exact hbad
  | arrayUnsigned | arraySigned =>
    rw [visitPlan.eq_def]
    dsimp only
    cases p.real with
    | varray signed count => exact visitVarints_run hd hp hq _ _ _
    | scalar | fixlen | farray | limit | discard => exact hbad
  | arrayFixlen | sequenceStart | sequenceEnd =>
    rw [visitPlan.eq_def]
    dsimp only
    cases hreal : p.real with
    | farray st count size => exact visitFarray_run hd hp hq hz hreal
    | scalar | fixlen | varray | limit | discard =>
      rw [visitFarray,hreal]
      exact hbad

end Visits

end SofaBuffers
