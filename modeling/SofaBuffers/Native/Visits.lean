import SofaBuffers.Native.Rows

/-!
# A handler's values in the compiled decoder

The compiled decoder hands a value to the typed hook of its wire type, or fills the buffer a begin
hook answers with, casting what it is told to machine words. Where the casts keep the answers the
value comes to what it comes to in the interpreted engine.
-/

set_option autoImplicit false

namespace SofaBuffers

open Resumable
open Dec

variable {V : Type}

namespace Native

namespace Decoder

/-- A Python integer as a `Py_ssize_t`. -/
def asSsize (x : ℤ) : Except Exn ℤ := if -2^63 ≤ x ∧ x < 2^63 then .ok x else .error .overflow

/-- Ask the handler for the declared count or length (`_schema_bound`). -/
def schemaBound (c : Config V) (v : V) (fid : ℕ) : DecM V Unit := do
  match (c.hooks v).onSchemaBound with
  | none => pure ()
  | some bound =>
    let ask (n : ℕ) (wt : WireType) (sub : Option FixlenSubtype) : DecM V Unit := do
      perform (.call (.bound v fid n wt sub))
      let declared ← ofExcept (asSsize (bound fid n wt sub))
      settleBound (if declared < 0 then none else some declared.toNat)
    match (← get).pending.map Pending.real with
    | some (.fixlen st n) => if st=.fp32 ∨ st=.fp64 then pure () else ask n .fixlen (some st)
    | some (.varray signed n) => ask n (if signed then .arraySigned else .arrayUnsigned) none
    | some (.farray st n _) => ask n .arrayFixlen (some st)
    | _ => pure ()

/-- The fixlen branch of `_visit_value`. -/
def visitFixlen (c : Config V) (v : V) (fid : ℕ) (pending : Pending) : DecM V Unit := do
  match pending.real with
  | .fixlen .fp32 _ =>
    if (c.hooks v).wantsF32Bits then
      let bits ← float32Bits
      perform (.deliver c v fid (.float32Bits bits))
    else
      let x ← float32
      perform (.deliver c v fid (.float32 x))
  | .fixlen .fp64 _ =>
    let x ← float64
    perform (.deliver c v fid (.float64 x))
  | .fixlen st size =>
    match ← fixlenDestination c v fid st size with
    | some dst =>
      setPending (some pending.real)
      if st=.string then takeStringInto (.buffer dst) size "on_string_begin"
      else takeBlobInto (.buffer dst) size "on_blob_begin"
    | none =>
      if st=.string then
        let text ← string
        perform (.deliver c v fid (.string text))
      else
        let data ← bytes
        perform (.deliver c v fid (.bytes data))
  | _ => throw .assertion

/-- Hand the payload of an fp32 array to the handler raw (`_visit_farray_bits`). -/
def visitFarrayBits (c : Config V) (v : V) (fid : ℕ) : DecM V Unit := do
  match (← get).pending with
  | some (.limit msg _) => throw (.limit msg)
  | some (.farray _ count elemSize) =>
    let p ← takeFarrayPtr count elemSize
    perform (.deliver c v fid (.float32ArrayBits count p))
  | _ => throw .assertion

/-- Fill the buffer the handler answered with, a double for each element. -/
def farrayInto (dst : Dst) (count elemSize width : ℕ) : DecM V Unit := do
  let view ← ofExcept (writable "on_float_array_begin returned a destination that is not a writable, contiguous buffer" (.buffer dst))
  let slots := view.nbytes/8
  if view.itemsize≠8 then
    throw (.argument "on_float_array_begin's destination must hold 8-byte items; a Python float is a double, and so is every value written here")
  else if view.nbytes < count*8 then
    throw (.argument
      s!"on_float_array_begin returned {slots} slots for an array of {count}")
  else
    let p ← takeFarrayPtr count elemSize
    perform (storeDoubles (.buffer view) 0 (farrayValues count width p))

/-- Offer the elements of a fixlen array a destination (`_visit_farray_into`). -/
def visitFarrayInto (c : Config V) (v : V) (fid : ℕ) (pending : Pending) (width : ℕ) :
    DecM V Bool := do
  match (c.hooks v).onFloatArrayBegin,pending.real with
  | none,_ => pure false
  | some begin,.farray _ count elemSize =>
    let st : FixlenSubtype := if width=4 then .fp32 else .fp64
    perform (.call (.floatArrayBegin v fid st count))
    match begin fid st count with
    | none => pure false
    | some dst =>
      setPending (some pending.real)
      farrayInto dst count elemSize width
      pure true
  | some _,_ => throw .assertion

/-- The fixlen array branch of `_visit_value`. -/
def visitFarray (c : Config V) (v : V) (fid : ℕ) (pending : Pending) : DecM V Unit := do
  match pending.real with
  | .farray .fp32 .. =>
    if (c.hooks v).wantsF32ArrayBits then visitFarrayBits c v fid
    else if ← visitFarrayInto c v fid pending 4 then pure ()
    else
      let values ← readFarray .fp32 4
      perform (.deliver c v fid (.float32Array values))
  | .farray .. =>
    if ← visitFarrayInto c v fid pending 8 then pure ()
    else
      let values ← readFarray .fp64 8
      perform (.deliver c v fid (.float64Array values))
  | _ => throw .assertion

/-- Hand the current field's value to the handler's typed hook, by the wire type of its header
(`_visit_value`). -/
def visitValue (swar : Bool) (c : Config V) (v : V) (t : WireType) : DecM V Unit := do
  let d ← get
  let fid := d.curId
  match d.pending with
  | none => throw .assertion
  | some pending =>
    match t with
    | .unsigned =>
      let u ← unsigned swar
      perform (.deliver c v fid (.unsigned u.toNat))
    | .signed =>
      let x ← signed swar
      perform (.deliver c v fid (.signed x.toInt))
    | .fixlen => visitFixlen c v fid pending
    | .arrayUnsigned =>
      match pending.real with
      | .varray _ count => visitVarints swar c v fid t pending count false
      | _ => throw .assertion
    | .arraySigned =>
      match pending.real with
      | .varray _ count => visitVarints swar c v fid t pending count true
      | _ => throw .assertion
    | _ => visitFarray c v fid pending

/-- The answer to `on_array_begin` means the same to both engines: its sides are of the elements'
domain, and the casts keep them. -/
structure Agreed (zigzag : Bool) (dst : Option Dst) (lo hi : Option ℤ) : Prop where
  /-- The lower side. -/
  low : ∀ l, lo=some l → InDomain zigzag l
  /-- The upper side. -/
  high : ∀ h, hi=some h → InDomain zigzag h
  /-- The casts. -/
  kept : Kept zigzag (dst.map Dst.itemsize) lo hi

/-- What a handler answers means the same to both engines. -/
structure Plain (h : Hooks V) : Prop where
  /-- An answer to `on_array_begin`. -/
  array : ∀ begin, h.onArrayBegin=some begin → ∀ (fid : ℕ) (zigzag : Bool) (count : ℕ)
    (dst : Option Dst) (lo hi : Option ℤ),
    begin fid (varrayType zigzag) count=some (dst,lo,hi) → Agreed zigzag dst lo hi
  /-- An answer to `on_schema_bound`. -/
  bound : ∀ bound, h.onSchemaBound=some bound → ∀ (fid n : ℕ) (t : WireType)
    (st : Option FixlenSubtype), -2^63 ≤ bound fid n t st ∧ bound fid n t st < 2^63

section Arrays

variable {c : Config V} {v : V} {fid count : ℕ} {zigzag : Bool} {lo hi : Option ℤ} {b : Dst}
variable {dst : Option Dst} {d : Dec V} {p : Pending}

/-- Sides that are kept can be cast. -/
theorem agreed_castable (h : Agreed zigzag (some b) lo hi) : Castable lo (wordHi hi) := by
  obtain ⟨hlo,hhi,hkept⟩ := h
  rw [Kept.eq_def] at hkept
  cases zigzag with
  | false =>
    refine ⟨fun l hl => ?_,fun h hh => ?_⟩
    · have hdom : 0 ≤ l ∧ l < 2^64 := hlo l hl
      dsimp only [Option.map] at hkept
      split at hkept
      · have hzero := hkept.1 l hl
        omega
      · have hlt := hkept.1 l hl
        omega
    · obtain ⟨hh,hlt⟩ := wordHi_some.mp hh
      have hdom : 0 ≤ h ∧ h < 2^64 := hhi h hh
      exact hdom
  | true =>
    refine ⟨fun l hl => hlo l hl,fun h hh => ?_⟩
    obtain ⟨hh,hlt⟩ := wordHi_some.mp hh
    have hpos : 0 ≤ h := by
      dsimp only [Option.map] at hkept
      split at hkept
      · rcases hkept with ⟨-,hnone⟩ | ⟨h',hsome,hpos⟩
        · rw [hnone] at hh
          cases hh
        · rw [hsome] at hh
          cases hh
          exact hpos
      · exact hkept.1 h hh
    omega

/-- Sides that are kept lose nothing where the items can be filled. -/
theorem agreed_faithful (h : Agreed zigzag dst lo hi) (hsize : ∀ b, dst=some b →
    b.itemsize=1 ∨ b.itemsize=2 ∨ b.itemsize=4 ∨ b.itemsize=8) :
    Faithful zigzag (dst.map Dst.itemsize) lo hi := by
  obtain ⟨hlo,hhi,hkept⟩ := h
  have hslot : ∀ size, dst.map Dst.itemsize=some size → size=1 ∨ size=2 ∨ size=4 ∨ size=8 := by
    intro size hs
    obtain ⟨b,hb,rfl⟩ := Option.map_eq_some_iff.mp hs
    exact hsize b hb
  cases zigzag with
  | false => exact (faithful_unsigned hslot hlo hhi).mpr hkept
  | true => exact (faithful_signed hslot hlo hhi).mpr hkept

/-- An element that fits the items is stored alike whatever their sign. -/
theorem like_signed {i : ℕ} {x : ℤ} (hx : (itemRange zigzag b.itemsize).1 ≤ x ∧
    x ≤ (itemRange zigzag b.itemsize).2) :
    (Sink.put c (.buffer b) i x).Like (Sink.put c (.buffer {b with signed := zigzag}) i x) := by
  rw [Sink.put,Sink.put]
  dsimp only
  by_cases hroom : (i+1)*b.itemsize ≤ b.nbytes
  · rw [if_pos hroom,if_pos hroom,if_pos hx]
    split
    · exact .refl _
    · exact .raise (show Exn.value.cls.Foreign from trivial) _
  · rw [if_neg hroom,if_neg hroom]
    exact .refl _

/-- Elements in order that fit the items are stored alike whatever their sign. -/
theorem like_fillSigned {xs : List ℤ} (hx : ∀ x ∈ xs, (itemRange zigzag b.itemsize).1 ≤ x ∧
    x ≤ (itemRange zigzag b.itemsize).2) (i : ℕ) :
    (fillFrom c (some (.buffer b,0)) i xs).Like
      (fillFrom c (some (.buffer {b with signed := zigzag},0)) i xs) := by
  induction xs generalizing i with
  | nil => exact .refl _
  | cons x xs ih =>
    rw [fillFrom,fillFrom]
    exact (like_signed (hx x List.mem_cons_self)).andThen
      (ih (fun y hy => hx y (List.mem_cons_of_mem x hy)) (i+1))

/-- Elements that fit the items are read into them alike whatever their sign. -/
theorem like_buffered {bound : Bound} (hfit : ∀ raw < 2^64, bound.outside (element zigzag raw)=false →
    (itemRange zigzag b.itemsize).1 ≤ element zigzag raw ∧
      element zigzag raw ≤ (itemRange zigzag b.itemsize).2) :
    Plan.Like c (.elements count bound zigzag (some (.buffer b,0)) fun _ => .done)
      (.elements count bound zigzag (some (.buffer {b with signed := zigzag},0))
        fun _ => .done) := by
  intro s xs
  have hx : ∀ x ∈ (scan bound zigzag count xs).1, (itemRange zigzag b.itemsize).1 ≤ x ∧
      x ≤ (itemRange zigzag b.itemsize).2 := by
    obtain ⟨raws,heq,-,hall⟩ := scan_raws bound zigzag count xs
    intro x hx
    rw [heq] at hx
    obtain ⟨raw,hmem,rfl⟩ := List.mem_map.mp hx
    exact hfit raw (hall raw hmem).1 (hall raw hmem).2
  have hlike := like_fillSigned (c:=c) hx 0 s
  obtain ⟨ys,t,hscan⟩ : ∃ ys t, scan bound zigzag count xs=(ys,t) := ⟨_,_,rfl⟩
  rw [hscan] at hlike
  dsimp only at hlike
  generalize hf : fillFrom c (some (.buffer b,0)) 0 ys s=r at hlike
  generalize hg : fillFrom c (some (.buffer {b with signed := zigzag},0)) 0 ys s=r' at hlike
  cases hlike with
  | done σ =>
    rw [read_scanned hscan hf,read_scanned hscan hg]
    exact .refl _
  | raised hw σ =>
    rw [read_unstored hscan hf,read_unstored hscan hg]
    exact .bad hw σ
  | foreign hx σ =>
    rw [read_unstored hscan hf]
    exact .foreign hx σ _

/-- The two engines judge the elements alike where the casts keep the sides. -/
theorem cast_outside {slot : Option ℕ} (h : Faithful zigzag slot lo hi)
    (hf : Slotted zigzag slot lo hi) : ∀ raw < 2^64,
    (castBound zigzag slot.isSome lo (wordHi hi)).outside (element zigzag raw)=
      (Bound.of lo hi zigzag).outside (element zigzag raw) := by
  intro raw hraw
  have hiff := (h.outside hf raw hraw).trans (SofaBuffers.outside_iff hraw).symm
  rwa [Bool.eq_iff_iff,←not_iff_not,Bool.not_eq_true,Bool.not_eq_true]

/-- The two engines judge the width of the items alike where the casts keep the sides. -/
theorem cast_fits (h : Faithful zigzag (some b.itemsize) lo hi) :
    (b.itemsize≠8 ∧ !widthFits b.itemsize zigzag (lo.isSome || (wordHi hi).isSome) (castLo lo)
      (castHi (wordHi hi))) ↔ (b.itemsize≠8 ∧ !SofaBuffers.widthFits b.itemsize zigzag lo hi) := by
  refine and_congr_right fun h8 => ?_
  have hsame := (h.fits b.itemsize rfl h8).trans widthFits_iff.symm
  rw [Bool.not_eq_true',Bool.not_eq_true',←Bool.not_eq_true,←Bool.not_eq_true,hsame]

/-- A buffer with room, of items the width fits, is filled as the interpreted engine fills it. -/
theorem fillVarints_buffered (swar : Bool) (ha : Agreed zigzag (some b) lo hi)
    (hsize : b.itemsize=1 ∨ b.itemsize=2 ∨ b.itemsize=4 ∨ b.itemsize=8)
    (hb : b.Holds b.itemsize count)
    (hfits : ¬(b.itemsize≠8 ∧ !widthFits b.itemsize zigzag (lo.isSome || (wordHi hi).isSome)
      (castLo lo) (castHi (wordHi hi))))
    (hd : d.Filled) (hp : d.pos ≤ d.n) (hq : d.pending=some p) :
    ReadLike (fillVarintsAt swar b b.itemsize count zigzag (lo.isSome || (wordHi hi).isSome)
        (castLo lo) (castHi (wordHi hi)) d) d p
      ((Plan.elements count (.of lo hi zigzag) zigzag (some (.buffer b,0))
        fun _ => .done).read c d.store d.rest) := by
  have hcast := agreed_castable ha
  have hfaithful := agreed_faithful ha (by intro b' hb; cases hb; exact hsize)
  have hword : ∀ h, wordHi hi=some h → h < 2^63 := fun h hh => (wordHi_some.mp hh).2
  have hslotted : Slotted zigzag (some b.itemsize) lo hi := by
    intro size hs h8
    cases hs
    have h := hfits
    rw [cast_fits hfaithful] at h
    exact widthFits_iff.mp (by simpa [h8] using h)
  have hitem := fun (raw : ℕ) (hraw : raw < 2^64) hin => castBound_item hsize hcast hword hfits hraw hin
  have hout : ∀ raw < 2^64, elementOutside zigzag (lo.isSome || (wordHi hi).isSome) (castLo lo)
      (castHi (wordHi hi)) (BitVec.ofNat 64 raw)=
      (castBound zigzag true lo (wordHi hi)).outside (element zigzag raw) :=
    fun raw hraw => elementOutside_cast hcast hword hraw
  have hsame : ∀ raw < 2^64, (castBound zigzag true lo (wordHi hi)).outside (element zigzag raw)=
      (Bound.of lo hi zigzag).outside (element zigzag raw) := cast_outside hfaithful hslotted
  have hholds : Dst.Holds {b with signed := zigzag} b.itemsize count := ⟨hb.1,rfl,hb.3⟩
  have hread := fillVarintsAt_reads swar c hholds (by omega) hout hitem hd hp hq
  have hscan : ∀ s xs, (Plan.elements count (castBound zigzag true lo (wordHi hi)) zigzag
      (some (.buffer {b with signed := zigzag},0)) fun _ => .done).read c s xs=
      (Plan.elements count (.of lo hi zigzag) zigzag (some (.buffer {b with signed := zigzag},0))
        fun _ => .done).read c s xs := by
    intro s xs
    rw [Plan.read,Plan.read,scan_congr hsame]
  rw [hscan] at hread
  refine .reads hread (like_buffered (fun raw hraw hin => hitem raw hraw ?_) d.store d.rest)
  exact (hsame raw hraw).trans hin

/-- The buffer of a handler is filled as the interpreted engine fills it. -/
theorem varintsInto_like (swar : Bool) (ha : Agreed zigzag (some b) lo hi) (hd : d.Filled)
    (hp : d.pos ≤ d.n) (hq : d.pending=some p) :
    ReadLike (varintsInto swar b count zigzag lo (wordHi hi) d) d p
      (match arrayView b zigzag lo hi count with
      | .error e => .bad e d.store
      | .ok view => (Plan.elements count (.of lo hi zigzag) zigzag (some (.buffer view,0))
          fun _ => .done).read c d.store d.rest) := by
  have hcast := agreed_castable ha
  obtain ⟨hlo,hhi⟩ := castable_run hcast
  have hbad : ∀ why why' : Exn, why.cls=.argument → why'.cls=.argument →
      ReadLike (.error why' d) d p (.bad why d.store) := fun why why' hw hw' =>
    .reads (readEnds_bad (k:=d.keep) (by rw [hw']; intro h; cases h) hq) (.bad (hw.trans hw'.symm) _)
  rw [varintsInto,arrayView,hlo,hhi,ofExcept,pure_bind,ofExcept,pure_bind]
  by_cases hw : b.writable
  · have hview : SofaBuffers.writable "on_array_begin" (.buffer b)=.ok b := if_pos hw
    rw [hview,ofExcept,pure_bind]
    dsimp only
    by_cases hsize : b.itemsize=1 ∨ b.itemsize=2 ∨ b.itemsize=4 ∨ b.itemsize=8
    · have hfaithful := agreed_faithful ha (by intro b' hb; cases hb; exact hsize)
      rw [if_neg (not_not.mpr hsize),if_neg (not_not.mpr hsize)]
      have hfits := cast_fits hfaithful
      by_cases hf : b.itemsize≠8 ∧ !SofaBuffers.widthFits b.itemsize zigzag lo hi
      · rw [if_pos (hfits.mpr hf),if_pos hf]
        exact hbad _ _ rfl rfl
      · rw [if_neg (fun h => hf (hfits.mp h)),if_neg hf]
        by_cases hroom : b.nbytes < count*b.itemsize
        · rw [if_pos hroom,if_pos hroom]
          exact hbad _ _ rfl rfl
        · rw [if_neg hroom,if_neg hroom]
          exact fillVarints_buffered swar ha hsize ⟨hw,rfl,Nat.le_of_not_lt hroom⟩
            (fun h => hf (hfits.mp h)) hd hp hq
    · rw [if_pos hsize,if_pos hsize]
      exact hbad _ _ rfl rfl
  · have hview : ∃ why, SofaBuffers.writable "on_array_begin" (.buffer b)=.error why ∧
        why.cls=.argument := by
      have h : SofaBuffers.writable "on_array_begin" (.buffer b)=.error _ := if_neg hw
      exact ⟨_,h,writable_error h⟩
    obtain ⟨why,hview,hcls⟩ := hview
    rw [hview]
    exact hbad _ _ hcls hcls

/-- An answer that leaves everything open means the same to both engines. -/
theorem agreed_open (zigzag : Bool) : Agreed zigzag none none none := by
  refine ⟨fun l hl => (by cases hl),fun h hh => (by cases hh),?_⟩
  cases zigzag with
  | true => trivial
  | false => exact ⟨fun l hl => (by cases hl),fun h hh => (by cases hh)⟩

/-- What the array hook answers means the same to both engines. -/
theorem offer_agreed (hh : Plain (c.hooks v))
    (hans : (arrayOffer c v fid (varrayType zigzag) count).2=(dst,lo,hi)) :
    Agreed zigzag dst lo hi := by
  rw [arrayOffer] at hans
  cases hbegin : (c.hooks v).onArrayBegin with
  | none =>
    rw [hbegin] at hans
    cases hans
    exact agreed_open zigzag
  | some begin =>
    rw [hbegin] at hans
    dsimp only at hans
    cases hanswer : begin fid (varrayType zigzag) count with
    | none =>
      rw [hanswer] at hans
      cases hans
      exact agreed_open zigzag
    | some answer =>
      obtain ⟨dst',lo',hi'⟩ := answer
      rw [hanswer] at hans
      cases hans
      exact hh.array begin hbegin fid zigzag count _ _ _ hanswer

/-- An integer array is handed over as the interpreted engine hands it over. -/
theorem visitVarints_like (swar : Bool) (hh : Plain (c.hooks v)) (hreal : p.real=.varray zigzag count)
    (hd : d.Filled) (hp : d.pos ≤ d.n) (hq : d.pending=some p) :
    ReadLike (visitVarints swar c v fid (varrayType zigzag) p count zigzag d) d
      (arrayPlan c v fid p count zigzag (arrayOffer c v fid (varrayType zigzag) count).2).1
      ((arrayPlan c v fid p count zigzag (arrayOffer c v fid (varrayType zigzag) count).2).2.read c
        ((arrayOffer c v fid (varrayType zigzag) count).1.foldl Store.call d.store) d.rest) := by
  obtain ⟨dst,lo,hi,hans⟩ : ∃ dst lo hi, (arrayOffer c v fid (varrayType zigzag) count).2=(dst,lo,hi) :=
    ⟨_,_,_,rfl⟩
  have ha := offer_agreed hh hans
  cases dst with
  | none =>
    have hlist : p.real=p → ReadLike (visitVarints swar c v fid (varrayType zigzag) p count zigzag d)
        d p.real ((arrayPlan c v fid p count zigzag (none,lo,hi)).2.read c
          ((arrayOffer c v fid (varrayType zigzag) count).1.foldl Store.call d.store) d.rest) := by
      intro hcap
      have h := visitVarints_cast swar hd hp hq hreal (fun _ => hcap) hans (show Suffices zigzag count none none from .list)
        (fun size hs => by cases hs) ha.low ha.high (fun h => by cases h)
      rw [castPlan_read (agreed_faithful ha (fun b hb => by cases hb)) hreal (fun _ => hcap) .list
        (fun size hs => by cases hs)] at h
      exact .reads h (.refl _)
    rw [hans]
    cases p with
    | limit msg q =>
      rw [visitVarints,run_bind_ok (arrayAnswer_run (varrayType zigzag) count),hans]
      generalize (arrayOffer c v fid (varrayType zigzag) count).1.foldl Store.call d.store=s
      exact .reads (readEnds_bad (d:={d with store := s}) (k:=d.keep) (by intro h; cases h) hq).of_start
        (.refl _)
    | scalar | fixlen | varray | farray | discard => exact hlist rfl
  | some b =>
    have hfill : ∀ s, ReadLike (varintsInto swar b count zigzag lo (wordHi hi)
        {d with pending := some p.real, store := s}) d p.real
        (match arrayView b zigzag lo hi count with
        | .error e => .bad e s
        | .ok view => (Plan.elements count (.of lo hi zigzag) zigzag (some (.buffer view,0))
            fun _ => .done).read c s d.rest) := fun s =>
      (varintsInto_like (d:={d with pending := some p.real, store := s}) swar ha hd hp rfl).of_start
    rw [visitVarints,run_bind_ok (arrayAnswer_run (varrayType zigzag) count),hans]
    generalize (arrayOffer c v fid (varrayType zigzag) count).1.foldl Store.call d.store=s
    have h := hfill s
    rw [arrayPlan]
    cases hv : arrayView b zigzag lo hi count with
    | error e =>
      rw [hv] at h
      cases p <;> exact h
    | ok view =>
      rw [hv] at h
      cases p <;> exact h

end Arrays

/-- How a value is read that the decoder would build, unless a cap parks it. -/
def capped (p : Pending) (pl : Plan V) : Plan V :=
  match p with
  | .limit msg _ => .refuse (.limit msg)
  | _ => pl

section Visits

variable {c : Config V} {v : V} {fid : ℕ} {d : Dec V} {p : Pending}

/-- A value that a cap parks is refused. -/
theorem capped_like {m : DecM V Unit} {pl : Plan V} {r : EStateM.Result Exn (Dec V) Unit}
    (hq : d.pending=some p)
    (hlimit : ∀ msg q, p=.limit msg q → r=.error (.limit msg) d)
    (hreads : p.real=p → r=m d ∧ ReadLike (m d) d p (pl.read c d.store d.rest)) :
    ReadLike r d p ((capped p pl).read c d.store d.rest) := by
  cases p with
  | limit msg q =>
    rw [hlimit msg q rfl]
    exact .reads (readEnds_bad (k:=d.keep) (by intro h; cases h) hq) (.refl _)
  | scalar | fixlen | varray | farray | discard =>
    obtain ⟨hr,hlike⟩ := hreads rfl
    rw [hr]
    exact hlike

/-- A payload is delivered as the interpreted engine delivers it. -/
theorem payload_like {st : FixlenSubtype} {got : ℕ} (hr : p.real=.fixlen st got) (size : ℕ → ℕ)
    (hsize : size got=got) {k : List UInt8 → Effect V} (hk : ∀ data, (k data).Quiet)
    (hd : d.Filled) (hp : d.pos ≤ d.n) (hq : d.pending=some p) :
    ReadLike ((payload st size >>= fun data => perform (k data)) d) d p
      ((capped p (.payload got k)).read c d.store d.rest) := by
  refine capped_like (m:=takeFixlenPtr got >>= fun data => perform (k data)) hq ?_ ?_
  · rintro msg q rfl
    rw [payload,bind_assoc,run_get_bind,hq]
    dsimp only
    rw [mismatch,bind_assoc,run_get_bind,hq]
    rfl
  · intro hreal
    rw [hreal] at hr
    subst hr
    refine ⟨?_,takeFixlenPtr_like hd hp hq (fun _ _ => .refl _) hk⟩
    rw [payload,bind_assoc,run_get_bind,hq]
    dsimp only
    rw [if_pos rfl,hsize]

/-- A fixlen field is handed over as the interpreted engine hands it over. -/
theorem visitFixlen_like {st : FixlenSubtype} {size : ℕ} (hreal : p.real=.fixlen st size)
    (ha : p.Announced) (hd : d.Filled) (hp : d.pos ≤ d.n) (hq : d.pending=some p) :
    ReadLike (visitFixlen c v fid p d) d
      (fixlenPlan c v fid p st size (fixlenOffer c v fid st size).2).1
      ((fixlenPlan c v fid p st size (fixlenOffer c v fid st size).2).2.read c
        ((fixlenOffer c v fid st size).1.foldl Store.call d.store) d.rest) := by
  have hz : Pending.Announced (.fixlen st size) := by rw [←hreal]; exact ha.real
  have hplan : fixlenPlan c v fid p st size none=
      (p,capped p (.payload size (fixlenDelivery c v fid st))) := by cases p <;> rfl
  rw [visitFixlen,hreal]
  cases st with
  | fp32 =>
    cases hz
    have hoffer : fixlenOffer c v fid .fp32 4=([],none) := by rw [fixlenOffer.eq_def]
    have h := payload_like (c:=c) (k:=fixlenDelivery c v fid .fp32) hreal (fun _ => 4) rfl
      (fun data => quiet_deliver _ _ _ _) hd hp hq
    rw [hoffer,hplan]
    dsimp only
    by_cases hb : (c.hooks v).wantsF32Bits
    · rw [if_pos hb,float32Bits,bind_assoc]
      have hform : (fun data => perform (fixlenDelivery c v fid .fp32 data) : _ → DecM V Unit)=
          fun data => pure (unpackU32 data) >>= fun bits =>
            perform (.deliver c v fid (.float32Bits bits)) := by
        funext data
        rw [pure_bind,fixlenDelivery,if_pos hb]
      rw [hform] at h
      exact h
    · rw [if_neg hb,float32,bind_assoc]
      have hform : (fun data => perform (fixlenDelivery c v fid .fp32 data) : _ → DecM V Unit)=
          fun data => pure (unpackF32 data) >>= fun x =>
            perform (.deliver c v fid (.float32 x)) := by
        funext data
        rw [pure_bind,fixlenDelivery,if_neg hb,unpackF32_eq]
      rw [hform] at h
      exact h
  | fp64 =>
    cases hz
    have hoffer : fixlenOffer c v fid .fp64 8=([],none) := by rw [fixlenOffer.eq_def]
    have h := payload_like (c:=c) (k:=fixlenDelivery c v fid .fp64) hreal (fun _ => 8) rfl
      (fun data => quiet_deliver _ _ _ _) hd hp hq
    rw [hoffer,hplan]
    dsimp only
    rw [float64,bind_assoc]
    exact h
  | string =>
    dsimp only
    rw [run_bind_ok (fixlenDestination_run .string size)]
    generalize (fixlenOffer c v fid .string size).1.foldl Store.call d.store=s
    cases (fixlenOffer c v fid .string size).2 with
    | some dst =>
      dsimp only [fixlenPlan]
      rw [setPending_bind,hreal,if_pos rfl,if_pos rfl]
      have h := takeStringInto_like (d:={d with pending := some (.fixlen .string size), store := s})
        (c:=c) hd hp rfl (.buffer dst) size "on_string_begin" (.refl .done) quiet_done
      simp only [perform_done,bind_pure_unit,Effect.andThen_done] at h
      exact h.of_start
    | none =>
      have h := payload_like (c:=c) (d:={d with store := s}) (k:=fixlenDelivery c v fid .string) hreal
        id rfl (fun data => quiet_withText fun _ => quiet_deliver _ _ _ _) hd hp hq
      rw [hplan]
      dsimp only
      rw [if_pos rfl,string,bind_assoc]
      have hform : (fun data => perform (fixlenDelivery c v fid .string data) : _ → DecM V Unit)=
          fun data => ofExcept (decodeText data) >>= fun text =>
            perform (.deliver c v fid (.string text)) := by
        funext data
        rw [fixlenDelivery,withText.eq_def,decodeText.eq_def]
        cases Utf8.decode data <;> rfl
      rw [hform] at h
      exact h.of_start
  | blob =>
    dsimp only
    rw [run_bind_ok (fixlenDestination_run .blob size)]
    generalize (fixlenOffer c v fid .blob size).1.foldl Store.call d.store=s
    cases (fixlenOffer c v fid .blob size).2 with
    | some dst =>
      dsimp only [fixlenPlan]
      rw [setPending_bind,hreal,if_neg (by decide),if_neg (by decide)]
      have h := takeBlobInto_like (d:={d with pending := some (.fixlen .blob size), store := s})
        (c:=c) hd hp rfl (.buffer dst) size "on_blob_begin" (.refl .done) quiet_done
      simp only [perform_done,bind_pure_unit,Effect.andThen_done] at h
      exact h.of_start
    | none =>
      have h := payload_like (c:=c) (d:={d with store := s}) (k:=fixlenDelivery c v fid .blob) hreal
        id rfl (fun data => quiet_deliver _ _ _ _) hd hp hq
      rw [hplan]
      dsimp only
      rw [if_neg (by decide)]
      exact h.of_start

/-- The payload of a fixlen array that is delivered is taken, unless a cap parks it. -/
theorem farray_like {st : FixlenSubtype} {count size : ℕ} (hr : p.real=.farray st count size)
    (hc : count ≤ arrayMax) (hs : size ≤ 8) {k k' : List UInt8 → Effect V}
    (hk : ∀ data, data.length=count*size → (k data).Like (k' data))
    (hquiet : ∀ data, (k' data).Quiet) {m : DecM V Unit}
    (hlimit : ∀ msg q, p=.limit msg q → m d=.error (.limit msg) d)
    (hm : p=.farray st count size → m d=(takeFarrayPtr count size >>= fun data =>
      perform (k' data)) d)
    (hd : d.Filled) (hp : d.pos ≤ d.n) (hq : d.pending=some p) :
    ReadLike (m d) d p ((capped p (.span count size k)).read c d.store d.rest) := by
  refine capped_like hq hlimit fun hreal => ⟨hm (hreal.symm.trans hr),?_⟩
  exact takeFarrayPtr_like hd hp hq hc hs hk hquiet

/-- The raw payload of an fp32 array is handed over as the interpreted engine hands it over. -/
theorem visitFarrayBits_like {st : FixlenSubtype} {count : ℕ} (hreal : p.real=.farray st count 4)
    (hc : count ≤ arrayMax) (hd : d.Filled) (hp : d.pos ≤ d.n) (hq : d.pending=some p) :
    ReadLike (visitFarrayBits c v fid d) d (farrayBitsPlan c v fid p count 4).1
      ((farrayBitsPlan c v fid p count 4).2.read c d.store d.rest) := by
  have hplan : farrayBitsPlan c v fid p count 4=(p,capped p (.span count 4 fun data =>
      .deliver c v fid (.float32ArrayBits count (data.take (count*4))))) := by cases p <;> rfl
  have hk : ∀ data : List UInt8, data.length=count*4 →
      (Effect.deliver c v fid (.float32ArrayBits count (data.take (count*4)))).Like
        (.deliver c v fid (.float32ArrayBits count data)) := by
    intro data hlen
    rw [List.take_of_length_le hlen.le]
    exact .refl _
  rw [hplan]
  refine farray_like hreal hc (by omega) hk (fun _ => quiet_deliver _ _ _ _) ?_ ?_ hd hp hq
  · rintro msg q rfl
    rw [visitFarrayBits,run_get_bind,hq]
    rfl
  · rintro rfl
    rw [visitFarrayBits,run_get_bind,hq]

/-- A list of doubles is delivered as the interpreted engine delivers it. -/
theorem readFarray_like {st : FixlenSubtype} {count width : ℕ} (hreal : p.real=.farray st count width)
    (hw : width=4 ∨ width=8) (hc : count ≤ arrayMax) (hd : d.Filled) (hp : d.pos ≤ d.n)
    (hq : d.pending=some p) :
    ReadLike ((readFarray st width >>= fun values => perform (.deliver c v fid
        (if width=4 then .float32Array values else .float64Array values))) d) d
      (farrayPlan c v fid p count width width none).1
      ((farrayPlan c v fid p count width width none).2.read c d.store d.rest) := by
  have hplan : farrayPlan c v fid p count width width none=
      (p,capped p (.span count width (farrayDelivery c v fid count width))) := by cases p <;> rfl
  have hk : ∀ data : List UInt8, data.length=count*width →
      (farrayDelivery c v fid count width data).Like (.deliver c v fid
        (if width=4 then .float32Array (farrayValues count width data)
          else .float64Array (farrayValues count width data))) := by
    intro data hlen
    rw [farrayDelivery,farrayValues_eq,Farray.values,unpackF32Array,unpackF64Array,List.drop_zero]
    rcases hw with rfl | rfl
    · rw [if_pos rfl,if_pos rfl,if_pos rfl]
      exact .refl _
    · rw [if_neg (by decide),if_neg (by decide),if_neg (by decide)]
      exact .refl _
  rw [hplan]
  refine farray_like hreal hc (by omega) hk (fun _ => quiet_deliver _ _ _ _) ?_ ?_ hd hp hq
  · rintro msg q rfl
    rw [readFarray,bind_assoc,run_get_bind,hq]
    dsimp only
    rw [mismatch,bind_assoc,run_get_bind,hq]
    rfl
  · rintro rfl
    rw [readFarray,bind_assoc,run_get_bind,hq]
    dsimp only
    rw [if_pos rfl,bind_assoc]
    simp only [pure_bind]

/-- The buffer of a handler is filled with doubles as the interpreted engine fills it. -/
theorem farrayInto_like {count width : ℕ} (hw : width=4 ∨ width=8) (hc : count ≤ arrayMax)
    (dst : Dst) (hd : d.Filled) (hp : d.pos ≤ d.n) (hq : d.pending=some p) :
    ReadLike (farrayInto dst count width width d) d p
      (match farrayView dst count with
      | .error e => .bad e d.store
      | .ok view => (Plan.span count width (storeFarray c (.buffer view) 0 count width)).read c
          d.store d.rest) := by
  have hbad : ∀ why why' : Exn, why.cls=.argument → why'.cls=.argument →
      ReadLike (.error why' d) d p (.bad why d.store) := fun why why' hw hw' =>
    .reads (readEnds_bad (k:=d.keep) (by rw [hw']; intro h; cases h) hq) (.bad (hw.trans hw'.symm) _)
  rw [farrayInto,farrayView]
  rcases writable_like "on_float_array_begin" "on_float_array_begin returned a destination that is not a writable, contiguous buffer"
    (.buffer dst) with ⟨view,-,hold,hnew⟩ | ⟨msg,hold,hnew⟩
  · rw [hold,hnew,ofExcept,pure_bind]
    dsimp only
    by_cases h1 : view.itemsize≠8
    · rw [if_pos h1,if_pos h1]
      exact hbad _ _ rfl rfl
    rw [if_neg h1,if_neg h1]
    by_cases h2 : view.nbytes < count*8
    · rw [if_pos h2,if_pos h2]
      exact hbad _ _ rfl rfl
    rw [if_neg h2,if_neg h2]
    have hfits : Farray.FitsIn c (.buffer view) (0+count) := by
      show (0+count)*8 ≤ view.nbytes
      omega
    exact takeFarrayPtr_like hd hp hq hc (by omega)
      (fun data _ => like_storeFarray hfits width data) fun _ => quiet_update _
  · rw [hold,hnew]
    exact hbad _ _ rfl rfl

/-- A fixlen array is filled in or delivered as the interpreted engine does it. -/
theorem visitDoubles_like {st : FixlenSubtype} {count width : ℕ}
    (hreal : p.real=.farray st count width) (hw : width=4 ∨ width=8) (hc : count ≤ arrayMax)
    (hd : d.Filled) (hp : d.pos ≤ d.n) (hq : d.pending=some p) :
    ReadLike ((visitFarrayInto c v fid p width >>= fun filled => if filled then pure ()
        else readFarray st width >>= fun values => perform (.deliver c v fid
          (if width=4 then .float32Array values else .float64Array values))) d) d
      (farrayPlan c v fid p count width width (farrayOffer c v fid width count).2).1
      ((farrayPlan c v fid p count width width (farrayOffer c v fid width count).2).2.read c
        ((farrayOffer c v fid width count).1.foldl Store.call d.store) d.rest) := by
  rw [visitFarrayInto.eq_def,farrayOffer,hreal]
  cases (c.hooks v).onFloatArrayBegin with
  | none => exact readFarray_like hreal hw hc hd hp hq
  | some begin =>
    dsimp only
    cases begin fid (if width=4 then .fp32 else .fp64) count with
    | none =>
      exact (readFarray_like (d:={d with store := d.store.call _}) hreal hw hc hd hp hq).of_start
    | some dst =>
      have h := farrayInto_like (c:=c) (p:=.farray st count width)
        (d:={d with
          pending := some (.farray st count width)
          store := d.store.call (.floatArrayBegin v fid (if width=4 then .fp32 else .fp64) count)})
        hw hc dst hd hp rfl
      rw [farrayPlan,hreal]
      show ReadLike (((farrayInto dst count width width >>= fun _ => pure true) >>= _)
        {d with
          pending := some (.farray st count width)
          store := d.store.call (.floatArrayBegin v fid (if width=4 then .fp32 else .fp64) count)})
        d _ _
      simp only [bind_assoc,pure_bind,if_true,bind_pure_unit]
      cases hv : farrayView dst count with
      | error e =>
        rw [hv] at h
        exact h.of_start
      | ok view =>
        rw [hv] at h
        exact h.of_start

/-- A fixlen array is handed over as the interpreted engine hands it over. -/
theorem visitFarray_like {st : FixlenSubtype} {count size : ℕ} (hreal : p.real=.farray st count size)
    (hz : p.Announced) (hc : count ≤ arrayMax) (hd : d.Filled) (hp : d.pos ≤ d.n)
    (hq : d.pending=some p) :
    ReadLike (visitFarray c v fid p d) d (visitFarrayPlan c v fid p st count size).2.1
      ((visitFarrayPlan c v fid p st count size).2.2.read c
        ((visitFarrayPlan c v fid p st count size).1.foldl Store.call d.store) d.rest) := by
  have hz := hz.real
  rw [hreal] at hz
  rw [visitFarray,hreal,visitFarrayPlan]
  cases st with
  | fp32 =>
    cases hz
    dsimp only
    rw [if_pos rfl]
    by_cases hb : (c.hooks v).wantsF32ArrayBits
    · rw [if_pos hb,if_pos hb]
      exact visitFarrayBits_like hreal hc hd hp hq
    · rw [if_neg hb,if_neg hb]
      exact visitDoubles_like hreal (Or.inl rfl) hc hd hp hq
  | fp64 =>
    cases hz
    exact visitDoubles_like hreal (Or.inr rfl) hc hd hp hq
  | string | blob => cases hz

/-- A value is handed over as the interpreted engine hands it over, where the answers of the handler
mean the same to both. -/
theorem visitValue_like (swar : Bool) (hh : Plain (c.hooks v)) (hs : p.Sound) (hd : d.Filled)
    (hp : d.pos ≤ d.n) (hq : d.pending=some p) :
    ReadLike (visitValue swar c v p.tag.1 d) d (visitPlan c v d.curId p.tag.1 p).2.1
      ((visitPlan c v d.curId p.tag.1 p).2.2.read c
        ((visitPlan c v d.curId p.tag.1 p).1.foldl Store.call d.store) d.rest) := by
  have ha := hs.announced
  have hc := hs.count
  obtain ⟨hreal,hshape⟩ := announced_shape ha
  rw [Pending.count.eq_def] at hc
  rw [visitValue,run_get_bind,hq]
  dsimp only
  rw [←hreal]
  rcases hshape with ⟨zigzag,hr⟩ | ⟨st,got,hr⟩ | ⟨zigzag,got,hr⟩ | ⟨st,got,size,hr⟩
  · have hone := hs.scalar zigzag hr
    subst hone
    cases zigzag with
    | false =>
      have h := takeScalar_like (c:=c) swar hd hp hq (k:=fun raw => .deliver c v d.curId (.unsigned raw))
        (g:=fun w => .deliver c v d.curId (.unsigned w.toNat)) (fun raw hraw => by
          rw [BitVec.toNat_ofNat,Nat.mod_eq_of_lt hraw]
          exact .refl _) fun _ => quiet_deliver _ _ _ _
      show ReadLike ((unsigned swar >>= fun u => perform (.deliver c v d.curId (.unsigned u.toNat))) d)
        d _ ((Plan.scalar fun raw => .deliver c v d.curId (.unsigned raw)).read c d.store d.rest)
      rw [unsigned,bind_assoc,run_get_bind,hq]
      exact h
    | true =>
      have h := takeScalar_like (c:=c) swar hd hp hq
        (k:=fun raw => .deliver c v d.curId (.signed (Zigzag.decode raw)))
        (g:=fun w => .deliver c v d.curId (.signed (zigzagDecode w).toInt)) (fun raw hraw => by
          rw [zigzagDecode_toInt hraw]
          exact .refl _) fun _ => quiet_deliver _ _ _ _
      show ReadLike ((signed swar >>= fun x => perform (.deliver c v d.curId (.signed x.toInt))) d)
        d _ ((Plan.scalar fun raw => .deliver c v d.curId (.signed (Zigzag.decode raw))).read c
          d.store d.rest)
      rw [signed,bind_assoc,run_get_bind,hq]
      dsimp only
      rw [bind_assoc]
      simp only [pure_bind]
      exact h
  · rw [hr,visitPlan.eq_def]
    dsimp only [Pending.tag]
    rw [hr]
    exact visitFixlen_like hr ha hd hp hq
  · rw [hr] at hc ⊢
    rw [visitPlan.eq_def]
    cases zigzag with
    | true =>
      dsimp only [Pending.tag]
      rw [hr]
      exact visitVarints_like swar hh hr hd hp hq
    | false =>
      dsimp only [Pending.tag]
      rw [hr]
      exact visitVarints_like swar hh hr hd hp hq
  · rw [hr] at hc ⊢
    rw [visitPlan.eq_def]
    dsimp only [Pending.tag]
    rw [hr]
    exact visitFarray_like hr ha hc hd hp hq

/-- The declared bound is asked for and settled as in the interpreted engine. -/
theorem schemaBound_eq (hh : Plain (c.hooks v)) (hs : p.Sound) (hq : d.pending=some p) (id : ℕ) :
    schemaBound c v id d=SofaBuffers.schemaBound c v id d := by
  rw [schemaBound.eq_def,SofaBuffers.schemaBound.eq_def]
  cases hbound : (c.hooks v).onSchemaBound with
  | none => rfl
  | some bound =>
    have hcast : ∀ n t st, asSsize (bound id n t st)=.ok (bound id n t st) := fun n t st =>
      if_pos (hh.bound bound hbound id n t st)
    dsimp only
    rw [run_get_bind,run_get_bind,hq]
    dsimp only [Option.map]
    obtain ⟨-,⟨zigzag,hr⟩ | ⟨st,got,hr⟩ | ⟨zigzag,got,hr⟩ | ⟨st,got,size,hr⟩⟩ :=
      announced_shape hs.announced
    · rw [hr]
    all_goals
      rw [hr]
      simp only [hcast,ofExcept,pure_bind]

end Visits

end Decoder

end Native

end SofaBuffers
