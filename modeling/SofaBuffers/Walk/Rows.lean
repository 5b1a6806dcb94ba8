import SofaBuffers.Walk.Reads

/-!
# A table row's values on the bytes left

Storing the value a row names is the row's plan, and so is everything that
comes before it: the arrival of a one-of option and the declared bound.
-/

set_option autoImplicit false

namespace SofaBuffers

open Resumable Dec

variable {V : Type}

/-- The row takes a value of this shape. -/
def Entry.Takes (e : Entry) (p : Pending) : Prop := e.mismatch p.tag.1 p.tag.2=false ∧ p.Announced

/-- Settling a bound at most takes the cap off. -/
theorem settled_eq {p q : Pending} {declared : Option ℕ} (hs : settled declared p=.ok q) :
    q=p ∨ q=p.real := by
  rw [settled.eq_def] at hs
  cases declared with
  | none => cases hs; exact Or.inl rfl
  | some most =>
    dsimp only at hs
    generalize hr : p.real=r at hs
    cases r with
    | fixlen | varray | farray =>
      dsimp only at hs
      split at hs
      · cases hs
      · cases hs
        exact Or.inr rfl
    | scalar | limit | discard => cases hs

/-- A settled value is still one a header can announce. -/
theorem settled_announced {p q : Pending} (h : p.Announced) {declared : Option ℕ}
    (hs : settled declared p=.ok q) : q.Announced := by
  rcases settled_eq hs with rfl | rfl
  · exact h
  · exact h.real

/-- A row takes a value whether or not a cap parks it. -/
theorem Entry.Takes.real {e : Entry} {p : Pending} (h : e.Takes p) : e.Takes p.real :=
  ⟨by cases p <;> exact h.1,h.2.real⟩

/-- A row takes a value once its bound is settled. -/
theorem Entry.Takes.settled {e : Entry} {p q : Pending} (h : e.Takes p) {declared : Option ℕ}
    (hs : settled declared p=.ok q) : e.Takes q := by
  rcases settled_eq hs with rfl | rfl
  · exact h
  · exact h.real

/-- A bound is refused for the message's sake, or the source's. -/
theorem settled_cls {declared : Option ℕ} {p : Pending} {e : Exn} (h : settled declared p=.error e) :
    e.cls≠.incomplete := by
  rw [settled.eq_def] at h
  cases declared with
  | none => cases h
  | some most =>
    dsimp only at h
    generalize p.real=q at h
    cases q with
    | fixlen | varray | farray =>
      dsimp only at h
      split at h
      · cases h
        simp [Exn.cls]
      · cases h
    | scalar | limit | discard =>
      cases h
      simp [Exn.cls]

/-- The change does not miss bytes. -/
def Effect.Firm (f : Effect V) : Prop := ∀ s s' e, f s=(s',some e) → e.cls≠.incomplete

/-- Firm changes in order are firm. -/
theorem Effect.Firm.andThen {f g : Effect V} (hf : f.Firm) (hg : g.Firm) : (f.andThen g).Firm := by
  intro s s' e h
  rw [Effect.andThen] at h
  cases hs : f s with
  | mk t why =>
    rw [hs] at h
    cases why with
    | none => exact hg _ _ _ h
    | some why =>
      cases h
      exact hf _ _ _ hs

/-- A list of firm changes is firm. -/
theorem firm_all {fs : List (Effect V)} (hf : ∀ f ∈ fs, f.Firm) : (Effect.all fs).Firm := by
  induction fs with
  | nil => intro s s' e h; cases h
  | cons f fs ih =>
    exact (hf f List.mem_cons_self).andThen (ih fun g hg => hf g (List.mem_cons_of_mem _ hg))

/-- A quiet change is firm. -/
theorem Effect.Quiet.firm {f : Effect V} (h : f.Quiet) : f.Firm := fun s s' e he => (h s s' e he).2

/-- Copying a default into a buffer is firm. -/
theorem firm_resetInto (c : Config V) (slot : ℕ) (payload : List UInt8) :
    (resetInto c slot payload).Firm := by
  intro s s' e h
  rw [resetInto] at h
  dsimp only at h
  split at h
  · cases hw : writable "a declared default" (s.obj slot) with
    | error why =>
      rw [hw] at h
      cases h
      rw [writable_error hw]
      decide
    | ok view =>
      rw [hw] at h
      dsimp only at h
      split at h
      · cases h
        simp [Exn.cls]
      · split at h
        · cases h
          simp [Exn.cls]
        · exact (quiet_copyInto view payload _ _ _ h).2
  · cases h
    simp [Exn.cls]

/-- The arrival of a one-of option is firm. -/
theorem firm_arrive (c : Config V) (e : Entry) : (arrive c e).Firm := by
  have hreset : (resetOption c e).Firm := by
    refine Effect.Firm.andThen (firm_all fun f hf => ?_) ((firm_all fun f hf => ?_).andThen
      (firm_all fun f hf => ?_))
    · obtain ⟨x,_,rfl⟩ := List.mem_map.mp hf
      exact (quiet_putWord _ _ _).firm
    · obtain ⟨x,_,rfl⟩ := List.mem_map.mp hf
      exact (quiet_putObj _ _ _).firm
    · obtain ⟨x,_,rfl⟩ := List.mem_map.mp hf
      exact firm_resetInto _ _ _
  intro s s' why h
  cases hw : e.whichAt with
  | none =>
    rw [arrive.eq_def,hw] at h
    cases h
  | some w =>
    rw [arrive.eq_def,hw] at h
    dsimp only at h
    split at h
    · split at h
      · exact (quiet_putWord _ _ _ _ _ _ h).2
      · exact (hreset.andThen (quiet_putWord _ _ _).firm) _ _ _ h
    · cases h
      simp [Exn.cls]

section Rows

variable {c : Config V} {e : Entry} {d : Dec V} {p : Pending}

/-- The declared bound settles what is still pending. -/
theorem settleBound_run (hq : d.pending=some p) (declared : Option ℕ) :
    settleBound declared d=
      match settled declared p with
      | .ok q => .ok () {d with pending := some q}
      | .error why => .error why d := by
  rw [settleBound.eq_def,settled.eq_def]
  cases declared with
  | none =>
    dsimp only
    rw [←hq]
    rfl
  | some most =>
    dsimp only
    rw [run_get_bind,hq]
    dsimp only
    cases p.real with
    | fixlen st n =>
      dsimp only
      split <;> rfl
    | varray signed n =>
      dsimp only
      split <;> rfl
    | farray st n size =>
      dsimp only
      split <;> rfl
    | scalar | limit | discard => rfl

/-- The value of a string or blob row is stored by its plan. -/
theorem mappedObject_run (hd : d.Filled) (hp : d.pos ≤ d.n) (hq : d.pending=some p) :
    ReadEnds ((mappedObject c e >>= fun got => perform (countArrival c e got)) d) d
      (objectPlan c e d.store p).1 ((objectPlan c e d.store p).2.read c d.store d.rest) := by
  rw [mappedObject,bind_assoc,run_get_bind,hq,objectPlan.eq_def]
  dsimp only
  by_cases hi : e.into
  · rw [if_pos hi,if_pos hi]
    cases hr : p.real with
    | fixlen st got =>
      dsimp only
      have hslot : (getObj c e.slot : DecM V Obj) {d with pending := some (.fixlen st got)}=
          if e.slot < c.nobjects then .ok (d.store.obj e.slot) {d with pending := some (.fixlen st got)}
          else .error .index {d with pending := some (.fixlen st got)} := by
        rw [getObj]
        split <;> rfl
      rw [bind_assoc,setPending_bind,bind_assoc]
      by_cases hn : e.slot < c.nobjects
      · rw [if_pos hn] at hslot ⊢
        rw [run_bind_ok hslot]
        by_cases hb : e.kind=.bytes
        · rw [if_pos hb,if_pos hb,bind_assoc]
          exact (reads_blobInto (d:={d with pending := some (.fixlen st got)}) hd hp rfl _ _ _
            (quiet_countArrival c e got)).of_start
        · rw [if_neg hb,if_neg hb,bind_assoc]
          exact (reads_stringInto (d:={d with pending := some (.fixlen st got)}) hd hp rfl _ _ _
            (quiet_countArrival c e got)).of_start
      · rw [if_neg hn] at hslot ⊢
        rw [run_bind_error hslot]
        exact readEnds_refused (by intro h; cases h)
    | scalar | varray | farray | limit | discard => exact readEnds_refused (by intro h; cases h)
  · rw [if_neg hi,if_neg hi]
    cases p with
    | limit msg q => exact readEnds_bad (k:=d.keep) (by intro h; cases h) hq
    | fixlen st size =>
      dsimp only
      by_cases hb : e.kind=.bytes
      · rw [if_pos hb,if_pos hb]
        have h := reads_payload (c:=c) (n:=size) (k:=fun data =>
          (Effect.putObj c e.slot (.blob data)).andThen (countArrival c e 1)) hd hp hq
          fun _ => (quiet_putObj _ _ _).andThen (quiet_countArrival _ _ _)
        simpa only [perform_andThen,bind_assoc,pure_bind] using h
      · rw [if_neg hb,if_neg hb]
        have h := reads_text (c:=c) (n:=size) (k:=fun text =>
          (Effect.putObj c e.slot (.text text)).andThen (countArrival c e 1)) hd hp hq
          fun _ => (quiet_putObj _ _ _).andThen (quiet_countArrival _ _ _)
        simp only [withText_andThen]
        simpa only [perform_andThen,bind_assoc,pure_bind] using h
    | scalar | varray | farray | discard => exact readEnds_bad (k:=d.keep) (by intro h; cases h) hq

/-- A float array row takes elements of the width it stores. -/
theorem Entry.Takes.width {st : FixlenSubtype} {count size : ℕ} (h : e.Takes (.farray st count size))
    (hk : e.kind.isArray) : (if e.kind=.arrayFloat32 then 4 else 8)=size := by
  obtain ⟨hm,hz⟩ := h
  cases hkind : e.kind <;> rw [hkind] at hk <;> try cases hk
  all_goals
    cases st <;> first
      | cases hz; done
      | (simp [Entry.mismatch,Entry.wt,Entry.st,hkind,Kind.tag,Pending.tag] at hm; done)
      | (cases hz; rfl)

/-- The elements of an array row are stored by its plan. -/
theorem mappedArray_run (hd : d.Filled) (hp : d.pos ≤ d.n) (hq : d.pending=some p) (ht : e.Takes p)
    (hk : e.kind.isArray) :
    ReadEnds ((mappedArray c e >>= fun got => perform (countArrival c e got)) d) d p
      ((mappedArrayPlan c e p).read c d.store d.rest) := by
  rw [mappedArray,bind_assoc,run_get_bind,hq,mappedArrayPlan.eq_def]
  dsimp only
  rw [bind_assoc,arm_bind]
  have hcount := fun got => quiet_countArrival c e got
  cases p with
  | varray signed got =>
    dsimp only
    cases e.kind with
    | arrayUnsigned =>
      simp only [bind_assoc,pure_bind]
      refine reads_elements hd hp hq (some .unsignedWords) fun xs s rest => ?_
      exact (readEnds_of (d:={d with store := s}) (hcount got) rest).of_start
    | arraySigned =>
      simp only [bind_assoc,pure_bind]
      refine reads_elements hd hp hq (some .signedWords) fun xs s rest => ?_
      exact (readEnds_of (d:={d with store := s}) (hcount got) rest).of_start
    | arrayBoolean =>
      simp only [bind_assoc,pure_bind]
      refine reads_elements hd hp hq (some .unsignedWords) fun xs s rest => ?_
      exact (readEnds_stored (d:={d with store := s}) (quiet_normaliseBooleans c got e.slot)
        (hcount got) _ rest).of_start
    | unsigned | signed | boolean | float32 | float64 | string | bytes | arrayFloat32
    | arrayFloat64 | sequence => exact readEnds_bad (by intro h; cases h) hq
  | farray st got size =>
    have hw := ht.width hk
    dsimp only
    rw [hw,Plan.span,farrayNbytes]
    by_cases hs : sysMaxsize < got*size
    · rw [if_pos hs,if_pos hs]
      exact readEnds_more hq
    · have h := spanExact_run (d:={d with keep := d.pos}) hd hp (got*size)
      have hrest : Dec.rest {d with keep := d.pos}=d.rest := rfl
      rw [hrest] at h
      rw [if_neg hs,if_neg hs,Plan.read]
      simp only [bind_assoc,pure_bind]
      by_cases hl : d.rest.length < got*size
      · rw [if_pos hl] at h ⊢
        rw [run_bind_error h]
        exact readEnds_more hq
      · rw [if_neg hl] at h ⊢
        rw [run_bind_ok h,storeFarray,←unpackFarrayInto_span hd (by omega)]
        exact readEnds_stored (quiet_unpackFarrayInto _ _ _ _ _ _ _ _ _) (hcount got) _ _
  | scalar | fixlen | limit | discard => exact readEnds_bad (by intro h; cases h) hq

/-- A store that may be refused, counted when it was not. -/
theorem guarded_count {b : Prop} [Decidable b] (why : Exn) (f : Effect V) (g : ℕ → Effect V) :
    ((if b then throw why else perform f >>= fun _ => pure 1) >>= fun got =>
      perform (g got) : DecM V Unit)=perform ((if b then Effect.raise why else f).andThen (g 1)) := by
  by_cases hb : b
  · rw [if_pos hb,if_pos hb]
    rfl
  · rw [if_neg hb,if_neg hb,perform_count]

/-- A row's value is stored by its plan, once its bound is settled. -/
theorem mappedKind_run (hd : d.Filled) (hp : d.pos ≤ d.n) (hq : d.pending=some p) (ht : e.Takes p) :
    ReadEnds ((mappedKind c e >>= fun got => perform (countArrival c e got)) d) d
      (mappedPlan c e d.store p).1 ((mappedPlan c e d.store p).2.read c d.store d.rest) := by
  have hcount := quiet_countArrival c e 1
  have hdecode : (Effect.raise (.decode "value outside declared width") : Effect V).Quiet :=
    quiet_raise (by simp [Exn.cls])
  have hobject := mappedObject_run (c:=c) (e:=e) hd hp hq
  have harray := mappedArray_run (c:=c) hd hp hq ht
  rw [mappedKind.eq_def,mappedPlan.eq_def]
  cases hk : e.kind with
  | unsigned =>
    dsimp only
    rw [bind_assoc]
    simp only [guarded_count]
    refine reads_scalar hd hq fun raw => Effect.Quiet.andThen ?_ hcount
    split
    · exact hdecode
    · exact quiet_put _ _ _ _
  | signed =>
    dsimp only
    rw [bind_assoc]
    simp only [guarded_count]
    refine reads_scalar hd hq fun raw => Effect.Quiet.andThen ?_ hcount
    split
    · exact hdecode
    · exact quiet_put _ _ _ _
  | boolean =>
    have h := reads_scalar (c:=c) hd hq (k:=fun raw =>
      (Effect.putWord c e.slot (if raw≠0 then 1 else 0)).andThen (countArrival c e 1))
      fun raw => (quiet_putWord _ _ _).andThen hcount
    simpa only [perform_andThen,bind_assoc,pure_bind] using h
  | float64 =>
    have h := reads_payload (c:=c) (n:=8) (k:=fun data =>
      (Effect.putWord c e.slot (unpackF64 data)).andThen (countArrival c e 1)) hd hp hq
      fun data => (quiet_putWord _ _ _).andThen hcount
    simpa only [perform_andThen,bind_assoc,pure_bind] using h
  | float32 =>
    have h := reads_payload (c:=c) (n:=4) (k:=fun data =>
      (Effect.putWord c e.slot (unpackF32 structF32 data)).andThen (countArrival c e 1)) hd hp hq
      fun data => (quiet_putWord _ _ _).andThen hcount
    simpa only [perform_andThen,bind_assoc,pure_bind] using h
  | string | bytes => exact hobject
  | sequence => exact readEnds_bad (k:=d.keep) (by intro h; cases h) hq
  | arrayUnsigned | arraySigned | arrayBoolean | arrayFloat32 | arrayFloat64 =>
    exact harray (by rw [hk]; rfl)

/-- A row's value is stored by its plan. -/
theorem mappedField_run (hd : d.Filled) (hp : d.pos ≤ d.n) (hq : d.pending=some p) (ht : e.Takes p)
    (v : Option V) (id : ℕ) :
    ReadEnds (mappedField c e d) d (prepare c v id (.mapped e) p d.store).2.1
      ((prepare c v id (.mapped e) p d.store).2.2.read c (prepare c v id (.mapped e) p d.store).1
        d.rest) := by
  rw [prepare,mappedField]
  cases ha : arrive c e d.store with
  | mk s why =>
    cases why with
    | some why =>
      rw [run_bind_error (perform_error ha)]
      exact (readEnds_bad (d:={d with store := s}) (k:=d.keep) (firm_arrive _ _ _ _ _ ha) hq).of_start
    | none =>
      rw [run_bind_ok (perform_ok ha)]
      have hs := settleBound_run (d:={d with store := s}) hq e.declared
      dsimp only
      cases hset : settled e.declared p with
      | error why =>
        rw [hset] at hs
        rw [run_bind_error hs]
        exact (readEnds_bad (d:={d with store := s}) (k:=d.keep) (settled_cls hset) hq).of_start
      | ok q =>
        rw [hset] at hs
        rw [run_bind_ok hs]
        exact (mappedKind_run (d:={d with pending := some q, store := s}) hd hp rfl
          (ht.settled hset)).of_start

end Rows

end SofaBuffers
