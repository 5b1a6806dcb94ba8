import SofaBuffers.Native.Mirror

/-!
# The compiled driver walks as the interpreted one

What the compiled driver does with a construct once its header is read, its loop over constructs,
and the push driver as a whole, each beside its counterpart in the interpreted decoder.
-/

set_option autoImplicit false

namespace SofaBuffers

open Resumable
open Dec

variable {V : Type}

namespace Native

/-- Both decoders were stopped by what is of one class and is not missing bytes, over one storage.
-/
structure Barred (why : Exn) (d : Dec V) (why' : Exn) (d' : Dec V) : Prop where
  /-- The two errors are of one class. -/
  cls : why.cls=why'.cls
  /-- The class of the errors is not that of missing bytes. -/
  firm : why.cls≠.incomplete
  /-- The two storages are the same. -/
  store : d.store=d'.store
  /-- No limit is kept yet. -/
  limit : d.limit=none ∧ d'.limit=none

/-- What stopped both in the middle of a scope stopped both walks. -/
theorem Barred.halted {c : Config V} {k : Compiled} {why why' : Exn} {d : Dec V} {s : Decoder V}
    (h : Barred why d why' s.toDec) : Halted c k why d why' s :=
  ⟨h.cls,h.store,h.limit,fun hw => absurd hw h.firm⟩

section Scopes

variable {c : Config V} {k : Compiled} {m : Bool} {d d' : Dec V}

/-- Both decoders change the storage. -/
theorem perform_level (h : Level m d d') {f g : Effect V} (hl : f.Like g) (hf : f.Firm) :
    Alongside Excused (fun _ e _ e' => Level m e e' ∧ ∃ σ, e={d with store := σ} ∧
      e'={d' with store := σ}) Barred (perform f d) (perform g d') := by
  have hlike := hl d.store
  have hlim : d'.limit=none := by
    cases h.akin
    exact h.limit
  have hsame : d'.store=d.store := by
    cases h.akin
    rfl
  rw [perform_run,perform_run,hsame]
  have hfirm := hf d.store
  generalize f d.store=r,g d.store=r' at hlike hfirm
  cases hlike with
  | done σ =>
    refine .ok ⟨?_,σ,rfl,rfl⟩
    cases h.akin
    exact ⟨.mk _ _ _ _ _ _,h.filled,h.pos,h.limit,h.kind,h.pending,h.mapped⟩
  | raised hw σ => exact .error ⟨hw,hfirm σ _ rfl,rfl,h.limit,hlim⟩
  | foreign hx σ r => exact .excused hx

/-- Both decoders go back to the handler a scope suspended. -/
theorem popVisitor_level (h : Level m d d') :
    Alongside Excused (fun _ e _ e' => Level m e e') Barred (popVisitor d) (popVisitor d') := by
  have hstack : d'.vstack=d.vstack := by
    cases h.akin
    rfl
  rw [popVisitor,run_get_bind,run_get_bind,hstack,h.bytes.2.2.2.2.1]
  rcases d.vstack with - | ⟨⟨outer,depth⟩,rest⟩
  · exact .ok h
  · dsimp only
    by_cases hdep : depth=d.depth
    · rw [if_pos hdep,if_pos hdep]
      refine .ok ?_
      cases h.akin
      exact ⟨.mk _ _ _ _ _ _,h.filled,h.pos,h.limit,h.kind,h.pending,h.mapped⟩
    · rw [if_neg hdep,if_neg hdep]
      exact .ok h

/-- A call on a handler is firm. -/
theorem firm_call (e : Event V) : (Effect.call e).Firm := by
  intro s s' why h
  cases h

/-- Both decoders close a scope the handler heard open. -/
theorem closeScope_level (h : Level m d d') :
    Alongside Excused (fun _ e _ e' => Level m e e') Barred (closeScope d) (closeScope d') := by
  have hvis : d'.visitor=d.visitor := by
    cases h.akin
    rfl
  rw [closeScope,run_get_bind,run_get_bind,hvis]
  cases d.visitor with
  | none => exact popVisitor_level h
  | some v =>
    refine (perform_level h (.refl _) (firm_call _)).bind fun _ e _ e' he => ?_
    exact popVisitor_level he.1

/-- Both decoders close a scope: the table that was current says whose it was. -/
theorem endSequence_level (h : Level m d d') :
    Alongside Excused (fun _ e b e' => Level b e e') Barred (SofaBuffers.endSequence d)
      (Decoder.endSequence m d') := by
  have hmap := h.mapped
  have hstack : d'.bstack=d.bstack := by
    cases h.akin
    rfl
  rw [SofaBuffers.endSequence,Decoder.endSequence,run_get_bind,run_get_bind,hstack]
  cases hb : d.bstack with
  | nil =>
    refine (closeScope_level h).onward fun _ e _ e' he => ⟨m,e',rfl,he⟩
  | cons outer rest =>
    have houter : Level outer.isSome {d with bmap := outer, bstack := rest}
        {d' with bmap := outer, bstack := rest} := by
      cases h.akin
      exact ⟨.mk _ _ _ _ _ _,h.filled,h.pos,h.limit,h.kind,h.pending,rfl⟩
    dsimp only
    rw [run_set_bind,run_set_bind,hmap]
    cases m with
    | true => exact .ok houter
    | false =>
      refine (closeScope_level houter).onward fun _ e _ e' he => ⟨outer.isSome,e',rfl,he⟩

/-- The compiled decoder suspends a table where the interpreted one has room for it. -/
theorem pushMap_level (h : Level m d d') (inner : Option ℕ) :
    Alongside Excused (fun _ e _ e' => Level inner.isSome e e') Barred (pushMap inner d)
      (Decoder.pushTable inner d') := by
  rw [pushMap,run_get_bind]
  by_cases hroom : d.bstack.length < maxDepth
  · rw [if_pos hroom]
    refine .ok ?_
    cases h.akin
    exact ⟨.mk _ _ _ _ _ _,h.filled,h.pos,h.limit,h.kind,h.pending,rfl⟩
  · rw [if_neg hroom]
    exact .excused (show Exn.index.cls.Foreign from trivial)

/-- The compiled decoder suspends a handler where the interpreted one has room for it. -/
theorem pushVisitor_level (h : Level m d d') (outer child : V) :
    Alongside Excused (fun _ e _ e' => Level m e e') Barred (pushVisitor outer child d)
      (Decoder.pushVisitor outer child d') := by
  rw [pushVisitor,run_get_bind]
  by_cases hroom : d.vstack.length < maxDepth
  · rw [if_pos hroom]
    refine .ok ?_
    cases h.akin
    exact ⟨.mk _ _ _ _ _ _,h.filled,h.pos,h.limit,h.kind,h.pending,h.mapped⟩
  · rw [if_neg hroom]
    exact .excused (show Exn.index.cls.Foreign from trivial)

/-- One more occurrence is counted alike, as long as a word holds the count. -/
theorem like_countOccurrence {b : BEntry} {e : Entry} (hs : Stands k b e) :
    (Walk.countOccurrence c e).Like (Decoder.countOccurrence b) := by
  intro σ
  rw [Walk.countOccurrence.eq_def,Decoder.countOccurrence,hs.countAt]
  cases e.countAt with
  | none => exact .refl _
  | some i =>
    dsimp only
    by_cases hi : i < c.nwords
    · rw [if_pos hi,Sink.put,if_pos hi]
      by_cases hlt : (σ.word i).toNat+1 < 2^64
      · rw [if_pos ⟨by omega,by omega⟩]
        have hw : BitVec.ofInt 64 (((σ.word i).toNat : ℤ)+1)=σ.word i+1 := by
          apply BitVec.eq_of_toNat_eq
          rw [BitVec.toNat_add,BitVec.toNat_ofInt,show (1 : BitVec 64).toNat=1 from rfl]
          omega
        rw [hw]
        exact .done _
      · rw [if_neg (by omega)]
        exact .foreign (show Exn.value.cls.Foreign from trivial) σ _
    · rw [if_neg hi]
      exact .foreign (show Exn.index.cls.Foreign from trivial) σ _

/-- Both decoders descend into a sequence a row names. -/
theorem startMapped_level (h : Level m d d') {b : BEntry} {e : Entry} (hs : Stands k b e) :
    Alongside Excused (fun _ e₁ b₁ e₂ => Level b₁ e₁ e₂) Barred (SofaBuffers.startMapped c e d)
      (Decoder.startMapped c k b d') := by
  rw [SofaBuffers.startMapped.eq_def,Decoder.startMapped]
  cases hchild : e.child with
  | none => exact .excused (show Exn.assertion.cls.Foreign from trivial)
  | some child =>
    dsimp only
    rw [hs.child,hchild]
    refine (perform_level h (Decoder.like_arrive hs) (firm_arrive c e)).bind fun _ e₁ _ e₂ h₁ => ?_
    refine (pushMap_level h₁.1 (some child)).bind fun _ e₁ _ e₂ h₂ => ?_
    rw [countOccurrence_eq]
    refine (perform_level h₂ (like_countOccurrence hs) (firm_countOccurrence c e)).onward ?_
    exact fun _ e₁ _ e₂ h₃ => ⟨true,e₂,rfl,h₃.1⟩

/-- Both decoders keep the enclosing table from matching. -/
theorem hideMap_level {kt : Option Compiled} (hk : kt.isSome=c.forest.isSome) (h : Level m d d') :
    Alongside Excused (fun _ e b e' => Level b e e') Barred (hideMap c d)
      (Decoder.hideTable kt m d') := by
  rw [hideMap,Decoder.hideTable,hk]
  cases c.forest.isSome with
  | true =>
    rw [if_pos rfl,if_pos rfl]
    exact (pushMap_level h none).onward fun _ e _ e' he => ⟨false,e',rfl,he⟩
  | false => exact .ok h

/-- Both decoders ask the handler about a sequence. -/
theorem sequenceAnswer_level (h : Level m d d') (v : V) (id : ℕ) :
    Alongside Excused (fun a e a' e' => a=a' ∧ Level m e e') Barred (sequenceAnswer c v id d)
      (sequenceAnswer c v id d') := by
  rw [sequenceAnswer.eq_def]
  cases (c.hooks v).onSequenceBegin with
  | none => exact .ok ⟨rfl,h⟩
  | some begin =>
    refine (perform_level h (.refl _) (firm_call _)).bind fun _ e _ e' he => ?_
    exact .ok ⟨rfl,he.1⟩

/-- Both decoders go on over another storage. -/
theorem Level.stored (h : Level m d d') (σ : Store V) :
    Level m {d with store := σ} {d' with store := σ} := by
  obtain ⟨ha,hd,hp,hl,hkind,hpend,hmap⟩ := h
  cases ha
  exact ⟨.mk _ _ _ _ _ _,hd,hp,hl,hkind,hpend,hmap⟩

/-- Both decoders go on over another storage, another value being pending. -/
theorem Level.offered (h : Level m d d') {q : Pending} (hq : q.Left) (σ : Store V) :
    Level m {d with pending := some q, store := σ} {d' with pending := some q, store := σ} := by
  obtain ⟨ha,hd,hp,hl,hkind,hpend,hmap⟩ := h
  cases ha
  exact ⟨.mk _ _ _ _ _ _,hd,hp,hl,hkind,(fun r hr => by cases hr; exact hq),hmap⟩

end Scopes

section Starts

variable {c : Config V} {k : Compiled} {kt : Option Compiled} {m : Bool} {d : Dec V}
variable {s : Decoder V} (swar : Bool)

/-- What both keep is handled alike, and what stops it stops both walks. -/
theorem within_halted {α β : Type} {R : α → Dec V → β → Dec V → Prop}
    {r : EStateM.Result Exn (Dec V) α} {m' : DecM V β}
    (h : Alongside Excused R Barred r (m' s.toDec)) :
    Alongside Excused (fun a e b s' => R a e b s'.toDec ∧ s'.curWtype=s.curWtype) (Halted c k) r
      (within m' s) :=
  (Alongside.within h).imp (fun _ _ _ _ h => ⟨h.1,h.2.1⟩) fun _ _ _ _ h => h.1.halted

/-- A method of what both keep that went well. -/
theorem within_ok {α : Type} {m' : DecM V α} {a : α} {e : Dec V} (h : m' s.toDec=.ok a e) :
    within m' s=.ok a {s with toDec := e} := by
  rw [within,h]

/-- A method of what both keep that raised. -/
theorem within_error {α : Type} {m' : DecM V α} {why : Exn} {e : Dec V}
    (h : m' s.toDec=.error why e) : within m' s=.error why {s with toDec := e} := by
  rw [within,h]

/-- Both decoders skip the sequence just opened, or suspend in it. -/
theorem skipResumable_level (h : Level m d s.toDec)
    (hin : d.skipDepth.isSome ∨ s.curWtype=some .sequenceStart) :
    Alongside Excused (fun _ e _ s' => Level m e s'.toDec) (Halted c k)
      (SofaBuffers.skipResumable c d) (Decoder.skipResumable swar c s) := by
  refine onIncomplete_halted (skip_level swar h hin) (fun _ _ _ _ h => h.cls) ?_
    fun _ _ _ _ h _ => h.halted
  intro why e why' s' hstop hw
  refine ⟨hstop.cls,hstop.store,hstop.limit,fun _ => ?_⟩
  have hlevel := hstop.waits hw
  obtain ⟨e',wt,row⟩ := s'
  cases hlevel.akin
  exact ⟨.mk _ _ _ _ _ _,hlevel.limit,hlevel.pending,fun hk => by cases hk⟩

/-- Both decoders ask the handler about a sequence no row names, and do as it answers. -/
theorem startVisited_level (hk : kt.isSome=c.forest.isSome) (h : Level m d s.toDec)
    (hwt : s.curWtype=some .sequenceStart) (v : V) (id : ℕ) :
    Alongside Excused (fun _ e b s' => Level b e s'.toDec) (Halted c k)
      (SofaBuffers.startVisited c v id d) (Decoder.startVisited swar c kt m v id s) := by
  rw [SofaBuffers.startVisited,Decoder.startVisited]
  refine (within_halted (sequenceAnswer_level h v id)).bind fun a e a' s' he => ?_
  obtain ⟨⟨rfl,hlevel⟩,hwt'⟩ := he
  cases a with
  | skip =>
    refine (skipResumable_level swar hlevel (Or.inr (hwt'.trans hwt))).onward ?_
    exact fun _ e _ s' he => ⟨m,s',rfl,he⟩
  | stay => exact (within_halted (hideMap_level hk hlevel)).imp (fun _ _ _ _ h => h.1) fun _ _ _ _ h => h
  | descend child =>
    refine (within_halted (hideMap_level hk hlevel)).bind fun _ e b s' he => ?_
    refine (within_halted (pushVisitor_level he.1 v child)).onward ?_
    exact fun _ e _ s' he => ⟨b,s',rfl,he.1⟩

/-- Both decoders offer a value to the handler, and do as it answers. -/
theorem offerField_level (h : Level m d s.toDec) {p : Pending} (hq : d.pending=some p)
    (hp : p.Sound) (hid : d.curId=s.curId) (hwt : s.curWtype=some p.tag.1) {v : V}
    (hv : Decoder.Plain (c.hooks v)) :
    Alongside Excused (fun _ e _ s' => Level m e s'.toDec) (Halted c k)
      (SofaBuffers.offerField c v p.tag.1 d) (Decoder.offerField swar c v p.tag.1 s) := by
  have hq' : s.pending=some p := h.bytes.2.2.2.2.2.trans hq
  have hstore : s.store=d.store := by
    obtain ⟨d',wt,row⟩ := s
    cases h.akin
    rfl
  have hlim : s.limit=none := by
    obtain ⟨d',wt,row⟩ := s
    cases h.akin
    exact h.limit
  have hoffer : Walk.fieldOffer c v s.curId p=Walk.fieldOffer c v d.curId p := by rw [hid]
  have hbound : Walk.boundOffer c v s.curId p=Walk.boundOffer c v d.curId p := by rw [hid]
  rw [SofaBuffers.offerField,Decoder.offerField,run_bind_ok (fieldAnswer_run c v hq),
    run_bind_ok (within_ok (fieldAnswer_run c v hq')),hstore,hoffer]
  generalize (Walk.fieldOffer c v d.curId p).1.foldl Store.call d.store=σ
  have hlevel := h.stored σ
  cases (Walk.fieldOffer c v d.curId p).2 with
  | false =>
    rw [if_neg (by decide),if_neg (by decide)]
    exact .ok hlevel
  | true =>
    rw [if_pos rfl,if_pos rfl,run_get_bind,run_get_bind]
    have hone := schemaBound_run c v (d:={d with store := σ}) hq hp.announced d.curId
    have hother : Decoder.schemaBound c v s.curId {s.toDec with store := σ}=_ :=
      (Decoder.schemaBound_eq (c:=c) (d:={s.toDec with store := σ}) hv hp hq' s.curId).trans
        (schemaBound_run c v (d:={s.toDec with store := σ}) hq' hp.announced s.curId)
    dsimp only at hone hother ⊢
    rw [hbound] at hother
    cases hs : settled (Walk.boundOffer c v d.curId p).2 p with
    | error why =>
      rw [hs] at hone hother
      rw [run_bind_error hone,run_bind_error (within_error hother)]
      exact .error ⟨rfl,rfl,⟨h.limit,hlim⟩,fun hw => absurd hw (settled_cls hs)⟩
    | ok q =>
      rw [hs] at hone hother
      rw [run_bind_ok hone,run_bind_ok (within_ok hother)]
      have hsound : q.Sound := by
        rcases settled_eq hs with rfl | rfl
        · exact hp
        · exact hp.real
      have htag : p.tag.1=q.tag.1 := by
        rcases settled_eq hs with rfl | rfl
        · rfl
        · rw [tag_real hp.announced]
      rw [htag] at hwt ⊢
      exact visit_level (s:={s with toDec := _}) swar (h.offered (Or.inl hsound) _) rfl hsound hid
        hwt hv (fun _ _ => rfl) fun _ _ => rfl

end Starts

/-- The rows the two tables have for an id, and for its tag, are one row. -/
inductive Named (c : Config V) (k : Compiled) : Option Entry → Option (ℕ × BEntry) → Prop
  /-- No row has the id. -/
  | none : Named c k none none
  /-- One row has the id. -/
  | some {e : Entry} {ei : ℕ} {b : BEntry} (hb : k.bent[ei]?=some b) (hl : Laid c k b e) :
      Named c k (some e) (some (ei,b))

section Rows

variable {c : Config V} {k : Compiled} {kt : Option Compiled} {m : Bool} {d : Dec V}
variable {s : Decoder V}

/-- The current tables have one row for an id. -/
theorem rowOf_named (hf : Fits c kt) {tab : Option ℕ} (hm : tab.isSome=m) (id : ℕ) :
    Named c (kt.getD {}) (tab.bind fun r => c.lookup r id)
      (Decoder.rowOf (kt.getD {}) m tab id) := by
  rw [Decoder.rowOf,←hm]
  cases tab with
  | none => exact .none
  | some r =>
    have hfound := hf.found r id
    have hworded := hf.worded r id
    have hroom := hf.room r id
    simp only [Option.isSome_some,Option.bind_some,if_true]
    generalize c.lookup r id=e at hfound hworded hroom ⊢
    cases hfound with
    | none hl =>
      rw [hl]
      exact .none
    | some hl hb hs =>
      rw [hl,Option.bind_some,hb]
      exact .some hb ⟨hs,hworded _ rfl,hroom _ rfl⟩

/-- A row and the laid out one contradict the same tags. -/
theorem mismatch_stands {b : BEntry} {e : Entry} (hs : Stands k b e) (t : WireType)
    (st : Option FixlenSubtype) : b.mismatch t st=e.mismatch t st := by
  rw [BEntry.mismatch,Entry.mismatch,hs.wt,hs.st]
  simp only [ne_comm]

/-- The rows for an id that a tag does not contradict are one row. -/
theorem Named.matched {r : Option Entry} {r' : Option (ℕ × BEntry)} (h : Named c k r r')
    (t : WireType) (st : Option FixlenSubtype) :
    Named c k (r.filter fun e => !e.mismatch t st) (r'.filter fun e => !e.2.mismatch t st) := by
  cases h with
  | none => exact .none
  | @some e ei b hb hl =>
    rw [Option.filter_some,Option.filter_some,mismatch_stands hl.stands]
    cases e.mismatch t st with
    | true => exact .none
    | false => exact .some hb hl

/-- There is a row for an id on both sides or on none. -/
theorem Named.isSome {r : Option Entry} {r' : Option (ℕ × BEntry)} (h : Named c k r r') :
    r'.isSome=r.isSome ∧ r'.isNone=r.isNone := by
  cases h <;> exact ⟨rfl,rfl⟩

/-- The tables that are closed are the same in both engines. -/
theorem Fits.shut (hf : Fits c kt) {tab : Option ℕ} (hm : tab.isSome=m) :
    (m && tab.any fun r => ((kt.getD {}).table r).closed)=tab.any c.closed := by
  rw [←hm]
  cases tab with
  | none => rfl
  | some r => exact hf.closed r

/-- Both decoders do the same with a construct whose header they read. -/
theorem dispatch_level (swar : Bool) (hf : Fits c kt) (hc : ∀ v, Decoder.Plain (c.hooks v))
    (h : Level m d s.toDec) {t : WireType} (hwt : s.curWtype=some t) (hseen : Seen t d s.toDec) :
    Alongside Excused (fun _ e b s' => Level b e s'.toDec) (Halted c (kt.getD {}))
      (SofaBuffers.dispatch c t d) (Decoder.dispatch swar c kt m t s) := by
  have hmap : s.bmap=d.bmap ∧ s.visitor=d.visitor := by
    obtain ⟨d',wt,row⟩ := s
    cases h.akin
    exact ⟨rfl,rfl⟩
  have stay : ∀ {f : NatM V Bool}, f s=.ok m s →
      Alongside Excused (fun _ e b s' => Level b e s'.toDec) (Halted c (kt.getD {}))
        ((pure () : DecM V Unit) d) (f s) := by
    intro f hfs
    rw [hfs]
    exact .ok h
  by_cases hend : t=.sequenceEnd
  · subst hend
    exact (within_halted (endSequence_level h)).imp (fun _ _ _ _ h => h.1) fun _ _ _ _ h => h
  have hid := hseen.id hend
  have hrow := rowOf_named hf h.mapped s.curId
  have hmatched := hrow.matched t s.curSubtype
  have hmis : ∀ e, ((d.bmap.bind fun r => c.lookup r d.curId).filter
      fun e => !e.mismatch t d.curSubtype)=some e → e.mismatch t d.curSubtype=false := by
    intro e he
    simpa using (Option.filter_eq_some_iff.mp he).2
  rw [SofaBuffers.dispatch,Decoder.dispatch,run_get_bind,run_get_bind,hmap.1,hmap.2]
  rw [hid] at hmis ⊢
  rw [hseen.st hend] at hmis ⊢
  rw [if_neg hend,if_neg hend]
  generalize (d.bmap.bind fun r => c.lookup r s.curId)=entry,
    Decoder.rowOf (kt.getD {}) m d.bmap s.curId=entry' at hrow hmatched hmis ⊢
  rw [hrow.isSome.1,hmatched.isSome.2,Bool.and_assoc (Option.isNone _) m,hf.shut h.mapped]
  generalize entry.filter (fun e => !e.mismatch t s.curSubtype)=ma,
    entry'.filter (fun e => !e.2.mismatch t s.curSubtype)=ma' at hmatched hmis ⊢
  by_cases hcontra : (entry.isSome && ma.isNone && decide (t≠.sequenceStart))=true
  · rw [if_pos hcontra,if_pos hcontra]
    exact stay rfl
  rw [if_neg hcontra,if_neg hcontra]
  by_cases hshut : (ma.isNone && d.bmap.any c.closed)=true
  · rw [if_pos hshut,if_pos hshut]
    by_cases hstart : t=.sequenceStart
    · subst hstart
      exact (skipResumable_level swar h (Or.inr hwt)).onward fun _ e _ s' he => ⟨m,s',rfl,he⟩
    · rw [if_neg hstart,if_neg hstart]
      exact stay rfl
  rw [if_neg hshut,if_neg hshut]
  by_cases hstart : t=.sequenceStart
  · subst hstart
    rw [if_pos rfl,if_pos rfl]
    cases hmatched with
    | some hb hl =>
      exact (within_halted (startMapped_level h hl.stands)).imp (fun _ _ _ _ h => h.1)
        fun _ _ _ _ h => h
    | none =>
      cases d.visitor with
      | none =>
        exact (skipResumable_level swar h (Or.inr hwt)).onward fun _ e _ s' he => ⟨m,s',rfl,he⟩
      | some v => exact startVisited_level swar hf.tables h hwt v s.curId
  · rw [if_neg hstart,if_neg hstart]
    obtain ⟨p,hq,hp,htag⟩ := hseen.value hend hstart
    have ht : t=p.tag.1 := congrArg Prod.fst htag
    have hst : s.curSubtype=p.tag.2 := (hseen.st hend).symm.trans (congrArg Prod.snd htag)
    subst ht
    cases hmatched with
    | @some e ei b hb hl =>
      have htakes : e.Takes p := ⟨by rw [←hst]; exact hmis e rfl,hp.announced⟩
      exact (mapped_level swar h hq hp hid hwt hb hl htakes (fun _ _ => rfl) fun _ _ => rfl).onward
        fun _ e _ s' he => ⟨m,s',rfl,he⟩
    | none =>
      cases d.visitor with
      | none => exact stay rfl
      | some v =>
        exact (offerField_level swar h hq hp hid hwt (hc v)).onward fun _ e _ s' he => ⟨m,s',rfl,he⟩

/-- Both decoders walk construct after construct. -/
theorem driveLoop_level (swar : Bool) (hf : Fits c kt) (hc : ∀ v, Decoder.Plain (c.hooks v))
    (turns : ℕ) (h : Level m d s.toDec) :
    Alongside Excused (fun _ e _ s' => ∃ m, Level m e s'.toDec) (Halted c (kt.getD {}))
      (SofaBuffers.driveLoop c turns d) (Decoder.driveLoop swar c kt turns m s) := by
  induction turns generalizing m d s with
  | zero => exact .excused (show Exn.turns.cls.Foreign from trivial)
  | succ turns ih =>
    rw [SofaBuffers.driveLoop,Decoder.driveLoop]
    have hnext := (nextWire_level (c:=c) swar h).imp (fun _ _ _ _ h => h)
      fun _ _ _ _ h => h.halted (c:=c) (k:=kt.getD {})
    refine hnext.bind fun t e t' s' he => ?_
    obtain ⟨rfl,hlevel,hwt,-,hseen⟩ := he
    cases t with
    | none => exact .ok ⟨m,hlevel⟩
    | some t =>
      refine (dispatch_level swar hf hc hlevel hwt (hseen t rfl)).bind fun _ e b s' he => ?_
      exact ih he

/-- A value that may be pending is ready on both sides or on none. -/
theorem valueReady_left {p : Pending} {d' : Dec V} (hp : p.Left) (hq : d.pending=some p)
    (hq' : d'.pending=some p) (hn : d'.n=d.n) (hpos : d'.pos=d.pos) :
    Decoder.valueReady d'=SofaBuffers.valueReady d := by
  rw [Decoder.valueReady,SofaBuffers.valueReady,hq,hq',hn,hpos]
  rcases hp with hs | ⟨a,n,v,rfl⟩
  · cases p with
    | farray st count size =>
      have hcount : count ≤ arrayMax := hs.count
      have hsize : size ≤ 8 := by
        have ha := hs.announced
        cases st with
        | fp32 => exact le_of_eq_of_le ha (by omega)
        | fp64 => exact le_of_eq ha
        | string | blob => exact ha.elim
      have hbytes := Nat.mul_le_mul hcount hsize
      rw [arrayMax] at hbytes
      have hnone : ¬(size≠0 ∧ sysMaxsize/size < count) := by
        rintro ⟨hne,hlt⟩
        have hmul := (Nat.div_lt_iff_lt_mul (Nat.pos_of_ne_zero hne)).mp hlt
        rw [sysMaxsize] at hmul
        omega
      dsimp only
      rw [if_neg hnone,Nat.mod_eq_of_lt (by omega)]
    | scalar | fixlen | varray | limit | discard => rfl
  · rfl

/-- Both decoders are suspended at the handler, or at one row. -/
theorem Routed.either {p : Pending} {w : WireType} {r : Option Entry} {row : Option ℕ}
    (h : Routed c k p w r row) : (w=p.tag.1 ∧ r=none ∧ row=none) ∨
      ∃ e ei b, r=some e ∧ row=some ei ∧ k.bent[ei]?=some b ∧ Laid c k b e ∧ e.Takes p := by
  cases h with
  | visit hw => exact Or.inl ⟨hw,rfl,rfl⟩
  | mapped hb hl ht => exact Or.inr ⟨_,_,_,rfl,rfl,hb,hl,ht⟩

/-- Both decoders take up what they were suspended at. -/
theorem Mirrors.level (h : Mirrors c k d s) (hok : d.Ok) :
    Level d.bmap.isSome {d with resumeKind := .none} {s.toDec with resumeKind := .none} := by
  obtain ⟨ha,hl,hpend,hvisit⟩ := h
  generalize s.toDec=d' at ha
  cases ha
  exact ⟨.mk _ _ _ _ _ _,hok.filled,hok.pos,hl,rfl,hpend,rfl⟩

/-- Both decoders finish what ran out of bytes last time. -/
theorem resume_level (swar : Bool) (hc : ∀ v, Decoder.Plain (c.hooks v)) (hok : d.Ok)
    (hm : Mirrors c (kt.getD {}) d s) (hne : d.resumeKind≠.none) :
    Alongside Excused (fun _ e _ s' => Level d.bmap.isSome e s'.toDec) (Halted c (kt.getD {}))
      (SofaBuffers.resume c d) (Decoder.resume swar c kt s) := by
  have hlevel := hm.level hok
  have hsame : s.resumeKind=d.resumeKind ∧ s.visitor=d.visitor := by
    have ha := hm.akin
    obtain ⟨d',wt,row⟩ := s
    cases ha
    exact ⟨rfl,rfl⟩
  rw [SofaBuffers.resume,Decoder.resume,run_get_bind,run_get_bind,run_modify_bind,run_modify_bind,
    hsame.1]
  cases hk : d.resumeKind with
  | none => exact absurd hk hne
  | skip =>
    exact skipResumable_level (s:={s with resumeKind := .none}) swar hlevel
      (Or.inl (hok.skip.mpr hk))
  | visit =>
    obtain ⟨p,hq,-⟩ := hok.visit hk
    obtain ⟨hsound,hwt,hid,hroute⟩ := hm.visit hk p hq
    rcases hroute.either with ⟨hw,hr,hrow⟩ | ⟨e,ei,b,hr,hrow,hb,hl,ht⟩
    · rcases Option.eq_none_or_eq_some d.visitor with hv | ⟨v,hv⟩
      · have hone : SofaBuffers.suspended c .visit d.resumeEntry d.visitor d.curWtypeResume=
            (throw .assertion : DecM V Unit) := by
          rw [hr,hv]
          rfl
        rw [hone]
        exact .excused (show Exn.assertion.cls.Foreign from trivial)
      · have hone : SofaBuffers.suspended c .visit d.resumeEntry d.visitor d.curWtypeResume=
            SofaBuffers.visitValue c v p.tag.1 := by
          rw [hr,hw,hv]
          rfl
        have hother : Decoder.suspended swar c kt .visit {s with resumeKind := .none}=
            Decoder.visit swar c v {s with resumeKind := .none} := by
          rw [Decoder.suspended,run_get_bind]
          dsimp only
          rw [hrow,hsame.2,hv]
        rw [hone,onIncomplete_congr hother]
        refine visit_level (s:={s with resumeKind := .none}) swar hlevel hq hsound hid hwt (hc v)
          (fun e' he => ?_) fun s' hs => ?_
        · rw [←he.trans hr]
        · rw [←hs.trans hrow]
    · have hone : SofaBuffers.suspended c .visit d.resumeEntry d.visitor d.curWtypeResume=
          SofaBuffers.mappedField c e := by
        rw [hr]
        rfl
      have hother : Decoder.suspended swar c kt .visit {s with resumeKind := .none}=
          Decoder.storeMapped swar c (kt.getD {}) b {s with resumeKind := .none} := by
        rw [Decoder.suspended,run_get_bind]
        dsimp only
        rw [hrow]
        dsimp only
        rw [hb]
      rw [hone,onIncomplete_congr hother]
      refine mapped_level (s:={s with resumeKind := .none}) swar hlevel hq hsound hid hwt hb hl ht
        (fun e' he => ?_) fun s' hs => ?_
      · rw [←he.trans hr]
      · rw [←hs.trans hrow]

/-- Both decoders go on to the constructs behind. -/
theorem behind_level (swar : Bool) (hf : Fits c kt) (hc : ∀ v, Decoder.Plain (c.hooks v))
    (h : Level m d s.toDec) :
    Alongside Excused (fun b e b' s' => b=b' ∧ Mirrors c (kt.getD {}) e s') (Halted c (kt.getD {}))
      ((do
        let d ← get
        SofaBuffers.driveLoop c (d.n-d.pos+1)
        pure false : DecM V Bool) d)
      ((do
        let s ← get
        Decoder.driveLoop swar c kt (s.n-s.pos+1) m
        pure false : NatM V Bool) s) := by
  rw [run_get_bind,run_get_bind,h.bytes.2.2.1,h.bytes.2.2.2.1]
  refine (driveLoop_level swar hf hc (d.n-d.pos+1) h).bind fun _ e _ s' he => ?_
  obtain ⟨m',hlevel⟩ := he
  exact .ok ⟨rfl,hlevel.mirrors⟩

/-- Both decoders walk the fed bytes. -/
theorem drivePush_level (swar : Bool) (hf : Fits c kt) (hc : ∀ v, Decoder.Plain (c.hooks v))
    (hok : d.Ok) (hm : Mirrors c (kt.getD {}) d s) :
    Alongside Excused (fun b e b' s' => b=b' ∧ Mirrors c (kt.getD {}) e s') (Halted c (kt.getD {}))
      (SofaBuffers.drivePush c d) (Decoder.drivePush swar c kt s) := by
  have hlevel := hm.level hok
  have hsame : s.resumeKind=d.resumeKind ∧ s.bmap=d.bmap := by
    have ha := hm.akin
    obtain ⟨d',wt,row⟩ := s
    cases ha
    exact ⟨rfl,rfl⟩
  have hready : d.resumeKind=.visit → Decoder.valueReady s.toDec=SofaBuffers.valueReady d := by
    intro hk
    obtain ⟨p,hq,-⟩ := hok.visit hk
    have hbytes := hlevel.bytes
    exact valueReady_left (hm.pending p hq) hq (hbytes.2.2.2.2.2.trans hq) hbytes.2.2.2.1
      hbytes.2.2.1
  have hsome : ¬(decide (d.resumeKind=.visit) && d.pending.isNone)=true := by
    intro h
    rw [Bool.and_eq_true,decide_eq_true_eq] at h
    obtain ⟨p,hq,-⟩ := hok.visit h.1
    rw [hq] at h
    cases h.2
  rw [SofaBuffers.drivePush,Decoder.drivePush,run_get_bind,run_get_bind,if_neg hsome,hsame.1,hsame.2]
  have hcond : (decide (d.resumeKind=.visit) && !Decoder.valueReady s.toDec)=
      (decide (d.resumeKind=.visit) && !SofaBuffers.valueReady d) := by
    by_cases hk : d.resumeKind=.visit
    · rw [hready hk]
    · rw [decide_eq_false hk,Bool.false_and,Bool.false_and]
  rw [hcond]
  by_cases hwait : (decide (d.resumeKind=.visit) && !SofaBuffers.valueReady d)=true
  · rw [if_pos hwait,if_pos hwait]
    exact .ok ⟨rfl,hm⟩
  rw [if_neg hwait,if_neg hwait]
  by_cases hne : d.resumeKind≠.none
  · rw [if_pos hne,if_pos hne]
    refine (resume_level swar hc hok hm hne).bind fun _ e _ s' he => ?_
    exact behind_level swar hf hc he
  · rw [if_neg hne,if_neg hne]
    exact behind_level swar hf hc
      ⟨hm.akin,hok.filled,hok.pos,hm.limit,not_not.mp hne,hm.pending,rfl⟩

end Rows

end Native

end SofaBuffers
