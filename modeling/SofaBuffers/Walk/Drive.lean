import SofaBuffers.Walk.View

/-!
# The driver walks as the machine does

Each part of the push driver ends in what the walk's run from there ends in.
-/

set_option autoImplicit false

namespace SofaBuffers

open Resumable Dec

variable {V : Type} {α : Type}

/-- What holds of a decoder in the middle of a walk. -/
structure Dec.Between (d : Dec V) : Prop where
  /-- The buffer holds what it is said to hold. -/
  filled : d.Filled
  /-- The cursor is in it. -/
  pos : d.pos ≤ d.n
  /-- No skip is in flight. -/
  skip : d.skipDepth=none
  /-- Nothing is suspended. -/
  kind : d.resumeKind=.none

/-- A decoder in the middle of a walk could end it there. -/
theorem Dec.Between.ok {d : Dec V} (h : d.Between) : d.Ok where
  filled := h.filled
  pos := h.pos
  skip := by rw [h.skip,h.kind]; simp
  up := by rw [h.skip]; intro t ht; cases ht
  visit := by rw [h.kind]; intro hk; cases hk

/-- In the middle of a walk a decoder is between two constructs. -/
theorem Dec.Between.view {d : Dec V} (h : d.Between) : d.view=d.walk (.header d.pending none) := by
  rw [Dec.view,Dec.mode.eq_def,h.kind]

/-- How a walk that does not come to its end leaves the decoder. -/
def Fails (h : Halt (Walk V) UInt8 Exn) (e : Exn) (d : Dec V) : Prop :=
  match h with
  | .stop _ => False
  | .wait s rest => (∃ msg, e=.incomplete msg) ∧ d.Ok ∧ d.view=s ∧ d.rest=rest
  | .fail why s rest =>
    e=why ∧ why.cls≠.incomplete ∧ d.store=s.store ∧
      (why.cls=.argument → d.Ok ∧ d.view=s ∧ d.rest=rest)

/-- A method does its part of a run that comes to `h`. -/
def Ends (c : Config V) (h : Halt (Walk V) UInt8 Exn) (d : Dec V)
    (r : EStateM.Result Exn (Dec V) α) : Prop :=
  match r with
  | .ok _ d' =>
    d'.Between ∧ d'.frame=d.frame ∧ d.pos ≤ d'.pos ∧
      h=Walk.run c (d'.walk (.header d'.pending none)) d'.rest
  | .error e d' => d'.frame=d.frame ∧ Fails h e d'

/-- Suspend at a value. -/
def Dec.suspendAt (d : Dec V) (r : Route) : Dec V :=
  match r with
  | .visit t => {d with resumeKind := .visit, resumeEntry := none, curWtypeResume := t}
  | .mapped e => {d with resumeKind := .visit, resumeEntry := some e}

/-- A decoder suspended at a value is seen in the middle of it. -/
theorem view_suspendAt {d : Dec V} {p : Pending} (hp : d.pending=some p) (r : Route) :
    (d.suspendAt r).view=d.walk (.value d.curId r p true) := by
  cases r <;> (rw [Dec.view,Dec.mode.eq_def]; simp only [suspendAt,hp]; rfl)

/-- A decoder may be suspended at a value it can read. -/
theorem ok_suspendAt {d : Dec V} (hb : d.Between) {p : Pending} (hp : d.pending=some p) {r : Route}
    (hf : d.Fits p r) : (d.suspendAt r).Ok := by
  have hkind : (d.suspendAt r).resumeKind=.visit := by cases r <;> rfl
  have hskip : (d.suspendAt r).skipDepth=none := by cases r <;> exact hb.skip
  refine ⟨?_,?_,?_,?_,fun _ => ⟨p,?_,?_⟩⟩
  · cases r <;> exact hb.filled
  · cases r <;> exact hb.pos
  · rw [hkind,hskip]
    simp
  · rw [hskip]
    intro t ht
    cases ht
  · cases r <;> exact hp
  · cases r <;> exact hf

/-- A method that raises anything else than missing bytes is let through. -/
theorem onIncomplete_error {m : DecM V α} {f : Dec V → Dec V} {d d' : Dec V} {e : Exn}
    (he : e.cls≠.incomplete) (h : m d=.error e d') : onIncomplete m f d=.error e d' := by
  rw [onIncomplete,h]
  cases e <;> first | rfl | exact absurd rfl he

/-- A value read, and what it does when the bytes run out, is a step of the
walk. -/
theorem ends_read {c : Config V} {d : Dec V} (hb : d.Between) {p : Pending} {r : Route}
    (hf : d.Fits p r) {b : Bool} (hready : b=false ∨ p.ready d.rest=true)
    {m : DecM V Unit} {t : WireType}
    (hm : ReadEnds (m d) {d with curWtypeResume := t}
      (prepare c d.visitor d.curId r p d.store).2.1
      ((prepare c d.visitor d.curId r p d.store).2.2.read c
        (prepare c d.visitor d.curId r p d.store).1 d.rest))
    {f : Dec V → Dec V} (hfs : ∀ k q s,
      f {d with curWtypeResume := t, keep := k, pending := some q, store := s}=
        ({d with curWtypeResume := t, keep := k, pending := some q, store := s} : Dec V).suspendAt r) :
    Ends c (Walk.run c (d.walk (.value d.curId r p b)) d.rest) d (onIncomplete m f d) := by
  have hstep : Walk.step c (d.walk (.value d.curId r p b)) d.rest=
      Walk.valueStep c (d.walk (.value d.curId r p b)) d.curId r p d.rest := by
    rw [Walk.step]
    rcases hready with rfl | hr
    · rfl
    · cases b
      · rfl
      · dsimp only [Dec.walk]
        rw [hr]
        rfl
  have hfits := prepare_fits (c:=c) hf d.curId d.store
  have hsuf : ∀ s' rest, (prepare c d.visitor d.curId r p d.store).2.2.read c
      (prepare c d.visitor d.curId r p d.store).1 d.rest=.done s' rest → rest<:+d.rest :=
    fun _ _ => Plan.read_suffix
  generalize hread : (prepare c d.visitor d.curId r p d.store).2.2.read c
    (prepare c d.visitor d.curId r p d.store).1 d.rest=reading at hm hsuf
  generalize hq : (prepare c d.visitor d.curId r p d.store).2.1=q at hm hfits
  cases reading with
  | done s rest =>
    obtain ⟨k,hm⟩ := hm
    have hstep : Walk.step c (d.walk (.value d.curId r p b)) d.rest=
        .next ({d with store := s}.walk (.header none none)) rest :=
      hstep.trans (Walk.valueStep_done hread)
    rw [onIncomplete,hm,Walk.run_next hstep]
    have hpos := seek_le hb.filled hb.pos (hsuf s rest rfl)
    refine ⟨⟨hb.filled,hpos.2,hb.skip,hb.kind⟩,rfl,hpos.1,?_⟩
    exact congrArg (Walk.run c _) (restFrom_seek hb.filled (hsuf s rest rfl)).symm
  | more s =>
    obtain ⟨msg,k,hm⟩ := hm
    have hstep : Walk.step c (d.walk (.value d.curId r p b)) d.rest=
        .wait ({d with store := s}.walk (.value d.curId r q true)) d.rest :=
      hstep.trans (hq ▸ Walk.valueStep_more hread)
    rw [onIncomplete,hm,Walk.run_wait hstep]
    dsimp only
    rw [hfs]
    refine ⟨?_,⟨msg,rfl⟩,ok_suspendAt ?_ rfl hfits,view_suspendAt rfl r,?_⟩
    · cases r <;> rfl
    · exact ⟨hb.filled,hb.pos,hb.skip,hb.kind⟩
    · cases r <;> rfl
  | bad why s =>
    obtain ⟨hcls,d',hm,hs,hframe,harg⟩ := hm
    have hstep : Walk.step c (d.walk (.value d.curId r p b)) d.rest=
        .fail why ({d with store := s}.walk (.header (some q) none)) d.rest :=
      hstep.trans (hq ▸ Walk.valueStep_bad hread)
    rw [onIncomplete_error hcls hm,Walk.run_fail hstep]
    refine ⟨hframe,rfl,hcls,hs,fun h => ?_⟩
    obtain ⟨k,rfl⟩ := harg h
    have hb' : Dec.Between {d with curWtypeResume := t, keep := k, pending := some q, store := s} :=
      ⟨hb.filled,hb.pos,hb.skip,hb.kind⟩
    exact ⟨hb'.ok,hb'.view,rfl⟩

/-- The decoder once a header was read. -/
def Met (c : Config V) (d : Dec V) (rest : List UInt8) (t : WireType) (d' : Dec V) :
    Token → Prop
  | .value id p => t=p.tag.1 ∧ p.Announced ∧ p.real=p ∧ ∃ k, d'={d with
      keep := k, pos := d.seek rest, curId := id, curSubtype := p.tag.2, pending := some (park c p)}
  | .start id => d.depth < maxDepth ∧ t=.sequenceStart ∧ ∃ k, d'={d with
      keep := k, pos := d.seek rest, curId := id, curSubtype := none, pending := none,
      depth := d.depth+1}
  | .stop => 0 < d.depth ∧ t=.sequenceEnd ∧ ∃ k id, d'={d with
      keep := k, pos := d.seek rest, curId := id, curSubtype := none, pending := none,
      depth := d.depth-1}

/-- How walking to the next header ends. -/
def NextEnds (c : Config V) (d : Dec V) (skip : Option ℕ)
    (r : EStateM.Result Exn (Dec V) (Option WireType)) : Prop :=
  let h := Walk.run c (d.walk (.header d.pending skip)) d.rest
  match r with
  | .ok none d' =>
    h=.stop (d.walk (.header none skip)) ∧ d.depth=0 ∧ d'.rest=[] ∧
      ∃ k pos, d'={d with keep := k, pos := pos, pending := none} ∧ d.pos ≤ pos ∧ pos ≤ d.n
  | .ok (some t) d' =>
    ∃ tok rest, rest<:+d.rest ∧ rest.length < d.rest.length ∧ Met c d rest t d' tok ∧
      h=Walk.finish c (Walk.meet c (d.walk (.header none skip)) skip tok rest)
  | .error e d' =>
    d'.frame=d.frame ∧
      ((∃ msg q, e=.incomplete msg ∧ h=.wait (d.walk (.header q skip)) d'.rest ∧
        ∃ k pos id st, d'={d with
          keep := k, pos := pos, curId := id, curSubtype := st, pending := q} ∧ pos ≤ d.n) ∨
      ∃ s rest, h=.fail e s rest ∧ d'.store=s.store ∧ e.cls≠.argument ∧ e.cls≠.incomplete)

/-- Dropping varints is refused for the message's sake. -/
theorem dropVarints_cls {n v : ℕ} {xs : List UInt8} {why : Exn} (h : dropVarints n v xs=.bad why) :
    why.cls≠.argument ∧ why.cls≠.incomplete := by
  fun_induction dropVarints n v xs with
  | case1 | case2 => cases h
  | case3 => cases h; exact ⟨by decide,by decide⟩
  | case4 _ _ _ _ _ _ ih | case5 _ _ _ _ _ _ ih | case6 _ _ _ _ _ _ ih => exact ih h

/-- Dropping bytes and varints is refused for the message's sake. -/
theorem dropDiscard_cls {a n v : ℕ} {xs : List UInt8} {why : Exn}
    (h : dropDiscard a n v xs=.bad why) : why.cls≠.argument ∧ why.cls≠.incomplete := by
  rw [dropDiscard] at h
  split at h
  · cases h
  · exact dropVarints_cls h

/-- Dropping a value is refused for the message's sake, or the source's. -/
theorem drop_cls {p : Pending} {xs : List UInt8} {why : Exn} (h : p.drop xs=.bad why) :
    why.cls≠.argument ∧ why.cls≠.incomplete := by
  have hreal : ∀ q : Pending, dropReal q xs=.bad why → why.cls≠.argument ∧ why.cls≠.incomplete := by
    intro q h
    cases q with
    | scalar signed =>
      rw [dropReal] at h
      cases hv : Varint.read overlong xs with
      | done v rest => rw [hv] at h; cases h
      | more => rw [hv] at h; cases h
      | bad e =>
        rw [hv] at h
        cases h
        rw [varint_cls _ _ hv]
        exact ⟨by decide,by decide⟩
    | fixlen st length => exact dropDiscard_cls h
    | varray signed count => exact dropDiscard_cls h
    | farray st count size =>
      rw [dropReal] at h
      split at h
      · cases h
      · exact dropDiscard_cls h
    | limit | discard => cases h; exact ⟨by decide,by decide⟩
  cases p with
  | discard a n v => exact dropDiscard_cls h
  | limit msg q => exact hreal q h
  | scalar signed => exact hreal (.scalar signed) h
  | fixlen st length => exact hreal (.fixlen st length) h
  | varray signed count => exact hreal (.varray signed count) h
  | farray st count size => exact hreal (.farray st count size) h

/-- Reading the header at the cursor, no value being left to drop. -/
theorem readHeader_ends (c : Config V) {d : Dec V} (hd : d.Filled) (hp : d.pos ≤ d.n)
    (hk : d.keep=d.pos) (hq : d.pending=none) (skip : Option ℕ) :
    NextEnds c d skip (readHeader c d) := by
  have hwalk : d.walk (.header d.pending skip)=d.walk (.header none skip) := by rw [hq]
  have hstep : Walk.step c (d.walk (.header none skip)) d.rest=
    Walk.headerStep c (d.walk (.header none skip)) skip d.rest := rfl
  have hsame : ∀ pos id st, ({d with pos := pos, curId := id, curSubtype := st, pending := none} :
      Dec V)={d with pos := pos, curId := id, curSubtype := st} := fun pos id st => by rw [←hq]
  rw [NextEnds.eq_def,hwalk,Walk.run_finish,hstep,Walk.headerStep]
  by_cases h : d.rest=[]
  · rw [readHeader_end c hd h,if_pos h]
    by_cases hdep : d.depth≠0
    · have hwd : (d.walk (.header none skip)).depth≠0 := hdep
      rw [if_pos hdep,if_pos hwd]
      refine ⟨rfl,Or.inl ⟨_,none,rfl,?_,d.keep,d.pos,d.curId,d.curSubtype,?_,hp⟩⟩
      · have hr : Dec.rest {d with pos := d.keep}=[] := by rw [hk]; exact h
        rw [hr]
        rfl
      · rw [hsame,hk]
    · have hwd : ¬(d.walk (.header none skip)).depth≠0 := hdep
      rw [if_neg hdep,if_neg hwd]
      exact ⟨rfl,not_not.mp hdep,h,d.keep,d.pos,by rw [←hq],Nat.le_refl _,hp⟩
  · have hh := readHeader_run c hd h
    rw [if_neg h]
    cases ht : readToken d.rest with
    | more =>
      rw [ht] at hh
      obtain ⟨msg,id,st,hh⟩ := hh
      have hr : Dec.rest {d with pos := d.keep, curId := id, curSubtype := st}=d.rest := by
        show d.restFrom d.keep=d.restFrom d.pos
        rw [hk]
      rw [hh]
      refine ⟨rfl,Or.inl ⟨msg,none,rfl,?_,d.keep,d.pos,id,st,?_,hp⟩⟩
      · rw [hr]
        rfl
      · rw [hsame,hk]
    | bad why =>
      rw [ht] at hh
      obtain ⟨pos,id,st,hh⟩ := hh
      have hcls := readToken_cls ht
      rw [hh]
      exact ⟨rfl,Or.inr ⟨_,_,rfl,rfl,by rw [hcls]; decide,by rw [hcls]; decide⟩⟩
    | done tok rest =>
      rw [ht] at hh
      have hsuf := stable_readToken.suffix ht
      have hlen := readToken_length ht
      cases tok with
      | value id p =>
        rw [hh]
        obtain ⟨ha,hr⟩ := readToken_announced ht
        exact ⟨.value id p,rest,hsuf,hlen,⟨rfl,ha,hr,d.keep,rfl⟩,rfl⟩
      | start id =>
        rw [HeaderEnds.eq_def] at hh
        dsimp only at hh ⊢
        by_cases hdep : maxDepth ≤ d.depth
        · rw [if_pos hdep] at hh
          obtain ⟨pos,id',st,hh⟩ := hh
          have hfail : Walk.meet c (d.walk (.header none skip)) skip (.start id) rest=
              .fail (.decode "nesting exceeds MAX_DEPTH=255") (d.walk (.header none skip)) rest := by
            cases skip <;> exact if_pos hdep
          rw [hh,hfail]
          exact ⟨rfl,Or.inr ⟨_,_,rfl,rfl,by decide,by decide⟩⟩
        · rw [if_neg hdep] at hh
          rw [hh]
          exact ⟨.start id,rest,hsuf,hlen,⟨by omega,rfl,d.keep,by rw [←hq]⟩,rfl⟩
      | stop =>
        rw [HeaderEnds.eq_def] at hh
        dsimp only at hh ⊢
        by_cases hdep : d.depth ≤ 0
        · rw [if_pos hdep] at hh
          obtain ⟨pos,id',st,hh⟩ := hh
          have hfail : Walk.meet c (d.walk (.header none skip)) skip .stop rest=
              .fail (.decode "unbalanced sequence end") (d.walk (.header none skip)) rest := by
            cases skip <;> exact if_pos hdep
          rw [hh,hfail]
          exact ⟨rfl,Or.inr ⟨_,_,rfl,rfl,by decide,by decide⟩⟩
        · rw [if_neg hdep] at hh
          obtain ⟨id,hh⟩ := hh
          rw [hh]
          exact ⟨.stop,rest,hsuf,hlen,⟨by omega,rfl,d.keep,id,by rw [←hq]⟩,rfl⟩

/-- A header read after dropping is a header met from where the drop began. -/
theorem nextWire_dropped (c : Config V) {d : Dec V} {skip : Option ℕ} {pos : ℕ}
    (hd : d.Filled) (hp : d.pos ≤ pos) (hn : pos ≤ d.n)
    (hrun : Walk.run c (d.walk (.header d.pending skip)) d.rest=
      Walk.run c (d.walk (.header none skip)) (d.restFrom pos)) :
    NextEnds c d skip (readHeader c {d with keep := pos, pos := pos, pending := none}) := by
  have h := readHeader_ends c (d:={d with keep := pos, pos := pos, pending := none}) hd hn rfl rfl
    skip
  have hsuf : d.restFrom pos<:+d.rest := by
    obtain ⟨j,rfl⟩ := Nat.exists_eq_add_of_le hp
    rw [restFrom_drop]
    exact List.drop_suffix _ _
  generalize readHeader c {d with keep := pos, pos := pos, pending := none}=r at h
  rw [NextEnds.eq_def] at h ⊢
  rw [hrun]
  cases r with
  | error e d' => exact h
  | ok t d' =>
    cases t with
    | none =>
      obtain ⟨h,hdep,hrest,k',pos',hd',hpos,hlen⟩ := h
      exact ⟨h,hdep,hrest,k',pos',hd',hp.trans hpos,hlen⟩
    | some t =>
      obtain ⟨tok,rest,hs,hl,hm,h⟩ := h
      refine ⟨tok,rest,hs.trans hsuf,Nat.lt_of_lt_of_le hl hsuf.length_le,?_,h⟩
      cases tok <;> exact hm

/-- Walking to the next header. -/
theorem nextWire_ends (c : Config V) {d : Dec V} (hd : d.Filled) (hp : d.pos ≤ d.n)
    (skip : Option ℕ) : NextEnds c d skip (nextWire c d) := by
  rw [nextWire,arm_bind,run_get_bind]
  show NextEnds c d skip ((if d.pending.isSome then _ else _ : DecM V _) {d with keep := d.pos})
  rcases Option.eq_none_or_eq_some d.pending with hq | ⟨p,hq⟩
  · have hrun : Walk.run c (d.walk (.header d.pending skip)) d.rest=
        Walk.run c (d.walk (.header none skip)) (d.restFrom d.pos) := by
      rw [hq]
      rfl
    have h := nextWire_dropped c hd (Nat.le_refl _) hp hrun
    rw [←hq] at h
    rw [if_neg (by rw [hq]; decide)]
    exact h
  · have hskip := skipPending_run (d:={d with keep := d.pos}) hd hp rfl hq
    have hrest : Dec.rest {d with keep := d.pos}=d.rest := rfl
    rw [hrest] at hskip
    have hstep : Walk.step c (d.walk (.header d.pending skip)) d.rest=
        Walk.dropStep (d.walk (.header (some p) skip)) p skip d.rest := by
      rw [hq]
      rfl
    rw [Walk.dropStep] at hstep
    rw [if_pos (by rw [hq]; rfl)]
    cases hdrop : p.drop d.rest with
    | gone rest =>
      rw [hdrop] at hskip hstep
      have hsuf := Pending.drop_suffix hdrop
      have hle := seek_le hd hp hsuf
      have hrun : Walk.run c (d.walk (.header d.pending skip)) d.rest=
          Walk.run c (d.walk (.header none skip)) (d.restFrom (d.seek rest)) := by
        rw [Walk.run_next hstep,restFrom_seek hd hsuf]
        rfl
      rw [run_bind_ok hskip,arm_bind]
      exact nextWire_dropped c hd hle.1 hle.2 hrun
    | left q rest =>
      rw [hdrop] at hskip hstep
      obtain ⟨msg,hskip⟩ := hskip
      have hsuf := Pending.drop_left hdrop
      rw [run_bind_error hskip,NextEnds.eq_def,Walk.run_wait hstep]
      refine ⟨rfl,Or.inl ⟨msg,some q,rfl,?_,d.pos,d.seek rest,d.curId,d.curSubtype,rfl,
        (seek_le hd hp hsuf).2⟩⟩
      exact congrArg (Halt.wait _) (restFrom_seek hd hsuf).symm
    | bad why =>
      rw [hdrop] at hskip hstep
      obtain ⟨pos,q,hskip⟩ := hskip
      have hcls := drop_cls hdrop
      rw [run_bind_error hskip,NextEnds.eq_def,Walk.run_fail hstep]
      exact ⟨rfl,Or.inr ⟨_,_,rfl,rfl,hcls⟩⟩

/-- A skip in flight does its part of a run that comes to `h`. -/
def SkipEnds (c : Config V) (h : Halt (Walk V) UInt8 Exn) (d : Dec V) (target : ℕ)
    (r : EStateM.Result Exn (Dec V) Unit) : Prop :=
  match r with
  | .ok _ d' =>
    d'.Between ∧ d'.frame=d.frame ∧ d.pos ≤ d'.pos ∧
      h=Walk.run c (d'.walk (.header d'.pending none)) d'.rest
  | .error e d' =>
    d'.frame=d.frame ∧
      ((∃ msg, e=.incomplete msg ∧ d'.Filled ∧ d'.pos ≤ d'.n ∧ d'.skipDepth=some target ∧
        target < d'.depth ∧ h=.wait (d'.walk (.header d'.pending (some target))) d'.rest) ∨
      ∃ s rest, h=.fail e s rest ∧ d'.store=s.store ∧ e.cls≠.argument ∧ e.cls≠.incomplete)

/-- What is left of a skip ends as the skip does. -/
theorem SkipEnds.of_later {c : Config V} {h : Halt (Walk V) UInt8 Exn} {d d' : Dec V} {target : ℕ}
    {r : EStateM.Result Exn (Dec V) Unit} (hr : SkipEnds c h d' target r)
    (hframe : d'.frame=d.frame) (hpos : d.pos ≤ d'.pos) : SkipEnds c h d target r := by
  cases r with
  | ok a d₁ =>
    obtain ⟨hb,hf,hp,h⟩ := hr
    exact ⟨hb,hf.trans hframe,hpos.trans hp,h⟩
  | error e d₁ => exact ⟨hr.1.trans hframe,hr.2⟩

/-- Where a header was met, the cursor is behind it and within the buffer. -/
theorem seek_lt {d : Dec V} (hd : d.Filled) {rest : List UInt8}
    (hlen : rest.length < d.rest.length) : d.pos < d.seek rest ∧ d.seek rest ≤ d.n := by
  have hl : d.rest.length=d.n-d.pos := restFrom_length hd d.pos
  rw [seek]
  omega

/-- Walking back to a depth. -/
theorem skipTo_ends (c : Config V) (target : ℕ) {turns : ℕ} {d : Dec V} (hd : d.Filled)
    (hp : d.pos ≤ d.n) (hkind : d.resumeKind=.none) (hskip : d.skipDepth=some target)
    (ht : d.n-d.pos < turns) :
    SkipEnds c (Walk.run c (d.walk (.header d.pending
      (if target < d.depth then some target else none))) d.rest) d target (skipTo c target turns d) := by
  induction turns generalizing d with
  | zero => omega
  | succ turns ih =>
    rw [skipTo,run_get_bind]
    by_cases hdep : target < d.depth
    · rw [if_pos hdep,if_pos hdep]
      have hnext := nextWire_ends c hd hp (some target)
      rw [run_bind]
      rw [NextEnds.eq_def] at hnext
      generalize nextWire c d=r at hnext
      cases r with
      | error e d' =>
        obtain ⟨hframe,⟨msg,q,rfl,h,k,pos,id,st,rfl,hpos⟩ | ⟨s,rest,h,hs⟩⟩ := hnext
        · exact ⟨rfl,Or.inl ⟨msg,rfl,hd,hpos,hskip,hdep,h⟩⟩
        · exact ⟨hframe,Or.inr ⟨s,rest,h,hs⟩⟩
      | ok t d' =>
        cases t with
        | none =>
          obtain ⟨-,hzero,-⟩ := hnext
          omega
        | some t =>
          obtain ⟨tok,rest,hsuf,hlen,hmet,h⟩ := hnext
          have hseek := seek_lt hd hlen
          have hrest : d.restFrom (d.seek rest)=rest := restFrom_seek hd hsuf
          have hgo : ∀ d' : Dec V, d'.Filled → d'.pos=d.seek rest → d'.rest=rest →
              d'.frame=d.frame → d'.resumeKind=.none → d'.skipDepth=some target → ∀ m,
              (m=if target < d'.depth then some target else none) → SkipEnds c
                (Walk.run c (d'.walk (.header d'.pending m)) rest) d target
                (skipTo c target turns d') := by
            intro d' hd' hpos hr hframe hk hs m hm
            have hn : d'.n=d.n := congrArg Frame.n hframe
            rw [hm,←hr]
            exact (ih hd' (by omega) hk hs (by omega)).of_later hframe (by omega)
          rw [h]
          cases tok with
          | value id p =>
            obtain ⟨-,-,-,k,rfl⟩ := hmet
            exact hgo {d with
              keep := k, pos := d.seek rest, curId := id, curSubtype := p.tag.2,
              pending := some (park c p)} hd rfl hrest rfl hkind hskip _ (if_pos hdep).symm
          | start id =>
            obtain ⟨hmax,-,k,rfl⟩ := hmet
            have hmeet : Walk.meet c (d.walk (.header none (some target))) (some target)
                (.start id) rest=
                .next ({d with depth := d.depth+1}.walk (.header none (some target))) rest :=
              if_neg (by show ¬maxDepth ≤ d.depth; omega)
            rw [hmeet]
            exact hgo {d with
              keep := k, pos := d.seek rest, curId := id, curSubtype := none, pending := none,
              depth := d.depth+1} hd rfl hrest rfl hkind hskip _
              (if_pos (show target < d.depth+1 by omega)).symm
          | stop =>
            obtain ⟨hpos,-,k,id,rfl⟩ := hmet
            have hmeet : Walk.meet c (d.walk (.header none (some target))) (some target) .stop rest=
                .next ({d with depth := d.depth-1}.walk
                  (.header none (if target < d.depth-1 then some target else none))) rest :=
              if_neg (by show ¬d.depth ≤ 0; omega)
            rw [hmeet]
            exact hgo {d with
              keep := k, pos := d.seek rest, curId := id, curSubtype := none, pending := none,
              depth := d.depth-1} hd rfl hrest rfl hkind hskip _ rfl
    · rw [if_neg hdep,if_neg hdep]
      exact ⟨⟨hd,hp,rfl,hkind⟩,rfl,Nat.le_refl _,rfl⟩

/-- A skip that may be resumed. -/
theorem SkipEnds.ends {c : Config V} {h : Halt (Walk V) UInt8 Exn} {d : Dec V} {target : ℕ}
    {m : DecM V Unit} (hr : SkipEnds c h d target (m d)) :
    Ends c h d (onIncomplete m (fun d => {d with resumeKind := .skip}) d) := by
  cases hm : m d with
  | ok a d' =>
    rw [hm] at hr
    rw [onIncomplete,hm]
    exact hr
  | error e d' =>
    rw [hm] at hr
    obtain ⟨hframe,⟨msg,rfl,hd,hp,hs,hlt,rfl⟩ | ⟨s,rest,rfl,hs,harg,hinc⟩⟩ := hr
    · rw [onIncomplete,hm]
      refine ⟨hframe,⟨msg,rfl⟩,⟨hd,hp,?_,?_,by simp⟩,?_,rfl⟩
      · show d'.skipDepth.isSome ↔ Resume.skip=Resume.skip
        rw [hs]
        simp
      · intro t ht
        have : some target=some t := hs.symm.trans ht
        cases this
        exact hlt
      · show d'.walk (.header d'.pending d'.skipDepth)=_
        rw [hs]
    · rw [onIncomplete_error hinc hm]
      exact ⟨hframe,rfl,hinc,hs,fun h => absurd h harg⟩

/-- Skipping a sequence from inside it. -/
theorem skipSequence_ends (c : Config V) {d : Dec V} (hd : d.Filled) (hp : d.pos ≤ d.n)
    (hkind : d.resumeKind=.none) {target : ℕ} (ht : d.skipDepth.getD (d.depth-1)=target)
    (hlt : target < d.depth) :
    SkipEnds c (Walk.run c (d.walk (.header d.pending (some target))) d.rest) d target
      (skipSequence c d) := by
  rw [skipSequence,run_get_bind,ht,run_modify_bind]
  have h := skipTo_ends c target (d:={d with skipDepth := some target}) hd hp hkind rfl
    (Nat.lt_succ_self _)
  rw [if_pos hlt] at h
  exact h.of_later rfl (Nat.le_refl _)

/-- Only the handlers, the tables and the storage differ. -/
def Dec.Shifted (d' d : Dec V) : Prop :=
  d'={d with
    visitor := d'.visitor, vstack := d'.vstack, bmap := d'.bmap, bstack := d'.bstack,
    store := d'.store}

/-- A shifted decoder goes on where it was. -/
theorem ends_shifted {c : Config V} {d u : Dec V} (hb : d.Between) (hs : u.Shifted d)
    {q : Option Pending} (hq : d.pending=q) {h : Halt (Walk V) UInt8 Exn}
    (hrun : h=Walk.run c (u.walk (.header q none)) d.rest) : Ends c h d (.ok () u) := by
  subst hq
  rw [hs]
  exact ⟨⟨hb.filled,hb.pos,hb.skip,hb.kind⟩,rfl,Nat.le_refl _,by rw [hrun,hs]; rfl⟩

/-- The current handler is popped as the walk's is. -/
theorem popVisitor_run (d : Dec V) (m : Mode) :
    ∃ d', popVisitor d=.ok () d' ∧ d'.Shifted d ∧ d'.walk m=Walk.popVisitor (d.walk m) := by
  rw [popVisitor,run_get_bind,Walk.popVisitor.eq_def]
  have hw : (d.walk m).vstack=d.vstack := rfl
  rw [hw]
  rcases hv : d.vstack with _ | ⟨⟨outer,depth⟩,rest⟩
  · exact ⟨d,rfl,rfl,rfl⟩
  · dsimp only
    by_cases h : depth=d.depth
    · rw [if_pos h,if_pos (by exact h)]
      exact ⟨_,rfl,rfl,rfl⟩
    · rw [if_neg h,if_neg (by exact h)]
      exact ⟨d,rfl,rfl,rfl⟩

/-- A scope closes as the walk's does. -/
theorem closeScope_run (d : Dec V) (m : Mode) :
    ∃ d', closeScope d=.ok () d' ∧ d'.Shifted d ∧ d'.walk m=Walk.closeScope (d.walk m) := by
  rw [closeScope,run_get_bind,Walk.closeScope.eq_def]
  have hw : (d.walk m).visitor=d.visitor := rfl
  rw [hw]
  rcases Option.eq_none_or_eq_some d.visitor with hv | ⟨v,hv⟩
  · rw [hv]
    exact popVisitor_run d m
  · rw [hv]
    obtain ⟨d',hrun,hs,hwalk⟩ := popVisitor_run {d with store := d.store.call (.sequenceEnd v)} m
    exact ⟨d',hrun,hs,hwalk⟩

/-- A sequence ends as the walk's does. -/
theorem endSequence_run (d : Dec V) (m : Mode) :
    ∃ d', endSequence d=.ok () d' ∧ d'.Shifted d ∧ d'.walk m=Walk.endSequence (d.walk m) := by
  rw [endSequence,run_get_bind,Walk.endSequence.eq_def]
  have hw : (d.walk m).bstack=d.bstack := rfl
  have hb : (d.walk m).bmap=d.bmap := rfl
  rw [hw,hb]
  rcases hv : d.bstack with _ | ⟨outer,rest⟩
  · exact closeScope_run d m
  · dsimp only
    cases hm : d.bmap.isSome with
    | true => exact ⟨{d with bmap := outer, bstack := rest},rfl,rfl,rfl⟩
    | false =>
      obtain ⟨d',hrun,hs,hwalk⟩ := closeScope_run {d with bmap := outer, bstack := rest} m
      exact ⟨d',hrun,hs,hwalk⟩

/-- A table is suspended as the walk's is. -/
theorem pushMap_run (d : Dec V) (m : Mode) (inner : Option ℕ) :
    match Walk.pushMap (d.walk m) inner with
    | some s => ∃ d', pushMap inner d=.ok () d' ∧ d'.Shifted d ∧ d'.walk m=s
    | none => pushMap inner d=.error .index d := by
  rw [pushMap,run_get_bind,Walk.pushMap]
  have hw : (d.walk m).bstack=d.bstack := rfl
  rw [hw]
  by_cases h : d.bstack.length < maxDepth
  · rw [if_pos h,if_pos h]
    exact ⟨{d with bstack := d.bmap::d.bstack, bmap := inner},rfl,rfl,rfl⟩
  · rw [if_neg h,if_neg h]
    rfl

/-- A handler is suspended as the walk's is. -/
theorem pushVisitor_run (d : Dec V) (m : Mode) (outer child : V) :
    match Walk.pushVisitor (d.walk m) outer child with
    | some s => ∃ d', pushVisitor outer child d=.ok () d' ∧ d'.Shifted d ∧ d'.walk m=s
    | none => pushVisitor outer child d=.error .index d := by
  rw [pushVisitor,run_get_bind,Walk.pushVisitor]
  have hw : (d.walk m).vstack=d.vstack := rfl
  rw [hw]
  by_cases h : d.vstack.length < maxDepth
  · rw [if_pos h,if_pos h]
    exact ⟨{d with vstack := (outer,d.depth-1)::d.vstack, visitor := some child},rfl,rfl,rfl⟩
  · rw [if_neg h,if_neg h]
    rfl

/-- A step refused between two constructs leaves the decoder there. -/
theorem ends_refused {c : Config V} {d u : Dec V} (hb : d.Between) (hs : u.Shifted d)
    {q : Option Pending} (hq : d.pending=q) {r : EStateM.Result Exn (Dec V) α} {why : Exn}
    (hc : why.cls≠.incomplete) (hr : r=.error why u) :
    Ends c (.fail why (u.walk (.header q none)) d.rest) d r := by
  subst hq
  rw [hr,hs]
  have hb' : Dec.Between {d with
      visitor := u.visitor, vstack := u.vstack, bmap := u.bmap, bstack := u.bstack,
      store := u.store} := ⟨hb.filled,hb.pos,hb.skip,hb.kind⟩
  exact ⟨rfl,rfl,hc,rfl,fun _ => ⟨hb'.ok,hb'.view,rfl⟩⟩

/-- An occurrence is counted as the walk counts it. -/
theorem countOccurrence_eq (c : Config V) (e : Entry) :
    (countOccurrence c e : DecM V Unit)=perform (Walk.countOccurrence c e) := by
  funext d
  rw [countOccurrence.eq_def,Walk.countOccurrence.eq_def]
  cases e.countAt with
  | none => rfl
  | some i =>
    dsimp only
    by_cases h : i < c.nwords
    · have hw : (getWord c i : DecM V (BitVec 64)) d=.ok (d.store.word i) d := by
        rw [getWord,if_pos h]
        rfl
      rw [run_bind_ok hw]
      simp only [perform,h,if_true]
    · have hw : (getWord c i : DecM V (BitVec 64)) d=.error .index d := by
        rw [getWord,if_neg h]
        rfl
      rw [run_bind_error hw]
      simp only [perform,h,if_false]

/-- Counting an occurrence does not miss bytes. -/
theorem firm_countOccurrence (c : Config V) (e : Entry) : (Walk.countOccurrence c e).Firm := by
  intro s s' why h
  rw [Walk.countOccurrence.eq_def] at h
  cases hc : e.countAt with
  | none => rw [hc] at h; cases h
  | some i =>
    rw [hc] at h
    dsimp only at h
    split at h
    · exact (quiet_put c _ _ _ _ _ _ h).2
    · cases h
      decide

/-- The descent into a row's sequence is the walk's. -/
theorem startMapped_ends (c : Config V) {d : Dec V} (hb : d.Between) (hq : d.pending=none)
    (e : Entry) :
    Ends c (Walk.finish c (Walk.startMapped c (d.walk (.header none none)) e d.rest)) d
      (startMapped c e d) := by
  rw [startMapped.eq_def,Walk.startMapped.eq_def]
  cases e.child with
  | none => exact ends_refused (u:=d) hb rfl hq (by decide) rfl
  | some child =>
    dsimp only
    have hstore : (d.walk (.header none none)).store=d.store := rfl
    rw [hstore]
    cases ha : arrive c e d.store with
    | mk σ why =>
      cases why with
      | some why =>
        exact ends_refused (u:={d with store := σ}) hb rfl hq (firm_arrive c e _ _ _ ha)
          (run_bind_error (perform_error ha))
      | none =>
        rw [run_bind_ok (perform_ok ha)]
        have hpush := pushMap_run {d with store := σ} (.header none none) (some child)
        dsimp only
        have hin : ({d.walk (.header none none) with store := σ} : Walk V)=
          {d with store := σ}.walk (.header none none) := rfl
        rw [hin]
        cases hp : Walk.pushMap ({d with store := σ}.walk (.header none none)) (some child) with
        | none =>
          rw [hp] at hpush
          exact ends_refused (u:={d with store := σ}) hb rfl hq (by decide)
            (run_bind_error hpush)
        | some s =>
          rw [hp] at hpush
          obtain ⟨d',hrun,hs,rfl⟩ := hpush
          rw [run_bind_ok hrun,countOccurrence_eq]
          have hstore' : (d'.walk (.header none none)).store=d'.store := rfl
          dsimp only
          rw [hstore']
          cases hcount : Walk.countOccurrence c e d'.store with
          | mk σ' why =>
            have hs' : Dec.Shifted {d' with store := σ'} d := by
              rw [Dec.Shifted,hs]
            cases why with
            | some why =>
              exact ends_refused hb hs' hq (firm_countOccurrence c e _ _ _ hcount)
                (perform_error hcount)
            | none =>
              rw [perform_ok hcount]
              exact ends_shifted hb hs' hq rfl

/-- What is left of a part ends as the part does. -/
theorem Ends.of_start {c : Config V} {h : Halt (Walk V) UInt8 Exn} {d d' : Dec V}
    {r : EStateM.Result Exn (Dec V) α} (hr : Ends c h d' r) (hframe : d'.frame=d.frame)
    (hpos : d.pos ≤ d'.pos) : Ends c h d r := by
  cases r with
  | ok a d₁ =>
    obtain ⟨hb,hf,hp,h⟩ := hr
    exact ⟨hb,hf.trans hframe,hpos.trans hp,h⟩
  | error e d₁ => exact ⟨hr.1.trans hframe,hr.2⟩

/-- Skipping the sequence just opened. -/
theorem skipResumable_ends (c : Config V) {d : Dec V} (hb : d.Between) (hq : d.pending=none)
    (hdep : 0 < d.depth) :
    Ends c (Walk.run c (d.walk (.header none (some (d.depth-1)))) d.rest) d (skipResumable c d) := by
  have h := skipSequence_ends c hb.filled hb.pos hb.kind (show d.skipDepth.getD (d.depth-1)=d.depth-1 by rw [hb.skip]; rfl) (by omega)
  rw [hq] at h
  exact h.ends

/-- The handler is asked about a sequence. -/
theorem sequenceAnswer_run (c : Config V) (v : V) (id : ℕ) (d : Dec V) :
    sequenceAnswer c v id d=.ok (Walk.sequenceOffer c v id).2
      {d with store := (Walk.sequenceOffer c v id).1.foldl Store.call d.store} := by
  rw [sequenceAnswer,Walk.sequenceOffer]
  cases (c.hooks v).onSequenceBegin <;> rfl

/-- The enclosing table is hidden as the walk's is. -/
theorem hideMap_run (c : Config V) (d : Dec V) (m : Mode) :
    match Walk.hideMap c (d.walk m) with
    | some s => ∃ d', hideMap c d=.ok () d' ∧ d'.Shifted d ∧ d'.walk m=s
    | none => hideMap c d=.error .index d := by
  rw [hideMap,Walk.hideMap]
  cases c.forest.isSome with
  | true => exact pushMap_run d m none
  | false => exact ⟨d,rfl,rfl,rfl⟩

/-- The handler is asked about a sequence as the walk asks it. -/
theorem startVisited_ends (c : Config V) {d : Dec V} (hb : d.Between) (hq : d.pending=none)
    (hdep : 0 < d.depth) (v : V) (id : ℕ) :
    Ends c (Walk.finish c (Walk.startVisited c (d.walk (.header none none)) v id d.rest)) d
      (startVisited c v id d) := by
  rw [startVisited,run_bind_ok (sequenceAnswer_run c v id d),Walk.startVisited.eq_def]
  have hin : ({d.walk (.header none none) with
      store := (Walk.sequenceOffer c v id).1.foldl Store.call (d.walk (.header none none)).store} :
      Walk V)={d with store := (Walk.sequenceOffer c v id).1.foldl Store.call d.store}.walk
        (.header none none) := rfl
  dsimp only
  rw [hin]
  generalize (Walk.sequenceOffer c v id).1.foldl Store.call d.store=σ
  have hb' : Dec.Between {d with store := σ} := ⟨hb.filled,hb.pos,hb.skip,hb.kind⟩
  cases (Walk.sequenceOffer c v id).2 with
  | skip => exact (skipResumable_ends c hb' hq hdep).of_start rfl (Nat.le_refl _)
  | stay =>
    have hhide := hideMap_run c {d with store := σ} (.header none none)
    dsimp only
    cases hh : Walk.hideMap c ({d with store := σ}.walk (.header none none)) with
    | none =>
      rw [hh] at hhide
      exact ends_refused (u:={d with store := σ}) hb rfl hq (by decide) hhide
    | some s =>
      rw [hh] at hhide
      obtain ⟨d',hrun,hs,rfl⟩ := hhide
      rw [hrun]
      exact ends_shifted hb hs hq rfl
  | descend child =>
    have hhide := hideMap_run c {d with store := σ} (.header none none)
    dsimp only
    cases hh : Walk.hideMap c ({d with store := σ}.walk (.header none none)) with
    | none =>
      rw [hh] at hhide
      exact ends_refused (u:={d with store := σ}) hb rfl hq (by decide)
        (run_bind_error hhide)
    | some s =>
      rw [hh] at hhide
      obtain ⟨d',hrun,hs,rfl⟩ := hhide
      rw [run_bind_ok hrun]
      have hpush := pushVisitor_run d' (.header none none) v child
      dsimp only
      cases hp : Walk.pushVisitor (d'.walk (.header none none)) v child with
      | none =>
        rw [hp] at hpush
        exact ends_refused hb hs hq (by decide) hpush
      | some s =>
        rw [hp] at hpush
        obtain ⟨d₂,hrun,hs₂,rfl⟩ := hpush
        rw [hrun]
        exact ends_shifted hb (by rw [Dec.Shifted,hs₂,hs]) hq rfl

/-- The handler is asked whether it accepts a field. -/
theorem fieldAnswer_run (c : Config V) (v : V) {d : Dec V} {p : Pending} (hq : d.pending=some p) :
    fieldAnswer c v p.tag.1 d=.ok (Walk.fieldOffer c v d.curId p).2
      {d with store := (Walk.fieldOffer c v d.curId p).1.foldl Store.call d.store} := by
  rw [fieldAnswer,run_get_bind,Walk.fieldOffer]
  cases (c.hooks v).onField with
  | none => rfl
  | some accept =>
    conv_lhs => rw [hq]
    rfl

/-- The declared bound is asked for and settled. -/
theorem schemaBound_run (c : Config V) (v : V) {d : Dec V} {p : Pending} (hq : d.pending=some p)
    (ha : p.Announced) (id : ℕ) :
    schemaBound c v id d=
      match settled (Walk.boundOffer c v id p).2 p with
      | .ok q => .ok () {d with
          pending := some q
          store := (Walk.boundOffer c v id p).1.foldl Store.call d.store}
      | .error why => .error why {d with
          store := (Walk.boundOffer c v id p).1.foldl Store.call d.store} := by
  have hkeep : (.ok () d : EStateM.Result Exn (Dec V) Unit)=.ok () {d with pending := some p} := by
    rw [←hq]
  rw [schemaBound.eq_def,Walk.boundOffer.eq_def]
  cases (c.hooks v).onSchemaBound with
  | none => exact hkeep
  | some bound =>
    have hask : ∀ n wt st, settleBound (if bound id n wt st < 0 then none
        else some (bound id n wt st).toNat) {d with store := d.store.call (.bound v id n wt st)}=_ :=
      fun n wt st => settleBound_run (d:={d with store := d.store.call (.bound v id n wt st)}) hq _
    rw [Pending.Announced] at ha
    dsimp only
    rw [run_get_bind,Walk.boundQuestion.eq_def]
    conv_lhs => rw [hq]
    dsimp only
    cases hr : p.real with
    | scalar signed => exact hkeep
    | fixlen st n =>
      dsimp only
      by_cases hst : st=.fp32 ∨ st=.fp64
      · rw [if_pos hst,if_pos hst]
        exact hkeep
      · rw [if_neg hst,if_neg hst]
        exact hask n .fixlen (some st)
    | varray signed n => exact hask n _ none
    | farray st n size => exact hask n .arrayFixlen (some st)
    | limit msg q => rw [hr] at ha; exact False.elim ha
    | discard a n b => rw [hr] at ha; exact False.elim ha

/-- A field is offered as the walk offers it. -/
theorem offerField_ends (c : Config V) {d : Dec V} (hb : d.Between) {p : Pending}
    (hq : d.pending=some p) (ha : p.Announced) {v : V} (hv : d.visitor=some v) :
    Ends c (Walk.finish c (Walk.offerField c (d.walk (.header none none)) v d.curId p d.rest)) d
      (offerField c v p.tag.1 d) := by
  rw [offerField,run_bind_ok (fieldAnswer_run c v hq),Walk.offerField.eq_def]
  have hin : ∀ σ, ({d.walk (.header none none) with store := σ} : Walk V)=
    {d with store := σ}.walk (.header none none) := fun σ => rfl
  have hstore : (d.walk (.header none none)).store=d.store := rfl
  dsimp only
  rw [hin,hstore]
  generalize (Walk.fieldOffer c v d.curId p).1.foldl Store.call d.store=σ
  cases (Walk.fieldOffer c v d.curId p).2 with
  | false => exact ends_shifted (u:={d with store := σ}) hb rfl hq rfl
  | true =>
    rw [if_pos rfl,if_pos rfl,run_get_bind]
    have hbound := schemaBound_run c v (d:={d with store := σ}) hq ha d.curId
    cases hs : settled (Walk.boundOffer c v d.curId p).2 p with
    | error why =>
      rw [hs] at hbound
      exact ends_refused (u:={d with
        store := (Walk.boundOffer c v d.curId p).1.foldl Store.call σ}) hb rfl hq
        (settled_cls hs) (run_bind_error hbound)
    | ok q =>
      rw [hs] at hbound
      rw [run_bind_ok hbound]
      dsimp only
      generalize (Walk.boundOffer c v d.curId p).1.foldl Store.call σ=σ'
      have hb' : Dec.Between {d with pending := some q, store := σ'} :=
        ⟨hb.filled,hb.pos,hb.skip,hb.kind⟩
      have haq : q.Announced := settled_announced ha hs
      have hread := visitValue_run (c:=c) (v:=v) (d:={d with pending := some q, store := σ'})
        hb.filled hb.pos rfl haq p.tag.1
      have hprep : prepare c d.visitor d.curId (.visit p.tag.1) q σ'=
          ((visitPlan c v d.curId p.tag.1 q).1.foldl Store.call σ',
            (visitPlan c v d.curId p.tag.1 q).2) := by
        rw [hv]
        rfl
      have hvis : d.visitor.isSome := by rw [hv]; rfl
      refine (ends_read (d:={d with pending := some q, store := σ'}) (p:=q) (r:=.visit p.tag.1)
        (t:=p.tag.1) (b:=false) hb' ⟨haq,hvis⟩ (Or.inl rfl) ?_ ?_).of_start rfl
        (Nat.le_refl _)
      · dsimp only
        rw [hprep]
        exact hread
      · intro k q s
        rfl

end SofaBuffers
