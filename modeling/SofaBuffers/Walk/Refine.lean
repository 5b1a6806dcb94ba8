import SofaBuffers.Walk.Drive

/-!
# A feed walks as the machine does

What is done with a construct once its header is read, the loop over
constructs, and the push driver as a whole.
-/

set_option autoImplicit false

namespace SofaBuffers

open Resumable Dec

variable {V : Type} {α : Type}

section Dispatch

variable {c : Config V} {d : Dec V} {t : WireType}

/-- The end marker closes a scope. -/
theorem dispatch_stop : dispatch c .sequenceEnd d=endSequence d := rfl

/-- A value is a row's, or nobody's, or offered to the handler. -/
theorem dispatch_value (hend : t≠.sequenceEnd) (hstart : t≠.sequenceStart) :
    dispatch c t d=
      (match Walk.matched c d.bmap d.curId t d.curSubtype with
      | some e => onIncomplete (mappedField c e) fun d =>
          {d with resumeKind := .visit, resumeEntry := some e}
      | none =>
        if Walk.named c d.bmap d.curId || d.bmap.any c.closed then pure ()
        else
          match d.visitor with
          | none => pure ()
          | some v => offerField c v t : DecM V Unit) d := by
  rw [dispatch,run_get_bind,Walk.matched,Walk.named,if_neg hend]
  generalize (d.bmap.bind fun r => c.lookup r d.curId)=entry
  cases hm : entry.filter fun e => !e.mismatch t d.curSubtype with
  | some e =>
    rw [if_neg (by simp),if_neg (by simp),if_neg hstart]
  | none =>
    cases entry with
    | some e =>
      rw [if_pos (by simp [hstart]),if_pos (by simp)]
    | none =>
      rw [if_neg (by simp)]
      cases d.bmap.any c.closed with
      | true => rw [if_pos (by simp),if_neg hstart,if_pos (by simp)]
      | false =>
        rw [if_neg (by simp),if_neg hstart,if_neg (by simp)]
        cases d.visitor <;> rfl

/-- A sequence is a row's, or skipped, or offered to the handler. -/
theorem dispatch_start : dispatch c .sequenceStart d=
    (match Walk.matched c d.bmap d.curId .sequenceStart d.curSubtype with
    | some e => startMapped c e
    | none =>
      if d.bmap.any c.closed then skipResumable c
      else
        match d.visitor with
        | none => skipResumable c
        | some v => startVisited c v d.curId : DecM V Unit) d := by
  rw [dispatch,run_get_bind,Walk.matched,if_neg (by decide),if_neg (by simp)]
  cases (d.bmap.bind fun r => c.lookup r d.curId).filter
    fun e => !e.mismatch .sequenceStart d.curSubtype with
  | some e =>
    rw [if_neg (by simp),if_pos rfl]
  | none =>
    cases d.bmap.any c.closed with
    | true => rw [if_pos (by simp),if_pos rfl,if_pos rfl]
    | false =>
      rw [if_neg (by simp),if_pos rfl,if_neg (by simp)]
      cases d.visitor <;> rfl

end Dispatch

/-- A row that was matched takes the tag. -/
theorem matched_mismatch {c : Config V} {bmap : Option ℕ} {id : ℕ} {t : WireType}
    {st : Option FixlenSubtype} {e : Entry} (h : Walk.matched c bmap id t st=some e) :
    e.mismatch t st=false := by
  have := (Option.filter_eq_some_iff.mp h).2
  simpa using this

/-- A value has a wire type of its own. -/
theorem tag_value {p : Pending} (h : p.Announced) (hr : p.real=p) :
    p.tag.1≠.sequenceEnd ∧ p.tag.1≠.sequenceStart := by
  rw [Pending.Announced,hr] at h
  cases p with
  | scalar signed => cases signed <;> exact ⟨by decide,by decide⟩
  | varray signed count => cases signed <;> exact ⟨by simp [Pending.tag],by simp [Pending.tag]⟩
  | fixlen | farray => exact ⟨by simp [Pending.tag],by simp [Pending.tag]⟩
  | limit | discard => exact False.elim h

/-- What is done with an announced value is what the walk does with it. -/
theorem dispatch_value_ends (c : Config V) {d : Dec V} (hb : d.Between) {p : Pending}
    (hq : d.pending=some (park c p)) (ha : p.Announced) (hr : p.real=p)
    (hst : d.curSubtype=p.tag.2) :
    Ends c (Walk.finish c (Walk.startValue c (d.walk (.header none none)) d.curId (park c p) d.rest))
      d (dispatch c p.tag.1 d) := by
  have ht := tag_value ha hr
  have hap : (park c p).Announced := ha.park hr
  rw [dispatch_value ht.1 ht.2,Walk.startValue,park_tag,hst]
  have hmap : (d.walk (.header none none)).bmap=d.bmap := rfl
  have hvis : (d.walk (.header none none)).visitor=d.visitor := rfl
  rw [hmap,hvis]
  cases hm : Walk.matched c d.bmap d.curId p.tag.1 p.tag.2 with
  | some e =>
    have htakes : e.Takes (park c p) := ⟨by rw [park_tag]; exact matched_mismatch hm,hap⟩
    exact ends_read (r:=.mapped e) (t:=d.curWtypeResume) (b:=false) hb htakes (Or.inl rfl)
      (mappedField_run hb.filled hb.pos hq htakes d.visitor d.curId) fun k q s => rfl
  | none =>
    dsimp only
    cases hn : Walk.named c d.bmap d.curId || d.bmap.any c.closed with
    | true => exact ends_shifted (u:=d) hb rfl hq rfl
    | false =>
      rw [if_neg (by decide),if_neg (by decide)]
      rcases Option.eq_none_or_eq_some d.visitor with hv | ⟨v,hv⟩
      · rw [hv]
        exact ends_shifted (u:=d) hb rfl hq rfl
      · have h := offerField_ends c hb hq hap hv
        rw [park_tag] at h
        rw [hv]
        exact h

/-- What is done with an opened sequence is what the walk does with it. -/
theorem dispatch_start_ends (c : Config V) {d : Dec V} (hb : d.Between) (hq : d.pending=none)
    (hdep : 0 < d.depth) (hst : d.curSubtype=none) :
    Ends c (Walk.finish c (Walk.startSequence c (d.walk (.header none none)) d.curId d.rest)) d
      (dispatch c .sequenceStart d) := by
  rw [dispatch_start,Walk.startSequence,hst]
  have hmap : (d.walk (.header none none)).bmap=d.bmap := rfl
  have hvis : (d.walk (.header none none)).visitor=d.visitor := rfl
  rw [hmap,hvis]
  cases Walk.matched c d.bmap d.curId .sequenceStart none with
  | some e => exact startMapped_ends c hb hq e
  | none =>
    dsimp only
    cases d.bmap.any c.closed with
    | true => exact skipResumable_ends c hb hq hdep
    | false =>
      rw [if_neg (by decide),if_neg (by decide)]
      rcases Option.eq_none_or_eq_some d.visitor with hv | ⟨v,hv⟩
      · rw [hv]
        exact skipResumable_ends c hb hq hdep
      · rw [hv]
        exact startVisited_ends c hb hq hdep v d.curId

/-- What is done with a construct is what the walk does with it. -/
theorem dispatch_ends (c : Config V) {d d' : Dec V} (hb : d.Between) {rest : List UInt8}
    (hsuf : rest<:+d.rest) {t : WireType} {tok : Token} (hmet : Met c d rest t d' tok) :
    Ends c (Walk.finish c (Walk.onToken c (d.walk (.header none none)) tok rest)) d'
      (dispatch c t d') := by
  have hrest : d.restFrom (d.seek rest)=rest := restFrom_seek hb.filled hsuf
  have hle := seek_le hb.filled hb.pos hsuf
  cases tok with
  | value id p =>
    obtain ⟨rfl,ha,hr,k,rfl⟩ := hmet
    have h := dispatch_value_ends c (d:={d with
      keep := k, pos := d.seek rest, curId := id, curSubtype := p.tag.2,
      pending := some (park c p)}) ⟨hb.filled,hle.2,hb.skip,hb.kind⟩ rfl ha hr rfl
    have hr' : Dec.rest {d with
      keep := k, pos := d.seek rest, curId := id, curSubtype := p.tag.2,
      pending := some (park c p)}=rest := hrest
    rw [hr'] at h
    exact h
  | start id =>
    obtain ⟨hmax,rfl,k,rfl⟩ := hmet
    have h := dispatch_start_ends c (d:={d with
      keep := k, pos := d.seek rest, curId := id, curSubtype := none, pending := none,
      depth := d.depth+1}) ⟨hb.filled,hle.2,hb.skip,hb.kind⟩ rfl (Nat.succ_pos _) rfl
    have hr' : Dec.rest {d with
      keep := k, pos := d.seek rest, curId := id, curSubtype := none, pending := none,
      depth := d.depth+1}=rest := hrest
    have hgo : Walk.onToken c (d.walk (.header none none)) (.start id) rest=
        Walk.startSequence c ({d with depth := d.depth+1}.walk (.header none none)) id rest :=
      if_neg (by show ¬maxDepth ≤ d.depth; omega)
    rw [hr'] at h
    rw [hgo]
    exact h
  | stop =>
    obtain ⟨hpos,rfl,k,id,rfl⟩ := hmet
    have hb' : Dec.Between {d with
      keep := k, pos := d.seek rest, curId := id, curSubtype := none, pending := none,
      depth := d.depth-1} := ⟨hb.filled,hle.2,hb.skip,hb.kind⟩
    obtain ⟨d₂,hrun,hs,hwalk⟩ := endSequence_run {d with
      keep := k, pos := d.seek rest, curId := id, curSubtype := none, pending := none,
      depth := d.depth-1} (.header none none)
    have hgo : Walk.onToken c (d.walk (.header none none)) .stop rest=
        Walk.go (Walk.endSequence ({d with depth := d.depth-1}.walk (.header none none))) rest :=
      if_neg (by show ¬d.depth ≤ 0; omega)
    have hwalk' : d₂.walk (.header none none)=
      Walk.endSequence ({d with depth := d.depth-1}.walk (.header none none)) := hwalk
    rw [dispatch_stop,hrun,hgo,←hwalk']
    refine ends_shifted hb' hs rfl ?_
    exact congrArg (Walk.run c _) hrest.symm

/-- Where a header was met the cursor is behind it, and the frame is as it was. -/
theorem Met.frame {c : Config V} {d d' : Dec V} {rest : List UInt8} {t : WireType} {tok : Token}
    (h : Met c d rest t d' tok) : d'.pos=d.seek rest ∧ d'.frame=d.frame := by
  cases tok with
  | value id p => obtain ⟨-,-,-,k,rfl⟩ := h; exact ⟨rfl,rfl⟩
  | start id => obtain ⟨-,-,k,rfl⟩ := h; exact ⟨rfl,rfl⟩
  | stop => obtain ⟨-,-,k,id,rfl⟩ := h; exact ⟨rfl,rfl⟩

/-- How a walk over the bytes at hand ends. -/
def WalkEnds (h : Halt (Walk V) UInt8 Exn) (d : Dec V) (r : EStateM.Result Exn (Dec V) α) : Prop :=
  match r with
  | .ok _ d' => d'.Ok ∧ d'.frame=d.frame ∧ d'.rest=[] ∧ h=.stop d'.view
  | .error e d' => d'.frame=d.frame ∧ Fails h e d'

/-- The loop over constructs runs the walk. -/
theorem driveLoop_ends (c : Config V) {turns : ℕ} {d : Dec V} (hb : d.Between)
    (ht : d.n-d.pos < turns) :
    WalkEnds (Walk.run c (d.walk (.header d.pending none)) d.rest) d (driveLoop c turns d) := by
  induction turns generalizing d with
  | zero => omega
  | succ turns ih =>
    have hnext := nextWire_ends c hb.filled hb.pos none
    rw [driveLoop,run_bind]
    rw [NextEnds.eq_def] at hnext
    generalize nextWire c d=r at hnext
    cases r with
    | error e d' =>
      obtain ⟨hframe,⟨msg,q,rfl,h,k,pos,id,st,rfl,hpos⟩ | ⟨s,rest,h,hs,harg,hinc⟩⟩ := hnext
      · have hb' : Dec.Between {d with
            keep := k, pos := pos, curId := id, curSubtype := st, pending := q} :=
          ⟨hb.filled,hpos,hb.skip,hb.kind⟩
        rw [h]
        exact ⟨rfl,⟨msg,rfl⟩,hb'.ok,hb'.view,rfl⟩
      · rw [h]
        exact ⟨hframe,rfl,hinc,hs,fun ha => absurd ha harg⟩
    | ok t d' =>
      cases t with
      | none =>
        obtain ⟨h,hdep,hrest,k,pos,rfl,hpos⟩ := hnext
        have hb' : Dec.Between {d with keep := k, pos := pos, pending := none} :=
          ⟨hb.filled,hpos.2,hb.skip,hb.kind⟩
        exact ⟨hb'.ok,rfl,hrest,by rw [h,hb'.view]; rfl⟩
      | some t =>
        obtain ⟨tok,rest,hsuf,hlen,hmet,h⟩ := hnext
        have hdisp := dispatch_ends c hb hsuf hmet
        have hseek := seek_lt hb.filled hlen
        obtain ⟨hpos,hframe⟩ := hmet.frame
        have hmeet : Walk.meet c (d.walk (.header none none)) none tok rest=
          Walk.onToken c (d.walk (.header none none)) tok rest := rfl
        rw [h,hmeet]
        dsimp only
        rw [run_bind]
        generalize dispatch c t d'=r at hdisp
        cases r with
        | error e d₂ => exact ⟨hdisp.1.trans hframe,hdisp.2⟩
        | ok a d₂ =>
          obtain ⟨hb₂,hf₂,hp₂,hrun⟩ := hdisp
          have hn : d₂.n=d.n := congrArg Frame.n (hf₂.trans hframe)
          have hi := ih hb₂ (by omega)
          rw [hrun]
          dsimp only
          generalize driveLoop c turns d₂=r at hi
          cases r with
          | ok a d₃ => exact ⟨hi.1,hi.2.1.trans (hf₂.trans hframe),hi.2.2⟩
          | error e d₃ => exact ⟨hi.1.trans (hf₂.trans hframe),hi.2⟩

/-- A value is ready when all of its bytes are left. -/
theorem valueReady_eq {d : Dec V} (hd : d.Filled) {p : Pending} (hq : d.pending=some p) :
    valueReady d=p.ready d.rest := by
  have hl : d.rest.length=d.n-d.pos := restFrom_length hd d.pos
  rw [valueReady,hq,Pending.ready.eq_def,hl]
  cases p <;> rfl

/-- A suspended visit is resumed as the walk resumes it. -/
theorem resume_visit_ends (c : Config V) {d : Dec V} (hok : d.Ok) (hk : d.resumeKind=.visit)
    (hready : valueReady d) : Ends c (Walk.run c d.view d.rest) d (resume c d) := by
  obtain ⟨p,hq,hf⟩ := hok.visit hk
  have hskip : d.skipDepth=none := by
    have h := hok.skip
    rw [hk] at h
    simpa using h
  rw [valueReady_eq hok.filled hq] at hready
  have hb : Dec.Between {d with resumeKind := .none} := ⟨hok.filled,hok.pos,hskip,rfl⟩
  have hview : d.view=d.walk (.value d.curId d.route p true) := by
    rw [Dec.view,Dec.mode.eq_def,hk,hq]
  have hkind : ∀ d' : Dec V, ({d' with resumeKind := d.resumeKind} : Dec V)=
    {d' with resumeKind := .visit} := fun d' => by rw [hk]
  rcases Option.eq_none_or_eq_some d.resumeEntry with he | ⟨e,he⟩
  · have hroute : d.route=.visit d.curWtypeResume := by rw [Dec.route.eq_def,he]
    rw [hroute] at hf hview
    obtain ⟨ha,hv⟩ := hf
    obtain ⟨v,hv⟩ := Option.isSome_iff_exists.mp hv
    have hwas : suspended c d.resumeKind d.resumeEntry d.visitor d.curWtypeResume=
        visitValue c v d.curWtypeResume := by
      rw [hk,he,hv]
      rfl
    have hread := visitValue_run (c:=c) (v:=v) (d:={d with resumeKind := .none}) hok.filled hok.pos
      hq ha d.curWtypeResume
    have hprep : prepare c d.visitor d.curId (.visit d.curWtypeResume) p d.store=
        ((visitPlan c v d.curId d.curWtypeResume p).1.foldl Store.call d.store,
          (visitPlan c v d.curId d.curWtypeResume p).2) := by
      rw [hv]
      rfl
    have hvis : d.visitor.isSome := by rw [hv]; rfl
    rw [hview,resume,run_get_bind,run_modify_bind,hwas]
    refine (ends_read (d:={d with resumeKind := .none}) (p:=p) (r:=.visit d.curWtypeResume)
      (t:=d.curWtypeResume) (b:=true) hb ⟨ha,hvis⟩ (Or.inr hready) ?_ ?_).of_start rfl
      (Nat.le_refl _)
    · dsimp only
      rw [hprep]
      exact hread
    · intro k q s
      rw [hkind]
      show ({d with resumeKind := .visit, pending := some q, keep := k, store := s} : Dec V)=
        {d with
          resumeKind := .visit, resumeEntry := none, pending := some q, keep := k, store := s}
      rw [he]
  · have hroute : d.route=.mapped e := by rw [Dec.route.eq_def,he]
    rw [hroute] at hf hview
    have hwas : suspended c d.resumeKind d.resumeEntry d.visitor d.curWtypeResume=
        mappedField c e := by
      rw [hk,he]
      rfl
    have hread := mappedField_run (c:=c) (e:=e) (d:={d with resumeKind := .none}) hok.filled hok.pos
      hq hf d.visitor d.curId
    rw [hview,resume,run_get_bind,run_modify_bind,hwas]
    refine (ends_read (d:={d with resumeKind := .none}) (p:=p) (r:=.mapped e) (t:=d.curWtypeResume)
      (b:=true) hb hf (Or.inr hready) hread ?_).of_start rfl (Nat.le_refl _)
    intro k q s
    rw [hkind]
    show ({d with resumeKind := .visit, pending := some q, keep := k, store := s} : Dec V)=
      {d with
        resumeKind := .visit, resumeEntry := some e, pending := some q, keep := k, store := s}
    rw [he]

/-- A suspended skip is resumed as the walk resumes it. -/
theorem resume_skip_ends (c : Config V) {d : Dec V} (hok : d.Ok) (hk : d.resumeKind=.skip) :
    Ends c (Walk.run c d.view d.rest) d (resume c d) := by
  obtain ⟨target,ht⟩ := Option.isSome_iff_exists.mp (hok.skip.mpr hk)
  have hview : d.view=d.walk (.header d.pending (some target)) := by
    rw [Dec.view,Dec.mode.eq_def,hk,ht]
  have hwas : suspended c d.resumeKind d.resumeEntry d.visitor d.curWtypeResume=skipSequence c := by
    rw [hk]
    rfl
  have hskip := skipSequence_ends c (d:={d with resumeKind := .none}) hok.filled hok.pos rfl
    (show d.skipDepth.getD (d.depth-1)=target by rw [ht]; rfl) (hok.up target ht)
  rw [hview,resume,run_get_bind,run_modify_bind,hwas,hk]
  exact hskip.ends.of_start rfl (Nat.le_refl _)

/-- How the push driver ends; it may stop short of a value whose bytes have not
all arrived. -/
def DriveEnds (h : Halt (Walk V) UInt8 Exn) (d : Dec V) :
    EStateM.Result Exn (Dec V) Bool → Prop
  | .ok true d' => d'=d ∧ h=.wait d.view d.rest
  | .ok false d' => d'.Ok ∧ d'.frame=d.frame ∧ d'.rest=[] ∧ h=.stop d'.view
  | .error e d' => d'.frame=d.frame ∧ Fails h e d'

/-- What is left of a feed once nothing is suspended. -/
theorem driveLoop_drive (c : Config V) {d d₀ : Dec V} {h : Halt (Walk V) UInt8 Exn}
    (hb : d.Between) (hf : d.frame=d₀.frame)
    (hrun : h=Walk.run c (d.walk (.header d.pending none)) d.rest) :
    DriveEnds h d₀ ((driveLoop c (d.n-d.pos+1) >>= fun _ => (pure false : DecM V Bool)) d) := by
  have hloop := driveLoop_ends c hb (Nat.lt_succ_self (d.n-d.pos))
  rw [←hrun] at hloop
  rw [run_bind]
  generalize driveLoop c (d.n-d.pos+1) d=r at hloop
  cases r with
  | ok a d' => exact ⟨hloop.1,hloop.2.1.trans hf,hloop.2.2⟩
  | error e d' => exact ⟨hloop.1.trans hf,hloop.2⟩

/-- A resumed feed goes on to the constructs behind. -/
theorem resume_drive (c : Config V) {d : Dec V} (hne : d.resumeKind≠.none)
    (hends : Ends c (Walk.run c d.view d.rest) d (resume c d)) :
    DriveEnds (Walk.run c d.view d.rest) d ((do
      if d.resumeKind≠.none then resume c
      let d ← get
      driveLoop c (d.n-d.pos+1)
      pure false : DecM V Bool) d) := by
  rw [if_pos hne,run_bind]
  generalize resume c d=r at hends
  cases r with
  | error e d' => exact hends
  | ok a d' =>
    obtain ⟨hb,hf,-,hrun⟩ := hends
    exact driveLoop_drive c hb hf hrun

/-- The push driver runs the walk. -/
theorem drivePush_ends (c : Config V) {d : Dec V} (hok : d.Ok) :
    DriveEnds (Walk.run c d.view d.rest) d (drivePush c d) := by
  rw [drivePush,run_get_bind]
  by_cases hv : d.resumeKind=.visit
  · obtain ⟨p,hq,hf⟩ := hok.visit hv
    rw [if_neg (by rw [hq]; simp)]
    by_cases hready : valueReady d
    · rw [if_neg (by rw [hready]; simp)]
      exact resume_drive c (by rw [hv]; decide) (resume_visit_ends c hok hv hready)
    · rw [if_pos (by rw [hv]; simpa using hready)]
      rw [valueReady_eq hok.filled hq] at hready
      have hview : d.view=d.walk (.value d.curId d.route p true) := by
        rw [Dec.view,Dec.mode.eq_def,hv,hq]
      have hstep : Walk.step c d.view d.rest=.wait d.view d.rest := by
        rw [hview]
        exact if_pos (by simpa using hready)
      exact ⟨rfl,Walk.run_wait hstep⟩
  · rw [if_neg (by simp [hv]),if_neg (by simp [hv])]
    by_cases hs : d.resumeKind=.skip
    · exact resume_drive c (by rw [hs]; decide) (resume_skip_ends c hok hs)
    · have hnone : d.resumeKind=.none := by
        cases hk : d.resumeKind with
        | none => rfl
        | skip => exact absurd hk hs
        | visit => exact absurd hk hv
      have hskip : d.skipDepth=none := by
        have h := hok.skip
        rw [hnone] at h
        simpa using h
      have hb : d.Between := ⟨hok.filled,hok.pos,hskip,hnone⟩
      rw [if_neg (by simp [hnone]),hb.view]
      exact driveLoop_drive c hb rfl rfl

end SofaBuffers
