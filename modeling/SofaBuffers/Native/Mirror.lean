import SofaBuffers.Native.Decoder
import SofaBuffers.Tandem
import SofaBuffers.Walk.Short

/-!
# The two walks side by side

A compiled walk and an interpreted one that stand at the same place of the same bytes are at the
same place again behind the next header, behind a skipped sequence and behind a value: what one of
them reports the other reports, what one stores the other stores.
-/

set_option autoImplicit false

namespace SofaBuffers

open Resumable
open Dec

variable {V : Type}

/-- A value that may be left pending: one a header announces, or what is left of one. -/
def Pending.Left (p : Pending) : Prop := p.Sound ∨ ∃ a n v, p=.discard a n v

section Left

variable {p q : Pending} {xs rest : List UInt8}

/-- Of bytes and varints that end too early so many are left. -/
theorem dropDiscard_discard {a n v : ℕ} (h : dropDiscard a n v xs=.left q rest) :
    ∃ a n v, q=.discard a n v := by
  rw [dropDiscard] at h
  split at h
  · cases h
    exact ⟨_,_,_,rfl⟩
  · exact dropVarints_discard h

/-- Of a value of which nothing was dropped all is left, or so much of its payload. -/
theorem dropReal_kept (h : dropReal p xs=.left q rest) : q=p ∨ ∃ a n v, q=.discard a n v := by
  cases p with
  | scalar signed =>
    rw [dropReal] at h
    cases hv : Varint.read overlong xs with
    | done raw mid => rw [hv] at h; cases h
    | more => rw [hv] at h; cases h; exact Or.inl rfl
    | bad why => rw [hv] at h; cases h
  | fixlen st length => exact Or.inr (dropDiscard_discard h)
  | varray signed count => exact Or.inr (dropDiscard_discard h)
  | farray st count size =>
    rw [dropReal] at h
    split at h
    · cases h
      exact Or.inl rfl
    · exact Or.inr (dropDiscard_discard h)
  | limit msg q => cases h
  | discard a n v => cases h

/-- The value behind a parked cap may be left pending. -/
theorem Pending.Sound.real (h : p.Sound) : p.real.Sound where
  announced := h.announced.real
  count := (Native.Decoder.announced_count h.announced).trans_le h.count
  scalar := by
    intro signed hs
    rw [h.announced.real_real] at hs
    exact hs

/-- What dropping leaves of a value may be left pending. -/
theorem Pending.Left.drop (h : p.Left) (hx : p.drop xs=.left q rest) : q.Left := by
  have hreal : ∀ {r : Pending}, r.Sound → dropReal r xs=.left q rest → q.Left := by
    intro r hr hx
    rcases dropReal_kept hx with rfl | hd
    · exact Or.inl hr
    · exact Or.inr hd
  rcases h with hs | ⟨a,n,v,rfl⟩
  · cases p with
    | discard a n v => exact Or.inr (dropDiscard_discard hx)
    | limit msg r => exact hreal hs.real hx
    | scalar signed => exact hreal hs hx
    | fixlen st length => exact hreal hs hx
    | varray signed count => exact hreal hs hx
    | farray st count size => exact hreal hs hx
  · exact Or.inr (dropDiscard_discard hx)

/-- A value that was just announced may be left pending, a cap or not. -/
theorem park_sound (c : Config V) {id : ℕ} (h : readToken xs=.done (.value id p) rest) :
    (park c p).Sound := by
  obtain ⟨ha,hr⟩ := readToken_announced h
  have hn := readToken_sized h
  refine ⟨ha.park hr,?_,?_⟩
  · rw [Pending.count,park_real hr]
    rw [Pending.length,hr] at hn
    cases p with
    | varray signed count => exact hn
    | farray st count size => exact hn
    | scalar | fixlen | limit | discard => exact Nat.zero_le _
  · intro signed hs
    rw [park_real hr] at hs
    subst hs
    rw [park.eq_def]
    split <;> rfl

end Left

/-- The decoders keep the same, but for what each of them sets before it reads it. -/
inductive Akin : Dec V → Dec V → Prop
  /-- The decoders differ in five fields at most. -/
  | mk (d : Dec V) (keep id : ℕ) (st : Option FixlenSubtype) (w : WireType) (r : Option Entry) :
      Akin d {d with
        keep := keep, curId := id, curSubtype := st, curWtypeResume := w, resumeEntry := r}

namespace Native

/-- The decoders are at the same place in the middle of a walk, a table being current or not. -/
structure Level (mapped : Bool) (d d' : Dec V) : Prop where
  /-- The decoders keep the same state. -/
  akin : Akin d d'
  /-- The buffer holds what it is said to hold. -/
  filled : d.Filled
  /-- The cursor is in it. -/
  pos : d.pos ≤ d.n
  /-- No limit was reached. -/
  limit : d.limit=none
  /-- Nothing is suspended. -/
  kind : d.resumeKind=.none
  /-- What is pending may be. -/
  pending : ∀ p, d.pending=some p → p.Left
  /-- A table is current or not. -/
  mapped : d.bmap.isSome=mapped

/-- Both decoders were stopped by what is of one class, over one storage; where bytes are missing
they are at the same place. -/
structure Stopped (mapped : Bool) (why : Exn) (d : Dec V) (why' : Exn) (d' : Dec V) : Prop where
  /-- The two errors are of one class. -/
  cls : why.cls=why'.cls
  /-- The two storages are the same. -/
  store : d.store=d'.store
  /-- No limit is kept by either yet. -/
  limit : d.limit=none ∧ d'.limit=none
  /-- Where bytes are missing both can go on. -/
  waits : why.cls=.incomplete → Level mapped d d'

/-- What raises nothing foreign is followed. -/
def Excused (why : Exn) (_ : Dec V) : Prop := why.cls.Foreign

/-- Both decoders have read one header. -/
structure Seen (t : WireType) (d d' : Dec V) : Prop where
  /-- The header names one id to both. -/
  id : t≠.sequenceEnd → d.curId=d'.curId
  /-- The header names one subtype to both. -/
  st : t≠.sequenceEnd → d.curSubtype=d'.curSubtype
  /-- The value it announces is pending. -/
  value : t≠.sequenceEnd → t≠.sequenceStart →
    ∃ p, d.pending=some p ∧ p.Sound ∧ (t,d.curSubtype)=p.tag

section Headers

variable {c : Config V} {m : Bool} {d d' : Dec V} (swar : Bool)

/-- The bytes left are the same. -/
theorem Level.bytes (h : Level m d d') :
    d'.Filled ∧ d'.rest=d.rest ∧ d'.pos=d.pos ∧ d'.n=d.n ∧ d'.depth=d.depth ∧
      d'.pending=d.pending := by
  obtain ⟨ha,hd,hp,hl,hkind,hpend,hmap⟩ := h
  cases ha
  exact ⟨hd,rfl,rfl,rfl,rfl,rfl⟩

/-- Both decoders were refused a header. -/
theorem header_refused (h : Level m d d') {why : Exn} (hw : why.cls=.decode)
    {r r' : EStateM.Result Exn (Dec V) (Option WireType)} (hr : HeaderRefused r d why)
    (hr' : HeaderRefused r' d' why) {R : Option WireType → Dec V → Option WireType → Dec V → Prop} :
    Alongside Excused R (Stopped m) r r' := by
  obtain ⟨pos,id,st,rfl⟩ := hr
  obtain ⟨pos',id',st',rfl⟩ := hr'
  refine .error ⟨rfl,?_,?_,fun hi => ?_⟩
  · cases h.akin
    rfl
  · cases h.akin
    exact ⟨h.limit,h.limit⟩
  · rw [hw] at hi
    cases hi

/-- Both decoders read one header off the bytes left. -/
theorem readHeader_level (h : Level m d d') (hk : d.keep=d.pos) (hk' : d'.keep=d.pos) :
    Alongside Excused (fun t e t' e' => t=t' ∧ Level m e e' ∧ ∀ w, t=some w → Seen w e e')
      (Stopped m) (readHeader c d) (Decoder.readHeader swar c d') := by
  obtain ⟨hd',hsame,hpos,-,hdepth,-⟩ := h.bytes
  have hd := h.filled
  have hp := h.pos
  by_cases hrest : d.rest=[]
  · rw [readHeader_end c hd hrest,Decoder.readHeader_end swar c hd' (hsame.trans hrest),hdepth]
    by_cases hdep : d.depth≠0
    · rw [if_pos hdep,if_pos hdep,hk,hk']
      refine .error ⟨rfl,?_,?_,fun _ => ?_⟩
      all_goals cases h.akin
      · rfl
      · exact ⟨h.limit,h.limit⟩
      · exact ⟨.mk _ _ _ _ _ _,hd,hp,h.limit,h.kind,h.pending,h.mapped⟩
    · rw [if_neg hdep,if_neg hdep]
      exact .ok ⟨rfl,h,fun w hw => by cases hw⟩
  · have hone := readHeader_run c hd hrest
    have hother := Decoder.readHeader_run swar c hd' (by rwa [hsame])
    rw [hsame] at hother
    generalize readHeader c d=r at hone ⊢
    generalize Decoder.readHeader swar c d'=r' at hother ⊢
    cases ht : readToken d.rest with
    | more =>
      rw [ht] at hone hother
      obtain ⟨msg,id,st,rfl⟩ := hone
      obtain ⟨msg',id',st',rfl⟩ := hother
      rw [hk,hk']
      refine .error ⟨rfl,?_,?_,fun _ => ?_⟩
      all_goals cases h.akin
      · rfl
      · exact ⟨h.limit,h.limit⟩
      · exact ⟨.mk _ _ _ _ _ _,hd,hp,h.limit,h.kind,h.pending,h.mapped⟩
    | bad why =>
      rw [ht] at hone hother
      exact header_refused h (readToken_cls ht) hone hother
    | done tok rest =>
      rw [ht] at hone hother
      have hseek : d.seek rest ≤ d.n := by rw [seek]; omega
      cases tok with
      | value id p =>
        have hsound := park_sound c ht
        have hone : r=.ok (some p.tag.1) _ := hone
        have hother : r'=.ok (some p.tag.1) _ := hother
        rw [hone,hother]
        refine .ok ⟨rfl,?_,fun w hw => ?_⟩
        · cases h.akin
          exact ⟨.mk _ _ _ _ _ _,hd,hseek,h.limit,h.kind,fun q hq => by cases hq; exact Or.inl hsound,
            h.mapped⟩
        · cases hw
          refine ⟨fun _ => rfl,fun _ => rfl,fun _ _ => ⟨_,rfl,hsound,?_⟩⟩
          rw [park_tag]
      | start id =>
        rw [HeaderEnds.eq_def] at hone hother
        dsimp only at hone hother
        rw [hdepth] at hother
        by_cases hdep : maxDepth ≤ d.depth
        · rw [if_pos hdep] at hone hother
          exact header_refused h rfl hone hother
        · rw [if_neg hdep] at hone hother
          rw [hone,hother]
          refine .ok ⟨rfl,?_,fun w hw => ?_⟩
          · cases h.akin
            exact ⟨.mk _ _ _ _ _ _,hd,hseek,h.limit,h.kind,h.pending,h.mapped⟩
          · cases hw
            exact ⟨fun _ => rfl,fun _ => rfl,fun _ h => absurd rfl h⟩
      | stop =>
        rw [HeaderEnds.eq_def] at hone hother
        dsimp only at hone hother
        rw [hdepth] at hother
        by_cases hdep : d.depth ≤ 0
        · rw [if_pos hdep] at hone hother
          exact header_refused h rfl hone hother
        · rw [if_neg hdep] at hone hother
          obtain ⟨id,hone⟩ := hone
          obtain ⟨id',hother⟩ := hother
          rw [hone,hother]
          refine .ok ⟨rfl,?_,fun w hw => ?_⟩
          · cases h.akin
            exact ⟨.mk _ _ _ _ _ _,hd,hseek,h.limit,h.kind,h.pending,h.mapped⟩
          · cases hw
            exact ⟨fun h => absurd rfl h,fun h => absurd rfl h,fun h => absurd rfl h⟩

/-- Both decoders are armed at one place. -/
theorem Level.armed (h : Level m d d') :
    Level m {d with keep := d.pos} {d' with keep := d'.pos} := by
  obtain ⟨ha,hd,hp,hl,hkind,hpend,hmap⟩ := h
  cases ha
  exact ⟨.mk _ _ _ _ _ _,hd,hp,hl,hkind,hpend,hmap⟩

/-- Both decoders drop the pending value off the bytes left. -/
theorem skipPending_level (h : Level m d d') (hk : d.keep=d.pos) (hk' : d'.keep=d.pos) {p : Pending}
    (hq : d.pending=some p) :
    Alongside Excused (fun _ e _ e' => Level m e e') (Stopped m) (SofaBuffers.skipPending d)
      (Decoder.skipPending swar d') := by
  obtain ⟨hd',hsame,hpos,hn,-,hpend⟩ := h.bytes
  have hleft := h.pending p hq
  have hone := SofaBuffers.skipPending_run h.filled h.pos hk hq
  have hother := Decoder.skipPending_run swar hd' (by rw [hpos,hn]; exact h.pos) (by rw [hk',hpos])
    hleft (hpend.trans hq)
  rw [hsame] at hother
  generalize SofaBuffers.skipPending d=r at hone ⊢
  generalize Decoder.skipPending swar d'=r' at hother ⊢
  have hseek : ∀ rest, d.seek rest ≤ d.n := fun rest => by rw [seek]; omega
  cases hdrop : p.drop d.rest with
  | gone rest =>
    rw [hdrop] at hone hother
    have hone : r=.ok () _ := hone
    have hother : r'=.ok () _ := hother
    rw [hone,hother]
    refine .ok ?_
    cases h.akin
    exact ⟨.mk _ _ _ _ _ _,h.filled,hseek rest,h.limit,h.kind,(fun q hq => by cases hq),
      h.mapped⟩
  | left q rest =>
    rw [hdrop] at hone hother
    obtain ⟨msg,rfl⟩ := hone
    obtain ⟨msg',rfl⟩ := hother
    have hq := hleft.drop hdrop
    refine .error ⟨rfl,?_,?_,fun _ => ?_⟩
    all_goals cases h.akin
    · rfl
    · exact ⟨h.limit,h.limit⟩
    · exact ⟨.mk _ _ _ _ _ _,h.filled,hseek rest,h.limit,h.kind,fun q' h => by cases h; exact hq,
        h.mapped⟩
  | bad why =>
    rw [hdrop] at hone hother
    have hcls := (drop_cls hdrop).2
    obtain ⟨pos,q,rfl⟩ := hone
    obtain ⟨pos',q',rfl⟩ := hother
    refine .error ⟨rfl,?_,?_,fun hw => absurd hw hcls⟩
    all_goals cases h.akin
    · rfl
    · exact ⟨h.limit,h.limit⟩

/-- Both decoders walk to the next header. -/
theorem header_level (h : Level m d d') :
    Alongside Excused (fun t e t' e' => t=t' ∧ Level m e e' ∧ ∀ w, t=some w → Seen w e e')
      (Stopped m) (SofaBuffers.nextWire c d) (Decoder.header swar c d') := by
  have harmed := h.armed
  obtain ⟨-,-,hpos,-,-,hpend⟩ := h.bytes
  rw [SofaBuffers.nextWire,Decoder.header,arm_bind,arm_bind,run_get_bind,run_get_bind]
  show Alongside Excused _ _ ((if d.pending.isSome then _ else _ : DecM V _) {d with keep := d.pos})
    ((if d'.pending.isSome then _ else _ : DecM V _) {d' with keep := d'.pos})
  rcases Option.eq_none_or_eq_some d.pending with hq | ⟨p,hq⟩
  · rw [if_neg (by rw [hq]; decide),if_neg (by rw [hpend,hq]; decide)]
    exact readHeader_level swar harmed rfl hpos
  · rw [if_pos (by rw [hq]; rfl),if_pos (by rw [hpend,hq]; rfl)]
    refine (skipPending_level swar harmed rfl hpos hq).bind fun _ e _ e' he => ?_
    rw [arm_bind,arm_bind]
    exact readHeader_level swar he.armed rfl he.bytes.2.2.1

end Headers

/-- What only touches what both keep follows on the compiled decoder. -/
theorem Alongside.within {α β : Type} {X : Exn → Dec V → Prop} {R : α → Dec V → β → Dec V → Prop}
    {E : Exn → Dec V → Exn → Dec V → Prop} {r : EStateM.Result Exn (Dec V) α} {m' : DecM V β}
    {s : Decoder V} (h : Alongside X R E r (m' s.toDec)) :
    Alongside X
      (fun a e b s' => R a e b s'.toDec ∧ s'.curWtype=s.curWtype ∧ s'.resumeRow=s.resumeRow)
      (fun why e why' s' => E why e why' s'.toDec ∧ s'.curWtype=s.curWtype ∧
        s'.resumeRow=s.resumeRow) r (Native.within m' s) := by
  rw [Native.within]
  generalize m' s.toDec=r' at h
  cases h with
  | ok h => exact .ok ⟨h,rfl,rfl⟩
  | error h => exact .error ⟨h,rfl,rfl⟩
  | excused hx => exact .excused hx

section Skips

variable {c : Config V} {m : Bool} {d : Dec V} {s : Decoder V} (swar : Bool)

/-- Both decoders walk to the next header, and the compiled one publishes its wire type. -/
theorem nextWire_level (h : Level m d s.toDec) :
    Alongside Excused (fun t e t' s' => t=t' ∧ Level m e s'.toDec ∧ s'.curWtype=t ∧
        (t=none → d.depth=0) ∧ ∀ w, t=some w → Seen w e s'.toDec)
      (fun why e why' s' => Stopped m why e why' s'.toDec) (SofaBuffers.nextWire c d)
      (Decoder.nextWire swar c s) := by
  have hone := header_level (c:=c) swar h
  have hends := nextWire_ends c h.filled h.pos none
  have hdone : Alongside Excused (fun t e t' e' => t=t' ∧ Level m e e' ∧ (t=none → d.depth=0) ∧
      ∀ w, t=some w → Seen w e e') (Stopped m) (SofaBuffers.nextWire c d)
      (Decoder.header swar c s.toDec) := by
    rw [NextEnds.eq_def] at hends
    generalize SofaBuffers.nextWire c d=r,Decoder.header swar c s.toDec=r' at hone hends ⊢
    cases hone with
    | ok h =>
      refine .ok ⟨h.1,h.2.1,fun ht => ?_,h.2.2⟩
      subst ht
      exact hends.2.1
    | error h => exact .error h
    | excused hx => exact .excused hx
  have hwith := (Alongside.within hdone).imp (fun _ _ _ _ h => h) fun _ _ _ _ h => h.1
  refine hwith.onward fun t e t' s' h => ⟨t',{s' with curWtype := t'},rfl,?_⟩
  obtain ⟨⟨rfl,hlevel,hnone,hseen⟩,-⟩ := h
  exact ⟨rfl,hlevel,rfl,hnone,hseen⟩

/-- Both decoders go on skipping. -/
theorem Level.skipping {d' : Dec V} (h : Level m d d') (t : Option ℕ) :
    Level m {d with skipDepth := t} {d' with skipDepth := t} := by
  obtain ⟨ha,hd,hp,hl,hkind,hpend,hmap⟩ := h
  cases ha
  exact ⟨.mk _ _ _ _ _ _,hd,hp,hl,hkind,hpend,hmap⟩

/-- Both decoders walk back to a depth. -/
theorem skipTo_level (target : ℕ) {turns : ℕ} (h : Level m d s.toDec) :
    Alongside Excused (fun _ e _ s' => Level m e s'.toDec)
      (fun why e why' s' => Stopped m why e why' s'.toDec) (SofaBuffers.skipTo c target turns d)
      (Decoder.skipTo swar c target turns s) := by
  induction turns generalizing d s with
  | zero =>
    refine .error ⟨rfl,?_,?_,fun hw => by cases hw⟩
    · obtain ⟨d',t,r⟩ := s
      cases h.akin
      rfl
    · obtain ⟨d',t,r⟩ := s
      cases h.akin
      exact ⟨h.limit,h.limit⟩
  | succ turns ih =>
    rw [SofaBuffers.skipTo,Decoder.skipTo,run_get_bind,run_get_bind,h.bytes.2.2.2.2.1]
    by_cases hlt : target < d.depth
    · rw [if_pos hlt,if_pos hlt]
      refine (nextWire_level swar h).bind fun t e t' s' he => ?_
      obtain ⟨rfl,hlevel,-,hnone,-⟩ := he
      cases t with
      | none =>
        have := hnone rfl
        omega
      | some w => exact ih hlevel
    · rw [if_neg hlt,if_neg hlt]
      exact .ok (h.skipping none)

/-- Both decoders skip a sequence, from the start marker just read or from inside it. -/
theorem skip_level (h : Level m d s.toDec)
    (hin : d.skipDepth.isSome ∨ s.curWtype=some .sequenceStart) :
    Alongside Excused (fun _ e _ s' => Level m e s'.toDec)
      (fun why e why' s' => Stopped m why e why' s'.toDec) (SofaBuffers.skipSequence c d)
      (Decoder.skip swar c s) := by
  obtain ⟨-,-,hpos,hn,hdepth,-⟩ := h.bytes
  have hskip : s.skipDepth=d.skipDepth := by
    obtain ⟨d',t,r⟩ := s
    cases h.akin
    rfl
  rw [SofaBuffers.skipSequence,Decoder.skip,run_get_bind,run_get_bind,hskip,hdepth,hn,hpos]
  rw [if_pos (by simpa using hin),run_modify_bind,run_modify_bind]
  exact skipTo_level swar _ (h.skipping _)

end Skips

/-- The compiled tables stand for the tables a decoder is given, whose rows keep to words and to the
storage. -/
structure Fits (c : Config V) (k : Option Compiled) : Prop where
  /-- There are tables to both or to none. -/
  tables : k.isSome=c.forest.isSome
  /-- The rows are found. -/
  found : ∀ r id, Found (k.getD {}) r id (c.lookup r id)
  /-- The same tables are closed. -/
  closed : ∀ r, ((k.getD {}).table r).closed=c.closed r
  /-- The declared widths are those of words. -/
  worded : ∀ r id e, c.lookup r id=some e → e.Worded
  /-- The arrays have their slots. -/
  room : ∀ r id e, c.lookup r id=some e → e.kind.isArray=true → e.slot+e.cap ≤ c.nwords

/-- A row that is laid out stands for one that keeps to words and to the storage. -/
structure Laid (c : Config V) (k : Compiled) (b : BEntry) (e : Entry) : Prop where
  /-- It stands for it. -/
  stands : Stands k b e
  /-- The declared widths are those of words. -/
  worded : e.Worded
  /-- An array has its slots. -/
  room : e.kind.isArray=true → e.slot+e.cap ≤ c.nwords

/-- The rows both decoders are suspended at, if they are at one. -/
inductive Routed (c : Config V) (k : Compiled) (p : Pending) (w : WireType) :
    Option Entry → Option ℕ → Prop
  /-- At the handler: the interpreted decoder keeps the wire type by itself. -/
  | visit (hw : w=p.tag.1) : Routed c k p w none none
  /-- The value goes to a row. -/
  | mapped {e : Entry} {ei : ℕ} {b : BEntry} (hb : k.bent[ei]?=some b) (hl : Laid c k b e)
      (ht : e.Takes p) : Routed c k p w (some e) (some ei)

/-- Both decoders are suspended at one value. -/
structure Resumes (c : Config V) (k : Compiled) (d : Dec V) (s : Decoder V) (p : Pending) :
    Prop where
  /-- A header announced it. -/
  sound : p.Sound
  /-- The wire type that is kept is that of the value's header. -/
  wtype : s.curWtype=some p.tag.1
  /-- The id that is kept is that of the value's header. -/
  id : d.curId=s.curId
  /-- The value goes to one row, or to the handler. -/
  route : Routed c k p d.curWtypeResume d.resumeEntry s.resumeRow

/-- Between two feeds the compiled decoder mirrors the interpreted one. -/
structure Mirrors (c : Config V) (k : Compiled) (d : Dec V) (s : Decoder V) : Prop where
  /-- The decoders keep the same state. -/
  akin : Akin d s.toDec
  /-- No limit was reached. -/
  limit : d.limit=none
  /-- What is pending may be. -/
  pending : ∀ p, d.pending=some p → p.Left
  /-- A value they are suspended at is one. -/
  visit : d.resumeKind=.visit → ∀ p, d.pending=some p → Resumes c k d s p

/-- Both walks were stopped by what is of one class, over one storage; where bytes are missing the
decoders still mirror each other. -/
structure Halted (c : Config V) (k : Compiled) (why : Exn) (d : Dec V) (why' : Exn)
    (s : Decoder V) : Prop where
  /-- The two errors are of one class. -/
  cls : why.cls=why'.cls
  /-- The two storages are the same. -/
  store : d.store=s.store
  /-- No limit is kept by either yet. -/
  limit : d.limit=none ∧ s.limit=none
  /-- Where bytes are missing both can go on. -/
  waits : why.cls=.incomplete → Mirrors c k d s

section Suspensions

variable {c : Config V} {k : Compiled} {m : Bool} {d : Dec V} {s : Decoder V}

/-- Decoders in the middle of a walk mirror each other where they are stopped. -/
theorem Level.mirrors (h : Level m d s.toDec) : Mirrors c k d s :=
  ⟨h.akin,h.limit,h.pending,fun hk => by rw [h.kind] at hk; cases hk⟩

/-- What stopped both in the middle of a header stopped both walks. -/
theorem Stopped.halted {why why' : Exn} (h : Stopped m why d why' s.toDec) :
    Halted c k why d why' s :=
  ⟨h.cls,h.store,h.limit,fun hw => (h.waits hw).mirrors⟩

/-- Both decoders suspend at what ran out of bytes. -/
theorem onIncomplete_halted {α β : Type} {R : α → Dec V → β → Decoder V → Prop}
    {E : Exn → Dec V → Exn → Decoder V → Prop} {mi : DecM V α} {mn : NatM V β}
    {f : Dec V → Dec V} {g : Decoder V → Decoder V} (h : Alongside Excused R E (mi d) (mn s))
    (hcls : ∀ why e why' s', E why e why' s' → why.cls=why'.cls)
    (hwait : ∀ why e why' s', E why e why' s' → why.cls=.incomplete →
      Halted c k why (f e) why' (g s'))
    (hother : ∀ why e why' s', E why e why' s' → why.cls≠.incomplete → Halted c k why e why' s') :
    Alongside Excused R (Halted c k) (SofaBuffers.onIncomplete mi f d)
      (onIncomplete mn g s) := by
  rw [SofaBuffers.onIncomplete,onIncomplete]
  generalize mi d=r,mn s=r' at h
  cases h with
  | ok h => exact .ok h
  | @error why why' e s' h =>
    have hone := hcls _ _ _ _ h
    cases why with
    | incomplete msg =>
      cases why' with
      | incomplete msg' => exact .error (hwait _ _ _ _ h rfl)
      | _ => cases hone
    | _ =>
      cases why' with
      | incomplete msg' => cases hone
      | _ => exact .error (hother _ _ _ _ h (by intro hw; cases hw))
  | @excused why e r hx =>
    cases why with
    | incomplete msg => exact absurd hx id
    | _ => exact .excused hx

end Suspensions

/-- Both reads of a value were stopped alike; where bytes are missing it is pending as it was
prepared. -/
structure Cut (d d' : Dec V) (t : WireType) (q : Pending) (why : Exn) (e : Dec V) (why' : Exn)
    (e' : Dec V) : Prop where
  /-- The two errors are of one class. -/
  cls : why.cls=why'.cls
  /-- The two storages are the same. -/
  store : e.store=e'.store
  /-- No limit is kept by either yet. -/
  limit : e.limit=none ∧ e'.limit=none
  /-- The value is pending. -/
  waits : why.cls=.incomplete → ∃ keep keep' s,
    e={d with curWtypeResume := t, keep := keep, pending := some q, store := s} ∧
      e'={d' with keep := keep', pending := some q, store := s}

section Values

variable {c : Config V} {k : Compiled} {m : Bool} {d : Dec V} {s : Decoder V}

/-- Both decoders read one value. -/
theorem read_level {d' : Dec V} (h : Level m d d') {t : WireType} {q : Pending} {rd : Reading V}
    {r r' : EStateM.Result Exn (Dec V) Unit} (hone : ReadEnds r {d with curWtypeResume := t} q rd)
    (hother : ReadLike r' d' q rd) :
    Alongside Excused (fun _ e _ e' => Level m e e') (Cut d d' t q) r r' := by
  have hlim : d'.limit=none := by
    cases h.akin
    exact h.limit
  have hframe : ∀ {e e' : Dec V}, e.frame=e'.frame → e'.limit=none → e.limit=none :=
    fun hf hn => (congrArg Frame.limit hf).trans hn
  cases hother with
  | foreign hx σ =>
    obtain ⟨-,e,rfl,-⟩ := hone
    exact .excused hx
  | reads hother hl =>
    cases hl with
    | done σ rest =>
      obtain ⟨keep,rfl⟩ := hone
      obtain ⟨keep',rfl⟩ := hother
      have hseek : d.seek rest ≤ d.n := by rw [seek]; omega
      refine .ok ?_
      cases h.akin
      exact ⟨.mk _ _ _ _ _ _,h.filled,hseek,h.limit,h.kind,(fun p hp => by cases hp),h.mapped⟩
    | more σ =>
      obtain ⟨msg,keep,rfl⟩ := hone
      obtain ⟨msg',keep',rfl⟩ := hother
      exact .error ⟨rfl,rfl,⟨h.limit,hlim⟩,fun _ => ⟨keep,keep',σ,rfl,rfl⟩⟩
    | bad hw σ =>
      obtain ⟨hcls,e,rfl,hs,hf,-⟩ := hone
      obtain ⟨-,e',rfl,hs',hf',-⟩ := hother
      exact .error ⟨hw,hs.trans hs'.symm,⟨hframe hf h.limit,hframe hf' hlim⟩,
        fun hi => absurd hi hcls⟩
    | foreign hx σ _ =>
      obtain ⟨-,e,rfl,-⟩ := hone
      exact .excused hx

/-- A value a cap may park has the tag of the value itself. -/
theorem tag_real {p : Pending} (h : p.Announced) : p.real.tag=p.tag := by
  cases p <;> rfl

/-- Both decoders suspend at a value they could not read. -/
theorem Cut.halted {d' : Dec V} {t : WireType} {p q : Pending} {r : Option Entry}
    {row : Option ℕ} {why why' : Exn} {e : Dec V} {s' : Decoder V}
    (hcut : Cut d d' t q why e why' s'.toDec) (hw : why.cls=.incomplete) (h : Level m d d')
    (hp : p.Sound) (hq : q=p ∨ q=p.real) (hid : d.curId=d'.curId)
    (hwt : s'.curWtype=some p.tag.1) (hroute : Routed c k q t r row) :
    Halted c k why {e with resumeKind := .visit, resumeEntry := r} why'
      {s' with resumeKind := .visit, resumeRow := row} := by
  refine ⟨hcut.cls,hcut.store,hcut.limit,fun _ => ?_⟩
  obtain ⟨keep,keep',σ,rfl,he⟩ := hcut.waits hw
  obtain ⟨e',wt,row'⟩ := s'
  dsimp only at he hwt
  subst he
  have hsound : q.Sound := by
    rcases hq with rfl | rfl
    · exact hp
    · exact hp.real
  have htag : q.tag=p.tag := by
    rcases hq with rfl | rfl
    · rfl
    · exact tag_real hp.announced
  cases h.akin
  refine ⟨.mk _ _ _ _ _ _,h.limit,fun q' hq' => ?_,fun _ q' hq' => ?_⟩
  · cases hq'
    exact Or.inl hsound
  · cases hq'
    exact ⟨hsound,by rw [htag]; exact hwt,hid,hroute⟩

/-- What stopped both at a value stopped both walks. -/
theorem Cut.stopped {d' e : Dec V} {t : WireType} {q : Pending} {why why' : Exn} {s' : Decoder V}
    (h : Cut d d' t q why e why' s'.toDec) (hw : why.cls≠.incomplete) : Halted c k why e why' s' :=
  ⟨h.cls,h.store,h.limit,fun hi => absurd hi hw⟩

/-- Both decoders read one value, or suspend at it. -/
theorem value_level (h : Level m d s.toDec) {p q : Pending} (hp : p.Sound) (hq : q=p ∨ q=p.real)
    (hid : d.curId=s.curId) (hwt : s.curWtype=some p.tag.1) {t : WireType} {rd : Reading V}
    {mi mn : DecM V Unit} (hone : ReadEnds (mi d) {d with curWtypeResume := t} q rd)
    (hother : ReadLike (mn s.toDec) s.toDec q rd) {r : Option Entry} {row : Option ℕ}
    (hroute : Routed c k q t r row) {f : Dec V → Dec V} {g : Decoder V → Decoder V}
    (hf : ∀ e, e.resumeEntry=d.resumeEntry → f e={e with resumeKind := .visit, resumeEntry := r})
    (hg : ∀ s', s'.resumeRow=s.resumeRow → g s'={s' with resumeKind := .visit, resumeRow := row}) :
    Alongside Excused (fun _ e _ s' => Level m e s'.toDec) (Halted c k)
      (SofaBuffers.onIncomplete mi f d) (onIncomplete (within mn) g s) := by
  have hread : Alongside Excused (fun _ e _ s' => Level m e s'.toDec) _ (mi d) (within mn s) :=
    (Alongside.within (read_level h hone hother)).imp (fun _ _ _ _ h => h.1) fun _ _ _ _ h => h
  refine onIncomplete_halted hread (fun _ _ _ _ h => h.1.cls) ?_ fun _ _ _ _ h hw => h.1.stopped hw
  intro why e why' s' hcut hw
  obtain ⟨hcut,hwt',hrow⟩ := hcut
  have he : e.resumeEntry=d.resumeEntry := by
    obtain ⟨keep,keep',σ,rfl,-⟩ := hcut.waits hw
    rfl
  rw [hf e he,hg s' hrow]
  exact hcut.halted hw h hp hq hid (hwt'.trans hwt) hroute

/-- The method is looked at where it is called only. -/
theorem onIncomplete_congr {α : Type} {mn mn' : NatM V α} {g : Decoder V → Decoder V}
    (h : mn s=mn' s) : onIncomplete mn g s=onIncomplete mn' g s := by
  rw [onIncomplete,onIncomplete,h]

/-- Both decoders store the value of a row, or suspend at it. -/
theorem mapped_level (swar : Bool) (h : Level m d s.toDec) {p : Pending} (hq : d.pending=some p)
    (hp : p.Sound) (hid : d.curId=s.curId) (hwt : s.curWtype=some p.tag.1) {e : Entry} {ei : ℕ}
    {b : BEntry} (hb : k.bent[ei]?=some b) (hl : Laid c k b e) (ht : e.Takes p)
    {f : Dec V → Dec V} {g : Decoder V → Decoder V} (hf : ∀ e', e'.resumeEntry=d.resumeEntry →
      f e'={e' with resumeKind := .visit, resumeEntry := some e})
    (hg : ∀ s', s'.resumeRow=s.resumeRow →
      g s'={s' with resumeKind := .visit, resumeRow := some ei}) :
    Alongside Excused (fun _ e _ s' => Level m e s'.toDec) (Halted c k)
      (SofaBuffers.onIncomplete (SofaBuffers.mappedField c e) f d)
      (onIncomplete (Decoder.storeMapped swar c k b) g s) := by
  have hsame : Decoder.storeMapped swar c k b s=within (Decoder.mappedField swar c k b p.tag.1) s := by
    rw [Decoder.storeMapped,run_get_bind,hwt]
    rfl
  rw [onIncomplete_congr hsame]
  have hfits := prepare_fits (c:=c) (d:=d) (r:=.mapped e) ht d.curId d.store
  have hpend : (prepare c d.visitor d.curId (.mapped e) p d.store).2.1=p ∨
      (prepare c d.visitor d.curId (.mapped e) p d.store).2.1=p.real :=
    Walk.prepare_pending hp.announced
  have hone := mappedField_run (c:=c) h.filled h.pos hq ht d.visitor d.curId
  obtain ⟨d',wt,row⟩ := s
  have hd' : d'.Filled := h.bytes.1
  have hother : ReadLike (Decoder.mappedField swar c k b p.tag.1 d') d'
      (prepare c d.visitor d.curId (.mapped e) p d.store).2.1
      ((prepare c d.visitor d.curId (.mapped e) p d.store).2.2.read c
        (prepare c d.visitor d.curId (.mapped e) p d.store).1 d.rest) := by
    cases h.akin
    exact Decoder.mappedField_like swar hl.stands hl.worded ht hl.room hp.count hd' h.pos hq
      d.visitor d.curId
  exact value_level (t:=d.curWtypeResume) h hp hpend hid hwt hone hother (.mapped hb hl hfits) hf hg

/-- Both decoders hand a value to the handler, or suspend at it. -/
theorem visit_level (swar : Bool) (h : Level m d s.toDec) {p : Pending} (hq : d.pending=some p)
    (hp : p.Sound) (hid : d.curId=s.curId) (hwt : s.curWtype=some p.tag.1) {v : V}
    (hv : Decoder.Plain (c.hooks v)) {f : Dec V → Dec V} {g : Decoder V → Decoder V}
    (hf : ∀ e', e'.resumeEntry=d.resumeEntry →
      f e'={e' with resumeKind := .visit, resumeEntry := none})
    (hg : ∀ s', s'.resumeRow=s.resumeRow → g s'={s' with resumeKind := .visit, resumeRow := none}) :
    Alongside Excused (fun _ e _ s' => Level m e s'.toDec) (Halted c k)
      (SofaBuffers.onIncomplete (SofaBuffers.visitValue c v p.tag.1) f d)
      (onIncomplete (Decoder.visit swar c v) g s) := by
  have hsame : Decoder.visit swar c v s=within (Decoder.visitValue swar c v p.tag.1) s := by
    rw [Decoder.visit,run_get_bind,hwt]
    rfl
  rw [onIncomplete_congr hsame]
  have hpend : (visitPlan c v d.curId p.tag.1 p).2.1=p ∨
      (visitPlan c v d.curId p.tag.1 p).2.1=p.real :=
    visitPlan_pending v d.curId p.tag.1 p
  have htag : (visitPlan c v d.curId p.tag.1 p).2.1.tag=p.tag := by
    rcases hpend with hr | hr <;> rw [hr]
    exact tag_real hp.announced
  have hone := visitValue_run (c:=c) (v:=v) h.filled h.pos hq hp.announced p.tag.1
  obtain ⟨d',wt,row⟩ := s
  have hd' : d'.Filled := h.bytes.1
  have hother : ReadLike (Decoder.visitValue swar c v p.tag.1 d') d'
      (visitPlan c v d.curId p.tag.1 p).2.1
      ((visitPlan c v d.curId p.tag.1 p).2.2.read c
        ((visitPlan c v d.curId p.tag.1 p).1.foldl Store.call d.store) d.rest) := by
    have hlike := Decoder.visitValue_like (c:=c) (d:=d') swar hv hp hd'
      (by rw [h.bytes.2.2.1,h.bytes.2.2.2.1]; exact h.pos) (h.bytes.2.2.2.2.2.trans hq)
    have hsame : d'.curId=d.curId := hid.symm
    rw [hsame] at hlike
    cases h.akin
    exact hlike
  exact value_level h hp hpend hid hwt hone hother (.visit (by rw [htag])) hf hg

end Values

end Native

end SofaBuffers
