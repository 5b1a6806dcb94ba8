import SofaBuffers.Walk.Welcome
import SofaBuffers.Walk.Progress

/-!
# Walking whole constructs

Under a handler that welcomes everything the walk takes every whole construct,
and its verdict on the first one that is not whole is the grammar's.
-/

set_option autoImplicit false

namespace SofaBuffers

open Resumable

variable {V : Type}

/-- The handlers suspended by descents, each for a scope above the next one's and
below a depth. -/
inductive Stacked : List (V × ℕ) → ℕ → Prop
  /-- No handler is suspended. -/
  | nil (d : ℕ) : Stacked [] d
  /-- One is, for a scope below the depth. -/
  | cons {v : V} {e d : ℕ} {rest : List (V × ℕ)} (h : e < d) : Stacked rest e → Stacked ((v,e)::rest) d

/-- A handler may be suspended for a deeper scope. -/
theorem Stacked.mono {st : List (V × ℕ)} {d e : ℕ} (h : Stacked st d) (hd : d ≤ e) : Stacked st e := by
  cases h with
  | nil => exact .nil e
  | cons h hr => exact .cons (by omega) hr

/-- At most one handler is suspended to a depth. -/
theorem Stacked.length_le {st : List (V × ℕ)} {d : ℕ} (h : Stacked st d) : st.length ≤ d := by
  induction h with
  | nil => exact Nat.zero_le _
  | cons h _ ih => rw [List.length_cons]; omega

/-- Leading words are some bytes. -/
theorem Announces.ne_nil {hd : List UInt8} {l : Lead} (h : Announces hd l) (rest : List UInt8) :
    hd++rest≠[] := by
  intro hnil
  have hr := h.read rest
  rw [hnil] at hr
  cases hr

/-- The handlers welcome everything, there is no table, and the caps are the
format's ceilings. -/
structure Config.Welcoming (c : Config V) : Prop where
  /-- There is no table. -/
  table : c.forest=none
  /-- Array counts are not capped. -/
  array : c.maxDynArrayCount=arrayMax
  /-- String lengths are not capped. -/
  string : c.maxDynStringLen=fixlenMax
  /-- Blob lengths are not capped. -/
  blob : c.maxDynBlobLen=fixlenMax
  /-- Every handler welcomes everything. -/
  hooks : ∀ v, (c.hooks v).Welcoming

/-- A decoder of welcoming handlers parks nothing. -/
theorem Config.Welcoming.park {c : Config V} (h : c.Welcoming) (p : Pending) : park c p=p := by
  have hcap : c.capped=false := by
    rw [Config.capped,h.array,h.string,h.blob]
    simp
  rw [SofaBuffers.park.eq_def,hcap]
  rfl

/-- A handler is between two constructs, so many sequences being open. -/
structure Walk.Ready (s : Walk V) (d : ℕ) : Prop where
  /-- It is between two constructs. -/
  between : s.mode=.header none none
  /-- So many sequences are open. -/
  depth : s.depth=d
  /-- There is a handler. -/
  handler : ∃ v, s.visitor=some v
  /-- There is no table. -/
  table : s.bmap=none
  /-- No table is suspended. -/
  tables : s.bstack=[]
  /-- The handlers suspended are those of open scopes. -/
  stacked : Stacked s.vstack d

namespace Walk

section Ready

variable {c : Config V} {s : Walk V} {d : ℕ}

/-- Storage is not the walk's. -/
theorem Ready.store (h : s.Ready d) (σ : Store V) : ({s with store := σ} : Walk V).Ready d :=
  ⟨h.between,h.depth,h.handler,h.table,h.tables,h.stacked⟩

/-- Leading words are met. -/
theorem Ready.meets (h : s.Ready d) {hd : List UInt8} {l : Lead} (ha : Announces hd l)
    (rest : List UInt8) : step c s (hd++rest)=onToken c s l.token rest := by
  rw [step,h.between]
  dsimp only
  rw [headerStep,if_neg (ha.ne_nil rest),ha.read rest]
  rfl

/-- An announced value is the handler's. -/
theorem Ready.value (hc : c.Welcoming) (h : s.Ready d) {hd : List UInt8} {id : ℕ} {x : Extent}
    (ha : Announces hd (.value id x)) (xs : List UInt8) :
    ∃ σ, run c s (hd++xs)=run c {s with
      mode := .value id (.visit x.pending.tag.1) x.pending false, store := σ} xs := by
  obtain ⟨v,hv⟩ := h.handler
  have hm := h.meets (c:=c) ha xs
  rw [Lead.token,onToken,hc.park,startValue,matched,named,h.table] at hm
  simp only [Option.bind_none,Option.filter_none,Option.isSome_none,Option.any_none,
    Bool.false_or,Bool.false_eq_true,if_false,hv] at hm
  have hfield : (fieldOffer c v id x.pending).2=true := by
    rw [fieldOffer]
    cases hf : (c.hooks v).onField with
    | none => rfl
    | some g => exact (hc.hooks v).field g hf _
  have hbound : (boundOffer c v id x.pending).2=none := by
    rw [boundOffer.eq_def]
    split
    · next g n wt st hg _ =>
      dsimp only
      rw [if_pos ((hc.hooks v).bound g hg id n wt st)]
    · rfl
  rw [offerField] at hm
  simp only [hfield,hbound,if_true,settled] at hm
  exact ⟨_,run_next hm⟩

/-- A value is read by the plan its handler's answers make. -/
theorem Ready.reads (hc : c.Welcoming) (h : s.Ready d) (id : ℕ) {x : Extent} (hx : x.Small)
    (σ : Store V) (xs : List UInt8) :
    ∃ (pl : Plan V) (p : Pending) (τ : Store V), pl.Mild c x ∧
      run c {s with mode := .value id (.visit x.pending.tag.1) x.pending false, store := σ} xs=
        match pl.read c τ xs with
        | .done σ rest => run c {s with store := σ} rest
        | .more σ => .wait {s with
            mode := .value id (.visit x.pending.tag.1) p true, store := σ} xs
        | .bad why σ => .fail why {s with mode := .header (some p) none, store := σ} xs := by
  obtain ⟨v,hv⟩ := h.handler
  obtain ⟨mode,depth,visitor,vstack,bmap,bstack,store⟩ := s
  obtain ⟨hbetween,-,-,-,-,-⟩ := h
  dsimp only at hv hbetween ⊢
  subst hv hbetween
  refine ⟨_,(visitPlan c v id x.pending.tag.1 x.pending).2.1,
    (visitPlan c v id x.pending.tag.1 x.pending).1.foldl Store.call σ,
    visitPlan_mild (hc.hooks v) id hx,?_⟩
  rw [run_finish,step]
  dsimp only
  rw [if_neg (by simp),valueStep,prepare]
  dsimp only
  generalize (visitPlan c v id x.pending.tag.1 x.pending).2.2.read c
    ((visitPlan c v id x.pending.tag.1 x.pending).1.foldl Store.call σ) xs=r
  cases r <;> rfl

/-- A whole value is taken. -/
theorem Ready.whole (hc : c.Welcoming) (h : s.Ready d) {hd bs : List UInt8} {id : ℕ} {x : Datum}
    (ha : Announces hd (.value id x.extent)) (hb : Body x bs) (ht : x.Textual)
    (rest : List UInt8) : ∃ s' : Walk V, s'.Ready d ∧ run c s (hd++(bs++rest))=run c s' rest := by
  obtain ⟨σ,hv⟩ := h.value hc ha (bs++rest)
  obtain ⟨pl,p,τ,hpl,hr⟩ := h.reads hc id ha.small σ (bs++rest)
  obtain ⟨σ',hw⟩ := hpl.whole hb ht τ rest
  rw [hw] at hr
  exact ⟨_,h.store σ',hv.trans hr⟩

/-- A sequence is entered. -/
theorem Ready.start (hc : c.Welcoming) (h : s.Ready d) {hd : List UInt8} {id : ℕ}
    (ha : Announces hd (.start id)) (hd' : d < maxDepth) (rest : List UInt8) :
    ∃ s' : Walk V, s'.Ready (d+1) ∧ run c s (hd++rest)=run c s' rest := by
  obtain ⟨v,hv⟩ := h.handler
  have hm := h.meets (c:=c) ha rest
  have hstack := h.stacked
  have hlen := hstack.length_le
  rw [Lead.token,onToken,h.depth,if_neg (by omega),startSequence,matched] at hm
  simp only [h.table,Option.bind_none,Option.filter_none,Option.any_none,Bool.false_eq_true,
    if_false,hv] at hm
  rw [startVisited] at hm
  have hskip : (sequenceOffer c v id).2≠.skip := by
    rw [sequenceOffer]
    cases hf : (c.hooks v).onSequenceBegin with
    | none => simp
    | some g => exact (hc.hooks v).sequence g hf id
  have hhide : ∀ u : Walk V, hideMap c u=some u := by
    intro u
    rw [hideMap,hc.table]
    exact if_neg (by simp)
  cases hans : (sequenceOffer c v id).2 with
  | skip => exact absurd hans hskip
  | stay =>
    rw [hans] at hm
    dsimp only at hm
    rw [hhide] at hm
    refine ⟨_,?_,run_next hm⟩
    exact ⟨rfl,rfl,⟨v,rfl⟩,rfl,h.tables,hstack.mono (by omega)⟩
  | descend child =>
    rw [hans] at hm
    dsimp only at hm
    rw [hhide] at hm
    dsimp only at hm
    rw [pushVisitor,if_pos (by dsimp only; omega)] at hm
    refine ⟨_,?_,run_next hm⟩
    have hstack' : Stacked ((v,d+1-1)::s.vstack) (d+1) :=
      .cons (by omega) (hstack.mono (by omega))
    exact ⟨rfl,rfl,⟨child,rfl⟩,rfl,h.tables,hstack'⟩

/-- A sequence is left. -/
theorem Ready.stop (h : s.Ready (d+1)) {hd : List UInt8} (ha : Announces hd .stop)
    (rest : List UInt8) : ∃ s' : Walk V, s'.Ready d ∧ run c s (hd++rest)=run c s' rest := by
  obtain ⟨v,hv⟩ := h.handler
  have hm := h.meets (c:=c) ha rest
  rw [Lead.token,onToken,if_neg (by rw [h.depth]; omega)] at hm
  refine ⟨_,?_,run_next hm⟩
  obtain ⟨mode,depth,visitor,vstack,bmap,bstack,store⟩ := s
  obtain ⟨-,hdepth,-,htable,htables,hstack⟩ := h
  dsimp only at hv hdepth htable htables hstack ⊢
  subst hv hdepth htable htables
  rw [endSequence,closeScope]
  dsimp only [call]
  rw [popVisitor.eq_def]
  cases hstack with
  | nil => exact ⟨rfl,rfl,⟨v,rfl⟩,rfl,rfl,.nil d⟩
  | @cons w e _ st he hr =>
    dsimp only
    by_cases hed : e=d+1-1
    · rw [if_pos hed]
      exact ⟨rfl,rfl,⟨w,rfl⟩,rfl,rfl,hr.mono (by omega)⟩
    · rw [if_neg hed]
      exact ⟨rfl,rfl,⟨v,rfl⟩,rfl,rfl,.cons (by omega) hr⟩

/-- Whole constructs are taken. -/
theorem Ready.leads (hc : c.Welcoming) {e : ℕ} {done : List UInt8} (hl : Leads d done e)
    (h : s.Ready d) (rest : List UInt8) :
    ∃ s' : Walk V, s'.Ready e ∧ run c s (done++rest)=run c s' rest := by
  induction hl generalizing s with
  | nil d => exact ⟨s,h,rfl⟩
  | value ha hb ht _ ih =>
    rw [List.append_assoc,List.append_assoc]
    obtain ⟨s',h',hr⟩ := h.whole hc ha hb ht _
    obtain ⟨s'',h'',hr'⟩ := ih h'
    exact ⟨s'',h'',hr.trans hr'⟩
  | start ha hd' _ ih =>
    rw [List.append_assoc]
    obtain ⟨s',h',hr⟩ := h.start hc ha hd' _
    obtain ⟨s'',h'',hr'⟩ := ih h'
    exact ⟨s'',h'',hr.trans hr'⟩
  | stop ha _ ih =>
    rw [List.append_assoc]
    obtain ⟨s',h',hr⟩ := h.stop (c:=c) ha _
    obtain ⟨s'',h'',hr'⟩ := ih h'
    exact ⟨s'',h'',hr.trans hr'⟩

/-- A broken construct is refused for being malformed. -/
theorem Ready.broken (hc : c.Welcoming) (h : s.Ready d) {xs : List UInt8} (hb : Broken d xs) :
    ∃ why s' rest, run c s xs=.fail why s' rest ∧ why.cls=.decode := by
  cases hb with
  | lead hm =>
    obtain ⟨why,hr⟩ := hm.read
    have hne : xs≠[] := by
      rintro rfl
      cases hr
    refine ⟨why,s,xs,run_fail ?_,readToken_cls hr⟩
    rw [step,h.between]
    dsimp only
    rw [headerStep,if_neg hne,hr]
  | value ha hb =>
    obtain ⟨σ,hv⟩ := h.value hc ha _
    obtain ⟨pl,p,τ,hpl,hr⟩ := h.reads hc _ ha.small σ _
    obtain ⟨why,σ',hw,hcls⟩ := hpl.broken hb τ
    rw [hw] at hr
    exact ⟨why,_,_,hv.trans hr,hcls⟩
  | start ha hd' rest =>
    have hm := h.meets (c:=c) ha rest
    rw [Lead.token,onToken,if_pos (by rw [h.depth]; exact hd')] at hm
    exact ⟨_,_,_,run_fail hm,rfl⟩
  | stop ha hd' rest =>
    have hm := h.meets (c:=c) ha rest
    rw [Lead.token,onToken,if_pos (by rw [h.depth]; omega)] at hm
    exact ⟨_,_,_,run_fail hm,rfl⟩

/-- A construct that is cut short is waited for. -/
theorem Ready.cutShort (hc : c.Welcoming) (h : s.Ready d) {xs : List UInt8} {n : ℕ}
    (hb : CutShort xs n) : ∃ s' rest, run c s xs=.wait s' rest ∧ rest.length=n := by
  cases hb with
  | lead hm hne =>
    refine ⟨s,xs,run_wait ?_,rfl⟩
    rw [step,h.between]
    dsimp only
    rw [headerStep,if_neg hne,hm.read]
  | value ha hb =>
    obtain ⟨σ,hv⟩ := h.value hc ha _
    obtain ⟨pl,p,τ,hpl,hr⟩ := h.reads hc _ ha.small σ _
    obtain ⟨σ',hw⟩ := hpl.cut hb τ
    rw [hw] at hr
    exact ⟨_,_,hv.trans hr,rfl⟩

/-- With nothing left the walk stops, unless a sequence is open. -/
theorem Ready.empty (h : s.Ready d) :
    run c s []=if d=0 then .stop s else .wait s [] := by
  have hs : step c s []=if d=0 then .stop s else .wait s [] := by
    rw [step,h.between]
    dsimp only
    rw [headerStep,if_pos rfl,h.depth]
    by_cases hd : d=0
    · rw [if_pos hd,if_neg (not_not.mpr hd)]
    · rw [if_neg hd,if_pos hd]
  by_cases hd : d=0
  · rw [if_pos hd] at hs ⊢
    exact run_stop hs
  · rw [if_neg hd] at hs ⊢
    exact run_wait hs

end Ready

end Walk

/-- Bytes at a depth lead to the ground, to a broken construct or to their end. -/
theorem leads_cases (d : ℕ) (xs : List UInt8) :
    Leads d xs 0 ∨ (∃ done e rest, xs=done++rest ∧ Leads d done e ∧ Broken e rest) ∨
      ∃ n done e rest, xs=done++rest ∧ Leads d done e ∧
        (CutShort rest n ∨ (rest=[] ∧ e≠0 ∧ n=0)) := by
  induction hn : xs.length using Nat.strongRecOn generalizing d xs with
  | ind n ih =>
    subst hn
    by_cases hx : xs=[]
    · subst hx
      by_cases hd : d=0
      · subst hd
        exact Or.inl (.nil 0)
      · exact Or.inr (Or.inr ⟨0,[],d,[],rfl,.nil d,Or.inr ⟨rfl,hd,rfl⟩⟩)
    · rcases lead_cases xs with ⟨hd,l,rest,ha,rfl⟩ | hm | hcut
      · have hlen : rest.length < (hd++rest).length := readToken_length (ha.read rest)
        cases l with
        | value id x =>
          rcases body_cases x rest with ⟨y,bs,tail,rfl,hb,ht,rfl⟩ | hb | hb
          · rw [List.length_append] at hlen
            have hlt : tail.length < (hd++(bs++tail)).length := by
              rw [List.length_append,List.length_append] at hlen ⊢
              omega
            rcases ih tail.length hlt d tail rfl with h | ⟨done,e,end',rfl,hl,hbr⟩ |
              ⟨n,done,e,end',rfl,hl,hc⟩
            · exact Or.inl (.value ha hb ht h)
            · exact Or.inr (Or.inl ⟨_,e,end',by simp only [List.append_assoc],
                .value ha hb ht hl,hbr⟩)
            · exact Or.inr (Or.inr ⟨n,_,e,end',by simp only [List.append_assoc],
                .value ha hb ht hl,hc⟩)
          · exact Or.inr (Or.inl ⟨[],d,_,rfl,.nil d,.value ha hb⟩)
          · exact Or.inr (Or.inr ⟨_,[],d,_,rfl,.nil d,Or.inl (.value ha hb)⟩)
        | start id =>
          by_cases hd' : d < maxDepth
          · rcases ih rest.length hlen (d+1) rest rfl with h | ⟨done,e,end',rfl,hl,hbr⟩ |
              ⟨n,done,e,end',rfl,hl,hc⟩
            · exact Or.inl (.start ha hd' h)
            · exact Or.inr (Or.inl ⟨_,e,end',(List.append_assoc _ _ _).symm,
                .start ha hd' hl,hbr⟩)
            · exact Or.inr (Or.inr ⟨n,_,e,end',(List.append_assoc _ _ _).symm,
                .start ha hd' hl,hc⟩)
          · exact Or.inr (Or.inl ⟨[],d,_,rfl,.nil d,.start ha (by omega) rest⟩)
        | stop =>
          cases d with
          | zero => exact Or.inr (Or.inl ⟨[],0,_,rfl,.nil 0,.stop ha rfl rest⟩)
          | succ d =>
            rcases ih rest.length hlen d rest rfl with h | ⟨done,e,end',rfl,hl,hbr⟩ |
              ⟨n,done,e,end',rfl,hl,hc⟩
            · exact Or.inl (.stop ha h)
            · exact Or.inr (Or.inl ⟨_,e,end',(List.append_assoc _ _ _).symm,.stop ha hl,hbr⟩)
            · exact Or.inr (Or.inr ⟨n,_,e,end',(List.append_assoc _ _ _).symm,.stop ha hl,hc⟩)
      · exact Or.inr (Or.inl ⟨[],d,xs,rfl,.nil d,.lead hm⟩)
      · exact Or.inr (Or.inr ⟨_,[],d,xs,rfl,.nil d,Or.inl (.lead hcut hx)⟩)

/-- A string is a message, or malformed, or truncated. -/
theorem string_cases (s : List UInt8) : Message s ∨ Malformed s ∨ ∃ n, Truncated s n := by
  rcases leads_cases 0 s with h | h | h
  · exact Or.inl (message_iff.mpr h)
  · exact Or.inr (Or.inl h)
  · exact Or.inr (Or.inr h)

end SofaBuffers
