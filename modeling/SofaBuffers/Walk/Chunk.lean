import SofaBuffers.Walk.Prepare
import SofaBuffers.Walk.Progress

/-!
# The walk does not notice where its bytes are cut

Two states are alike when everything but the storage is the same and the
storage agrees up to what a read in hand is about to overwrite. Alike states
step alike, a step that is not suspended does not depend on what follows, and
a suspended step does, resumed, what it would have done with all the bytes.
-/

set_option autoImplicit false

namespace SofaBuffers

open Resumable

variable {V : Type}

/-- A value is read by a route the walk can have taken. -/
def Route.Accepts (c : Config V) (p : Pending) : Route → Prop
  | .visit t => t=p.tag.1 ∧ p.Announced
  | .mapped e => e.Takes p ∧ ∃ r id, c.lookup r id=some e

/-- The plan wants so many bytes at once, if any number would be enough. -/
def Plan.Wants (n : ℕ) (pl : Plan V) : Prop :=
  (∃ why, pl=.refuse why) ∨ pl=.stuck ∨ ∃ k, pl=.payload n k

section Suspended

variable {c : Config V} {v : Option V} {id : ℕ} {r : Route} {p q : Pending} {pl : Plan V}
variable {s σ τ : Store V} {xs : List UInt8}

/-- A value is read by the same route once its cap is taken off. -/
theorem Route.Accepts.real (h : r.Accepts c p) : r.Accepts c p.real := by
  cases r with
  | visit t =>
    refine ⟨?_,h.2.real⟩
    rw [h.1]
    cases p <;> rfl
  | mapped e => exact ⟨h.1.real,h.2⟩

/-- What a preparation leaves pending is read by the same route. -/
theorem Route.Accepts.prepare (h : r.Accepts c p) (hp : prepare c v id r p s=(σ,q,pl)) :
    r.Accepts c q := by
  have hq : q=p ∨ q=p.real ∨ ∃ p', r.Accepts c p' ∧ (q=p' ∨ q=p'.real) := by
    cases r with
    | visit t =>
      cases v with
      | none => cases hp; exact Or.inl rfl
      | some v =>
        have hq : (visitPlan c v id t p).2=(q,pl) := congrArg Prod.snd hp
        have h := visitPlan_pending (c:=c) v id t p
        rw [hq] at h
        rcases h with h | h
        · exact Or.inl h
        · exact Or.inr (Or.inl h)
    | mapped e =>
      rw [SofaBuffers.prepare] at hp
      cases ha : arrive c e s with
      | mk u why =>
        rw [ha] at hp
        cases why with
        | some why => cases hp; exact Or.inl rfl
        | none =>
          cases hs : settled e.declared p with
          | error why => rw [hs] at hp; cases hp; exact Or.inl rfl
          | ok p' =>
            rw [hs] at hp
            have hm : mappedPlan c e u p'=(q,pl) := congrArg Prod.snd hp
            have hq := mappedPlan_pending (c:=c) e u p'
            rw [hm] at hq
            exact Or.inr (Or.inr ⟨p',⟨h.1.settled hs,h.2⟩,hq⟩)
  rcases hq with rfl | rfl | ⟨p',h',rfl | rfl⟩
  · exact h
  · exact h.real
  · exact h'
  · exact h'.real

/-- A copy into a buffer wants the payload. -/
theorem wants_bytes (view : Except Exn Dst) (n : ℕ) (k : Dst → List UInt8 → Effect V) :
    (bytesPlan view n k).Wants n := by
  cases view with
  | error e => exact Or.inl ⟨e,rfl⟩
  | ok d => exact Or.inr (Or.inr ⟨_,rfl⟩)

/-- A fixlen array wants all of its elements. -/
theorem wants_span (count size : ℕ) (k : List UInt8 → Effect V) :
    (Plan.span count size k).Wants (count*size) := by
  rw [Plan.span]
  split
  · exact Or.inr (Or.inl rfl)
  · exact Or.inr (Or.inr ⟨_,rfl⟩)

/-- A visited fixlen value wants its payload. -/
theorem visitPlan_wants_fixlen (v : V) (id : ℕ) (st : FixlenSubtype) (n : ℕ) :
    (visitPlan c v id .fixlen (.fixlen st n)).2.2.Wants n := by
  show (fixlenPlan c v id (.fixlen st n) st n (fixlenOffer c v id st n).2).2.Wants n
  cases (fixlenOffer c v id st n).2 with
  | some dst =>
    rw [fixlenPlan]
    split <;> exact wants_bytes _ _ _
  | none => exact Or.inr (Or.inr ⟨_,rfl⟩)

/-- A visited fixlen array wants all of its elements. -/
theorem visitPlan_wants_farray (v : V) (id : ℕ) (st : FixlenSubtype) (count size : ℕ) :
    (visitPlan c v id .arrayFixlen (.farray st count size)).2.2.Wants (count*size) := by
  have hplan : ∀ (width : ℕ) (dst : Option Dst),
      (farrayPlan c v id (.farray st count size) count size width dst).2.Wants
        (count*size) := by
    intro width dst
    cases dst with
    | some dst =>
      rw [farrayPlan]
      split
      · exact Or.inl ⟨_,rfl⟩
      · exact wants_span _ _ _
    | none => exact wants_span _ _ _
  show (visitFarrayPlan c v id (.farray st count size) st count size).2.2.Wants _
  rw [visitFarrayPlan]
  split
  · split
    · exact wants_span _ _ _
    · exact hplan _ _
  · exact hplan _ _

/-- A row's fixlen value wants its payload. -/
theorem mappedPlan_wants_fixlen {e : Entry} {st : FixlenSubtype} {n : ℕ}
    (h : e.Takes (.fixlen st n)) (s : Store V) :
    (mappedPlan c e s (.fixlen st n)).2.Wants n := by
  obtain ⟨hm,hn⟩ := h
  have hobject : (objectPlan c e s (.fixlen st n)).2.Wants n := by
    rw [objectPlan.eq_def]
    split
    · dsimp only [Pending.real]
      split
      · split <;> exact wants_bytes _ _ _
      · exact Or.inl ⟨_,rfl⟩
    · dsimp only
      split <;> exact Or.inr (Or.inr ⟨_,rfl⟩)
  rw [Entry.mismatch,Entry.wt,Entry.st] at hm
  rw [mappedPlan.eq_def]
  generalize e.kind=kind at hm
  cases kind with
  | string | bytes => exact hobject
  | float64 =>
    cases st with
    | fp64 => cases hn; exact Or.inr (Or.inr ⟨_,rfl⟩)
    | fp32 | string | blob => cases hm
  | float32 =>
    cases st with
    | fp32 => cases hn; exact Or.inr (Or.inr ⟨_,rfl⟩)
    | fp64 | string | blob => cases hm
  | _ => cases hm

/-- A row's fixlen array wants all of its elements. -/
theorem mappedPlan_wants_farray {e : Entry} {st : FixlenSubtype} {count size : ℕ}
    (h : e.Takes (.farray st count size)) (s : Store V) :
    (mappedPlan c e s (.farray st count size)).2.Wants (count*size) := by
  obtain ⟨hm,-⟩ := h
  have hk : e.kind.isArray := by
    rw [Entry.mismatch,Entry.wt,Entry.st] at hm
    generalize e.kind=kind at hm
    cases kind <;> first | rfl | cases hm
  rw [mappedPlan_array hk]
  exact wants_span _ _ _

/-- A read told to wait by its header alone waits. -/
theorem prepare_ready (h : r.Accepts c p) (hp : prepare c v id r p s=(σ,q,pl))
    (hr : ∀ why, pl≠.refuse why) (hx : q.ready xs=false) : pl.read c τ xs=.more τ := by
  have hwants : ∀ {n : ℕ}, pl.Wants n → xs.length < n → pl.read c τ xs=.more τ := by
    rintro n (⟨why,rfl⟩ | rfl | ⟨k,rfl⟩) hn
    · exact absurd rfl (hr why)
    · rfl
    · exact if_pos hn
  have hq := h.prepare hp
  obtain ⟨⟨σ',hagain,-⟩,-⟩ := prepare_again hp hr
  cases r with
  | visit t =>
    obtain ⟨ht,-⟩ := hq
    cases v with
    | none =>
      cases hagain
      exact absurd rfl (hr _)
    | some v =>
      have hpl : (visitPlan c v id t q).2.2=pl := congrArg (fun x => x.2.2) hagain
      cases q with
      | fixlen st n =>
        have hn : ¬n ≤ xs.length := of_decide_eq_false hx
        rw [ht] at hpl
        rw [←hpl] at hwants ⊢
        exact hwants (visitPlan_wants_fixlen v id st n) (by omega)
      | farray st count size =>
        have hn : ¬count*size ≤ xs.length := of_decide_eq_false hx
        rw [ht] at hpl
        rw [←hpl] at hwants ⊢
        exact hwants (visitPlan_wants_farray v id st count size) (by omega)
      | scalar | varray | limit | discard => cases hx
  | mapped e =>
    obtain ⟨ht,-⟩ := hq
    rw [prepare] at hagain
    cases ha : arrive c e σ with
    | mk u why =>
      rw [ha] at hagain
      cases why with
      | some why => cases hagain; exact absurd rfl (hr _)
      | none =>
        cases hs : settled e.declared q with
        | error why => rw [hs] at hagain; cases hagain; exact absurd rfl (hr _)
        | ok q' =>
          rw [hs] at hagain
          have hm : (mappedPlan c e u q').2=pl := congrArg (fun x => x.2.2) hagain
          have hq' := settled_eq hs
          cases q with
          | fixlen st n =>
            have hn : ¬n ≤ xs.length := of_decide_eq_false hx
            rw [show q'=.fixlen st n by rcases hq' with h | h <;> exact h] at hm
            rw [←hm] at hwants ⊢
            exact hwants (mappedPlan_wants_fixlen ht u) (by omega)
          | farray st count size =>
            have hn : ¬count*size ≤ xs.length := of_decide_eq_false hx
            rw [show q'=.farray st count size by rcases hq' with h | h <;> exact h] at hm
            rw [←hm] at hwants ⊢
            exact hwants (mappedPlan_wants_farray ht u) (by omega)
          | scalar | varray | limit | discard => cases hx

/-- A preparation does not change what a suspension may leave behind. -/
theorem words_prepare (hp : prepare c v id r p s=(σ,q,pl)) (hr : ∀ why, pl≠.refuse why) :
    r.words c v id q=r.words c v id p ∧ r.bytes c v id q=r.bytes c v id p := by
  have hplan : r.plan c v id q=r.plan c v id p := by
    cases r with
    | visit t =>
      cases v with
      | none => rfl
      | some v =>
        have hq : (visitPlan c v id t p).2.1=q := congrArg (fun x => x.2.1) hp
        have ha := visitPlan_again (c:=c) v id t p
        rw [hq] at ha
        rw [Route.plan,ha]
        rfl
    | mapped e =>
      cases hk : e.kind.isArray with
      | false => rw [Route.plan,Route.plan,hk]; rfl
      | true =>
        rw [prepare] at hp
        cases ha : arrive c e s with
        | mk u why =>
          rw [ha] at hp
          cases why with
          | some why => cases hp; exact absurd rfl (hr _)
          | none =>
            cases hs : settled e.declared p with
            | error why => rw [hs] at hp; cases hp; exact absurd rfl (hr _)
            | ok p' =>
              rw [hs] at hp
              have hm : mappedPlan c e u p'=(q,pl) := congrArg Prod.snd hp
              rw [mappedPlan_array hk] at hm
              cases hm
              have hreal : q.real=q := by
                cases q with
                | limit msg q => exact absurd rfl (hr _)
                | _ => rfl
              have hpq : q.real=p.real := by
                rcases settled_eq hs with h | h
                · rw [h]
                · rw [hreal,h]
              rw [Route.plan,Route.plan,hpq]
  rw [Route.words,Route.words,Route.bytes,Route.bytes,hplan]
  exact ⟨rfl,rfl⟩

/-- A suspended read, prepared anew, follows the same plan over a storage that
agrees up to what the plan overwrites. -/
theorem prepare_suspended (hb : r.Bare c) (hp : prepare c v id r p s=(σ,q,pl))
    (hm : pl.read c σ xs=.more τ) :
    (prepare c v id r q τ).2=(q,pl) ∧ Agree (r.words c v id q) (r.bytes c v id q) τ σ ∧
      Agree (r.words c v id q) (r.bytes c v id q) (prepare c v id r q τ).1 σ ∧
      pl.Heals c (r.words c v id q) (r.bytes c v id q) := by
  have hr : ∀ why, pl≠.refuse why := by
    rintro why rfl
    cases hm
  obtain ⟨⟨σ',hagain,hσ'⟩,hw,hby⟩ := prepare_again hp hr
  have hτ := (Plan.read_more hm).mono hw hby
  obtain ⟨he,ha,hh⟩ := prepare_agree hb hτ
  rw [hagain] at he ha
  refine ⟨he,hτ,ha.trans (hσ'.mono (Set.empty_subset _) (Set.empty_subset _)),?_⟩
  rw [he] at hh
  exact hh

end Suspended

/-- A header that has arrived goes on having arrived. -/
theorem Pending.ready_append {p : Pending} {xs : List UInt8} (h : p.ready xs=true)
    (ys : List UInt8) : p.ready (xs++ys)=true := by
  cases p with
  | fixlen st n =>
    have h : n ≤ xs.length := of_decide_eq_true h
    exact decide_eq_true (by rw [List.length_append]; omega)
  | farray st count size =>
    have h : count*size ≤ xs.length := of_decide_eq_true h
    exact decide_eq_true (by rw [List.length_append]; omega)
  | _ => rfl

namespace Walk

variable {c : Config V} {s t s' : Walk V} {xs rest : List UInt8} {why : Exn}

/-- The slots a value in hand may have been stored to in part. -/
def words (c : Config V) (s : Walk V) : Set ℕ :=
  match s.mode with
  | .value id r p true => r.words c s.visitor id p
  | _ => ∅

/-- The bytes a value in hand may have been stored to in part. -/
def bytes (c : Config V) (s : Walk V) : Set ℕ :=
  match s.mode with
  | .value id r p true => r.bytes c s.visitor id p
  | _ => ∅

/-- The states are the same but for what the value in hand is about to overwrite. -/
def Alike (c : Config V) (s t : Walk V) : Prop :=
  ∃ τ, t={s with store := τ} ∧ Agree (s.words c) (s.bytes c) s.store τ

/-- The states are the same, their storages agreeing everywhere. -/
def Level (s t : Walk V) : Prop := ∃ τ, t={s with store := τ} ∧ Agree ∅ ∅ s.store τ

/-- The same was delivered in the two states. -/
def Heard (s t : Walk V) : Prop := s.store.Heard t.store

/-- The value in hand is read by a route the walk can have taken. -/
def Sound (c : Config V) (s : Walk V) : Prop :=
  match s.mode with
  | .value _ r p _ => r.Accepts c p
  | .header .. => True

/-- Level states are alike. -/
theorem Level.alike (h : Level s t) : Alike c s t := by
  obtain ⟨τ,rfl,h⟩ := h
  exact ⟨τ,rfl,h.mono (Set.empty_subset _) (Set.empty_subset _)⟩

/-- A state is level with itself. -/
theorem Level.refl (s : Walk V) : Level s s := ⟨s.store,rfl,Agree.refl _ _ _⟩

/-- Steps to level states agree. -/
theorem Level.next (h : Level s t) (rest : List UInt8) :
    StepEqv (Alike c) Heard (.next s rest : WalkStep V) (.next t rest) := .next h.alike

/-- Refusals in level states agree. -/
theorem Level.fail (h : Level s t) (why : Exn) (rest rest' : List UInt8) :
    StepEqv (Alike c) Heard (.fail why s rest : WalkStep V) (.fail why t rest') := by
  obtain ⟨τ,rfl,h⟩ := h
  exact .fail h.log

/-- Every step agrees with itself. -/
theorem stepEqv_refl (st : WalkStep V) : StepEqv (Alike c) Heard st st := by
  cases st with
  | next s rest => exact .next (Level.refl s).alike
  | wait s rest => exact .wait (Level.refl s).alike
  | stop s => exact .stop (Level.refl s).alike
  | fail why s rest => exact .fail rfl

/-- Level states are level in another mode. -/
theorem Level.mode (h : Level s t) (m : Mode) : Level {s with mode := m} {t with mode := m} := by
  obtain ⟨τ,rfl,h⟩ := h
  exact ⟨τ,rfl,h⟩

/-- The same calls leave level states level. -/
theorem Level.calls (h : Level s t) (es : List (Event V)) :
    Level {s with store := es.foldl Store.call s.store}
      {t with store := es.foldl Store.call t.store} := by
  obtain ⟨τ,rfl,h⟩ := h
  exact ⟨_,rfl,h.calls es⟩

/-- Closing a scope leaves level states level. -/
theorem Level.closeScope (h : Level s t) : Level s.closeScope t.closeScope := by
  obtain ⟨τ,rfl,h⟩ := h
  have hpop : ∀ (s : Walk V) (τ : Store V), Agree ∅ ∅ s.store τ →
      Level s.popVisitor (popVisitor {s with store := τ}) := by
    intro s τ h
    rw [popVisitor,popVisitor]
    dsimp only
    split
    · split <;> exact ⟨τ,rfl,h⟩
    · exact ⟨τ,rfl,h⟩
  rw [Walk.closeScope,Walk.closeScope]
  dsimp only
  split
  · exact hpop s τ h
  · exact hpop _ _ (h.call _)

/-- The end of a sequence leaves level states level. -/
theorem Level.endSequence (h : Level s t) : Level s.endSequence t.endSequence := by
  obtain ⟨τ,rfl,h⟩ := h
  rw [Walk.endSequence,Walk.endSequence]
  dsimp only
  split
  · split
    · exact ⟨τ,rfl,h⟩
    · exact Level.closeScope ⟨τ,rfl,h⟩
  · exact Level.closeScope ⟨τ,rfl,h⟩

/-- Occurrences are counted alike. -/
theorem blind_countOccurrence (c : Config V) (e : Entry) : (countOccurrence c e).Blind ∅ ∅ := by
  intro s t h
  rw [countOccurrence.eq_def]
  cases e.countAt with
  | none => exact ⟨rfl,h⟩
  | some i =>
    dsimp only
    rw [h.word i (Set.notMem_empty i)]
    split
    · exact blind_put c _ _ _ h
    · exact ⟨rfl,h⟩

/-- Suspending the table leaves level states level. -/
theorem Level.pushMap (h : Level s t) (inner : Option ℕ) :
    (s.pushMap inner=none ∧ t.pushMap inner=none) ∨
      ∃ s' t', s.pushMap inner=some s' ∧ t.pushMap inner=some t' ∧ Level s' t' := by
  obtain ⟨τ,rfl,h⟩ := h
  rw [Walk.pushMap,Walk.pushMap]
  dsimp only
  split
  · exact Or.inr ⟨_,_,rfl,rfl,τ,rfl,h⟩
  · exact Or.inl ⟨rfl,rfl⟩

/-- Suspending the handler leaves level states level. -/
theorem Level.pushVisitor (h : Level s t) (outer child : V) :
    (s.pushVisitor outer child=none ∧ t.pushVisitor outer child=none) ∨
      ∃ s' t', s.pushVisitor outer child=some s' ∧ t.pushVisitor outer child=some t' ∧
        Level s' t' := by
  obtain ⟨τ,rfl,h⟩ := h
  rw [Walk.pushVisitor,Walk.pushVisitor]
  dsimp only
  split
  · exact Or.inr ⟨_,_,rfl,rfl,τ,rfl,h⟩
  · exact Or.inl ⟨rfl,rfl⟩

/-- A change that sees everything leaves level states level. -/
theorem Level.effect (h : Level s t) {f : Effect V} (hf : f.Blind ∅ ∅) :
    (f s.store).2=(f t.store).2 ∧
      Level {s with store := (f s.store).1} {t with store := (f t.store).1} := by
  obtain ⟨τ,rfl,h⟩ := h
  exact ⟨(hf h).1,_,rfl,(hf h).2⟩

/-- Level states descend alike into the table of a row. -/
theorem Level.startMapped (h : Level s t) (e : Entry) (rest : List UInt8) :
    StepEqv (Alike c) Heard (startMapped c s e rest) (startMapped c t e rest) := by
  rw [Walk.startMapped,Walk.startMapped]
  cases e.child with
  | none => exact h.fail _ _ _
  | some child =>
    dsimp only
    obtain ⟨he,ha⟩ := h.effect (blind_arrive c e)
    generalize arrive c e s.store=a at he ha ⊢
    generalize arrive c e t.store=b at he ha ⊢
    obtain ⟨σ,why⟩ := a
    obtain ⟨τ,why'⟩ := b
    cases he
    cases why with
    | some why => exact ha.fail _ _ _
    | none =>
      dsimp only at ha ⊢
      rcases ha.pushMap (some child) with ⟨h1,h2⟩ | ⟨s',t',h1,h2,ha'⟩
      · rw [h1,h2]
        exact ha.fail _ _ _
      · rw [h1,h2]
        dsimp only
        obtain ⟨he,hc⟩ := ha'.effect (blind_countOccurrence c e)
        generalize countOccurrence c e s'.store=a at he hc ⊢
        generalize countOccurrence c e t'.store=b at he hc ⊢
        obtain ⟨σ,why⟩ := a
        obtain ⟨τ,why'⟩ := b
        cases he
        cases why with
        | some why => exact hc.fail _ _ _
        | none => exact (hc.mode _).next _

/-- In level states the table is hidden alike. -/
theorem Level.hideMap (h : Level s t) :
    (hideMap c s=none ∧ hideMap c t=none) ∨
      ∃ s' t', hideMap c s=some s' ∧ hideMap c t=some t' ∧ Level s' t' := by
  rw [Walk.hideMap,Walk.hideMap]
  split
  · exact h.pushMap none
  · exact Or.inr ⟨s,t,rfl,rfl,h⟩

/-- Level states skip alike. -/
theorem Level.skip (h : Level s t) (rest : List UInt8) :
    StepEqv (Alike c) Heard (skip s rest) (skip t rest) := by
  obtain ⟨τ,rfl,h⟩ := h
  exact .next ⟨τ,rfl,h.mono (Set.empty_subset _) (Set.empty_subset _)⟩

/-- In level states a handler is asked alike about a sequence. -/
theorem Level.startVisited (h : Level s t) (v : V) (id : ℕ) (rest : List UInt8) :
    StepEqv (Alike c) Heard (startVisited c s v id rest) (startVisited c t v id rest) := by
  have ha := h.calls (sequenceOffer c v id).1
  rw [Walk.startVisited,Walk.startVisited]
  cases (sequenceOffer c v id).2 with
  | skip => exact ha.skip rest
  | stay =>
    dsimp only
    rcases ha.hideMap (c:=c) with ⟨h1,h2⟩ | ⟨s',t',h1,h2,ha'⟩
    · rw [h1,h2]
      exact ha.fail _ _ _
    · rw [h1,h2]
      exact (ha'.mode _).next _
  | descend child =>
    dsimp only
    rcases ha.hideMap (c:=c) with ⟨h1,h2⟩ | ⟨s',t',h1,h2,ha'⟩
    · rw [h1,h2]
      exact ha.fail _ _ _
    · rw [h1,h2]
      dsimp only
      rcases ha'.pushVisitor v child with ⟨h3,h4⟩ | ⟨s'',t'',h3,h4,ha''⟩
      · rw [h3,h4]
        exact ha'.fail _ _ _
      · rw [h3,h4]
        exact (ha''.mode _).next _

/-- In level states a handler is offered a value alike. -/
theorem Level.offerField (h : Level s t) (v : V) (id : ℕ) (p : Pending) (rest : List UInt8) :
    StepEqv (Alike c) Heard (offerField c s v id p rest) (offerField c t v id p rest) := by
  have ha := h.calls (fieldOffer c v id p).1
  have hb := ha.calls (boundOffer c v id p).1
  rw [Walk.offerField,Walk.offerField]
  dsimp only
  split
  · cases settled (boundOffer c v id p).2 p with
    | error why => exact (hb.mode _).fail _ _ _
    | ok q => exact (hb.mode _).next _
  · exact (ha.mode _).next _

/-- Level states meet a header alike. -/
theorem Level.onToken (h : Level s t) (tok : Token) (rest : List UInt8) :
    StepEqv (Alike c) Heard (onToken c s tok rest) (onToken c t tok rest) := by
  obtain ⟨τ,rfl,h⟩ := h
  have hl : Level s {s with store := τ} := ⟨τ,rfl,h⟩
  have hdepth : ∀ n : ℕ, Level {s with depth := n} {s with depth := n, store := τ} :=
    fun n => ⟨τ,rfl,h⟩
  cases tok with
  | value id p =>
    rw [Walk.onToken,Walk.onToken,startValue,startValue]
    dsimp only
    split
    · exact (hl.mode _).next _
    · split
      · exact (hl.mode _).next _
      · split
        · exact (hl.mode _).next _
        · exact hl.offerField _ _ _ _
  | start id =>
    rw [Walk.onToken,Walk.onToken]
    dsimp only
    split
    · exact hl.fail _ _ _
    · rw [startSequence,startSequence]
      dsimp only
      split
      · exact (hdepth _).startMapped _ _
      · split
        · exact (hdepth _).skip _
        · split
          · exact (hdepth _).skip _
          · exact (hdepth _).startVisited _ _ _
  | stop =>
    rw [Walk.onToken,Walk.onToken]
    dsimp only
    split
    · exact hl.fail _ _ _
    · exact ((hdepth _).endSequence.mode _).next _

/-- Level states meet a header alike, inside a skip or not. -/
theorem Level.meet (h : Level s t) (skip : Option ℕ) (tok : Token) (rest : List UInt8) :
    StepEqv (Alike c) Heard (meet c s skip tok rest) (meet c t skip tok rest) := by
  cases skip with
  | none => exact h.onToken _ _
  | some target =>
    obtain ⟨τ,rfl,h⟩ := h
    have hl : ∀ (m : Mode) (n : ℕ),
        Level {s with mode := m, depth := n} {s with mode := m, depth := n, store := τ} :=
      fun m n => ⟨τ,rfl,h⟩
    rw [Walk.meet,Walk.meet]
    cases tok with
    | value id p => exact (hl _ _).next _
    | start id =>
      rw [onTokenSkipping,onTokenSkipping]
      dsimp only
      split
      · exact (hl _ _).fail _ _ _
      · exact (hl _ _).next _
    | stop =>
      rw [onTokenSkipping,onTokenSkipping]
      dsimp only
      split
      · exact (hl _ _).fail _ _ _
      · exact (hl _ _).next _

/-- The storages a value is read into may differ where the read overwrites them. -/
theorem valueStep_alike {id : ℕ} {r : Route} {p : Pending} {τ : Store V} (hb : r.Bare c)
    (h : Agree (r.words c s.visitor id p) (r.bytes c s.visitor id p) s.store τ)
    (xs : List UInt8) :
    StepEqv (Alike c) Heard (valueStep c s id r p xs)
      (valueStep c {s with store := τ} id r p xs) := by
  obtain ⟨he,ha,hh⟩ := prepare_agree hb h
  rw [valueStep,valueStep]
  dsimp only
  generalize hp : prepare c s.visitor id r p s.store=a at he ha hh ⊢
  generalize prepare c s.visitor id r p τ=b at he ha ⊢
  obtain ⟨σ,q,pl⟩ := a
  obtain ⟨σ',q',pl'⟩ := b
  cases he
  have hr := Plan.read_eqv hh ha xs
  dsimp only at hr ⊢
  have hmore : ∀ u, pl.read c σ xs=.more u → ∀ why, pl≠.refuse why := by
    rintro u hm why rfl
    cases hm
  generalize pl.read c σ xs=x at hr hmore ⊢
  generalize pl.read c σ' xs=y at hr ⊢
  cases hr with
  | done h => exact .next ⟨_,rfl,h.mono (Set.empty_subset _) (Set.empty_subset _)⟩
  | more h =>
    obtain ⟨hw,hby⟩ := words_prepare hp (hmore _ rfl)
    rw [←hw,←hby] at h
    exact .wait ⟨_,rfl,h⟩
  | bad h => exact .fail h

/-- A suspended read, resumed, ends as it would have with all the bytes. -/
theorem valueStep_wait {id : ℕ} {r : Route} {p : Pending} (hb : r.Bare c) (hacc : r.Accepts c p)
    (h : valueStep c s id r p xs=.wait s' rest) (ys : List UInt8) :
    StepEqv (Alike c) Heard (step c s' (rest++ys)) (valueStep c s id r p (xs++ys)) := by
  rw [valueStep] at h ⊢
  generalize hp : prepare c s.visitor id r p s.store=a at h ⊢
  obtain ⟨σ,q,pl⟩ := a
  dsimp only at h ⊢
  cases hm : pl.read c σ xs with
  | done u mid => rw [hm] at h; cases h
  | bad why u => rw [hm] at h; cases h
  | more τ =>
    rw [hm] at h
    cases h
    have hr : ∀ why, pl≠.refuse why := by
      rintro why rfl
      cases hm
    obtain ⟨he,hτ,ha,hh⟩ := prepare_suspended hb hp hm
    show StepEqv (Alike c) Heard (if true && !q.ready (xs++ys) then _ else _) _
    cases hx : q.ready (xs++ys) with
    | false =>
      have hlong : pl.read c σ (xs++ys)=.more σ := prepare_ready hacc hp hr hx
      rw [hlong]
      exact .wait ⟨σ,rfl,hτ⟩
    | true =>
      show StepEqv (Alike c) Heard (valueStep c _ id r q (xs++ys)) _
      rw [valueStep]
      dsimp only
      generalize prepare c s.visitor id r q τ=b at he ha ⊢
      obtain ⟨σ',q',pl'⟩ := b
      cases he
      have hr := Plan.read_eqv hh ha (xs++ys)
      dsimp only at hr ⊢
      generalize pl.read c σ' (xs++ys)=x at hr ⊢
      generalize pl.read c σ (xs++ys)=y at hr ⊢
      cases hr with
      | done h => exact .next ⟨_,rfl,h.mono (Set.empty_subset _) (Set.empty_subset _)⟩
      | more h => exact .wait ⟨_,rfl,h⟩
      | bad h => exact .fail h

/-- Dropping a value, resumed, ends as it would have with all the bytes. -/
theorem dropStep_wait {p : Pending} {skip : Option ℕ}
    (h : dropStep s p skip xs=.wait s' rest) (ys : List UInt8) :
    StepEqv (Alike c) Heard (step c s' (rest++ys)) (dropStep s p skip (xs++ys)) := by
  have he := Pending.drop_extends p xs ys
  rw [dropStep] at h ⊢
  cases hd : p.drop xs with
  | gone mid => rw [hd] at h; cases h
  | bad why => rw [hd] at h; cases h
  | left q mid =>
    rw [hd] at h he
    cases h
    have he : q.drop (rest++ys)=p.drop (xs++ys) := he
    rw [←he]
    show StepEqv (Alike c) Heard (dropStep _ q skip (rest++ys)) _
    rw [dropStep]
    cases q.drop (rest++ys) with
    | gone mid => exact stepEqv_refl _
    | left p' mid => exact stepEqv_refl _
    | bad why => exact .fail rfl

section Behind

variable (ys : List UInt8)

/-- Descending into a row's table does not look at the bytes behind. -/
theorem startMapped_behind (e : Entry) :
    startMapped c s e (rest++ys)=(startMapped c s e rest).behind ys := by
  rw [startMapped,startMapped]
  cases e.child with
  | none => rfl
  | some child =>
    dsimp only
    generalize arrive c e s.store=a
    obtain ⟨σ,why⟩ := a
    cases why with
    | some why => rfl
    | none =>
      dsimp only
      cases pushMap {s with store := σ} (some child) with
      | none => rfl
      | some t =>
        dsimp only
        generalize countOccurrence c e t.store=b
        obtain ⟨τ,why⟩ := b
        cases why <;> rfl

/-- Asking a handler about a sequence does not look at the bytes behind. -/
theorem startVisited_behind (v : V) (id : ℕ) :
    startVisited c s v id (rest++ys)=(startVisited c s v id rest).behind ys := by
  rw [startVisited,startVisited]
  cases (sequenceOffer c v id).2 with
  | skip => rfl
  | stay =>
    dsimp only
    cases hideMap c {s with store := (sequenceOffer c v id).1.foldl Store.call s.store} <;> rfl
  | descend child =>
    dsimp only
    cases hideMap c {s with store := (sequenceOffer c v id).1.foldl Store.call s.store} with
    | none => rfl
    | some t =>
      dsimp only
      cases pushVisitor t v child <;> rfl

/-- Offering a value does not look at the bytes behind. -/
theorem offerField_behind (v : V) (id : ℕ) (p : Pending) :
    offerField c s v id p (rest++ys)=(offerField c s v id p rest).behind ys := by
  rw [offerField,offerField]
  dsimp only
  split
  · cases settled (boundOffer c v id p).2 p <;> rfl
  · rfl

/-- What a header leads to does not depend on the bytes behind. -/
theorem meet_behind (skip : Option ℕ) (tok : Token) :
    meet c s skip tok (rest++ys)=(meet c s skip tok rest).behind ys := by
  cases skip with
  | none =>
    rw [meet,meet]
    cases tok with
    | value id p =>
      rw [onToken,onToken,startValue,startValue]
      split
      · rfl
      · split
        · rfl
        · split
          · rfl
          · exact offerField_behind ys _ _ _
    | start id =>
      rw [onToken,onToken]
      split
      · rfl
      · rw [startSequence,startSequence]
        split
        · exact startMapped_behind ys _
        · split
          · rfl
          · split
            · rfl
            · exact startVisited_behind ys _ _
    | stop =>
      rw [onToken,onToken]
      split <;> rfl
  | some target =>
    rw [meet,meet]
    cases tok with
    | value id p => rfl
    | start id =>
      rw [onTokenSkipping,onTokenSkipping]
      split <;> rfl
    | stop =>
      rw [onTokenSkipping,onTokenSkipping]
      split <;> rfl

/-- A step that has seen all it needs does not look at the bytes behind. -/
theorem step_behind (hw : (step c s xs).Settled) :
    step c s (xs++ys)=(step c s xs).behind ys := by
  rw [step.eq_def] at hw ⊢
  rw [step.eq_def]
  cases hm : s.mode with
  | header drop skip =>
    rw [hm] at hw
    cases drop with
    | none =>
      dsimp only at hw ⊢
      rw [headerStep] at hw ⊢
      rw [headerStep]
      by_cases hx : xs=[]
      · rw [if_pos hx] at hw
        split at hw <;> exact absurd hw id
      · have hxy : xs++ys≠[] := fun h => hx (List.append_eq_nil_iff.mp h).1
        rw [if_neg hx] at hw ⊢
        rw [if_neg hxy]
        cases ht : readToken xs with
        | more => rw [ht] at hw; exact absurd hw id
        | bad why => rw [stable_readToken.bad ht ys]; rfl
        | done tok mid =>
          rw [stable_readToken.done ht ys]
          exact meet_behind ys skip tok
    | some p =>
      dsimp only at hw ⊢
      rw [dropStep] at hw ⊢
      rw [dropStep]
      have he := Pending.drop_extends p xs ys
      cases hd : p.drop xs with
      | gone mid =>
        rw [hd] at he
        have he : p.drop (xs++ys)=.gone (mid++ys) := he
        rw [he]
        rfl
      | left q mid => rw [hd] at hw; exact absurd hw id
      | bad why =>
        rw [hd] at he
        have he : p.drop (xs++ys)=.bad why := he
        rw [he]
        rfl
  | value id r p resumed =>
    rw [hm] at hw
    dsimp only at hw ⊢
    cases hready : (resumed && !p.ready xs) with
    | true =>
      rw [hready] at hw
      exact absurd hw (fun h => h)
    | false =>
      have hlong : (resumed && !p.ready (xs++ys))=false := by
        cases resumed with
        | false => rfl
        | true =>
          cases hx : p.ready xs with
          | true => rw [Pending.ready_append hx ys]; rfl
          | false => rw [hx] at hready; cases hready
      rw [hready] at hw
      rw [hlong]
      have hw : (valueStep c s id r p xs).Settled := hw
      show valueStep c s id r p (xs++ys)=(valueStep c s id r p xs).behind ys
      rw [valueStep] at hw ⊢
      rw [valueStep]
      cases hr : (prepare c s.visitor id r p s.store).2.2.read c
          (prepare c s.visitor id r p s.store).1 xs with
      | done σ mid => rw [Plan.read_done_append hr ys]; rfl
      | more σ => rw [hr] at hw; exact absurd hw (fun h => h)
      | bad why σ => rw [Plan.read_bad_append hr ys]; rfl

end Behind

/-- A row that is matched takes the value. -/
theorem matched_takes {bmap : Option ℕ} {id : ℕ} {p : Pending} {e : Entry} (hp : p.Announced)
    (h : matched c bmap id p.tag.1 p.tag.2=some e) : Route.Accepts c p (.mapped e) := by
  rw [matched,Option.filter_eq_some_iff] at h
  obtain ⟨h,hm⟩ := h
  obtain ⟨r,-,hl⟩ := Option.bind_eq_some_iff.mp h
  refine ⟨⟨?_,hp⟩,r,id,hl⟩
  cases hx : e.mismatch p.tag.1 p.tag.2 with
  | false => rfl
  | true => rw [hx] at hm; cases hm

/-- Settling a bound keeps the tag. -/
theorem settled_tag {declared : Option ℕ} {p q : Pending} (h : settled declared p=.ok q) :
    q.tag=p.tag := by
  rcases settled_eq h with rfl | rfl
  · rfl
  · cases p <;> rfl

/-- A header leads to a value its route can read. -/
theorem keeps_meet {skip : Option ℕ} {tok : Token}
    (ht : ∀ id p, tok=.value id p → p.Announced ∧ p.real=p) :
    (meet c s skip tok rest).Keeps (Sound c) := by
  have hmapped : ∀ (u : Walk V) (e : Entry), (startMapped c u e rest).Keeps (Sound c) := by
    intro u e
    rw [startMapped]
    split
    · trivial
    · split
      · trivial
      · split
        · trivial
        · split <;> trivial
  have hvisited : ∀ (u : Walk V) (v : V) (id : ℕ),
      (startVisited c u v id rest).Keeps (Sound c) := by
    intro u v id
    rw [startVisited]
    split
    · trivial
    · split <;> trivial
    · split
      · trivial
      · split <;> trivial
  cases skip with
  | some target =>
    rw [meet]
    cases tok with
    | value id p => trivial
    | start id | stop =>
      rw [onTokenSkipping]
      split <;> trivial
  | none =>
    rw [meet]
    cases tok with
    | value id p =>
      obtain ⟨hp,hr⟩ := ht id p rfl
      have hp := hp.park (c:=c) hr
      rw [onToken,startValue]
      split
      · next e he => exact matched_takes hp he
      · split
        · trivial
        · split
          · trivial
          · rw [offerField]
            dsimp only
            split
            · split
              · trivial
              · next q hq => exact ⟨by rw [settled_tag hq],settled_announced hp hq⟩
            · trivial
    | start id =>
      rw [onToken]
      split
      · trivial
      · rw [startSequence]
        split
        · exact hmapped _ _
        · split
          · trivial
          · split
            · trivial
            · exact hvisited _ _ _
    | stop =>
      rw [onToken]
      split <;> trivial

/-- A step leads to a value its route can read, or to none. -/
theorem keeps_step (hs : s.Sound c) (xs : List UInt8) : (step c s xs).Keeps (Sound c) := by
  have hself := hs
  rw [Sound] at hs
  rw [step.eq_def]
  cases hm : s.mode with
  | header drop skip =>
    cases drop with
    | none =>
      dsimp only
      rw [headerStep]
      split
      · split <;> exact hself
      · cases ht : readToken xs with
        | more => exact hself
        | bad why => trivial
        | done tok mid =>
          refine keeps_meet ?_
          rintro id p rfl
          exact readToken_announced ht
    | some p =>
      dsimp only
      rw [dropStep]
      cases p.drop xs <;> trivial
  | value id r p resumed =>
    rw [hm] at hs
    dsimp only
    split
    · exact hself
    · rw [valueStep]
      generalize hp : prepare c s.visitor id r p s.store=a
      obtain ⟨σ,q,pl⟩ := a
      dsimp only
      cases pl.read c σ xs with
      | more u => exact Route.Accepts.prepare hs hp
      | _ => trivial

/-- The routes of a walk lead to bare rows, its storage having been checked. -/
theorem bare_of_accepts (hc : bindWords c=.ok ()) {r : Route} {p : Pending}
    (h : r.Accepts c p) : r.Bare c := by
  rintro e rfl hk hw
  obtain ⟨-,b,id,hl⟩ := h
  exact bare_of_lookup hc hl hk hw

/-- Alike states step alike. -/
theorem step_congr (hc : bindWords c=.ok ()) (hs : s.Sound c) (h : Alike c s t)
    (xs : List UInt8) : StepEqv (Alike c) Heard (step c s xs) (step c t xs) := by
  have hself := h
  obtain ⟨τ,rfl,h⟩ := h
  obtain ⟨mode,depth,visitor,vstack,bmap,bstack,σ⟩ := s
  cases mode with
  | header drop skip =>
    have hl : Level ⟨.header drop skip,depth,visitor,vstack,bmap,bstack,σ⟩
        ⟨.header drop skip,depth,visitor,vstack,bmap,bstack,τ⟩ := ⟨τ,rfl,h⟩
    cases drop with
    | none =>
      show StepEqv (Alike c) Heard (headerStep c _ skip xs) (headerStep c _ skip xs)
      rw [headerStep,headerStep]
      split
      · dsimp only
        split
        · exact .wait hself
        · exact .stop hself
      · cases readToken xs with
        | more => exact .wait hself
        | bad why => exact hl.fail _ _ _
        | done tok mid => exact hl.meet _ _ _
    | some p =>
      show StepEqv (Alike c) Heard (dropStep _ p skip xs) (dropStep _ p skip xs)
      rw [dropStep,dropStep]
      cases p.drop xs with
      | gone mid => exact (hl.mode _).next _
      | left q mid => exact .wait (hl.mode _).alike
      | bad why => exact hl.fail _ _ _
  | value id r p resumed =>
    have hb := bare_of_accepts hc hs
    show StepEqv (Alike c) Heard (if _ then _ else valueStep c _ id r p xs)
      (if _ then _ else valueStep c _ id r p xs)
    split
    · exact .wait hself
    · cases resumed with
      | true => exact valueStep_alike hb h xs
      | false =>
        exact valueStep_alike hb (h.mono (Set.empty_subset _) (Set.empty_subset _)) xs

/-- A suspended step, resumed, does what it would have done with all the bytes. -/
theorem step_wait (hc : bindWords c=.ok ()) (hs : s.Sound c) (h : step c s xs=.wait s' rest)
    (ys : List UInt8) : StepEqv (Alike c) Heard (step c s' (rest++ys)) (step c s (xs++ys)) := by
  have hself : s'=s → rest=xs →
      StepEqv (Alike c) Heard (step c s' (rest++ys)) (step c s (xs++ys)) := by
    rintro rfl rfl
    exact stepEqv_refl _
  rw [Sound] at hs
  rw [step.eq_def] at h
  cases hm : s.mode with
  | header drop skip =>
    rw [hm] at h
    cases drop with
    | none =>
      dsimp only at h
      rw [headerStep] at h
      split at h
      · next hx =>
        split at h <;> cases h
        exact hself rfl hx.symm
      · cases ht : readToken xs with
        | more => rw [ht] at h; cases h; exact hself rfl rfl
        | bad why => rw [ht] at h; cases h
        | done tok mid =>
          rw [ht] at h
          have hmove := meet_settled c s skip tok mid
          have h : meet c s skip tok mid=.wait s' rest := h
          rw [h] at hmove
          exact absurd hmove id
    | some p =>
      have hstep : step c s (xs++ys)=dropStep s p skip (xs++ys) := by rw [step.eq_def,hm]
      rw [hstep]
      exact dropStep_wait h ys
  | value id r p resumed =>
    rw [hm] at h hs
    have hb := bare_of_accepts hc hs
    dsimp only at h
    cases hready : (resumed && !p.ready xs) with
    | true =>
      rw [hready] at h
      have h : (.wait s xs : WalkStep V)=.wait s' rest := h
      cases h
      exact hself rfl rfl
    | false =>
      rw [hready] at h
      have h : valueStep c s id r p xs=.wait s' rest := h
      have hlong : (resumed && !p.ready (xs++ys))=false := by
        cases resumed with
        | false => rfl
        | true =>
          cases hx : p.ready xs with
          | true => rw [Pending.ready_append hx ys]; rfl
          | false => rw [hx] at hready; cases hready
      have hstep : step c s (xs++ys)=valueStep c s id r p (xs++ys) := by
        rw [step.eq_def,hm]
        dsimp only
        rw [hlong]
        rfl
      rw [hstep]
      exact valueStep_wait hb hs h ys

/-- A walk over checked storage does not notice where its bytes are cut. -/
theorem chunkable (hc : bindWords c=.ok ()) :
    Chunkable (step c) size (Sound c) (Alike c) Heard where
  progress := progress c
  keeps := keeps_step
  congr := fun hs _ h xs => step_congr hc hs h xs
  behind := fun h ys => step_behind ys h
  wait := fun hs h ys => step_wait hc hs h ys
  stop := by
    intro s s' xs _ h ys
    rw [step.eq_def] at h
    split at h
    · next skip _ =>
      rw [headerStep] at h
      split at h
      · next hx =>
        split at h <;> cases h
        rw [hx]
        exact stepEqv_refl _
      · split at h
        · cases h
        · cases h
        · next tok mid _ =>
          have hmove := meet_settled c s skip tok mid
          rw [h] at hmove
          exact absurd hmove id
    · rw [dropStep] at h
      split at h <;> cases h
    · split at h
      · cases h
      · rw [valueStep] at h
        split at h <;> cases h

end Walk

end SofaBuffers
