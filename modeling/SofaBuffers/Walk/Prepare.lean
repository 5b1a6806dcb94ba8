import SofaBuffers.Walk.Heal
import SofaBuffers.Walk.View

/-!
# Preparing a read again

A read that ran out of bytes is prepared anew when more of them arrive: the
handler is asked for its buffer once more and the row's option arrives once
more. Neither makes a difference, even where the elements stored so far cover
the slot that says which option is held.
-/

set_option autoImplicit false

namespace SofaBuffers

variable {V : Type}

/-- The row starts from nothing, so that resetting it clears its arrival at most. -/
structure Entry.Bare (c : Config V) (e : Entry) : Prop where
  /-- No word but its arrival is reset. -/
  words : ∀ p ∈ e.resetWords, e.countAt=some p.1
  /-- No object is reset. -/
  objects : e.resetObjects=[]
  /-- No buffer is reset. -/
  into : e.resetInto=[]
  /-- Its arrival can be written. -/
  count : ∀ i, e.countAt=some i → i < c.nwords

/-- An array option of a table whose storage was checked is bare. -/
theorem bare_of_lookup {c : Config V} (hc : bindWords c=.ok ()) {r id : ℕ} {e : Entry}
    (h : c.lookup r id=some e) (hk : e.kind.isArray) (hw : e.whichAt.isSome) : e.Bare c := by
  rw [Config.lookup] at h
  cases hf : c.forest with
  | none => rw [hf] at h; cases h
  | some f =>
    rw [hf] at h
    have h : f.lookup r id=some e := h
    obtain ⟨h1,h2,h3⟩ := Forest.lookup_array h hk hw
    refine ⟨h1,h2,h3,fun i hi => ?_⟩
    rw [bindWords,hf] at hc
    dsimp only at hc
    split at hc
    · cases hc
    · have hn := Forest.lookup_wordsNeeded h
      have hi := Entry.countAt_lt hi
      omega

section Arrive

variable {c : Config V} {W M : Set ℕ} {e : Entry} {s t σ : Store V}

/-- Resetting a bare row clears its arrival at most. -/
theorem bare_resetOption (he : e.Bare c) (s : Store V) :
    ∃ σ, resetOption c e s=(σ,none) ∧ Agree {i | e.countAt=some i} ∅ σ s := by
  have hwords : ∀ (ws : List (ℕ × BitVec 64)) (s : Store V), (∀ p ∈ ws, e.countAt=some p.1) →
      ∃ σ, resetWords c ws s=(σ,none) ∧ Agree {i | e.countAt=some i} ∅ σ s := by
    intro ws
    induction ws with
    | nil => exact fun s _ => ⟨s,rfl,Agree.refl _ _ s⟩
    | cons p ws ih =>
      intro s hp
      have hp1 := hp p List.mem_cons_self
      obtain ⟨σ,hσ,ha⟩ := ih (s.setWord p.1 p.2) fun q hq => hp q (List.mem_cons_of_mem _ hq)
      refine ⟨σ,?_,ha.trans ⟨fun k hk => ?_,rfl,fun _ _ => rfl,rfl⟩⟩
      · show (Effect.andThen (.putWord c p.1 p.2) (resetWords c ws)) s=_
        rw [Effect.andThen,Effect.putWord,if_pos (he.count _ hp1)]
        exact hσ
      · refine Function.update_of_ne ?_ _ _
        rintro rfl
        exact hk hp1
  obtain ⟨σ,hσ,ha⟩ := hwords e.resetWords s he.words
  refine ⟨σ,?_,ha⟩
  rw [resetOption,he.objects,he.into,Effect.andThen,hσ]
  rfl

/-- A bare row arrives alike whatever its arrival slot and the held option are. -/
theorem bare_arrive (he : e.Bare c) (hW : {i | e.countAt=some i}⊆W)
    (h : Agree W M s t) :
    (arrive c e s).2=(arrive c e t).2 ∧ Agree W M (arrive c e s).1 (arrive c e t).1 := by
  rw [arrive.eq_def]
  cases e.whichAt with
  | none => exact ⟨rfl,h⟩
  | some w =>
    dsimp only
    by_cases hw : w < c.nwords
    · have hone : ∀ u : Store V, ∃ σ,
          (if u.word w=BitVec.ofNat 64 e.fieldId then
            Effect.putWord c w (BitVec.ofNat 64 e.fieldId)
          else (resetOption c e).andThen
            (.putWord c w (BitVec.ofNat 64 e.fieldId))) u=(σ,none) ∧
          Agree W M σ (u.setWord w (BitVec.ofNat 64 e.fieldId)) := by
        intro u
        split
        · refine ⟨_,?_,Agree.refl _ _ _⟩
          rw [Effect.putWord,if_pos hw]
          rfl
        · obtain ⟨σ,hσ,ha⟩ := bare_resetOption he u
          refine ⟨σ.setWord w (BitVec.ofNat 64 e.fieldId),?_,?_⟩
          · rw [Effect.andThen,hσ,Effect.putWord,if_pos hw]
            rfl
          · exact ((ha.mono hW (Set.empty_subset M)).setWord w _).mono Set.sdiff_subset
              subset_rfl
      obtain ⟨σ,hσ,ha⟩ := hone s
      obtain ⟨τ,hτ,hb⟩ := hone t
      rw [if_pos hw,if_pos hw,hσ,hτ]
      exact ⟨rfl,(ha.trans ((h.setWord w _).mono Set.sdiff_subset subset_rfl)).trans hb.symm⟩
    · rw [if_neg hw,if_neg hw]
      exact ⟨rfl,h⟩

/-- Storages that hold the same see a row arrive alike. -/
theorem blind_arrive (c : Config V) (e : Entry) : (arrive c e).Blind ∅ ∅ := by
  intro s t h
  rw [arrive.eq_def]
  cases e.whichAt with
  | none => exact ⟨rfl,h⟩
  | some w =>
    dsimp only
    rw [h.word w (Set.notMem_empty w)]
    split
    · split
      · exact Effect.blind_putWord c _ _ h
      · exact (Effect.blind_resetOption c e).andThen (Effect.blind_putWord c _ _) h
    · exact ⟨rfl,h⟩

/-- An option that has arrived is held already when it arrives again. -/
theorem arrive_again (h : arrive c e s=(σ,none)) : arrive c e σ=(σ,none) := by
  have hput : ∀ {u : Store V} {w : ℕ} {x : BitVec 64},
      Effect.putWord c w x u=(σ,none) → σ.word w=x ∧ Effect.putWord c w x σ=(σ,none) := by
    intro u w x hu
    rw [Effect.putWord] at hu ⊢
    split at hu
    · next hw =>
      have hu : u.setWord w x=σ := congrArg Prod.fst hu
      have hx : σ.word w=x := by
        rw [←hu]
        exact Function.update_self w x u.word
      refine ⟨hx,?_⟩
      rw [if_pos hw,Effect.update]
      have hs : σ.setWord w x=σ := by
        rw [Store.setWord,←hx,Function.update_eq_self]
      rw [hs]
    · cases hu
  rw [arrive.eq_def] at h ⊢
  cases hw : e.whichAt with
  | none => rfl
  | some w =>
    rw [hw] at h
    dsimp only at h ⊢
    split at h
    · next hlt =>
      rw [if_pos hlt]
      have hlast : ∃ u, Effect.putWord c w (BitVec.ofNat 64 e.fieldId) u=(σ,none) := by
        split at h
        · exact ⟨s,h⟩
        · rw [Effect.andThen] at h
          split at h
          · exact ⟨_,h⟩
          · cases h
      obtain ⟨u,hu⟩ := hlast
      rw [if_pos (hput hu).1]
      exact (hput hu).2
    · cases h

end Arrive

/-- A read heals whatever it stores to before its end. -/
def Plan.Healing (c : Config V) (pl : Plan V) : Prop := pl.Heals c pl.words pl.bytes

section Visits

variable {c : Config V} {p : Pending}

/-- Reading bytes for an effect that sees everything heals. -/
theorem healing_payload {n : ℕ} {k : List UInt8 → Effect V} (hk : ∀ data, (k data).Blind ∅ ∅) :
    (Plan.payload n k).Healing c := fun data => (hk data).heals

/-- Reading the elements of a fixlen array for an effect that sees everything heals. -/
theorem healing_span {count size : ℕ} {k : List UInt8 → Effect V}
    (hk : ∀ data, (k data).Blind ∅ ∅) : (Plan.span count size k).Healing c := by
  rw [Plan.span]
  split
  · exact trivial
  · exact healing_payload hk

/-- Reading bytes to copy them into a buffer heals. -/
theorem healing_bytes {view : Except Exn Dst} {size : ℕ} {k : Dst → List UInt8 → Effect V}
    (hk : ∀ d data, (k d data).Blind ∅ ∅) : (bytesPlan view size k).Healing c := by
  cases view with
  | error e => exact trivial
  | ok d => exact healing_payload (hk d)

/-- Elements that end in an effect that heals what else may differ heal. -/
theorem heals_elements {W M : Set ℕ} (count base : ℕ) (bound : Bound) (zigzag : Bool) (into : Sink)
    {k : List ℤ → Effect V} (hk : ∀ xs, (k xs).Heals W M) :
    (Plan.elements count bound zigzag (some (into,base)) k).Heals c (W∪into.words base count)
      (M∪into.bytes base count) := by
  intro xs hl s t h
  obtain ⟨he,ha⟩ := blind_fillFrom c (some (into,base)) 0 xs h
  have hn := fillFrom_heals c into base 0 xs (by rw [hl]; exact h)
  rw [Effect.andThen,Effect.andThen]
  generalize fillFrom c (some (into,base)) 0 xs s=a at he ha hn ⊢
  generalize fillFrom c (some (into,base)) 0 xs t=b at he ha hn ⊢
  obtain ⟨σ,e⟩ := a
  obtain ⟨τ,e'⟩ := b
  cases he
  cases e with
  | some e => exact ⟨rfl,ha,by simp⟩
  | none =>
    obtain ⟨h1,h2,h3⟩ := hk xs (hn rfl)
    exact ⟨h1,h2.mono Set.subset_union_left Set.subset_union_left,h3⟩

/-- A fixlen value is read for a handler by a plan that heals. -/
theorem fixlenPlan_healing (v : V) (id : ℕ) (st : FixlenSubtype) (size : ℕ) (dst : Option Dst) :
    (fixlenPlan c v id p st size dst).2.Healing c := by
  have hdel : ∀ data, (fixlenDelivery c v id st data).Blind ∅ ∅ := by
    intro data
    cases st with
    | string => exact Effect.blind_withText fun _ => Effect.blind_deliver c _ _ _
    | blob | fp32 | fp64 => exact Effect.blind_deliver c _ _ _
  cases dst with
  | some dst =>
    rw [fixlenPlan]
    split
    · exact healing_bytes Effect.blind_copyText
    · exact healing_bytes Effect.blind_copyInto
  | none =>
    cases p with
    | limit msg q => exact trivial
    | _ => exact healing_payload hdel

/-- An integer array is read for a handler by a plan that heals. -/
theorem arrayPlan_healing (v : V) (id : ℕ) (count : ℕ) (zigzag : Bool)
    (spec : Option Dst × Option ℤ × Option ℤ) :
    (arrayPlan c v id p count zigzag spec).2.Healing c := by
  obtain ⟨dst,lo,hi⟩ := spec
  cases dst with
  | some dst =>
    rw [arrayPlan]
    split
    · exact trivial
    · have h := heals_elements (c:=c) (W:=∅) (M:=∅) count 0 (.of lo hi zigzag) zigzag (.buffer ‹Dst›)
        (k:=fun _ => Effect.done) fun _ => (Effect.blind_done ∅ ∅).heals
      rw [Set.empty_union,Set.empty_union] at h
      exact h
  | none =>
    have h : (Plan.elements count (.of lo hi zigzag) zigzag none fun out =>
        Effect.deliver c v id (if zigzag then .signedArray out else .unsignedArray out)).Healing
          c := fun xs _ =>
      ((blind_fillFrom c none 0 xs).andThen (Effect.blind_deliver c _ _ _)).heals
    cases p with
    | limit msg q => exact trivial
    | _ => exact h

/-- A fixlen array is read for a handler by a plan that heals. -/
theorem visitFarrayPlan_healing (v : V) (id : ℕ) (st : FixlenSubtype) (count size : ℕ) :
    (visitFarrayPlan c v id p st count size).2.2.Healing c := by
  have hplan : ∀ (width : ℕ) (dst : Option Dst),
      (farrayPlan c v id p count size width dst).2.Healing c := by
    intro width dst
    cases dst with
    | some dst =>
      rw [farrayPlan]
      split
      · exact trivial
      · exact healing_span fun _ => Effect.blind_unpackFarrayInto c _ _ _ _ _ _ _ _
    | none =>
      cases p with
      | limit msg q => exact trivial
      | _ => exact healing_span fun _ => Effect.blind_deliver c _ _ _
  rw [visitFarrayPlan]
  split
  · split
    · cases p with
      | limit msg q => exact trivial
      | _ => exact healing_span fun _ => Effect.blind_deliver c _ _ _
    · exact hplan _ _
  · exact hplan _ _

/-- A value is read for a handler by a plan that heals. -/
theorem visitPlan_healing (v : V) (id : ℕ) (t : WireType) (p : Pending) :
    (visitPlan c v id t p).2.2.Healing c := by
  rw [visitPlan.eq_def]
  cases t with
  | unsigned | signed => exact fun raw => (Effect.blind_deliver c _ _ _).heals
  | fixlen =>
    dsimp only
    split
    · exact fixlenPlan_healing _ _ _ _ _
    · exact trivial
  | arrayUnsigned | arraySigned =>
    dsimp only
    split
    · exact arrayPlan_healing _ _ _ _ _
    · exact trivial
  | arrayFixlen | sequenceStart | sequenceEnd =>
    dsimp only
    split
    · exact visitFarrayPlan_healing _ _ _ _ _
    · exact trivial

/-- Preparing a fixlen visit leaves a value that is prepared the same way. -/
theorem fixlenPlan_again (v : V) (id : ℕ) {st : FixlenSubtype} {size : ℕ}
    (hp : p.real=.fixlen st size) (dst : Option Dst) :
    (fixlenPlan c v id p st size dst).1.real=.fixlen st size ∧
      fixlenPlan c v id (fixlenPlan c v id p st size dst).1 st size dst=
        fixlenPlan c v id p st size dst := by
  cases dst with
  | some dst =>
    rw [fixlenPlan]
    split
    · next hs =>
      rw [hp]
      refine ⟨rfl,?_⟩
      rw [fixlenPlan,if_pos hs]
      rfl
    · next hs =>
      rw [hp]
      refine ⟨rfl,?_⟩
      rw [fixlenPlan,if_neg hs]
      rfl
  | none => cases p <;> exact ⟨hp,rfl⟩

/-- Preparing an array visit leaves a value that is prepared the same way. -/
theorem arrayPlan_again (v : V) (id : ℕ) {signed : Bool} {count : ℕ}
    (hp : p.real=.varray signed count) (zigzag : Bool)
    (spec : Option Dst × Option ℤ × Option ℤ) :
    (arrayPlan c v id p count zigzag spec).1.real=.varray signed count ∧
      arrayPlan c v id (arrayPlan c v id p count zigzag spec).1 count zigzag spec=
        arrayPlan c v id p count zigzag spec := by
  obtain ⟨dst,lo,hi⟩ := spec
  cases dst with
  | some dst =>
    rw [arrayPlan]
    split
    · next e he =>
      rw [hp]
      refine ⟨rfl,?_⟩
      rw [arrayPlan,he]
      rfl
    · next view he =>
      rw [hp]
      refine ⟨rfl,?_⟩
      rw [arrayPlan,he]
      rfl
  | none => cases p <;> exact ⟨hp,rfl⟩

/-- Preparing a fixlen array visit leaves a value that is prepared the same way. -/
theorem visitFarrayPlan_again (v : V) (id : ℕ) {st : FixlenSubtype} {count size : ℕ}
    (hp : p.real=.farray st count size) :
    (visitFarrayPlan c v id p st count size).2.1.real=.farray st count size ∧
      visitFarrayPlan c v id (visitFarrayPlan c v id p st count size).2.1 st count size=
        visitFarrayPlan c v id p st count size := by
  have hplan : ∀ (width : ℕ) (dst : Option Dst),
      (farrayPlan c v id p count size width dst).1.real=.farray st count size ∧
        farrayPlan c v id (farrayPlan c v id p count size width dst).1 count size width dst=
          farrayPlan c v id p count size width dst := by
    intro width dst
    cases dst with
    | some dst =>
      rw [farrayPlan]
      split
      · next e he =>
        rw [hp]
        refine ⟨rfl,?_⟩
        rw [farrayPlan,he]
        rfl
      · next view he =>
        rw [hp]
        refine ⟨rfl,?_⟩
        rw [farrayPlan,he]
        rfl
    | none => cases p <;> exact ⟨hp,rfl⟩
  rw [visitFarrayPlan]
  split
  · next hs =>
    split
    · next hb =>
      rw [visitFarrayPlan,if_pos hs,if_pos hb]
      cases p <;> exact ⟨hp,rfl⟩
    · next hb =>
      rw [visitFarrayPlan,if_pos hs,if_neg hb]
      dsimp only
      exact ⟨(hplan _ _).1,by rw [(hplan _ _).2]⟩
  · next hs =>
    rw [visitFarrayPlan,if_neg hs]
    dsimp only
    exact ⟨(hplan _ _).1,by rw [(hplan _ _).2]⟩

/-- What a handler's read leaves pending is read the same way again. -/
theorem visitPlan_again (v : V) (id : ℕ) (t : WireType) (p : Pending) :
    visitPlan c v id t (visitPlan c v id t p).2.1=visitPlan c v id t p := by
  rw [visitPlan.eq_def c v id t p]
  cases t with
  | unsigned | signed => rfl
  | fixlen =>
    dsimp only
    split
    · next st size hp =>
      obtain ⟨hr,ha⟩ := fixlenPlan_again (c:=c) v id hp (fixlenOffer c v id st size).2
      dsimp only
      rw [visitPlan,hr]
      dsimp only
      rw [ha]
    · next h =>
      rw [visitPlan]
      dsimp only
      split
      · next hp => exact absurd hp (h _ _)
      · rfl
  | arrayUnsigned | arraySigned =>
    dsimp only
    split
    · next signed count hp =>
      dsimp only
      rw [visitPlan,(arrayPlan_again (c:=c) v id hp _ _).1]
      dsimp only
      rw [(arrayPlan_again (c:=c) v id hp _ _).2]
    · next h =>
      rw [visitPlan]
      dsimp only
      split
      · next hp => exact absurd hp (h _ _)
      · rfl
  | arrayFixlen | sequenceStart | sequenceEnd =>
    dsimp only
    split
    · next st count size hp =>
      obtain ⟨hr,ha⟩ := visitFarrayPlan_again (c:=c) v id hp
      rw [visitPlan.eq_def]
      dsimp only
      rw [hr]
      exact ha
    · next h =>
      rw [visitPlan.eq_def]
      dsimp only
      split
      · next hp => exact absurd hp (h _ _ _)
      · rfl

/-- Asking a handler for its buffer is a call on it and not a delivery. -/
theorem visitPlan_asks (v : V) (id : ℕ) (t : WireType) (p : Pending) :
    ∀ e ∈ (visitPlan c v id t p).1, e.observed=false ∧ e.who=v := by
  have hnil : ∀ e ∈ ([] : List (Event V)), e.observed=false ∧ e.who=v := by simp
  have hfixlen : ∀ st size, ∀ e ∈ (fixlenOffer c v id st size).1, e.observed=false ∧ e.who=v := by
    intro st size e he
    rw [fixlenOffer.eq_def] at he
    split at he
    · rw [List.mem_singleton.mp he]; exact ⟨rfl,rfl⟩
    · rw [List.mem_singleton.mp he]; exact ⟨rfl,rfl⟩
    · cases he
  have harray : ∀ t count, ∀ e ∈ (arrayOffer c v id t count).1, e.observed=false ∧ e.who=v := by
    intro t count e he
    rw [arrayOffer.eq_def] at he
    split at he
    · cases he
    · rw [List.mem_singleton.mp he]; exact ⟨rfl,rfl⟩
  have hfarray : ∀ width count, ∀ e ∈ (farrayOffer c v id width count).1, e.observed=false ∧ e.who=v := by
    intro width count e he
    rw [farrayOffer.eq_def] at he
    split at he
    · cases he
    · rw [List.mem_singleton.mp he]; exact ⟨rfl,rfl⟩
  rw [visitPlan.eq_def]
  cases t with
  | unsigned | signed => exact hnil
  | fixlen =>
    dsimp only
    split
    · exact hfixlen _ _
    · exact hnil
  | arrayUnsigned | arraySigned =>
    dsimp only
    split
    · exact harray _ _
    · exact hnil
  | arrayFixlen | sequenceStart | sequenceEnd =>
    dsimp only
    split
    · rw [visitFarrayPlan]
      split
      · split
        · exact hnil
        · exact hfarray _ _
      · exact hfarray _ _
    · exact hnil

end Visits

/-- The plan of a read that stores before its end. -/
def Route.plan (c : Config V) (v : Option V) (id : ℕ) (r : Route) (p : Pending) : Plan V :=
  match r,v with
  | .visit t,some v => (visitPlan c v id t p).2.2
  | .visit _,none => .stuck
  | .mapped e,_ => if e.kind.isArray then mappedArrayPlan c e p.real else .stuck

/-- The slot an array option's arrival may have been cleared in. -/
def Route.arrival : Route → Set ℕ
  | .visit _ => ∅
  | .mapped e => if e.kind.isArray then {i | e.countAt=some i} else ∅

/-- The slots a suspended read may have left anything in. -/
def Route.words (c : Config V) (v : Option V) (id : ℕ) (r : Route) (p : Pending) : Set ℕ :=
  r.arrival∪(r.plan c v id p).words

/-- The bytes a suspended read may have left anything in. -/
def Route.bytes (c : Config V) (v : Option V) (id : ℕ) (r : Route) (p : Pending) : Set ℕ :=
  (r.plan c v id p).bytes

section Rows

variable {c : Config V} {e : Entry} {p q : Pending} {s : Store V}

/-- The read of an array row heals what it stores and its arrival. -/
theorem mappedArrayPlan_heals (c : Config V) (e : Entry) (p : Pending) :
    (mappedArrayPlan c e p).Heals c ({i | e.countAt=some i}∪(mappedArrayPlan c e p).words)
      (mappedArrayPlan c e p).bytes := by
  have hcount : ∀ got, (countArrival c e got).Heals {i | e.countAt=some i} ∅ :=
    fun got => Effect.heals_countArrival c e got fun i hi => hi
  have hrun : ∀ (got : ℕ) (bound : Bound) (zigzag : Bool) (into : Sink) (k : List ℤ → Effect V),
      into.words e.slot got=Set.Ico e.slot (e.slot+got) → into.bytes e.slot got=∅ →
      (∀ xs, (k xs).Heals ({i | e.countAt=some i}\Set.Ico e.slot (e.slot+got)) ∅) →
      (Plan.elements got bound zigzag (some (into,e.slot)) k).Heals c
        ({i | e.countAt=some i}∪into.words e.slot got) ∅ := by
    intro got bound zigzag into k hw hb hk
    have h := heals_elements (c:=c) got e.slot bound zigzag into hk
    rw [hw,Set.sdiff_union_self,hb,Set.empty_union] at h
    rw [hw]
    exact h
  have hnext : ∀ got, (countArrival c e got).Heals
      ({i | e.countAt=some i}\Set.Ico e.slot (e.slot+got)) ∅ :=
    fun got => Effect.heals_countArrival c e got fun i hi => hi.1
  rw [mappedArrayPlan.eq_def]
  dsimp only
  split
  · split
    · exact hrun _ _ _ .unsignedWords _ rfl rfl fun _ => hnext _
    · exact hrun _ _ _ .signedWords _ rfl rfl fun _ => hnext _
    · refine hrun _ _ _ .unsignedWords _ rfl rfl fun _ => ?_
      refine Effect.Heals.andThen (Effect.blind_normaliseBooleans c _ _ ?_) (hnext _)
      exact fun k hk hl h => h.2 ⟨hk,hl⟩
    · exact trivial
  · rw [Plan.span]
    split
    · exact trivial
    · refine fun data => Effect.Heals.andThen (Effect.blind_unpackFarrayInto c _ _ _ _ _ _ _ _) ?_
      show (countArrival c e _).Heals ({i | e.countAt=some i}∪∅) ∅
      rw [Set.union_empty]
      exact hcount _
  · exact trivial

/-- The read of a row that is no array sees everything. -/
theorem mappedPlan_heals (hk : e.kind.isArray=false) (s : Store V) (p : Pending) :
    (mappedPlan c e s p).2.Heals c ∅ ∅ := by
  have hcount : ∀ (f : Effect V) (got : ℕ), f.Blind ∅ ∅ →
      (f.andThen (countArrival c e got)).Heals ∅ ∅ :=
    fun f got hf => (hf.andThen (Effect.blind_countArrival c e got)).heals
  have hview : ∀ (view : Except Exn Dst) (size : ℕ) (k : Dst → List UInt8 → Effect V),
      (∀ d data, (k d data).Blind ∅ ∅) →
      (bytesPlan view size fun d data => (k d data).andThen (countArrival c e size)).Heals
        c ∅ ∅ := by
    intro view size k hk
    cases view with
    | error e => exact trivial
    | ok d => exact fun data => hcount _ _ (hk d data)
  have hobject : (objectPlan c e s p).2.Heals c ∅ ∅ := by
    rw [objectPlan.eq_def]
    split
    · split
      · split
        · split
          · exact hview _ _ _ Effect.blind_copyInto
          · exact hview _ _ _ Effect.blind_copyText
        · exact trivial
      · exact trivial
    · split
      · exact trivial
      · split
        · exact fun data => hcount _ _ (Effect.blind_putObj c _ _)
        · exact fun data => hcount _ _ (Effect.blind_withText fun _ => Effect.blind_putObj c _ _)
      · exact trivial
  rw [mappedPlan.eq_def]
  generalize e.kind=kind at hk
  cases kind with
  | unsigned | signed =>
    refine fun raw => hcount _ _ ?_
    split
    · exact Effect.blind_raise ∅ ∅ _
    · exact blind_put c _ _ _
  | boolean => exact fun raw => hcount _ _ (Effect.blind_putWord c _ _)
  | float64 | float32 => exact fun data => hcount _ _ (Effect.blind_putWord c _ _)
  | string | bytes => exact hobject
  | sequence => exact trivial
  | arrayUnsigned | arraySigned | arrayBoolean | arrayFloat32 | arrayFloat64 => cases hk

/-- The read of an array row is planned from what is pending alone. -/
theorem mappedPlan_array (hk : e.kind.isArray) (s : Store V) (p : Pending) :
    mappedPlan c e s p=(p,mappedArrayPlan c e p) := by
  rw [mappedPlan.eq_def]
  generalize e.kind=kind at hk
  cases kind with
  | unsigned | signed | boolean | float64 | float32 | string | bytes | sequence => cases hk
  | _ => rfl

/-- A bound that was settled is settled. -/
theorem settled_again {declared : Option ℕ} (h : settled declared p=.ok q) :
    settled declared q=.ok q ∧ settled declared q.real=.ok q.real := by
  rw [settled.eq_def] at h
  cases declared with
  | none => exact ⟨rfl,rfl⟩
  | some most =>
    dsimp only at h
    generalize hr : p.real=r at h
    cases r with
    | fixlen st n | varray signed n | farray st n size =>
      dsimp only at h
      split at h
      · cases h
      · next hn =>
        cases h
        exact ⟨if_neg hn,if_neg hn⟩
    | scalar | limit | discard => cases h

/-- What a row's read leaves pending is read the same way again. -/
theorem mappedPlan_again (hp : ∀ why, (mappedPlan c e s p).2≠.refuse why) :
    mappedPlan c e s (mappedPlan c e s p).1=mappedPlan c e s p := by
  have hobject : (∀ why, (objectPlan c e s p).2≠.refuse why) →
      objectPlan c e s (objectPlan c e s p).1=objectPlan c e s p := by
    intro hp
    rw [objectPlan.eq_def c e s p] at hp ⊢
    split at hp
    · next hi =>
      split at hp
      · next st got hr =>
        rw [if_pos hi]
        rw [hr]
        split at hp
        · next hs =>
          rw [if_pos hs]
          split
          · next hb =>
            dsimp only
            rw [objectPlan,if_pos hi]
            dsimp only [Pending.real]
            rw [if_pos hs,if_pos hb]
          · next hb =>
            dsimp only
            rw [objectPlan,if_pos hi]
            dsimp only [Pending.real]
            rw [if_pos hs,if_neg hb]
        · exact absurd rfl (hp _)
      · exact absurd rfl (hp _)
    · next hi =>
      rw [if_neg hi]
      cases p with
      | fixlen st size =>
        have hq : ∀ a b : Plan V, (if e.kind=.bytes then (Pending.fixlen st size,a)
            else (Pending.fixlen st size,b)).1=.fixlen st size := by
          intro a b
          split <;> rfl
        dsimp only
        rw [hq,objectPlan,if_neg hi]
      | _ => exact absurd rfl (hp _)
  rw [mappedPlan.eq_def c e s p] at hp ⊢
  cases hk : e.kind with
  | string | bytes =>
    rw [hk] at hp
    dsimp only at hp ⊢
    rw [mappedPlan.eq_def,hk]
    exact hobject hp
  | _ =>
    dsimp only
    rw [mappedPlan.eq_def,hk]

/-- The read of a row that is no array stores at its end. -/
theorem mappedPlan_still (hk : e.kind.isArray=false) (s : Store V) (p : Pending) :
    (mappedPlan c e s p).2.words=∅ ∧ (mappedPlan c e s p).2.bytes=∅ := by
  have hview : ∀ (view : Except Exn Dst) (size : ℕ) (k : Dst → List UInt8 → Effect V),
      (bytesPlan view size k).words=∅ ∧ (bytesPlan view size k).bytes=∅ := by
    intro view size k
    cases view <;> exact ⟨rfl,rfl⟩
  rw [mappedPlan.eq_def]
  generalize e.kind=kind at hk
  cases kind with
  | unsigned | signed | boolean | float64 | float32 | sequence => exact ⟨rfl,rfl⟩
  | string | bytes =>
    dsimp only
    rw [objectPlan.eq_def]
    split
    · split
      · split
        · split <;> exact hview _ _ _
        · exact ⟨rfl,rfl⟩
      · exact ⟨rfl,rfl⟩
    · split
      · exact ⟨rfl,rfl⟩
      · split <;> exact ⟨rfl,rfl⟩
      · exact ⟨rfl,rfl⟩
  | arrayUnsigned | arraySigned | arrayBoolean | arrayFloat32 | arrayFloat64 => cases hk

end Rows

section Prepared

variable {c : Config V} {v : Option V} {id : ℕ} {r : Route} {p q : Pending} {pl : Plan V}
variable {s t σ : Store V}

/-- The array rows a route leads to are bare where they are options. -/
def Route.Bare (c : Config V) (r : Route) : Prop :=
  ∀ e, r=.mapped e → e.kind.isArray → e.whichAt.isSome → e.Bare c

/-- A suspended read of a row that is no array has left nothing. -/
theorem words_still {e : Entry} (hk : e.kind.isArray=false) :
    Route.words c v id (.mapped e) p=∅ ∧ Route.bytes c v id (.mapped e) p=∅ := by
  rw [Route.words,Route.bytes,Route.arrival,Route.plan,hk]
  exact ⟨Set.empty_union _,rfl⟩

/-- A suspended read of an array row has left what its plan stores. -/
theorem words_array {e : Entry} (hk : e.kind.isArray=true) :
    Route.words c v id (.mapped e) p={i | e.countAt=some i}∪(mappedArrayPlan c e p.real).words ∧
      Route.bytes c v id (.mapped e) p=(mappedArrayPlan c e p.real).bytes := by
  rw [Route.words,Route.bytes,Route.arrival,Route.plan,hk,if_pos rfl,if_pos rfl]
  exact ⟨rfl,rfl⟩

/-- What a suspended read may have left anywhere does not matter to the next. -/
theorem prepare_agree (hb : r.Bare c) (h : Agree (r.words c v id p) (r.bytes c v id p) s t) :
    (prepare c v id r p s).2=(prepare c v id r p t).2 ∧
      Agree (r.words c v id p) (r.bytes c v id p) (prepare c v id r p s).1
        (prepare c v id r p t).1 ∧
      (prepare c v id r p s).2.2.Heals c (r.words c v id p) (r.bytes c v id p) := by
  cases r with
  | visit t =>
    cases v with
    | none => exact ⟨rfl,h,trivial⟩
    | some v =>
      refine ⟨rfl,h.calls _,?_⟩
      have hw : Route.words c (some v) id (.visit t) p=(visitPlan c v id t p).2.2.words :=
        Set.empty_union _
      rw [hw]
      exact visitPlan_healing v id t p
  | mapped e =>
    have harrive : (arrive c e s).2=(arrive c e t).2 ∧
        Agree (Route.words c v id (.mapped e) p) (Route.bytes c v id (.mapped e) p)
          (arrive c e s).1 (arrive c e t).1 := by
      cases hk : e.kind.isArray with
      | false =>
        obtain ⟨hw,hm⟩ : Route.words c v id (.mapped e) p=∅ ∧ Route.bytes c v id (.mapped e) p=∅ :=
          words_still hk
        rw [hw,hm] at h ⊢
        exact blind_arrive c e h
      | true =>
        cases hwhich : e.whichAt with
        | none =>
          have hdone : arrive c e=Effect.done := by rw [arrive.eq_def,hwhich]
          rw [hdone]
          exact ⟨rfl,h⟩
        | some w =>
          refine bare_arrive (hb e rfl hk (by rw [hwhich]; rfl)) ?_ h
          rw [(words_array hk).1]
          exact Set.subset_union_left
    obtain ⟨he,ha⟩ := harrive
    rw [prepare,prepare]
    generalize arrive c e s=a at he ha ⊢
    generalize arrive c e t=b at he ha ⊢
    obtain ⟨s,why⟩ := a
    obtain ⟨t,why'⟩ := b
    cases he
    cases why with
    | some why => exact ⟨rfl,ha,trivial⟩
    | none =>
      cases hq : settled e.declared p with
      | error why => exact ⟨rfl,ha,trivial⟩
      | ok q =>
        cases hk : e.kind.isArray with
        | false =>
          refine ⟨?_,ha,?_⟩
          · show mappedPlan c e s q=mappedPlan c e t q
            rw [mappedPlan.eq_def,mappedPlan.eq_def,objectPlan.eq_def,objectPlan.eq_def,
              ha.obj]
          · rw [(words_still hk).1,(words_still hk).2]
            exact mappedPlan_heals hk s q
        | true =>
          refine ⟨?_,ha,?_⟩
          · show mappedPlan c e s q=mappedPlan c e t q
            rw [mappedPlan_array hk,mappedPlan_array hk]
          · show (mappedPlan c e s q).2.Heals c _ _
            rw [mappedPlan_array hk,(words_array hk).1,(words_array hk).2]
            rcases settled_eq hq with rfl | rfl
            · cases q with
              | limit msg q => exact trivial
              | _ => exact mappedArrayPlan_heals c e _
            · exact mappedArrayPlan_heals c e _

/-- Preparing what a preparation left pending changes nothing. -/
theorem prepare_again (h : prepare c v id r p s=(σ,q,pl)) (hp : ∀ why, pl≠.refuse why) :
    (∃ σ', prepare c v id r q σ=(σ',q,pl) ∧ Agree ∅ ∅ σ' σ) ∧
      pl.words⊆r.words c v id q ∧ pl.bytes⊆r.bytes c v id q := by
  cases r with
  | visit t =>
    cases v with
    | none =>
      cases h
      exact absurd rfl (hp _)
    | some v =>
      have hσ : (visitPlan c v id t p).1.foldl Store.call s=σ := congrArg Prod.fst h
      have hq : (visitPlan c v id t p).2=(q,pl) := congrArg Prod.snd h
      have ha := visitPlan_again (c:=c) v id t p
      rw [hq] at ha
      refine ⟨⟨_,?_,Agree.asked (fun e he => (visitPlan_asks (c:=c) v id t p e he).1) σ⟩,?_,?_⟩
      · show ((visitPlan c v id t q).1.foldl Store.call σ,(visitPlan c v id t q).2)=_
        rw [ha,hq]
      · rw [Route.words,Route.plan,ha,hq]
        exact Set.subset_union_right
      · rw [Route.bytes,Route.plan,ha,hq]
  | mapped e =>
    rw [prepare] at h
    cases hr : arrive c e s with
    | mk u why =>
      rw [hr] at h
      cases why with
      | some why =>
        cases h
        exact absurd rfl (hp _)
      | none =>
        cases hs : settled e.declared p with
        | error why =>
          rw [hs] at h
          cases h
          exact absurd rfl (hp _)
        | ok p' =>
          rw [hs] at h
          have hu : u=σ := congrArg Prod.fst h
          have hm : mappedPlan c e u p'=(q,pl) := congrArg Prod.snd h
          rw [hu] at hr hm
          have hagain : mappedPlan c e σ q=(q,pl) := by
            have ha := mappedPlan_again (c:=c) (e:=e) (s:=σ) (p:=p') (by rw [hm]; exact hp)
            rw [hm] at ha
            exact ha
          have hs' : settled e.declared q=.ok q := by
            rcases mappedPlan_pending (c:=c) e σ p' with hq | hq
            · rw [hm] at hq
              rw [show q=p' from hq]
              exact (settled_again hs).1
            · rw [hm] at hq
              rw [show q=p'.real from hq]
              exact (settled_again hs).2
          refine ⟨⟨σ,?_,Agree.refl _ _ σ⟩,?_⟩
          · rw [prepare,arrive_again hr]
            dsimp only
            rw [hs']
            dsimp only
            rw [hagain]
          · cases hk : e.kind.isArray with
            | false =>
              have hstill := mappedPlan_still (c:=c) hk σ p'
              rw [hm] at hstill
              rw [show pl.words=∅ from hstill.1,show pl.bytes=∅ from hstill.2]
              exact ⟨Set.empty_subset _,Set.empty_subset _⟩
            | true =>
              rw [mappedPlan_array hk] at hm
              cases hm
              have hreal : q.real=q := by
                cases q with
                | limit msg q => exact absurd rfl (hp _)
                | _ => rfl
              rw [(words_array hk).1,(words_array hk).2,hreal]
              exact ⟨Set.subset_union_right,subset_rfl⟩

end Prepared

end SofaBuffers
