import SofaBuffers.Walk.Plan
import Mathlib.Order.Interval.Set.Basic

/-!
# Storage that agrees up to what is about to be overwritten

A read that ran out of bytes may have stored some of its elements already. Such
a storage agrees with one that was left alone everywhere but in the slots and
bytes the read is going to write, and the read makes the difference go away.
-/

set_option autoImplicit false

namespace SofaBuffers

variable {V : Type}

/-- The two storages differ at most in the slots of `W`, in the bytes of `M` and
in the calls that are asked again. -/
structure Agree (W M : Set ℕ) (s t : Store V) : Prop where
  /-- The slots outside `W` hold the same words. -/
  word : ∀ i, i∉W → s.word i=t.word i
  /-- The objects are the same. -/
  obj : s.obj=t.obj
  /-- The bytes outside `M` are the same. -/
  mem : ∀ a, a∉M → s.mem a=t.mem a
  /-- The same was delivered. -/
  log : s.log.filter Event.observed=t.log.filter Event.observed

namespace Agree

variable {W M W' M' : Set ℕ} {s t u : Store V}

/-- A storage agrees with itself. -/
theorem refl (W M : Set ℕ) (s : Store V) : Agree W M s s :=
  ⟨fun _ _ => rfl,rfl,fun _ _ => rfl,rfl⟩

/-- Agreement goes both ways. -/
theorem symm (h : Agree W M s t) : Agree W M t s :=
  ⟨fun i hi => (h.word i hi).symm,h.obj.symm,fun a ha => (h.mem a ha).symm,h.log.symm⟩

/-- Agreement is passed on. -/
theorem trans (h : Agree W M s t) (h' : Agree W M t u) : Agree W M s u :=
  ⟨fun i hi => (h.word i hi).trans (h'.word i hi),h.obj.trans h'.obj,
    fun a ha => (h.mem a ha).trans (h'.mem a ha),h.log.trans h'.log⟩

/-- More may differ than does. -/
theorem mono (h : Agree W M s t) (hw : W⊆W') (hm : M⊆M') : Agree W' M' s t :=
  ⟨fun i hi => h.word i fun h => hi (hw h),h.obj,fun a ha => h.mem a fun h => ha (hm h),h.log⟩

/-- The same call recorded in both leaves them in agreement. -/
theorem call (h : Agree W M s t) (e : Event V) : Agree W M (s.call e) (t.call e) := by
  refine ⟨h.word,h.obj,h.mem,?_⟩
  show (s.log++[e]).filter Event.observed=(t.log++[e]).filter Event.observed
  rw [List.filter_append,List.filter_append,h.log]

/-- The same calls recorded in both leave them in agreement. -/
theorem calls (h : Agree W M s t) (es : List (Event V)) :
    Agree W M (es.foldl Store.call s) (es.foldl Store.call t) := by
  induction es generalizing s t with
  | nil => exact h
  | cons e es ih => exact ih (h.call e)

/-- Calls that are asked again do not show. -/
theorem asked {es : List (Event V)} (he : ∀ e ∈ es, e.observed=false) (s : Store V) :
    Agree ∅ ∅ (es.foldl Store.call s) s := by
  induction es generalizing s with
  | nil => exact refl _ _ s
  | cons e es ih =>
    refine (ih (fun e h => he e (List.mem_cons_of_mem _ h)) (s.call e)).trans ?_
    refine ⟨fun _ _ => rfl,rfl,fun _ _ => rfl,?_⟩
    show (s.log++[e]).filter Event.observed=s.log.filter Event.observed
    rw [List.filter_append,List.filter_cons_of_neg (by rw [he e List.mem_cons_self]; simp),
      List.filter_nil,List.append_nil]

/-- A slot written in both holds the same word from then on. -/
theorem setWord (h : Agree W M s t) (i : ℕ) (w : BitVec 64) :
    Agree (W\{i}) M (s.setWord i w) (t.setWord i w) := by
  refine ⟨fun k hk => ?_,h.obj,h.mem,h.log⟩
  show Function.update s.word i w k=Function.update t.word i w k
  by_cases hki : k=i
  · rw [hki,Function.update_self,Function.update_self]
  · rw [Function.update_of_ne hki,Function.update_of_ne hki]
    exact h.word k fun hw => hk ⟨hw,hki⟩

/-- Slots written in both hold the same words from then on. -/
theorem setWords (h : Agree W M s t) (i : ℕ) (ws : List (BitVec 64)) :
    Agree W M (s.setWords i ws) (t.setWords i ws) := by
  refine ⟨fun k hk => ?_,h.obj,h.mem,h.log⟩
  show (if _ then _ else s.word k)=if _ then _ else t.word k
  rw [h.word k hk]

/-- An entry written in both is the same from then on. -/
theorem setObj (h : Agree W M s t) (i : ℕ) (o : Obj) :
    Agree W M (s.setObj i o) (t.setObj i o) := by
  refine ⟨h.word,?_,h.mem,h.log⟩
  show Function.update s.obj i o=Function.update t.obj i o
  rw [h.obj]

/-- Bytes written in both are the same from then on. -/
theorem setMem (h : Agree W M s t) (a : ℕ) (bs : List UInt8) :
    Agree W (M\Set.Ico a (a+bs.length)) (s.setMem a bs) (t.setMem a bs) := by
  refine ⟨h.word,h.obj,fun i hi => ?_,h.log⟩
  show (if a ≤ i ∧ i < a+bs.length then _ else s.mem i)=if a ≤ i ∧ i < a+bs.length then _ else t.mem i
  by_cases hin : a ≤ i ∧ i < a+bs.length
  · rw [if_pos hin,if_pos hin]
  · rw [if_neg hin,if_neg hin]
    exact h.mem i fun hm => hi ⟨hm,hin⟩

end Agree

/-- The change comes to the same whatever the slots of `W` and the bytes of `M`
hold. -/
def Effect.Blind (W M : Set ℕ) (f : Effect V) : Prop :=
  ∀ ⦃s t⦄, Agree W M s t → (f s).2=(f t).2 ∧ Agree W M (f s).1 (f t).1

/-- Moreover they hold the same afterwards. -/
def Effect.Heals (W M : Set ℕ) (f : Effect V) : Prop :=
  ∀ ⦃s t⦄, Agree W M s t → (f s).2=(f t).2 ∧ Agree W M (f s).1 (f t).1 ∧
    ((f s).2=none → Agree ∅ ∅ (f s).1 (f t).1)

/-- The change touches the slots of `W` and the bytes of `M` only. -/
def Effect.Touches (W M : Set ℕ) (f : Effect V) : Prop := ∀ s, Agree W M (f s).1 s

namespace Effect

variable {W M : Set ℕ} {f g : Effect V}

/-- A change that sees everything leaves nothing different. -/
theorem Blind.heals (h : f.Blind ∅ ∅) : f.Heals ∅ ∅ :=
  fun _ _ ha => ⟨(h ha).1,(h ha).2,fun _ => (h ha).2⟩

theorem blind_done (W M : Set ℕ) : (done : Effect V).Blind W M := fun _ _ h => ⟨rfl,h⟩

theorem blind_raise (W M : Set ℕ) (e : Exn) : (raise e : Effect V).Blind W M :=
  fun _ _ h => ⟨rfl,h⟩

theorem blind_update {u : Store V → Store V} (h : ∀ s t, Agree W M s t → Agree W M (u s) (u t)) :
    (update u).Blind W M := fun s t ha => ⟨rfl,h s t ha⟩

/-- Blind changes in order are blind. -/
theorem Blind.andThen (hf : f.Blind W M) (hg : g.Blind W M) : (f.andThen g).Blind W M := by
  intro s t h
  obtain ⟨he,ha⟩ := hf h
  rw [Effect.andThen,Effect.andThen]
  generalize f s=a at he ha ⊢
  generalize f t=b at he ha ⊢
  obtain ⟨s',e⟩ := a
  obtain ⟨t',e'⟩ := b
  cases he
  cases e with
  | none => exact hg ha
  | some e => exact ⟨rfl,ha⟩

/-- A change that heals does so after one that is blind. -/
theorem Heals.andThen (hf : f.Blind W M) (hg : g.Heals W M) : (f.andThen g).Heals W M := by
  intro s t h
  obtain ⟨he,ha⟩ := hf h
  rw [Effect.andThen,Effect.andThen]
  generalize f s=a at he ha ⊢
  generalize f t=b at he ha ⊢
  obtain ⟨s',e⟩ := a
  obtain ⟨t',e'⟩ := b
  cases he
  cases e with
  | none => exact hg ha
  | some e => exact ⟨rfl,ha,by simp⟩

theorem blind_all {fs : List (Effect V)} (h : ∀ f ∈ fs, f.Blind W M) : (all fs).Blind W M := by
  induction fs with
  | nil => exact blind_done W M
  | cons f fs ih =>
    exact (h f List.mem_cons_self).andThen (ih fun f hf => h f (List.mem_cons_of_mem _ hf))

variable (c : Config V)

theorem blind_putWord (i : ℕ) (w : BitVec 64) : (putWord c i w).Blind W M := by
  rw [putWord]
  split
  · exact blind_update fun s t h => (h.setWord i w).mono Set.sdiff_subset subset_rfl
  · exact blind_raise W M _

theorem blind_putObj (i : ℕ) (o : Obj) : (putObj c i o).Blind W M := by
  rw [putObj]
  split
  · exact blind_update fun s t h => h.setObj i o
  · exact blind_raise W M _

theorem blind_deliver (v : V) (id : ℕ) (value : Value) : (deliver c v id value).Blind W M := by
  refine Blind.andThen (blind_update fun s t h => h.call _) ?_
  split
  · exact blind_done W M
  · exact blind_raise W M _

theorem blind_copyInto (view : Dst) (data : List UInt8) :
    (copyInto view data : Effect V).Blind W M := by
  rw [copyInto]
  split
  · exact blind_raise W M _
  · exact blind_update fun s t h => (h.setMem view.base data).mono subset_rfl Set.sdiff_subset

theorem blind_copyText (view : Dst) (data : List UInt8) :
    (copyText view data : Effect V).Blind W M := by
  rw [copyText]
  split
  · exact blind_copyInto view data
  · exact blind_raise W M _

theorem blind_withText {data : List UInt8} {k : List ℕ → Effect V}
    (hk : ∀ text, (k text).Blind W M) : (withText data k).Blind W M := by
  rw [withText.eq_def]
  split
  · exact hk _
  · exact blind_raise W M _

theorem blind_farrayPut (into : FloatSink) (i : ℕ) (ws : List (BitVec 64)) :
    (into.put c i ws).Blind W M := by
  cases into with
  | words =>
    rw [FloatSink.put]
    split
    · exact blind_update fun s t h => h.setWords i ws
    · exact blind_raise W M _
  | buffer d =>
    rw [FloatSink.put]
    split
    · exact blind_update fun s t h => (h.setMem _ _).mono subset_rfl Set.sdiff_subset
    · exact blind_raise W M _

theorem blind_unpackFarrayInto (into : FloatSink) (base : ℕ) (data : List UInt8)
    (count width start turns off : ℕ) :
    (unpackFarrayInto c into base data count width start turns off).Blind W M := by
  induction turns generalizing off with
  | zero => exact blind_raise W M _
  | succ turns ih =>
    rw [unpackFarrayInto]
    split
    · exact (blind_farrayPut c _ _ _).andThen (ih _)
    · exact blind_done W M

theorem blind_countArrival (e : Entry) (got : ℕ) : (countArrival c e got).Blind W M := by
  rw [countArrival.eq_def]
  split
  · exact blind_done W M
  · exact blind_putWord c _ _

/-- The arrival slot holds the same afterwards, if it could be written. -/
theorem heals_countArrival (e : Entry) (got : ℕ) (hW : ∀ i ∈ W, e.countAt=some i) :
    (countArrival c e got).Heals W ∅ := by
  intro s t h
  refine ⟨(blind_countArrival c e got h).1,(blind_countArrival c e got h).2,?_⟩
  rw [countArrival.eq_def]
  cases hc : e.countAt with
  | none =>
    intro _
    refine h.mono ?_ subset_rfl
    intro i hi
    have hi := hW i hi
    rw [hc] at hi
    cases hi
  | some i =>
    dsimp only
    rw [putWord]
    split
    · intro _
      refine (h.setWord i _).mono ?_ subset_rfl
      rintro k ⟨hk,hki⟩
      have hk := hW k hk
      rw [hc] at hk
      cases hk
      exact absurd rfl hki
    · intro h; cases h

theorem blind_resetWords (ws : List (ℕ × BitVec 64)) : (resetWords c ws).Blind W M := by
  refine blind_all fun f hf => ?_
  obtain ⟨p,_,rfl⟩ := List.mem_map.mp hf
  exact blind_putWord c _ _

theorem blind_resetInto (slot : ℕ) (payload : List UInt8) :
    (resetInto c slot payload).Blind W M := by
  intro s t h
  rw [resetInto.eq_def,resetInto.eq_def,h.obj]
  dsimp only
  split
  · split
    · exact ⟨rfl,h⟩
    · split
      · exact ⟨rfl,h⟩
      · split
        · exact ⟨rfl,h⟩
        · exact blind_copyInto _ _ h
  · exact ⟨rfl,h⟩

theorem blind_resetOption (e : Entry) : (resetOption c e).Blind W M := by
  refine (blind_resetWords c _).andThen (Blind.andThen (blind_all fun f hf => ?_)
    (blind_all fun f hf => ?_))
  · obtain ⟨p,_,rfl⟩ := List.mem_map.mp hf
    exact blind_putObj c _ _
  · obtain ⟨p,_,rfl⟩ := List.mem_map.mp hf
    exact blind_resetInto c _ _

/-- Slots that hold the same are normalised alike. -/
theorem blind_normaliseBooleans (count i : ℕ) (hW : ∀ k, i ≤ k → k < i+count → k∉W) :
    (normaliseBooleans c count i).Blind W M := by
  induction count generalizing i with
  | zero => exact blind_done W M
  | succ count ih =>
    intro s t h
    rw [normaliseBooleans]
    dsimp only
    rw [h.word i (hW i (Nat.le_refl i) (by omega))]
    split
    · refine Blind.andThen ?_ (ih (i+1) fun k hk hl => hW k (by omega) (by omega)) h
      split
      · exact blind_putWord c _ _
      · exact blind_done W M
    · exact ⟨rfl,h⟩

end Effect

end SofaBuffers
