import SofaBuffers.Run

/-!
# Two methods on two objects

A method of one object and a method of another, of a different make, go in tandem
when they return the same or raise errors of one class, and leave the objects
related either way. A method goes alongside another when it has to do so only where
that one does not raise what excuses it.
-/

set_option autoImplicit false

namespace SofaBuffers

variable {σ τ α β : Type}

/-- Two methods ended alike: they returned the same, or what they raised is of one class, and
they left related objects. -/
inductive Tandem (R : σ → τ → Prop) :
    EStateM.Result Exn σ α → EStateM.Result Exn τ α → Prop
  /-- Both went well. -/
  | ok {a : α} {d : σ} {n : τ} (h : R d n) : Tandem R (.ok a d) (.ok a n)
  /-- Both raised. -/
  | error {why why' : Exn} {d : σ} {n : τ} (hw : why.cls=why'.cls) (h : R d n) :
      Tandem R (.error why d) (.error why' n)

section Rules

variable {R R' : σ → τ → Prop} {d : σ} {n : τ}

/-- What is left may be related in a weaker way. -/
theorem Tandem.imp {r : EStateM.Result Exn σ α} {r' : EStateM.Result Exn τ α}
    (h : Tandem R r r') (hi : ∀ d n, R d n → R' d n) : Tandem R' r r' := by
  cases h with
  | ok h => exact .ok (hi _ _ h)
  | error hw h => exact .error hw (hi _ _ h)

/-- Methods that end alike do so one after another. -/
theorem Tandem.bind {m : EStateM Exn σ α} {m' : EStateM Exn τ α} {f : α → EStateM Exn σ β}
    {f' : α → EStateM Exn τ β} (hm : Tandem R (m d) (m' n))
    (hf : ∀ a d n, R d n → Tandem R (f a d) (f' a n)) :
    Tandem R ((m >>= f) d) ((m' >>= f') n) := by
  rw [run_bind,run_bind]
  generalize m d=r,m' n=r' at hm
  cases hm with
  | ok h => exact hf _ _ _ h
  | error hw h => exact .error hw h

/-- Either of two methods ends alike, by conditions on which the objects agree. -/
theorem Tandem.ite {p q : Prop} [Decidable p] [Decidable q] {m k : EStateM Exn σ α}
    {m' k' : EStateM Exn τ α} (hpq : q ↔ p) (hm : p → Tandem R (m d) (m' n))
    (hk : ¬p → Tandem R (k d) (k' n)) :
    Tandem R ((if p then m else k) d) ((if q then m' else k') n) := by
  by_cases h : p
  · rw [if_pos h,if_pos (hpq.mpr h)]
    exact hm h
  · rw [if_neg h,if_neg fun hq => h (hpq.mp hq)]
    exact hk h

end Rules

/-- What a caller is told who calls one method after another and goes on whatever is raised, and
the object that is left. -/
def replies {ι : Type} (step : ι → EStateM Exn σ α) : List ι → σ → List (Except ExnClass α) × σ
  | [], d => ([],d)
  | i::is, d =>
    match step i d with
    | .ok a d => (.ok a::(replies step is d).1,(replies step is d).2)
    | .error why d => (.error why.cls::(replies step is d).1,(replies step is d).2)

/-- What goes in tandem at every call tells the caller the same in every run, and leaves related
objects. -/
theorem Tandem.replies {ι : Type} {R : σ → τ → Prop} {P : ι → Prop} {step : ι → EStateM Exn σ α}
    {step' : ι → EStateM Exn τ α}
    (hstep : ∀ i d n, P i → R d n → Tandem R (step i d) (step' i n)) {is : List ι}
    (hp : ∀ i ∈ is, P i) {d : σ} {n : τ} (h : R d n) :
    (replies step is d).1=(SofaBuffers.replies step' is n).1 ∧
      R (SofaBuffers.replies step is d).2 (SofaBuffers.replies step' is n).2 := by
  induction is generalizing d n with
  | nil => exact ⟨rfl,h⟩
  | cons i is ih =>
    have hone := hstep i d n (hp i List.mem_cons_self) h
    have hrest := fun j hj => hp j (List.mem_cons_of_mem i hj)
    rw [SofaBuffers.replies,SofaBuffers.replies]
    generalize step i d=r,step' i n=r' at hone
    cases hone with
    | ok h =>
      obtain ⟨htold,hleft⟩ := ih hrest h
      exact ⟨congrArg (_::·) htold,hleft⟩
    | error hw h =>
      obtain ⟨htold,hleft⟩ := ih hrest h
      dsimp only
      rw [hw,htold]
      exact ⟨rfl,hleft⟩

/-- A method followed another: it ended as that did, with related values or exceptions on related
objects, unless how that raised excuses it from anything. -/
inductive Alongside (X : Exn → σ → Prop) (R : α → σ → β → τ → Prop)
    (E : Exn → σ → Exn → τ → Prop) : EStateM.Result Exn σ α → EStateM.Result Exn τ β → Prop
  /-- Both went well. -/
  | ok {a : α} {d : σ} {b : β} {n : τ} (h : R a d b n) : Alongside X R E (.ok a d) (.ok b n)
  /-- Both raised. -/
  | error {why why' : Exn} {d : σ} {n : τ} (h : E why d why' n) :
      Alongside X R E (.error why d) (.error why' n)
  /-- How the first raised excuses the second. -/
  | excused {why : Exn} {d : σ} {r : EStateM.Result Exn τ β} (hx : X why d) :
      Alongside X R E (.error why d) r

section Following

variable {X : Exn → σ → Prop} {E E' : Exn → σ → Exn → τ → Prop}

/-- What is left may be related in a weaker way. -/
theorem Alongside.imp {R R' : α → σ → β → τ → Prop} {r : EStateM.Result Exn σ α}
    {r' : EStateM.Result Exn τ β} (h : Alongside X R E r r')
    (hok : ∀ a d b n, R a d b n → R' a d b n) (herror : ∀ why d why' n, E why d why' n →
      E' why d why' n) : Alongside X R' E' r r' := by
  cases h with
  | ok h => exact .ok (hok _ _ _ _ h)
  | error h => exact .error (herror _ _ _ _ h)
  | excused hx => exact .excused hx

/-- Methods that follow others do so one after another. -/
theorem Alongside.bind {γ δ : Type} {R : α → σ → β → τ → Prop} {R' : γ → σ → δ → τ → Prop}
    {m : EStateM Exn σ α} {m' : EStateM Exn τ β} {f : α → EStateM Exn σ γ}
    {f' : β → EStateM Exn τ δ} {d : σ} {n : τ} (hm : Alongside X R E (m d) (m' n))
    (hf : ∀ a d b n, R a d b n → Alongside X R' E (f a d) (f' b n)) :
    Alongside X R' E ((m >>= f) d) ((m' >>= f') n) := by
  rw [run_bind,run_bind]
  generalize m d=r,m' n=r' at hm
  cases hm with
  | ok h => exact hf _ _ _ _ h
  | error h => exact .error h
  | excused hx => exact .excused hx

/-- A method that only the second side goes on with, and that ends well. -/
theorem Alongside.onward {γ : Type} {R : α → σ → β → τ → Prop} {R' : α → σ → γ → τ → Prop}
    {r : EStateM.Result Exn σ α} {m' : EStateM Exn τ β} {f' : β → EStateM Exn τ γ} {n : τ}
    (hm : Alongside X R E r (m' n))
    (hf : ∀ a d b n, R a d b n → ∃ c n', f' b n=.ok c n' ∧ R' a d c n') :
    Alongside X R' E r ((m' >>= f') n) := by
  rw [run_bind]
  generalize m' n=r' at hm
  cases hm with
  | ok h =>
    obtain ⟨c,n',hr,hR⟩ := hf _ _ _ _ h
    dsimp only
    rw [hr]
    exact .ok hR
  | error h => exact .error h
  | excused hx => exact .excused hx

/-- What holds of every object the first method can leave holds of the one it left, unless that
excuses the second. -/
theorem Alongside.also {R : α → σ → β → τ → Prop} {K : σ → Prop} {r : EStateM.Result Exn σ α}
    {r' : EStateM.Result Exn τ β} (h : Alongside X R E r r')
    (hk : (∃ a d, r=.ok a d ∧ K d) ∨ ∃ why d, r=.error why d ∧ (K d ∨ X why d)) :
    Alongside X (fun a d b n => R a d b n ∧ K d) (fun why d why' n => E why d why' n ∧ K d) r r' := by
  rcases hk with ⟨a,d,rfl,hk⟩ | ⟨why,d,rfl,hk | hx⟩
  · cases h with
    | ok h => exact .ok ⟨h,hk⟩
  · cases h with
    | error h => exact .error ⟨h,hk⟩
    | excused hx => exact .excused hx
  · exact .excused hx

/-- A method that follows another at every call tells the caller the same in every run that no
object left by a call excuses it from, and leaves related objects. -/
theorem Alongside.replies {ι : Type} {R : σ → τ → Prop} {step : ι → EStateM Exn σ α}
    {step' : ι → EStateM Exn τ α}
    (hstep : ∀ i d n, R d n → Alongside X (fun a d b n => a=b ∧ R d n)
      (fun why d why' n => why.cls=why'.cls ∧ R d n) (step i d) (step' i n))
    {is : List ι} {d : σ} {n : τ} (h : R d n)
    (hx : ∀ pre, pre<+:is → ∀ why, ¬X why (replies step pre d).2) :
    (SofaBuffers.replies step is d).1=(SofaBuffers.replies step' is n).1 ∧
      R (SofaBuffers.replies step is d).2 (SofaBuffers.replies step' is n).2 := by
  induction is generalizing d n with
  | nil => exact ⟨rfl,h⟩
  | cons i is ih =>
    have hone := hstep i d n h
    have hlater : ∀ pre, pre<+:is → ∀ why, ¬X why (SofaBuffers.replies step (i::pre) d).2 :=
      fun pre hpre => hx (i::pre) (List.cons_prefix_cons.mpr ⟨rfl,hpre⟩)
    simp only [SofaBuffers.replies] at hlater ⊢
    generalize step i d=r,step' i n=r' at hone hlater
    cases hone with
    | ok h =>
      obtain ⟨heq,h⟩ := h
      obtain ⟨htold,hleft⟩ := ih h hlater
      dsimp only
      rw [heq,htold]
      exact ⟨rfl,hleft⟩
    | error h =>
      obtain ⟨hw,h⟩ := h
      obtain ⟨htold,hleft⟩ := ih h hlater
      dsimp only
      rw [hw,htold]
      exact ⟨rfl,hleft⟩
    | excused hw => exact absurd hw (hlater [] (List.nil_prefix) _)

end Following

end SofaBuffers
