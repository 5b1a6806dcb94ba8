import SofaBuffers.Run

/-!
# A method on two objects

Two objects that are related stay related when the same method is called on
both, if every step of the method keeps them so: it returns the same, or raises
the same, and leaves related objects.
-/

set_option autoImplicit false

namespace SofaBuffers

variable {σ α β : Type}

/-- A method ended alike on two objects, and left them related; what it raised, if it
did, is among the errors. -/
inductive Beside (R : σ → σ → Prop) (E : Exn → Prop) :
    EStateM.Result Exn σ α → EStateM.Result Exn σ α → Prop
  /-- The method went well on both. -/
  | ok {a : α} {d d' : σ} (h : R d d') : Beside R E (.ok a d) (.ok a d')
  /-- The method raised on both. -/
  | error {why : Exn} {d d' : σ} (hw : E why) (h : R d d') :
      Beside R E (.error why d) (.error why d')

/-- A method ends alike on related objects. -/
def Abreast (R : σ → σ → Prop) (E : Exn → Prop) (m : EStateM Exn σ α) : Prop :=
  ∀ d d', R d d' → Beside R E (m d) (m d')

section Rules

variable {R : σ → σ → Prop} {E : Exn → Prop}

/-- Methods called one after another end alike if the second does on what the first left. -/
theorem Beside.bind {m m' : EStateM Exn σ α} {f f' : α → EStateM Exn σ β} {d d' : σ}
    (hm : Beside R E (m d) (m' d'))
    (hf : ∀ a b b', m d=.ok a b → R b b' → Beside R E (f a b) (f' a b')) :
    Beside R E ((m >>= f) d) ((m' >>= f') d') := by
  rw [run_bind,run_bind]
  cases hr : m d with
  | ok a b =>
    rw [hr] at hm
    generalize m' d'=r' at hm
    cases hm with
    | ok h => exact hf a b _ hr h
  | error why b =>
    rw [hr] at hm
    generalize m' d'=r' at hm
    cases hm with
    | error hw h => exact .error hw h

/-- Methods that keep objects abreast do so one after another. -/
theorem Abreast.bind {m : EStateM Exn σ α} {f : α → EStateM Exn σ β} (hm : Abreast R E m)
    (hf : ∀ a, Abreast R E (f a)) : Abreast R E (m >>= f) :=
  fun d d' h => (hm d d' h).bind fun a b b' _ hb => hf a b b' hb

/-- A result is handed on. -/
theorem Abreast.pure (a : α) : Abreast R E (Pure.pure a : EStateM Exn σ α) :=
  fun _ _ h => .ok h

/-- An error is raised. -/
theorem Abreast.throw {why : Exn} (hw : E why) :
    Abreast R E (throw why : EStateM Exn σ α) :=
  fun _ _ h => .error hw h

/-- The objects are looked at. -/
theorem Abreast.get_bind {f : σ → EStateM Exn σ β}
    (hf : ∀ d d', R d d' → Beside R E (f d d) (f d' d')) : Abreast R E (get >>= f) := by
  intro d d' h
  rw [run_get_bind,run_get_bind]
  exact hf d d' h

/-- The objects are changed. -/
theorem Abreast.modify {f : σ → σ} (hf : ∀ d d', R d d' → R (f d) (f d')) :
    Abreast R E (modify f : EStateM Exn σ Unit) :=
  fun d d' h => .ok (hf d d' h)

/-- Either of two methods ends alike, by a condition on which the objects agree. -/
theorem Beside.ite {p : Prop} [Decidable p] {m m' n n' : EStateM Exn σ α} {d d' : σ}
    (hm : p → Beside R E (m d) (m' d')) (hn : ¬p → Beside R E (n d) (n' d')) :
    Beside R E ((if p then m else n) d) ((if p then m' else n') d') := by
  by_cases h : p
  · rw [if_pos h,if_pos h]
    exact hm h
  · rw [if_neg h,if_neg h]
    exact hn h

/-- Either of two methods keeps objects abreast if each does. -/
theorem Abreast.ite {p : Prop} [Decidable p] {m n : EStateM Exn σ α} (hm : p → Abreast R E m)
    (hn : ¬p → Abreast R E n) : Abreast R E (if p then m else n) :=
  fun d d' h => Beside.ite (fun hp => hm hp d d' h) fun hp => hn hp d d' h

end Rules

end SofaBuffers
