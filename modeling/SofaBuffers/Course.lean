import SofaBuffers.Run

/-!
# What a method can do to its object

A course relates the object a method is called on, the error it raises if it
does, and the object it leaves. When a course composes, what holds of the steps
of a method holds of the method.
-/

set_option autoImplicit false

namespace SofaBuffers

variable {σ α β : Type}

/-- A relation between an object, an error and the object later that composes. -/
structure Course (S : σ → Option Exn → σ → Prop) : Prop where
  /-- Nothing happening is a course. -/
  refl : ∀ d, S d none d
  /-- An error may be raised. -/
  raise : ∀ d why, S d (some why) d
  /-- One thing may happen after another. -/
  trans : ∀ {a b c w}, S a none b → S b w c → S a w c

/-- A method that was called on an object took the course. -/
inductive Takes (S : σ → Option Exn → σ → Prop) (d : σ) : EStateM.Result Exn σ α → Prop
  /-- The method went well. -/
  | ok {a : α} {d' : σ} (h : S d none d') : Takes S d (.ok a d')
  /-- The method raised. -/
  | error {why : Exn} {d' : σ} (h : S d (some why) d') : Takes S d (.error why d')

/-- A method takes the course whatever it is called on. -/
def Along (S : σ → Option Exn → σ → Prop) (m : EStateM Exn σ α) : Prop := ∀ d, Takes S d (m d)

section Rules

variable {S : σ → Option Exn → σ → Prop} {d : σ}

/-- Methods called one after another take a course if the second does on what the first left. -/
theorem Takes.bind (hS : Course S) {m : EStateM Exn σ α} {f : α → EStateM Exn σ β} {d₀ : σ}
    (hm : Takes S d (m d₀)) (hf : ∀ a d', m d₀=.ok a d' → Takes S d' (f a d')) :
    Takes S d ((m >>= f) d₀) := by
  rw [run_bind]
  cases hr : m d₀ with
  | ok a d' =>
    rw [hr] at hm
    cases hm with
    | ok h =>
      have hnext := hf a d' hr
      dsimp only
      generalize f a d'=r at hnext
      cases hnext with
      | ok h' => exact .ok (hS.trans h h')
      | error h' => exact .error (hS.trans h h')
  | error why d' =>
    rw [hr] at hm
    cases hm with
    | error h => exact .error h

/-- Methods that take a course do so one after another. -/
theorem Along.bind (hS : Course S) {m : EStateM Exn σ α} {f : α → EStateM Exn σ β}
    (hm : Along S m) (hf : ∀ a, Along S (f a)) : Along S (m >>= f) :=
  fun d => (hm d).bind hS fun a d' _ => hf a d'

/-- A result is handed on. -/
theorem Along.pure (hS : Course S) (a : α) : Along S (Pure.pure a : EStateM Exn σ α) :=
  fun d => .ok (hS.refl d)

/-- An error is raised. -/
theorem Along.throw (hS : Course S) (why : Exn) : Along S (throw why : EStateM Exn σ α) :=
  fun d => .error (hS.raise d why)

/-- The object is looked at. -/
theorem Along.get_bind {f : σ → EStateM Exn σ β} (hf : ∀ d, Takes S d (f d d)) :
    Along S (get >>= f) := by
  intro d
  rw [run_get_bind]
  exact hf d

/-- The object is changed. -/
theorem Along.modify {f : σ → σ} (hf : ∀ d, S d none (f d)) :
    Along S (modify f : EStateM Exn σ Unit) :=
  fun d => .ok (hf d)

/-- Either of two methods takes a course if each does. -/
theorem Along.ite {p : Prop} [Decidable p] {m m' : EStateM Exn σ α} (hm : p → Along S m)
    (hm' : ¬p → Along S m') : Along S (if p then m else m') := by
  by_cases h : p
  · rw [if_pos h]
    exact hm h
  · rw [if_neg h]
    exact hm' h

end Rules

end SofaBuffers
