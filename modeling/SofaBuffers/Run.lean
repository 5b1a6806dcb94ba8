import SofaBuffers.Types

/-!
# Methods of a mutable object

A method reads and changes the object it is called on and may raise; what it
changed before it raised stays changed.
-/

set_option autoImplicit false

namespace SofaBuffers

variable {σ α β : Type}

/-- Two methods in sequence. -/
theorem run_bind (m : EStateM Exn σ α) (f : α → EStateM Exn σ β) (d : σ) :
    (m >>= f) d=match m d with
      | .ok a d' => f a d'
      | .error e d' => .error e d' := by
  show EStateM.bind m f d=_
  rw [EStateM.bind]
  cases m d <;> rfl

@[simp] theorem run_pure (a : α) (d : σ) : (pure a : EStateM Exn σ α) d=.ok a d := rfl

@[simp] theorem run_get (d : σ) : (get : EStateM Exn σ σ) d=.ok d d := rfl

@[simp] theorem run_set (d d' : σ) : (set d' : EStateM Exn σ PUnit) d=.ok () d' := rfl

@[simp] theorem run_modify (f : σ → σ) (d : σ) :
    (modify f : EStateM Exn σ Unit) d=.ok () (f d) := rfl

@[simp] theorem run_throw (e : Exn) (d : σ) : (throw e : EStateM Exn σ α) d=.error e d := rfl

/-- A method that went well is followed by the next one. -/
theorem run_bind_ok {m : EStateM Exn σ α} {f : α → EStateM Exn σ β} {d d' : σ} {a : α}
    (h : m d=.ok a d') : (m >>= f) d=f a d' := by
  rw [run_bind,h]

/-- A method that raised ends the call. -/
theorem run_bind_error {m : EStateM Exn σ α} {f : α → EStateM Exn σ β} {d d' : σ} {e : Exn}
    (h : m d=.error e d') : (m >>= f) d=.error e d' := by
  rw [run_bind,h]

@[simp] theorem run_get_bind (f : σ → EStateM Exn σ β) (d : σ) :
    ((get : EStateM Exn σ σ) >>= f) d=f d d := rfl

@[simp] theorem run_modify_bind (g : σ → σ) (f : Unit → EStateM Exn σ β) (d : σ) :
    ((modify g : EStateM Exn σ Unit) >>= f) d=f () (g d) := rfl

@[simp] theorem run_set_bind (d' : σ) (f : PUnit → EStateM Exn σ β) (d : σ) :
    ((set d' : EStateM Exn σ PUnit) >>= f) d=f () d' := rfl

end SofaBuffers
