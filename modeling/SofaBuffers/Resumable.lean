import Mathlib.Data.Int.Bitwise
import Mathlib.Tactic.Common

/-!
# Readers and machines over a string that is still growing

A reader either takes a construct off the front of the symbols received so
far, asks for more of them, or finds the construct ill formed. It is stable
when a verdict, once reached, does not change as symbols are appended. A
machine takes one construct a step and keeps what it could not use yet; when
its steps are stable up to an equivalence of suspended states, feeding a
string in pieces ends as feeding it whole does.
-/

set_option autoImplicit false

namespace Resumable

universe u

variable {ε β α γ σ : Type u}

/-- What reading one construct off the front of a string comes to. -/
inductive Parse (ε β α : Type u)
  /-- The construct was there; what follows it is handed back. -/
  | done (value : α) (rest : List β)
  /-- The string ends inside the construct. -/
  | more
  /-- The construct is ill formed whatever follows. -/
  | bad (why : ε)

/-- A reader of constructs of type `α`. -/
def Parser (ε β α : Type u) := List β → Parse ε β α

/-- Read nothing and answer a value. -/
def Parser.pure (a : α) : Parser ε β α := fun xs => .done a xs

/-- Read with `p`, then with the reader its value selects. -/
def Parser.bind (p : Parser ε β α) (f : α → Parser ε β γ) : Parser ε β γ := fun xs =>
  match p xs with
  | .done a rest => f a rest
  | .more => .more
  | .bad why => .bad why

/-- Refuse whatever the string holds. -/
def Parser.fail (why : ε) : Parser ε β α := fun _ => .bad why

instance : Monad (Parser ε β) where
  pure := Parser.pure
  bind := Parser.bind

/-- A bind whose first reader is done goes on with the second. -/
theorem bind_done {p : Parser ε β α} {f : α → Parser ε β γ} {xs : List β} {a : α} {rest : List β}
    (h : p xs=.done a rest) : (p >>= f) xs=f a rest := by
  show Parser.bind p f xs=f a rest
  rw [Parser.bind,h]

/-- A bind whose first reader wants more wants more. -/
theorem bind_more {p : Parser ε β α} {f : α → Parser ε β γ} {xs : List β}
    (h : p xs=.more) : (p >>= f) xs=.more := by
  show Parser.bind p f xs=.more
  rw [Parser.bind,h]

/-- A bind whose first reader refuses refuses. -/
theorem bind_bad {p : Parser ε β α} {f : α → Parser ε β γ} {xs : List β} {why : ε}
    (h : p xs=.bad why) : (p >>= f) xs=.bad why := by
  show Parser.bind p f xs=.bad why
  rw [Parser.bind,h]

/-- What a sequence of parsers read, its parts read. -/
theorem of_bind_done {p : Parser ε β α} {f : α → Parser ε β γ} {xs rest : List β} {b : γ}
    (h : (p >>= f) xs=.done b rest) : ∃ a mid, p xs=.done a mid ∧ f a mid=.done b rest := by
  cases hp : p xs with
  | done a mid => exact ⟨a,mid,rfl,by rw [bind_done hp] at h; exact h⟩
  | more => rw [bind_more hp] at h; cases h
  | bad why => rw [bind_bad hp] at h; cases h

/-- A verdict in a sequence of parsers is one of its parts'. -/
theorem of_bind_bad {p : Parser ε β α} {f : α → Parser ε β γ} {xs : List β} {why : ε}
    (h : (p >>= f) xs=.bad why) :
    p xs=.bad why ∨ ∃ a mid, p xs=.done a mid ∧ f a mid=.bad why := by
  cases hp : p xs with
  | done a mid => exact Or.inr ⟨a,mid,rfl,by rw [bind_done hp] at h; exact h⟩
  | more => rw [bind_more hp] at h; cases h
  | bad why' => rw [bind_bad hp] at h; cases h; exact Or.inl rfl

/-- Reading in three stages does not depend on how they are grouped. -/
theorem Parser.bind_assoc {δ : Type u} (p : Parser ε β α) (f : α → Parser ε β γ)
    (g : γ → Parser ε β δ) : (p >>= f) >>= g=p >>= fun a => f a >>= g := by
  funext xs
  cases hx : p xs with
  | done a rest =>
    rw [bind_done hx]
    cases hy : f a rest with
    | done c mid => rw [bind_done ((bind_done hx).trans hy),bind_done hy]
    | more => rw [bind_more ((bind_done hx).trans hy),bind_more hy]
    | bad why => rw [bind_bad ((bind_done hx).trans hy),bind_bad hy]
  | more => rw [bind_more (bind_more hx),bind_more hx]
  | bad why => rw [bind_bad (bind_bad hx),bind_bad hx]

/-- A verdict, once reached, survives everything appended behind it, and what
a reader hands back is a tail of what it was given. -/
structure Stable (p : Parser ε β α) : Prop where
  /-- A construct that was there is still there. -/
  done : ∀ {xs a rest}, p xs=.done a rest → ∀ ys, p (xs++ys)=.done a (rest++ys)
  /-- An ill-formed construct stays ill formed. -/
  bad : ∀ {xs why}, p xs=.bad why → ∀ ys, p (xs++ys)=.bad why
  /-- Only a prefix is taken. -/
  suffix : ∀ {xs a rest}, p xs=.done a rest → rest<:+xs

/-- Reading nothing is stable. -/
theorem Stable.pure (a : α) : Stable (pure a : Parser ε β α) where
  done := by
    intro xs b rest h ys
    cases h
    rfl
  bad := by
    intro xs why h
    cases h
  suffix := by
    intro xs b rest h
    cases h
    exact List.suffix_rfl

/-- Refusing is stable. -/
theorem Stable.fail (why : ε) : Stable (Parser.fail why : Parser ε β α) where
  done := by
    intro xs b rest h
    cases h
  bad := by
    intro xs w h ys
    exact h
  suffix := by
    intro xs b rest h
    cases h

/-- Stable readers compose. -/
theorem Stable.bind {p : Parser ε β α} {f : α → Parser ε β γ} (hp : Stable p)
    (hf : ∀ a, Stable (f a)) : Stable (p >>= f) where
  done := by
    intro xs c rest h ys
    cases hx : p xs with
    | done a mid =>
      rw [bind_done hx] at h
      rw [bind_done (hp.done hx ys)]
      exact (hf a).done h ys
    | more => rw [bind_more hx] at h; cases h
    | bad why => rw [bind_bad hx] at h; cases h
  bad := by
    intro xs why h ys
    cases hx : p xs with
    | done a mid =>
      rw [bind_done hx] at h
      rw [bind_done (hp.done hx ys)]
      exact (hf a).bad h ys
    | more => rw [bind_more hx] at h; cases h
    | bad w =>
      rw [bind_bad hx] at h
      rw [bind_bad (hp.bad hx ys)]
      exact h
  suffix := by
    intro xs c rest h
    cases hx : p xs with
    | done a mid =>
      rw [bind_done hx] at h
      exact ((hf a).suffix h).trans (hp.suffix hx)
    | more => rw [bind_more hx] at h; cases h
    | bad why => rw [bind_bad hx] at h; cases h

/-- One step of a machine over the symbols it has not used yet. -/
inductive Step (σ β ε : Type u)
  /-- A construct was taken; go on. -/
  | next (state : σ) (rest : List β)
  /-- The symbols end inside a construct; the unused ones are kept. -/
  | wait (state : σ) (rest : List β)
  /-- Nothing is left and nothing is open. -/
  | stop (state : σ)
  /-- The step is refused. -/
  | fail (why : ε) (state : σ) (rest : List β)

/-- The step with more symbols behind those that are left. -/
def Step.behind (ys : List β) : Step σ β ε → Step σ β ε
  | .next s rest => .next s (rest++ys)
  | .wait s rest => .wait s (rest++ys)
  | .stop s => .stop s
  | .fail why s rest => .fail why s (rest++ys)

/-- The step goes on or is refused: it has seen all it needs. -/
def Step.Settled : Step σ β ε → Prop
  | .next .. | .fail .. => True
  | _ => False

/-- A step that is not refused leads to a state of a kind. -/
def Step.Keeps (inv : σ → Prop) : Step σ β ε → Prop
  | .next s _ | .wait s _ | .stop s => inv s
  | .fail .. => True

/-- What a step leaves is a tail of what it was given. -/
def Step.Tails (xs : List β) : Step σ β ε → Prop
  | .next _ rest | .wait _ rest | .fail _ _ rest => rest<:+xs
  | .stop _ => True

/-- How a run over the symbols at hand ends. -/
inductive Halt (σ β ε : Type u)
  /-- Suspended inside a construct. -/
  | wait (state : σ) (rest : List β)
  /-- Everything was used. -/
  | stop (state : σ)
  /-- The bytes are refused. -/
  | fail (why : ε) (state : σ) (rest : List β)

/-- The step a run ends with. -/
def Halt.last : Halt σ β ε → Step σ β ε
  | .wait s rest => .wait s rest
  | .stop s => .stop s
  | .fail why s rest => .fail why s rest

/-- Run for at most the given number of steps. -/
def runFor (step : σ → List β → Step σ β ε) : ℕ → σ → List β → Halt σ β ε
  | 0, s, xs => .wait s xs
  | n+1, s, xs =>
    match step s xs with
    | .next s rest => runFor step n s rest
    | .wait s rest => .wait s rest
    | .stop s => .stop s
    | .fail why s rest => .fail why s rest

/-- A step leads to a state of a kind, or is refused in one that tells why. -/
def Step.Holds (inv : σ → Prop) (refused : ε → σ → Prop) : Step σ β ε → Prop
  | .next s _ | .wait s _ | .stop s => inv s
  | .fail why s _ => refused why s

/-- A run ends in a state of a kind, or is refused in one that tells why. -/
def Halt.Holds (inv : σ → Prop) (refused : ε → σ → Prop) : Halt σ β ε → Prop
  | .wait s _ | .stop s => inv s
  | .fail why s _ => refused why s

/-- What every step keeps to, a run keeps to. -/
theorem runFor_holds {step : σ → List β → Step σ β ε} {inv : σ → Prop} {refused : ε → σ → Prop}
    (hstep : ∀ s xs, inv s → (step s xs).Holds inv refused) (n : ℕ) {s : σ} (hs : inv s)
    (xs : List β) : (runFor step n s xs).Holds inv refused := by
  induction n generalizing s xs with
  | zero => exact hs
  | succ n ih =>
    have hone := hstep s xs hs
    rw [runFor]
    cases h : step s xs with
    | next s' rest => rw [h] at hone; exact ih hone rest
    | wait s' rest => rw [h] at hone; exact hone
    | stop s' => rw [h] at hone; exact hone
    | fail why s' rest => rw [h] at hone; exact hone

/-- The states a run passes through, with what is left in each. -/
inductive Passes (step : σ → List β → Step σ β ε) : σ → List β → σ → List β → Prop
  /-- A run passes through the state it starts in. -/
  | here {s : σ} {xs : List β} : Passes step s xs s xs
  /-- A run passes through what it passes through once it has gone on. -/
  | next {s s' t : σ} {xs rest ys : List β} (h : step s xs=.next s' rest) :
      Passes step s' rest t ys → Passes step s xs t ys

/-- What every step keeps to holds of every state a run passes through. -/
theorem Passes.holds {step : σ → List β → Step σ β ε} {inv : σ → Prop} {refused : ε → σ → Prop}
    (hstep : ∀ s xs, inv s → (step s xs).Holds inv refused) {s t : σ} {xs ys : List β} (hs : inv s)
    (h : Passes step s xs t ys) : inv t := by
  induction h with
  | here => exact hs
  | @next s s' t xs rest ys hone _ ih =>
    have hkeep := hstep s xs hs
    rw [hone] at hkeep
    exact ih hkeep

/-- What is left in a state a run passes through is a tail of what it was given. -/
theorem Passes.tail {step : σ → List β → Step σ β ε} (hstep : ∀ s xs, (step s xs).Tails xs)
    {s t : σ} {xs ys : List β} (h : Passes step s xs t ys) : ys<:+xs := by
  induction h with
  | here => exact List.suffix_rfl
  | @next s s' t xs rest ys hone _ ih =>
    have htail := hstep s xs
    rw [hone] at htail
    exact ih.trans htail

/-- Every step that goes on makes what is still to be done smaller. -/
def Progress (step : σ → List β → Step σ β ε) (size : σ → List β → ℕ) : Prop :=
  ∀ s xs s' rest, step s xs=.next s' rest → size s' rest < size s xs

/-- A run has as many steps to spend as there is to be done, and one to stop. -/
def run (step : σ → List β → Step σ β ε) (size : σ → List β → ℕ) (s : σ) (xs : List β) :
    Halt σ β ε :=
  runFor step (size s xs+1) s xs

/-- With progress, a run does not depend on the steps it has left over. -/
theorem runFor_enough {step : σ → List β → Step σ β ε} {size : σ → List β → ℕ}
    (hp : Progress step size) {n m : ℕ} {s : σ} {xs : List β} (hn : size s xs < n)
    (hm : size s xs < m) : runFor step n s xs=runFor step m s xs := by
  induction n generalizing m s xs with
  | zero => omega
  | succ n ih =>
    cases m with
    | zero => omega
    | succ m =>
      rw [runFor,runFor]
      cases hs : step s xs with
      | next s' rest =>
        have hl := hp s xs s' rest hs
        exact ih (by omega) (by omega)
      | wait s' rest => rfl
      | stop s' => rfl
      | fail why s' rest => rfl

/-- With progress, a run is its first step followed by the run from there. -/
theorem run_eq {step : σ → List β → Step σ β ε} {size : σ → List β → ℕ}
    (hp : Progress step size) (s : σ) (xs : List β) :
    run step size s xs=
      match step s xs with
      | .next s rest => run step size s rest
      | .wait s rest => .wait s rest
      | .stop s => .stop s
      | .fail why s rest => .fail why s rest := by
  rw [run,runFor]
  cases hs : step s xs with
  | next s' rest =>
    have hl := hp s xs s' rest hs
    exact runFor_enough hp (by omega) (by omega)
  | wait s' rest => rfl
  | stop s' => rfl
  | fail why s' rest => rfl

/-- A run ends in a state it passes through, as the step from there does. -/
theorem run_last {step : σ → List β → Step σ β ε} {size : σ → List β → ℕ}
    (hp : Progress step size) (s : σ) (xs : List β) :
    ∃ t ys, Passes step s xs t ys ∧ step t ys=(run step size s xs).last := by
  induction hn : size s xs using Nat.strongRecOn generalizing s xs with
  | ind n ih =>
    rw [run_eq hp]
    cases hs : step s xs with
    | next t mid =>
      have hlt := hp s xs t mid hs
      obtain ⟨u,ys,hpass,hlast⟩ := ih (size t mid) (by omega) t mid rfl
      exact ⟨u,ys,.next hs hpass,hlast⟩
    | wait t mid | stop t | fail why t mid => exact ⟨s,xs,.here,hs⟩

/-- What a run leaves is a tail of what it was given. -/
theorem run_tails {step : σ → List β → Step σ β ε} {size : σ → List β → ℕ}
    (hp : Progress step size) (hstep : ∀ s xs, (step s xs).Tails xs) (s : σ) (xs : List β) :
    (run step size s xs).last.Tails xs := by
  obtain ⟨t,ys,hpass,hlast⟩ := run_last hp s xs
  have htail := hstep t ys
  have hle := hpass.tail hstep
  rw [hlast] at htail
  cases hr : run step size s xs with
  | wait u rest | fail why u rest =>
    rw [hr] at htail
    exact htail.trans hle
  | stop u => trivial

/-- Two steps agree: the same outcome, states related, and the same symbols
left unless there was a refusal. -/
inductive StepEqv (eqv feqv : σ → σ → Prop) : Step σ β ε → Step σ β ε → Prop
  | next {s t : σ} {rest : List β} : eqv s t → StepEqv eqv feqv (.next s rest) (.next t rest)
  | wait {s t : σ} {rest : List β} : eqv s t → StepEqv eqv feqv (.wait s rest) (.wait t rest)
  | stop {s t : σ} : eqv s t → StepEqv eqv feqv (.stop s) (.stop t)
  | fail {why : ε} {s t : σ} {rest rest' : List β} :
      feqv s t → StepEqv eqv feqv (.fail why s rest) (.fail why t rest')

/-- Two runs agree: the same outcome, states related, and the same symbols kept
unless there was a refusal. -/
inductive HaltEqv (eqv feqv : σ → σ → Prop) : Halt σ β ε → Halt σ β ε → Prop
  | wait {s t : σ} {rest : List β} : eqv s t → HaltEqv eqv feqv (.wait s rest) (.wait t rest)
  | stop {s t : σ} : eqv s t → HaltEqv eqv feqv (.stop s) (.stop t)
  | fail {why : ε} {s t : σ} {rest rest' : List β} :
      feqv s t → HaltEqv eqv feqv (.fail why s rest) (.fail why t rest')

/-- What makes a machine indifferent to where its input is cut, in the states it
can be in. -/
structure Chunkable (step : σ → List β → Step σ β ε) (size : σ → List β → ℕ)
    (inv : σ → Prop) (eqv feqv : σ → σ → Prop) : Prop where
  /-- Steps that go on leave less to be done. -/
  progress : Progress step size
  /-- Steps keep to those states. -/
  keeps : ∀ {s : σ}, inv s → ∀ xs, (step s xs).Keeps inv
  /-- Related states step alike. -/
  congr : ∀ {s t : σ}, inv s → inv t → eqv s t → ∀ xs, StepEqv eqv feqv (step s xs) (step t xs)
  /-- A step that has seen all it needs does not look behind it. -/
  behind : ∀ {s : σ} {xs : List β}, (step s xs).Settled →
    ∀ ys, step s (xs++ys)=(step s xs).behind ys
  /-- A suspended step, resumed, does what it would have done with it all. -/
  wait : ∀ {s s' : σ} {xs rest : List β}, inv s → step s xs=.wait s' rest →
    ∀ ys, StepEqv eqv feqv (step s' (rest++ys)) (step s (xs++ys))
  /-- A machine that had stopped, resumed, does what it would have done with it all. -/
  stop : ∀ {s s' : σ} {xs : List β}, inv s → step s xs=.stop s' →
    ∀ ys, StepEqv eqv feqv (step s' ys) (step s (xs++ys))

section Chunks

variable {step : σ → List β → Step σ β ε} {size : σ → List β → ℕ} {inv : σ → Prop}
variable {eqv feqv : σ → σ → Prop}

/-- Steps that go on keep to the states the machine can be in. -/
theorem Chunkable.inv_next (hc : Chunkable step size inv eqv feqv) {s s' : σ} {xs rest : List β}
    (hs : inv s) (h : step s xs=.next s' rest) : inv s' := by
  have hk := hc.keeps hs xs
  rw [h] at hk
  exact hk

/-- Steps that are suspended keep to the states the machine can be in. -/
theorem Chunkable.inv_wait (hc : Chunkable step size inv eqv feqv) {s s' : σ} {xs rest : List β}
    (hs : inv s) (h : step s xs=.wait s' rest) : inv s' := by
  have hk := hc.keeps hs xs
  rw [h] at hk
  exact hk

/-- Steps that stop keep to the states the machine can be in. -/
theorem Chunkable.inv_stop (hc : Chunkable step size inv eqv feqv) {s s' : σ} {xs : List β}
    (hs : inv s) (h : step s xs=.stop s') : inv s' := by
  have hk := hc.keeps hs xs
  rw [h] at hk
  exact hk

/-- A step that went on goes on alike with more behind it. -/
theorem Chunkable.next (hc : Chunkable step size inv eqv feqv) {s s' : σ} {xs rest : List β}
    (h : step s xs=.next s' rest) (ys : List β) : step s (xs++ys)=.next s' (rest++ys) := by
  rw [hc.behind (by rw [h]; trivial) ys,h]
  rfl

/-- A step that was refused is refused alike with more behind it. -/
theorem Chunkable.fail (hc : Chunkable step size inv eqv feqv) {s s' : σ} {xs rest : List β}
    {why : ε} (h : step s xs=.fail why s' rest) (ys : List β) :
    step s (xs++ys)=.fail why s' (rest++ys) := by
  rw [hc.behind (by rw [h]; trivial) ys,h]
  rfl

/-- Related first steps are followed by related runs, once related states run
alike on whatever is smaller. -/
theorem run_of_step (hc : Chunkable step size inv eqv feqv) {s t : σ} {xs ys : List β}
    (hs : inv s) (ht : inv t) (h : StepEqv eqv feqv (step s xs) (step t ys))
    (ih : ∀ (s' t' : σ) (rest : List β), size t' rest < size t ys → inv s' → inv t' → eqv s' t' →
      HaltEqv eqv feqv (run step size s' rest) (run step size t' rest)) :
    HaltEqv eqv feqv (run step size s xs) (run step size t ys) := by
  rw [run_eq hc.progress s xs,run_eq hc.progress t ys]
  generalize hx : step s xs=a at h
  generalize hy : step t ys=b at h
  cases h with
  | next h =>
    exact ih _ _ _ (hc.progress _ _ _ _ hy) (hc.inv_next hs hx) (hc.inv_next ht hy) h
  | wait h => exact .wait h
  | stop h => exact .stop h
  | fail h => exact .fail h

/-- Related states run alike. -/
theorem run_congr (hc : Chunkable step size inv eqv feqv) {s t : σ} (hs : inv s) (ht : inv t)
    (h : eqv s t) (xs : List β) :
    HaltEqv eqv feqv (run step size s xs) (run step size t xs) := by
  induction hn : size t xs using Nat.strongRecOn generalizing s t xs with
  | ind n ih =>
    refine run_of_step hc hs ht (hc.congr hs ht h xs) ?_
    intro s' t' rest hl hs' ht' h'
    exact ih (size t' rest) (by omega) hs' ht' h' rest rfl

/-- A run keeps to the states the machine can be in. -/
theorem inv_of_wait (hc : Chunkable step size inv eqv feqv) {s s' : σ} {xs rest : List β}
    (hs : inv s) (h : run step size s xs=.wait s' rest) : inv s' := by
  induction hn : size s xs using Nat.strongRecOn generalizing s xs with
  | ind n ih =>
    rw [run_eq hc.progress] at h
    cases hstep : step s xs with
    | next t mid =>
      rw [hstep] at h
      have hl := hc.progress _ _ _ _ hstep
      exact ih (size t mid) (by omega) (hc.inv_next hs hstep) h rfl
    | wait t mid =>
      rw [hstep] at h
      cases h
      exact hc.inv_wait hs hstep
    | stop t => rw [hstep] at h; cases h
    | fail why t mid => rw [hstep] at h; cases h

/-- A run that stops keeps to the states the machine can be in. -/
theorem inv_of_stop (hc : Chunkable step size inv eqv feqv) {s s' : σ} {xs : List β}
    (hs : inv s) (h : run step size s xs=.stop s') : inv s' := by
  induction hn : size s xs using Nat.strongRecOn generalizing s xs with
  | ind n ih =>
    rw [run_eq hc.progress] at h
    cases hstep : step s xs with
    | next t mid =>
      rw [hstep] at h
      have hl := hc.progress _ _ _ _ hstep
      exact ih (size t mid) (by omega) (hc.inv_next hs hstep) h rfl
    | wait t mid => rw [hstep] at h; cases h
    | stop t =>
      rw [hstep] at h
      cases h
      exact hc.inv_stop hs hstep
    | fail why t mid => rw [hstep] at h; cases h

/-- A run cut short, resumed on what it kept and more, ends as the run over
everything. -/
theorem run_wait (hc : Chunkable step size inv eqv feqv) {s s' : σ} {xs rest : List β}
    (hs : inv s) (h : run step size s xs=.wait s' rest) (ys : List β) :
    HaltEqv eqv feqv (run step size s' (rest++ys)) (run step size s (xs++ys)) := by
  induction hn : size s xs using Nat.strongRecOn generalizing s xs with
  | ind n ih =>
    have hs' := inv_of_wait hc hs h
    rw [run_eq hc.progress] at h
    cases hstep : step s xs with
    | next t mid =>
      rw [hstep] at h
      have hl := hc.progress _ _ _ _ hstep
      rw [run_eq hc.progress s (xs++ys),hc.next hstep ys]
      exact ih (size t mid) (by omega) (hc.inv_next hs hstep) h rfl
    | wait t mid =>
      rw [hstep] at h
      cases h
      exact run_of_step hc hs' hs (hc.wait hs hstep ys)
        (fun _ _ rest _ h₁ h₂ h' => run_congr hc h₁ h₂ h' rest)
    | stop t => rw [hstep] at h; cases h
    | fail why t mid => rw [hstep] at h; cases h

/-- A run that had stopped goes on as the run over everything. -/
theorem run_stop (hc : Chunkable step size inv eqv feqv) {s s' : σ} {xs : List β}
    (hs : inv s) (h : run step size s xs=.stop s') (ys : List β) :
    HaltEqv eqv feqv (run step size s' ys) (run step size s (xs++ys)) := by
  induction hn : size s xs using Nat.strongRecOn generalizing s xs with
  | ind n ih =>
    have hs' := inv_of_stop hc hs h
    rw [run_eq hc.progress] at h
    cases hstep : step s xs with
    | next t mid =>
      rw [hstep] at h
      have hl := hc.progress _ _ _ _ hstep
      rw [run_eq hc.progress s (xs++ys),hc.next hstep ys]
      exact ih (size t mid) (by omega) (hc.inv_next hs hstep) h rfl
    | wait t mid => rw [hstep] at h; cases h
    | stop t =>
      rw [hstep] at h
      cases h
      exact run_of_step hc hs' hs (hc.stop hs hstep ys)
        (fun _ _ rest _ h₁ h₂ h' => run_congr hc h₁ h₂ h' rest)
    | fail why t mid => rw [hstep] at h; cases h

/-- A run that was refused is refused alike with more behind it. -/
theorem run_fail (hc : Chunkable step size inv eqv feqv) {s s' : σ} {xs rest : List β} {why : ε}
    (h : run step size s xs=.fail why s' rest) (ys : List β) :
    run step size s (xs++ys)=.fail why s' (rest++ys) := by
  induction hn : size s xs using Nat.strongRecOn generalizing s xs with
  | ind n ih =>
    rw [run_eq hc.progress] at h
    cases hs : step s xs with
    | next t mid =>
      rw [hs] at h
      have hl := hc.progress _ _ _ _ hs
      rw [run_eq hc.progress s (xs++ys),hc.next hs ys]
      exact ih (size t mid) (by omega) h rfl
    | wait t mid => rw [hs] at h; cases h
    | stop t => rw [hs] at h; cases h
    | fail why t mid =>
      rw [hs] at h
      cases h
      rw [run_eq hc.progress s (xs++ys),hc.fail hs ys]

end Chunks

end Resumable
