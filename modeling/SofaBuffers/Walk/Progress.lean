import SofaBuffers.Walk.Step

/-!
# Every step makes headway

A step that goes on has used a byte or has settled the value in hand, so a run
over the bytes at hand ends.
-/

set_option autoImplicit false

namespace SofaBuffers

open Resumable

variable {V : Type}

/-- A read that is done leaves a tail. -/
theorem Plan.read_suffix {c : Config V} {pl : Plan V} {s s' : Store V} {xs rest : List UInt8}
    (h : pl.read c s xs=.done s' rest) : rest<:+xs := by
  have hof : ∀ {r : Store V × Option Exn} {mid : List UInt8},
      Reading.of r mid=.done s' rest → mid=rest := by
    intro r mid hr
    obtain ⟨σ,e⟩ := r
    cases e with
    | none => cases hr; rfl
    | some e => cases hr
  cases pl with
  | refuse why => cases h
  | stuck => cases h
  | scalar k =>
    rw [Plan.read] at h
    cases hv : Varint.read overlong xs with
    | done raw mid =>
      rw [hv] at h
      rw [←hof h]
      exact (Varint.stable_read overlong).suffix hv
    | more => rw [hv] at h; cases h
    | bad why => rw [hv] at h; cases h
  | payload n k =>
    rw [Plan.read] at h
    split at h
    · cases h
    · rw [←hof h]
      exact List.drop_suffix n xs
  | elements count bound zigzag into k =>
    rw [Plan.read] at h
    split at h
    · cases h
    · cases ht : (scan bound zigzag count xs).2 with
      | done mid =>
        rw [ht] at h
        rw [←hof h]
        exact scan_suffix ht
      | more => rw [ht] at h; cases h
      | bad why => rw [ht] at h; cases h

namespace Walk

/-- The mode of a state is the only part of it that counts. -/
theorem size_le (s : Walk V) (xs : List UInt8) : size s xs ≤ 2*xs.length+1 := by
  rw [size]
  split <;> omega

/-- A header was read: the walk goes on behind it or is refused there. -/
def Past (rest : List UInt8) : WalkStep V → Prop
  | .next _ ys | .fail _ _ ys => ys=rest
  | .wait .. | .stop _ => False

/-- A walk that has read a header has seen all it needs. -/
theorem Past.settled {rest : List UInt8} {r : WalkStep V} (h : Past rest r) : r.Settled := by
  cases r with
  | next | fail => trivial
  | wait | stop => exact h

section Past

variable {c : Config V} {rest : List UInt8}

/-- Opening a scope leaves the bytes behind the header. -/
theorem startVisited_past (s : Walk V) (v : V) (id : ℕ) :
    Past rest (startVisited c s v id rest) := by
  rw [startVisited]
  split
  · rfl
  · split <;> rfl
  · split
    · rfl
    · split <;> rfl

/-- Descending into a row's table leaves the bytes behind the header. -/
theorem startMapped_past (s : Walk V) (e : Entry) : Past rest (startMapped c s e rest) := by
  rw [startMapped]
  split
  · rfl
  · split
    · rfl
    · split
      · rfl
      · split <;> rfl

/-- Offering a value leaves the bytes behind the header. -/
theorem offerField_past (s : Walk V) (v : V) (id : ℕ) (p : Pending) :
    Past rest (offerField c s v id p rest) := by
  rw [offerField]
  dsimp only
  split
  · split <;> rfl
  · rfl

/-- A header leaves the bytes behind it. -/
theorem onToken_past (s : Walk V) (t : Token) : Past rest (onToken c s t rest) := by
  cases t with
  | value id p =>
    rw [onToken,startValue]
    split
    · rfl
    · split
      · rfl
      · split
        · rfl
        · exact offerField_past _ _ _ _
  | start id =>
    rw [onToken]
    split
    · rfl
    · rw [startSequence]
      split
      · exact startMapped_past _ _
      · split
        · rfl
        · split
          · rfl
          · exact startVisited_past _ _ _
  | stop =>
    rw [onToken]
    split <;> rfl

/-- A header leaves the bytes behind it, inside a skip too. -/
theorem meet_past (c : Config V) (s : Walk V) (skip : Option ℕ) (t : Token) (rest : List UInt8) :
    Past rest (meet c s skip t rest) := by
  cases skip with
  | none => exact onToken_past s t
  | some target =>
    rw [meet]
    cases t with
    | value id p => rfl
    | start id | stop =>
      rw [onTokenSkipping]
      split <;> rfl

end Past

/-- Once a header was read the walk is neither suspended nor at its end. -/
theorem meet_settled (c : Config V) (s : Walk V) (skip : Option ℕ) (tok : Token) (rest : List UInt8) :
    (meet c s skip tok rest).Settled :=
  (meet_past c s skip tok rest).settled

/-- Every step that goes on makes headway. -/
theorem progress (c : Config V) : Progress (step c) size := by
  intro s xs s' rest h
  rw [step] at h
  split at h
  · next skip hm =>
    rw [headerStep] at h
    split at h
    · split at h <;> cases h
    · split at h
      · cases h
      · cases h
      · next t mid ht =>
        have hl := readToken_length ht
        have hs := size_le s' rest
        have hx : 2*xs.length ≤ size s xs := by rw [size]; omega
        have hr : rest=mid := by
          have hpast := meet_past c s skip t mid
          rw [h] at hpast
          exact hpast
        rw [hr] at hs ⊢
        omega
  · next p skip hm =>
    rw [dropStep] at h
    split at h
    · next mid hd =>
      cases h
      have hl := (Pending.drop_suffix hd).length_le
      have hx : size s xs=2*xs.length+1 := by rw [size,hm]
      rw [hx]
      show 2*rest.length+0 < 2*xs.length+1
      omega
    · cases h
    · cases h
  · next id r p resumed hm =>
    split at h
    · cases h
    · rw [valueStep] at h
      split at h
      · next σ mid hr =>
        cases h
        have hl := (Plan.read_suffix hr).length_le
        have hx : size s xs=2*xs.length+1 := by rw [size,hm]
        rw [hx]
        show 2*rest.length+0 < 2*xs.length+1
        omega
      · cases h
      · cases h

/-- What a step leaves is a tail of what it was given. -/
theorem step_tails (c : Config V) (s : Walk V) (xs : List UInt8) : (step c s xs).Tails xs := by
  rw [step.eq_def]
  split
  · next skip _ =>
    rw [headerStep]
    split
    · split
      · exact List.nil_suffix
      · trivial
    · cases ht : readToken xs with
      | more | bad => exact List.suffix_rfl
      | done t mid =>
        have hsuf := stable_readToken.suffix ht
        have hpast := meet_past c s skip t mid
        dsimp only
        generalize meet c s skip t mid=r at hpast
        cases r with
        | next | fail =>
          cases hpast
          exact hsuf
        | wait | stop => exact hpast.elim
  · next p skip _ =>
    rw [dropStep]
    cases hd : p.drop xs with
    | gone mid => exact Pending.drop_suffix hd
    | left q mid => exact Pending.drop_left hd
    | bad why => exact List.suffix_rfl
  · next id r p resumed _ =>
    split
    · exact List.suffix_rfl
    · rw [valueStep]
      split
      · next hr => exact Plan.read_suffix hr
      · exact List.suffix_rfl
      · exact List.suffix_rfl

section Run

variable {c : Config V} {s s' : Walk V} {xs rest : List UInt8} {why : Exn}

/-- A run starts with its first step. -/
theorem run_next (h : step c s xs=.next s' rest) : run c s xs=run c s' rest := by
  rw [run,run_eq (progress c),h]
  rfl

/-- A run that cannot step is suspended. -/
theorem run_wait (h : step c s xs=.wait s' rest) : run c s xs=.wait s' rest := by
  rw [run,run_eq (progress c),h]

/-- A run with nothing left to do stops. -/
theorem run_stop (h : step c s xs=.stop s') : run c s xs=.stop s' := by
  rw [run,run_eq (progress c),h]

/-- A run whose step is refused is refused. -/
theorem run_fail (h : step c s xs=.fail why s' rest) : run c s xs=.fail why s' rest := by
  rw [run,run_eq (progress c),h]

/-- A walk stops between two constructs only, and outside every sequence. -/
theorem stop_mode (h : step c s xs=.stop s') :
    ∃ skip, s'.mode=.header none skip ∧ s'.depth=0 := by
  have hmeet : ∀ {skip : Option ℕ} {t : Token} {mid : List UInt8},
      meet c s skip t mid≠.stop s' := by
    intro skip t mid hm
    have hset := meet_settled c s skip t mid
    rw [hm] at hset
    exact hset
  rw [step.eq_def] at h
  split at h
  · next skip hmode =>
    rw [headerStep] at h
    split at h
    · split at h
      · cases h
      · next hdepth =>
        cases h
        exact ⟨skip,hmode,not_not.mp hdepth⟩
    · split at h
      · cases h
      · cases h
      · exact absurd h hmeet
  · rw [dropStep] at h
    split at h <;> cases h
  · split at h
    · cases h
    · rw [valueStep] at h
      split at h <;> cases h

/-- What a run leaves is a tail of what it was given. -/
theorem run_tails (c : Config V) (s : Walk V) (xs : List UInt8) : (run c s xs).last.Tails xs :=
  Resumable.run_tails (progress c) (step_tails c) s xs

/-- A suspended run keeps no more than it had. -/
theorem run_wait_length (h : run c s xs=.wait s' rest) : rest.length ≤ xs.length := by
  have htails := run_tails c s xs
  rw [h] at htails
  exact List.IsSuffix.length_le htails

/-- A run stops between two constructs only, and outside every sequence. -/
theorem run_stop_mode (h : run c s xs=.stop s') :
    ∃ skip, s'.mode=.header none skip ∧ s'.depth=0 := by
  obtain ⟨t,ys,-,hlast⟩ := run_last (progress c) s xs
  rw [show Resumable.run (step c) size s xs=.stop s' from h] at hlast
  exact stop_mode hlast

/-- What a run comes to after a step. -/
def finish (c : Config V) : WalkStep V → Halt (Walk V) UInt8 Exn
  | .next s rest => run c s rest
  | .wait s rest => .wait s rest
  | .stop s => .stop s
  | .fail why s rest => .fail why s rest

/-- A run is its first step and what comes after it. -/
theorem run_finish (c : Config V) (s : Walk V) (xs : List UInt8) :
    run c s xs=finish c (step c s xs) := by
  cases h : step c s xs with
  | next s' rest => exact run_next h
  | wait s' rest => exact run_wait h
  | stop s' => exact run_stop h
  | fail why s' rest => exact run_fail h

end Run

/-- A run ends as it does from any state it passes through. -/
theorem run_passes {c : Config V} {s t : Walk V} {xs ys : List UInt8}
    (h : Passes (step c) s xs t ys) : run c s xs=run c t ys := by
  induction h with
  | here => rfl
  | next hone _ ih => exact (run_next hone).trans ih

end Walk

end SofaBuffers
