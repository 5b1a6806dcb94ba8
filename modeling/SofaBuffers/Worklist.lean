import Mathlib.Data.List.Nodup
import Mathlib.Data.List.Perm.Subperm

/-!
# Visiting everything a step leads to

A worklist keeps what was met in the order it was met in and takes one after
the other, putting what each leads to behind the rest unless it was met before.
Once every one of them was taken, the list is closed under the step.
-/

set_option autoImplicit false

namespace Worklist

universe u

variable {α : Type u} [DecidableEq α]

/-- Put what was not met yet behind what was. -/
def meetAll (out : List α) : List α → List α
  | [] => out
  | a::as => meetAll (if a ∈ out then out else out++[a]) as

/-- Take one after the other from a position on, with the turns that are left. -/
def visitFrom (next : α → List α) : ℕ → ℕ → List α → List α
  | 0, _, out => out
  | turns+1, i, out =>
    match out[i]? with
    | none => out
    | some a => visitFrom next turns (i+1) (meetAll out (next a))

/-- What was met before is where it was. -/
theorem meetAll_append (out as : List α) : ∃ new, meetAll out as=out++new := by
  induction as generalizing out with
  | nil => exact ⟨[],(List.append_nil out).symm⟩
  | cons a as ih =>
    rw [meetAll]
    split
    · exact ih out
    · obtain ⟨new,hnew⟩ := ih (out++[a])
      exact ⟨a::new,by rw [hnew,List.append_assoc,List.singleton_append]⟩

/-- Nothing else was met. -/
@[simp] theorem mem_meetAll {out as : List α} {x : α} : x ∈ meetAll out as ↔ x ∈ out ∨ x ∈ as := by
  induction as generalizing out with
  | nil => simp [meetAll]
  | cons a as ih =>
    rw [meetAll,ih,List.mem_cons]
    split
    · next ha =>
      constructor
      · rintro (h | h)
        · exact Or.inl h
        · exact Or.inr (Or.inr h)
      · rintro (h | rfl | h)
        · exact Or.inl h
        · exact Or.inl ha
        · exact Or.inr h
    · rw [List.mem_append,List.mem_singleton,or_assoc]

/-- Nothing is met twice. -/
theorem nodup_meetAll {out as : List α} (h : out.Nodup) : (meetAll out as).Nodup := by
  induction as generalizing out with
  | nil => exact h
  | cons a as ih =>
    rw [meetAll]
    split
    · exact ih h
    · next ha =>
      refine ih (List.nodup_append.mpr ⟨h,List.nodup_singleton a,?_⟩)
      intro x hx y hy hxy
      rw [List.mem_singleton.mp hy] at hxy
      exact ha (hxy ▸ hx)

section Visit

variable {next : α → List α}

/-- What was met stays where it is. -/
theorem visitFrom_append (turns i : ℕ) (out : List α) :
    ∃ new, visitFrom next turns i out=out++new := by
  induction turns generalizing i out with
  | zero => exact ⟨[],(List.append_nil out).symm⟩
  | succ turns ih =>
    rw [visitFrom]
    split
    · exact ⟨[],(List.append_nil out).symm⟩
    · next a _ =>
      obtain ⟨first,hfirst⟩ := meetAll_append out (next a)
      obtain ⟨new,hnew⟩ := ih (i+1) (meetAll out (next a))
      exact ⟨first++new,by rw [hnew,hfirst,List.append_assoc]⟩

/-- With turns enough for everything there is, the list is closed under the step. -/
theorem visitFrom_closed {all : List α} (hall : ∀ a ∈ all, ∀ b ∈ next a, b ∈ all) {turns i : ℕ}
    {out : List α} (hout : ∀ a ∈ out, a ∈ all) (hn : out.Nodup) (hi : i ≤ out.length)
    (hturns : all.length < turns+i)
    (hdone : ∀ j < i, ∀ a, out[j]?=some a → ∀ b ∈ next a, b ∈ out) :
    ∀ a ∈ visitFrom next turns i out, ∀ b ∈ next a, b ∈ visitFrom next turns i out := by
  induction turns generalizing i out with
  | zero =>
    have hlen := (hn.subperm hout).length_le
    omega
  | succ turns ih =>
    rw [visitFrom]
    split
    · next hnone =>
      intro a ha
      obtain ⟨j,hj,rfl⟩ := List.mem_iff_getElem.mp ha
      have hlen := List.getElem?_eq_none_iff.mp hnone
      exact hdone j (by omega) _ (List.getElem?_eq_getElem hj)
    · next a ha =>
      obtain ⟨new,hnew⟩ := meetAll_append out (next a)
      have hlt := (List.getElem?_eq_some_iff.mp ha).1
      refine ih ?_ (nodup_meetAll hn) ?_ (by omega) ?_
      · intro b hb
        rcases mem_meetAll.mp hb with hb | hb
        · exact hout b hb
        · exact hall a (hout a (List.mem_of_getElem? ha)) b hb
      · rw [hnew,List.length_append]
        omega
      · intro j hj b hb g hg
        have hold : out[j]?=some b := by
          rw [hnew,List.getElem?_append_left (by omega)] at hb
          exact hb
        rcases Nat.lt_or_ge j i with hlow | hhigh
        · exact mem_meetAll.mpr (Or.inl (hdone j hlow b hold g hg))
        · have hsame : b=a := by
            have hji : j=i := by omega
            rw [hji,ha] at hold
            exact (Option.some.inj hold).symm
          rw [hsame] at hg
          exact mem_meetAll.mpr (Or.inr hg)

end Visit

end Worklist
