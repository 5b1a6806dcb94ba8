import SofaBuffers.Walk.Visits
import SofaBuffers.Walk.Rows

/-!
# A decoder as a state of the walk

A decoder between two constructs is seen as a state of the walk, and what the
walk prepares to read there is what the decoder keeps pending.
-/

set_option autoImplicit false

namespace SofaBuffers

open Resumable Dec

variable {V : Type}

/-- A decoder as a state of the walk, in a given mode. -/
def Dec.walk (d : Dec V) (m : Mode) : Walk V :=
  ⟨m,d.depth,d.visitor,d.vstack,d.bmap,d.bstack,d.store⟩

/-- The value a visit is suspended at. -/
def Dec.route (d : Dec V) : Route :=
  match d.resumeEntry with
  | some e => .mapped e
  | none => .visit d.curWtypeResume

/-- What a decoder is suspended in. -/
def Dec.mode (d : Dec V) : Mode :=
  match d.resumeKind,d.pending with
  | .visit,some p => .value d.curId d.route p true
  | .visit,none => .header none none
  | .skip,p => .header p d.skipDepth
  | .none,p => .header p none

/-- A decoder between two steps, as a state of the walk. -/
def Dec.view (d : Dec V) : Walk V := d.walk d.mode

/-- The value can be read by the route. -/
def Dec.Fits (d : Dec V) (p : Pending) : Route → Prop
  | .visit _ => p.Announced ∧ d.visitor.isSome
  | .mapped e => e.Takes p

/-- What holds of a decoder whenever a walk starts or ends. -/
structure Dec.Ok (d : Dec V) : Prop where
  /-- The buffer holds what it is said to hold. -/
  filled : d.Filled
  /-- The cursor is in it. -/
  pos : d.pos ≤ d.n
  /-- A skip knows where it is going. -/
  skip : d.skipDepth.isSome ↔ d.resumeKind=.skip
  /-- It is going up. -/
  up : ∀ t, d.skipDepth=some t → t < d.depth
  /-- A visit has its value. -/
  visit : d.resumeKind=.visit → ∃ p, d.pending=some p ∧ d.Fits p d.route

/-- Parking a value does not change what it is. -/
theorem park_real {c : Config V} {p : Pending} (h : p.real=p) : (park c p).real=p := by
  rw [park.eq_def]
  split
  · split
    all_goals try dsimp only
    all_goals try split
    all_goals exact h
  · exact h

/-- Parking a value does not change its tag. -/
@[simp] theorem park_tag (c : Config V) (p : Pending) : (park c p).tag=p.tag := by
  rw [park.eq_def]
  split
  · split
    all_goals try dsimp only
    all_goals try split
    all_goals rfl
  · rfl

/-- A check that let a word through. -/
theorem of_ofCheck {α : Type} {r : Except Exn α} {xs rest : List UInt8} {a : α}
    (h : ofCheck r xs=.done a rest) : r=.ok a ∧ rest=xs := by
  cases r with
  | ok b => cases h; exact ⟨rfl,rfl⟩
  | error e => cases h

/-- A fixlen word fixes the length of a float. -/
theorem fixlenWord_ok {word length : ℕ} {st : FixlenSubtype}
    (h : fixlenWord word=.ok (st,length)) :
    (st=.fp32 ∧ length=4) ∨ (st=.fp64 ∧ length=8) ∨ st=.string ∨ st=.blob := by
  rw [fixlenWord] at h
  split at h
  · split at h
    · cases h
    · next hs =>
      cases h
      exact Or.inl ⟨rfl,not_not.mp hs⟩
  · split at h
    · cases h
    · next hs =>
      cases h
      exact Or.inr (Or.inl ⟨rfl,not_not.mp hs⟩)
  · split at h <;> cases h
    exact Or.inr (Or.inr (Or.inl rfl))
  · split at h <;> cases h
    exact Or.inr (Or.inr (Or.inr rfl))
  · cases h

/-- An element word fixes the element size. -/
theorem elementWord_ok {word size : ℕ} {st : FixlenSubtype} (h : elementWord word=.ok (st,size)) :
    (st=.fp32 ∧ size=4) ∨ (st=.fp64 ∧ size=8) := by
  rw [elementWord] at h
  split at h
  · split at h
    · cases h
    · next hs =>
      cases h
      exact Or.inl ⟨rfl,not_not.mp hs⟩
  · split at h
    · cases h
    · next hs =>
      cases h
      exact Or.inr ⟨rfl,not_not.mp hs⟩
  · cases h

/-- A header announces a value that is not parked yet. -/
theorem readToken_announced {xs rest : List UInt8} {id : ℕ} {p : Pending}
    (h : readToken xs=.done (.value id p) rest) : p.Announced ∧ p.real=p := by
  obtain ⟨header,_,_,h⟩ := of_bind_done h
  obtain ⟨_,_,_,h⟩ := of_bind_done h
  rw [readBehind] at h
  generalize WireType.ofHeader header=t at h
  cases t with
  | unsigned | signed => cases h; exact ⟨trivial,rfl⟩
  | sequenceStart | sequenceEnd => cases h
  | fixlen =>
    obtain ⟨_,_,_,h⟩ := of_bind_done h
    obtain ⟨⟨st,length⟩,_,hc,h⟩ := of_bind_done h
    cases h
    rcases fixlenWord_ok (of_ofCheck hc).1 with ⟨rfl,rfl⟩ | ⟨rfl,rfl⟩ | rfl | rfl <;>
      exact ⟨by trivial,rfl⟩
  | arrayUnsigned | arraySigned =>
    obtain ⟨_,_,_,h⟩ := of_bind_done h
    obtain ⟨_,_,_,h⟩ := of_bind_done h
    cases h
    exact ⟨trivial,rfl⟩
  | arrayFixlen =>
    obtain ⟨_,_,_,h⟩ := of_bind_done h
    obtain ⟨_,_,_,h⟩ := of_bind_done h
    obtain ⟨_,_,_,h⟩ := of_bind_done h
    obtain ⟨⟨st,size⟩,_,hc,h⟩ := of_bind_done h
    cases h
    rcases elementWord_ok (of_ofCheck hc).1 with ⟨rfl,rfl⟩ | ⟨rfl,rfl⟩ <;> exact ⟨rfl,rfl⟩

/-- Parking an announced value leaves it one. -/
theorem Pending.Announced.park {c : Config V} {p : Pending} (h : p.Announced) (hr : p.real=p) :
    (park c p).Announced := by
  rw [Announced,park_real hr]
  rw [Announced,hr] at h
  exact h

section Prepared

variable {c : Config V}

/-- Preparing a fixlen visit at most takes the cap off. -/
theorem fixlenPlan_pending (v : V) (id : ℕ) (p : Pending) (st : FixlenSubtype) (size : ℕ)
    (dst : Option Dst) : (fixlenPlan c v id p st size dst).1=p ∨
      (fixlenPlan c v id p st size dst).1=p.real := by
  cases dst with
  | some dst =>
    rw [fixlenPlan]
    split <;> exact Or.inr rfl
  | none => cases p <;> exact Or.inl rfl

/-- Preparing an array visit at most takes the cap off. -/
theorem arrayPlan_pending (v : V) (id : ℕ) (p : Pending) (count : ℕ) (zigzag : Bool)
    (spec : Option Dst × Option ℤ × Option ℤ) : (arrayPlan c v id p count zigzag spec).1=p ∨
      (arrayPlan c v id p count zigzag spec).1=p.real := by
  obtain ⟨dst,lo,hi⟩ := spec
  cases dst with
  | some dst =>
    rw [arrayPlan]
    split <;> exact Or.inr rfl
  | none => cases p <;> exact Or.inl rfl

/-- Preparing a visit of doubles at most takes the cap off. -/
theorem farrayPlan_pending (v : V) (id : ℕ) (p : Pending) (count size width : ℕ)
    (dst : Option Dst) : (farrayPlan c v id p count size width dst).1=p ∨
      (farrayPlan c v id p count size width dst).1=p.real := by
  cases dst with
  | some dst =>
    rw [farrayPlan]
    split <;> exact Or.inr rfl
  | none => cases p <;> exact Or.inl rfl

/-- Preparing a fixlen array visit at most takes the cap off. -/
theorem visitFarrayPlan_pending (v : V) (id : ℕ) (p : Pending) (st : FixlenSubtype)
    (count size : ℕ) : (visitFarrayPlan c v id p st count size).2.1=p ∨
      (visitFarrayPlan c v id p st count size).2.1=p.real := by
  rw [visitFarrayPlan]
  split
  · split
    · cases p <;> exact Or.inl rfl
    · exact farrayPlan_pending _ _ _ _ _ _ _
  · exact farrayPlan_pending _ _ _ _ _ _ _

/-- Preparing a visit at most takes the cap off. -/
theorem visitPlan_pending (v : V) (id : ℕ) (t : WireType) (p : Pending) :
    (visitPlan c v id t p).2.1=p ∨ (visitPlan c v id t p).2.1=p.real := by
  rw [visitPlan.eq_def]
  cases t with
  | unsigned | signed => exact Or.inl rfl
  | fixlen =>
    dsimp only
    split
    · exact fixlenPlan_pending _ _ _ _ _ _
    · exact Or.inl rfl
  | arrayUnsigned | arraySigned =>
    dsimp only
    split
    · exact arrayPlan_pending _ _ _ _ _ _
    · exact Or.inl rfl
  | arrayFixlen | sequenceStart | sequenceEnd =>
    dsimp only
    split
    · exact visitFarrayPlan_pending _ _ _ _ _ _
    · exact Or.inl rfl

/-- Preparing a row's read at most takes the cap off. -/
theorem mappedPlan_pending (e : Entry) (s : Store V) (p : Pending) :
    (mappedPlan c e s p).1=p ∨ (mappedPlan c e s p).1=p.real := by
  have hobject : (objectPlan c e s p).1=p ∨ (objectPlan c e s p).1=p.real := by
    rw [objectPlan.eq_def]
    split
    · split
      · split
        · split <;> exact Or.inr rfl
        · exact Or.inr rfl
      · exact Or.inr rfl
    · split
      · exact Or.inl rfl
      · split <;> exact Or.inl rfl
      · exact Or.inl rfl
  rw [mappedPlan.eq_def]
  cases e.kind with
  | string | bytes => exact hobject
  | _ => exact Or.inl rfl

/-- What is still pending after the preparation can be read by the route. -/
theorem prepare_fits {d : Dec V} {p : Pending} {r : Route} (h : d.Fits p r) (id : ℕ)
    (s : Store V) : d.Fits (prepare c d.visitor id r p s).2.1 r := by
  cases r with
  | visit t =>
    cases hv : d.visitor with
    | none => exact h
    | some v =>
      refine ⟨?_,h.2⟩
      rcases visitPlan_pending (c:=c) v id t p with hp | hp
      · show (visitPlan c v id t p).2.1.Announced
        rw [hp]
        exact h.1
      · show (visitPlan c v id t p).2.1.Announced
        rw [hp]
        exact h.1.real
  | mapped e =>
    rw [prepare]
    cases arrive c e s with
    | mk s why =>
      cases why with
      | some why => exact h
      | none =>
        cases hq : settled e.declared p with
        | error why => exact h
        | ok q =>
          have ht : e.Takes q := Entry.Takes.settled h hq
          show e.Takes (mappedPlan c e s q).1
          rcases mappedPlan_pending (c:=c) e s q with hp | hp
          · rw [hp]
            exact ht
          · rw [hp]
            exact ht.real

end Prepared

end SofaBuffers
