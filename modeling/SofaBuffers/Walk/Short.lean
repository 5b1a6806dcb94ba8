import SofaBuffers.Walk.Lead
import SofaBuffers.Walk.Licensed

/-!
# Where a walk stops short

A walk that runs out of bytes does so inside the leading words of a field,
inside a value somebody reads, or inside one nobody reads. Of the last it keeps
a varint's few bytes at most.
-/

set_option autoImplicit false

namespace SofaBuffers

open Resumable

variable {V : Type} {p q : Pending} {xs rest : List UInt8}

/-- The bytes of a float array can be counted in a machine word. -/
def Pending.Compact (p : Pending) : Prop :=
  ∀ st n size, p.real=.farray st n size → n*size ≤ sysMaxsize

/-- A value that is the same but for a parked cap is as compact. -/
theorem Pending.Compact.congr (h : p.Compact) (hr : q.real=p.real) : q.Compact := by
  intro st n size hq
  exact h st n size (hr.symm.trans hq)

/-- Taking the cap off a value that was announced leaves one as compact. -/
theorem Pending.Compact.uncapped (h : p.Compact) (ha : p.Announced) (hq : q=p ∨ q=p.real) :
    q.Compact := by
  rcases hq with rfl | rfl
  · exact h
  · exact h.congr ha.real_real

/-- A header announces no array of floats too large for that. -/
theorem readToken_compact {id : ℕ} (h : readToken xs=.done (.value id p) rest) : p.Compact := by
  intro st n size hp
  have ha := (readToken_announced h).1
  have hn := readToken_sized h
  rw [Pending.Announced,hp] at ha
  rw [Pending.length,hp] at hn
  have hn : n ≤ fixlenMax := hn
  have hsize : size ≤ 8 := by
    cases st with
    | fp32 => exact le_of_eq_of_le ha (by omega)
    | fp64 => exact le_of_eq ha
    | string | blob => exact ha.elim
  have hmul := Nat.mul_le_mul hn hsize
  rw [fixlenMax] at hmul
  rw [sysMaxsize]
  omega

/-- What is left of varints that are dropped is varints to drop. -/
theorem dropVarints_discard {n v : ℕ} (h : dropVarints n v xs=.left q rest) :
    ∃ a n v, q=.discard a n v := by
  fun_induction dropVarints n v xs with
  | case1 | case3 => cases h
  | case2 => cases h; exact ⟨_,_,_,rfl⟩
  | case4 _ _ _ _ _ _ ih | case5 _ _ _ _ _ _ ih | case6 _ _ _ _ _ _ ih => exact ih h

/-- Dropping bytes and varints leaves no bytes, and no array of floats. -/
theorem dropDiscard_short {a n v : ℕ} (h : dropDiscard a n v xs=.left q rest) :
    rest.length ≤ 9 ∧ q.Compact := by
  have hnil := dropDiscard_left h
  have hq : ∃ a n v, q=.discard a n v := by
    rw [dropDiscard] at h
    split at h
    · cases h
      exact ⟨_,_,_,rfl⟩
    · exact dropVarints_discard h
  obtain ⟨_,_,_,rfl⟩ := hq
  rw [hnil]
  exact ⟨Nat.zero_le 9,fun _ _ _ h => by cases h⟩

/-- What is left of a value that is dropped fits in a varint. -/
theorem Pending.Compact.drop (h : p.Compact) (hd : p.drop xs=.left q rest) :
    rest.length ≤ 9 ∧ q.Compact := by
  have hreal : ∀ r : Pending, r.Compact → dropReal r xs=.left q rest →
      rest.length ≤ 9 ∧ q.Compact := by
    intro r hc h
    cases r with
    | scalar signed =>
      rw [dropReal] at h
      cases hv : Varint.read overlong xs with
      | more =>
        rw [hv] at h
        cases h
        have hlen := Varint.readFrom_more_length (Nat.zero_le 9) hv
        exact ⟨by omega,hc⟩
      | done | bad => rw [hv] at h; cases h
    | fixlen | varray => exact dropDiscard_short h
    | farray st n size =>
      rw [dropReal,if_neg (Nat.not_lt.mpr (hc st n size rfl))] at h
      exact dropDiscard_short h
    | limit | discard => cases h
  cases p with
  | discard => exact dropDiscard_short hd
  | scalar | fixlen | varray | farray => exact hreal _ h hd
  | limit msg r =>
    have hd : dropReal r xs=.left q rest := hd
    cases r with
    | limit | discard => cases hd
    | scalar | fixlen | varray | farray => exact hreal _ (by exact h) hd

namespace Walk

variable {c : Config V} {s t : Walk V}

/-- The value in hand, to be read or to be dropped. -/
def hand (s : Walk V) : Option Pending :=
  match s.mode with
  | .header p _ => p
  | .value _ _ p _ => some p

/-- The value in hand is compact, and its route can read it. -/
structure Compact (c : Config V) (s : Walk V) : Prop where
  /-- The route of the value in hand can read it. -/
  sound : s.Sound c
  /-- The bytes of the value in hand can be counted. -/
  counted : ∀ p, s.hand=some p → p.Compact

/-- Nothing is in hand. -/
theorem compact_none {skip : Option ℕ} (h : s.mode=.header none skip) : s.Compact c := by
  constructor
  · rw [Sound,h]
    trivial
  · rw [Walk.hand,h]
    simp

/-- A header leads to a value that is compact. -/
theorem hand_meet {skip : Option ℕ} {tok : Token}
    (ht : ∀ id p, tok=.value id p → p.Announced ∧ p.real=p ∧ p.Compact) :
    (meet c s skip tok rest).Keeps fun t => ∀ p, t.hand=some p → p.Compact := by
  have hmapped : ∀ (u : Walk V) (e : Entry),
      (startMapped c u e rest).Keeps fun t => ∀ p, t.hand=some p → p.Compact := by
    intro u e
    rw [startMapped]
    split
    · trivial
    · split
      · trivial
      · split
        · trivial
        · split
          · trivial
          · intro _ h; cases h
  have hvisited : ∀ (u : Walk V) (v : V) (id : ℕ),
      (startVisited c u v id rest).Keeps fun t => ∀ p, t.hand=some p → p.Compact := by
    intro u v id
    rw [startVisited]
    split
    · intro _ h; cases h
    · split
      · trivial
      · intro _ h; cases h
    · split
      · trivial
      · split
        · trivial
        · intro _ h; cases h
  have hone : ∀ {p q : Pending}, p.Compact → some p=some q → q.Compact := by
    intro p q hp h
    cases h
    exact hp
  cases skip with
  | some target =>
    rw [meet]
    cases tok with
    | value id p =>
      obtain ⟨-,hr,hc⟩ := ht id p rfl
      exact fun q => hone (hc.congr ((park_real hr).trans hr.symm))
    | start id | stop =>
      rw [onTokenSkipping]
      split
      · trivial
      · intro _ h; cases h
  | none =>
    rw [meet]
    cases tok with
    | value id p =>
      obtain ⟨hp,hr,hc⟩ := ht id p rfl
      have hp := hp.park (c:=c) hr
      have hc := hc.congr ((park_real (c:=c) hr).trans hr.symm)
      rw [onToken,startValue]
      split
      · exact fun q => hone hc
      · split
        · exact fun q => hone hc
        · split
          · exact fun q => hone hc
          · rw [offerField]
            dsimp only
            split
            · split
              · trivial
              · next q hq => exact fun q' => hone (hc.uncapped hp (settled_eq hq))
            · exact fun q => hone hc
    | start id =>
      rw [onToken]
      split
      · trivial
      · rw [startSequence]
        split
        · exact hmapped _ _
        · split
          · intro _ h; cases h
          · split
            · intro _ h; cases h
            · exact hvisited _ _ _
    | stop =>
      rw [onToken]
      split
      · trivial
      · intro _ h; cases h

/-- The value a route can read was announced. -/
theorem announced_of_accepts {p : Pending} {r : Route} (h : r.Accepts c p) : p.Announced := by
  cases r with
  | visit t => exact h.2
  | mapped e => exact h.1.2

/-- Preparing a value to be read at most takes the cap off. -/
theorem prepare_pending {v : Option V} {id : ℕ} {r : Route} {p : Pending} {σ : Store V}
    (hp : p.Announced) :
    (prepare c v id r p σ).2.1=p ∨ (prepare c v id r p σ).2.1=p.real := by
  rw [prepare.eq_def]
  cases r with
  | visit t =>
    cases v with
    | none => exact Or.inl rfl
    | some v => exact visitPlan_pending v id t p
  | mapped e =>
    dsimp only
    split
    · exact Or.inl rfl
    · split
      · exact Or.inl rfl
      · next q hq =>
        rcases settled_eq hq with rfl | rfl
        · exact mappedPlan_pending e _ q
        · have hplan := mappedPlan_pending (c:=c) e ‹Store V› p.real
          rw [hp.real_real,or_self] at hplan
          exact Or.inr hplan

/-- A step leads to a value that is compact. -/
theorem hand_step (hs : s.Compact c) (xs : List UInt8) :
    (step c s xs).Keeps fun t => ∀ p, t.hand=some p → p.Compact := by
  have hself := hs.counted
  have hroute := hs.sound
  rw [Sound] at hroute
  rw [Walk.hand] at hself
  rw [step.eq_def]
  cases hm : s.mode with
  | header drop skip =>
    rw [hm] at hself
    cases drop with
    | none =>
      dsimp only
      rw [headerStep]
      have hnone := (compact_none (c:=c) hm).counted
      split
      · split <;> exact hnone
      · cases ht : readToken xs with
        | more => exact hnone
        | bad why => trivial
        | done tok mid =>
          refine hand_meet ?_
          rintro id p rfl
          exact ⟨(readToken_announced ht).1,(readToken_announced ht).2,readToken_compact ht⟩
    | some p =>
      dsimp only
      rw [dropStep]
      cases hp : p.drop xs with
      | gone mid => intro _ h; cases h
      | left q mid =>
        intro q' hq
        cases hq
        exact ((hself p rfl).drop hp).2
      | bad why => trivial
  | value id r p resumed =>
    rw [hm] at hroute hself
    dsimp only
    split
    · exact hs.counted
    · rw [valueStep]
      cases (prepare c s.visitor id r p s.store).2.2.read c
          (prepare c s.visitor id r p s.store).1 xs with
      | more u =>
        intro q hq
        cases hq
        exact (hself p rfl).uncapped (announced_of_accepts hroute)
          (prepare_pending (announced_of_accepts hroute))
      | done => intro _ h; cases h
      | bad => trivial

/-- A step leads to a value that is compact, and that its route can read. -/
theorem compact_step (hs : s.Compact c) (xs : List UInt8) :
    (step c s xs).Holds (Compact c) fun _ _ => True := by
  have hsound := keeps_step hs.sound xs
  have hhand := hand_step hs xs
  cases hr : step c s xs with
  | next t mid | wait t mid | stop t =>
    rw [hr] at hsound hhand
    exact ⟨hsound,hhand⟩
  | fail why t mid => trivial

/-- A run over any bytes leads to a value that is compact, and that its route can read. -/
theorem run_compact (hs : s.Compact c) (xs : List UInt8) :
    (run c s xs).Holds (Compact c) fun _ _ => True :=
  runFor_holds (fun _ ys ht => compact_step ht ys) _ hs xs

/-- Where a walk stops short: inside leading words, inside a value that is read, or inside one
that is dropped, a few bytes of it being kept. -/
inductive Short (c : Config V) (s : Walk V) (xs : List UInt8) (w : Walk V) (rest : List UInt8) :
    Prop
  /-- Between two constructs, or inside the words that lead one in. -/
  | lead {skip : Option ℕ} (hp : Passes (step c) s xs w rest) (hm : w.mode=.header none skip)
      (hc : rest=[] ∨ CutLead rest)
  /-- Inside a value that is read. -/
  | value {t : Walk V} (hp : Passes (step c) s xs t rest) {id : ℕ} {r : Route} {p : Pending}
      {b : Bool} (hm : t.mode=.value id r p b) (hw : step c t rest=.wait w rest)
  /-- Inside a value nobody reads. -/
  | dropped (hlen : rest.length ≤ 9)

/-- A header that is not all there is cut inside its words. -/
theorem cutLead_of_more (h : readToken xs=.more) : CutLead xs := by
  rcases lead_cases xs with ⟨hd,l,mid,hl,rfl⟩ | hbad | hcut
  · rw [hl.read mid] at h
    cases h
  · obtain ⟨why,hr⟩ := hbad.read
    rw [hr] at h
    cases h
  · exact hcut

/-- A run that is suspended stops short. -/
theorem run_short (hs : s.Compact c) {w : Walk V} (h : run c s xs=.wait w rest) :
    Short c s xs w rest := by
  obtain ⟨t,ys,hpass,hlast⟩ := run_last (progress c) s xs
  have hrun : Resumable.run (step c) size s xs=.wait w rest := h
  rw [hrun] at hlast
  have hlast : step c t ys=.wait w rest := hlast
  have hcompact : t.Compact c := hpass.holds (fun _ zs hu => compact_step hu zs) hs
  have hstep := hlast
  rw [step.eq_def] at hstep
  cases hm : t.mode with
  | header drop skip =>
    rw [hm] at hstep
    cases drop with
    | none =>
      dsimp only at hstep
      rw [headerStep] at hstep
      split at hstep
      · next hnil =>
        subst hnil
        split at hstep <;> cases hstep
        exact .lead hpass hm (Or.inl rfl)
      · cases ht : readToken ys with
        | more =>
          rw [ht] at hstep
          cases hstep
          exact .lead hpass hm (Or.inr (cutLead_of_more ht))
        | bad why => rw [ht] at hstep; cases hstep
        | done tok mid =>
          rw [ht] at hstep
          dsimp only at hstep
          have hsettled := meet_settled c t skip tok mid
          rw [hstep] at hsettled
          exact hsettled.elim
    | some p =>
      have hp : p.Compact := hcompact.counted p (by rw [Walk.hand,hm])
      dsimp only at hstep
      rw [dropStep] at hstep
      cases hd : p.drop ys with
      | gone mid | bad why => rw [hd] at hstep; cases hstep
      | left q mid =>
        rw [hd] at hstep
        cases hstep
        exact .dropped (hp.drop hd).1
  | value id r p b =>
    have hrest : rest=ys := by
      rw [hm] at hstep
      dsimp only at hstep
      split at hstep
      · cases hstep
        rfl
      · rw [valueStep] at hstep
        cases hr : (prepare c t.visitor id r p t.store).2.2.read c
            (prepare c t.visitor id r p t.store).1 ys with
        | more u => simp only [hr] at hstep; cases hstep; rfl
        | done | bad => simp only [hr] at hstep; cases hstep
    subst hrest
    exact .value hpass hm hlast

end Walk

end SofaBuffers
