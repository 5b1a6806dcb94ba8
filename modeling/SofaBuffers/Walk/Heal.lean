import SofaBuffers.Walk.Agree
import SofaBuffers.Walk.Rows

/-!
# Reads that make a difference go away

The slots and bytes a read has stored elements to when the bytes run out are
the ones it stores to again when it is resumed, so what it left there does not
matter to how it ends.
-/

set_option autoImplicit false

namespace SofaBuffers

open Resumable

variable {V : Type}

/-- The slots `n` elements from `i` on are stored to. -/
def Sink.words (into : Sink) (i n : ℕ) : Set ℕ :=
  match into with
  | .buffer _ => ∅
  | _ => Set.Ico i (i+n)

/-- The bytes `n` elements from `i` on are stored to. -/
def Sink.bytes (into : Sink) (i n : ℕ) : Set ℕ :=
  match into with
  | .buffer d => Set.Ico (d.base+i*d.itemsize) (d.base+(i+n)*d.itemsize)
  | _ => ∅

/-- An interval without its first point. -/
theorem union_Ico_sdiff {W : Set ℕ} (i n : ℕ) :
    (W∪Set.Ico i (i+(n+1)))\{i}⊆W∪Set.Ico (i+1) (i+1+n) := by
  rintro k ⟨hk | hk,hki⟩
  · exact Or.inl hk
  · have hne : k≠i := hki
    obtain ⟨h1,h2⟩ := hk
    exact Or.inr ⟨by omega,by omega⟩

/-- An interval without its first so many points. -/
theorem union_Ico_sdiff_Ico {M : Set ℕ} (a b m : ℕ) :
    (M∪Set.Ico a b)\Set.Ico a (a+m)⊆M∪Set.Ico (a+m) b := by
  rintro k ⟨hk | hk,hki⟩
  · exact Or.inl hk
  · obtain ⟨h1,h2⟩ := hk
    have h3 : ¬(a ≤ k ∧ k < a+m) := hki
    exact Or.inr ⟨by omega,h2⟩

section Fill

variable (c : Config V)

/-- Storing an element settles what its place holds. -/
theorem put_heals {into : Sink} {i n : ℕ} {x : ℤ} {W M : Set ℕ} {s t : Store V}
    (h : Agree (W∪into.words i (n+1)) (M∪into.bytes i (n+1)) s t) :
    (into.put c i x s).2=(into.put c i x t).2 ∧
      Agree (W∪into.words i (n+1)) (M∪into.bytes i (n+1)) (into.put c i x s).1
        (into.put c i x t).1 ∧
      ((into.put c i x s).2=none → Agree (W∪into.words (i+1) n) (M∪into.bytes (i+1) n)
        (into.put c i x s).1 (into.put c i x t).1) := by
  have hwords : ∀ w : BitVec 64, into.words i (n+1)=Set.Ico i (i+(n+1)) →
      into.words (i+1) n=Set.Ico (i+1) (i+1+n) → into.bytes i (n+1)=into.bytes (i+1) n →
      Agree (W∪into.words i (n+1)) (M∪into.bytes i (n+1)) (s.setWord i w) (t.setWord i w) ∧
        Agree (W∪into.words (i+1) n) (M∪into.bytes (i+1) n) (s.setWord i w)
          (t.setWord i w) := by
    intro w h1 h2 h3
    have hs := h.setWord i w
    refine ⟨hs.mono Set.sdiff_subset subset_rfl,hs.mono ?_ (by rw [h3])⟩
    rw [h1,h2]
    exact union_Ico_sdiff i n
  cases into with
  | unsignedWords =>
    rw [Sink.put]
    split
    · split
      · exact ⟨rfl,(hwords _ rfl rfl rfl).1,fun _ => (hwords _ rfl rfl rfl).2⟩
      · exact ⟨rfl,h,fun h => by cases h⟩
    · exact ⟨rfl,h,fun h => by cases h⟩
  | signedWords =>
    rw [Sink.put]
    split
    · split
      · exact ⟨rfl,(hwords _ rfl rfl rfl).1,fun _ => (hwords _ rfl rfl rfl).2⟩
      · exact ⟨rfl,h,fun h => by cases h⟩
    · exact ⟨rfl,h,fun h => by cases h⟩
  | buffer d =>
    rw [Sink.put]
    dsimp only
    split
    · split
      · have hs := h.setMem (d.base+i*d.itemsize)
          (leBytes d.itemsize (x%2^(8*d.itemsize)).toNat)
        refine ⟨rfl,hs.mono subset_rfl Set.sdiff_subset,fun _ => hs.mono subset_rfl ?_⟩
        rw [leBytes_length]
        refine (union_Ico_sdiff_Ico _ _ _).trans ?_
        have h1 : d.base+i*d.itemsize+d.itemsize=d.base+(i+1)*d.itemsize := by
          rw [Nat.add_mul,Nat.one_mul,Nat.add_assoc]
        have h2 : i+(n+1)=i+1+n := by omega
        rw [h1,h2]
        exact subset_rfl
      · exact ⟨rfl,h,fun h => by cases h⟩
    · exact ⟨rfl,h,fun h => by cases h⟩

/-- Storing an element does not depend on what is stored. -/
theorem blind_put {W M : Set ℕ} (into : Sink) (i : ℕ) (x : ℤ) : (into.put c i x).Blind W M := by
  intro s t h
  cases into with
  | unsignedWords | signedWords =>
    rw [Sink.put]
    split
    · split
      · exact ⟨rfl,(h.setWord i _).mono Set.sdiff_subset subset_rfl⟩
      · exact ⟨rfl,h⟩
    · exact ⟨rfl,h⟩
  | buffer d =>
    rw [Sink.put]
    dsimp only
    split
    · split
      · exact ⟨rfl,(h.setMem _ _).mono subset_rfl Set.sdiff_subset⟩
      · exact ⟨rfl,h⟩
    · exact ⟨rfl,h⟩

/-- Storing an element touches its place only. -/
theorem touches_put (into : Sink) (i n : ℕ) (x : ℤ) :
    (into.put c i x).Touches (into.words i (n+1)) (into.bytes i (n+1)) := by
  intro s
  have hword : ∀ w : BitVec 64, into.words i (n+1)=Set.Ico i (i+(n+1)) →
      Agree (into.words i (n+1)) (into.bytes i (n+1)) (s.setWord i w) s := by
    intro w hi
    refine ⟨fun k hk => ?_,rfl,fun _ _ => rfl,rfl⟩
    refine Function.update_of_ne ?_ _ _
    rintro rfl
    rw [hi] at hk
    exact hk ⟨Nat.le_refl _,by omega⟩
  cases into with
  | unsignedWords | signedWords =>
    rw [Sink.put]
    split
    · split
      · exact hword _ rfl
      · exact Agree.refl _ _ _
    · exact Agree.refl _ _ _
  | buffer d =>
    rw [Sink.put]
    dsimp only
    split
    · split
      · refine ⟨fun _ _ => rfl,rfl,fun a ha => ?_,rfl⟩
        refine if_neg ?_
        rintro ⟨h1,h2⟩
        rw [leBytes_length] at h2
        refine ha ⟨h1,?_⟩
        have h3 : d.base+i*d.itemsize+d.itemsize ≤ d.base+(i+(n+1))*d.itemsize := by
          rw [Nat.add_assoc,Nat.add_le_add_iff_left,←Nat.succ_mul]
          exact Nat.mul_le_mul_right _ (by omega)
        omega
      · exact Agree.refl _ _ _
    · exact Agree.refl _ _ _

/-- Storing elements does not depend on what is stored. -/
theorem blind_fillFrom {W M : Set ℕ} (into : Option (Sink × ℕ)) (i : ℕ) (xs : List ℤ) :
    (fillFrom c into i xs).Blind W M := by
  induction xs generalizing i with
  | nil => exact Effect.blind_done W M
  | cons x xs ih =>
    cases into with
    | none => exact Effect.blind_done W M
    | some target => exact (blind_put c _ _ _).andThen (ih (i+1))

/-- Storing elements touches their places only. -/
theorem touches_fillFrom (into : Sink) (base i n : ℕ) {xs : List ℤ} (hl : xs.length ≤ n) :
    (fillFrom c (some (into,base)) i xs).Touches (into.words (base+i) n)
      (into.bytes (base+i) n) := by
  induction xs generalizing i n with
  | nil => exact fun s => Agree.refl _ _ s
  | cons x xs ih =>
    rw [List.length_cons] at hl
    obtain ⟨m,rfl⟩ : ∃ m, n=m+1 := ⟨n-1,by omega⟩
    intro s
    have hput := touches_put c into (base+i) m x s
    rw [fillFrom,Effect.andThen]
    generalize into.put c (base+i) x s=a at hput ⊢
    obtain ⟨σ,e⟩ := a
    cases e with
    | some e => exact hput
    | none =>
      refine Agree.trans ((ih (i+1) m (by omega) σ).mono ?_ ?_) hput
      · cases into with
        | buffer d => exact subset_rfl
        | unsignedWords | signedWords =>
          exact Set.Ico_subset_Ico (by omega) (by omega)
      · cases into with
        | unsignedWords | signedWords => exact subset_rfl
        | buffer d =>
          refine Set.Ico_subset_Ico ?_ ?_
          · exact Nat.add_le_add_left (Nat.mul_le_mul_right _ (by omega)) _
          · exact Nat.add_le_add_left (Nat.mul_le_mul_right _ (by omega)) _

/-- Storing elements settles what their places hold. -/
theorem fillFrom_heals {W M : Set ℕ} (into : Sink) (base i : ℕ) (xs : List ℤ) {s t : Store V}
    (h : Agree (W∪into.words (base+i) xs.length) (M∪into.bytes (base+i) xs.length) s t)
    (hn : (fillFrom c (some (into,base)) i xs s).2=none) :
    Agree W M (fillFrom c (some (into,base)) i xs s).1
      (fillFrom c (some (into,base)) i xs t).1 := by
  induction xs generalizing i s t with
  | nil =>
    refine h.mono (Set.union_subset subset_rfl ?_) (Set.union_subset subset_rfl ?_)
    · cases into with
      | buffer d => exact Set.empty_subset _
      | unsignedWords | signedWords =>
        exact fun k hk => absurd (Nat.lt_of_le_of_lt hk.1 hk.2) (Nat.lt_irrefl _)
    · cases into with
      | unsignedWords | signedWords => exact Set.empty_subset _
      | buffer d => exact fun k hk => absurd (Nat.lt_of_le_of_lt hk.1 hk.2) (Nat.lt_irrefl _)
  | cons x xs ih =>
    obtain ⟨he,-,ha⟩ := put_heals c h (x:=x)
    rw [fillFrom,Effect.andThen] at hn ⊢
    rw [Effect.andThen]
    generalize into.put c (base+i) x s=a at he ha hn ⊢
    generalize into.put c (base+i) x t=b at he ha ⊢
    obtain ⟨σ,e⟩ := a
    obtain ⟨τ,e'⟩ := b
    cases he
    cases e with
    | some e => cases hn
    | none => exact ih (i+1) (ha rfl) hn

/-- Elements are stored in two runs as they are in one. -/
theorem fillFrom_append (into : Option (Sink × ℕ)) (i : ℕ) (xs ys : List ℤ) :
    fillFrom c into i (xs++ys)=
      (fillFrom c into i xs).andThen (fillFrom c into (i+xs.length) ys) := by
  induction xs generalizing i with
  | nil => rfl
  | cons x xs ih =>
    cases into with
    | none =>
      cases ys with
      | nil => rfl
      | cons y ys => rfl
    | some target =>
      rw [List.cons_append,fillFrom,fillFrom,ih (i+1),List.length_cons,
        show i+1+xs.length=i+(xs.length+1) by omega]
      funext s
      rw [Effect.andThen,Effect.andThen,Effect.andThen]
      generalize target.1.put c (target.2+i) x s=a
      obtain ⟨σ,e⟩ := a
      cases e <;> rfl

end Fill

/-- The slots elements are stored to before the last of them has arrived. -/
def Plan.words : Plan V → Set ℕ
  | .elements count _ _ (some (into,base)) _ => into.words base count
  | _ => ∅

/-- The bytes elements are stored to before the last of them has arrived. -/
def Plan.bytes : Plan V → Set ℕ
  | .elements count _ _ (some (into,base)) _ => into.bytes base count
  | _ => ∅

/-- What the slots of `W` and the bytes of `M` hold does not matter to a read that
comes to its end. -/
def Plan.Heals (c : Config V) (W M : Set ℕ) : Plan V → Prop
  | .scalar k => ∀ raw, (k raw).Heals W M
  | .payload _ k => ∀ data, (k data).Heals W M
  | .elements count _ _ into k => ∀ xs, xs.length=count →
      ((fillFrom c into 0 xs).andThen (k xs)).Heals W M
  | _ => True

/-- Two storages heard the same. -/
def Store.Heard (s t : Store V) : Prop :=
  s.log.filter Event.observed=t.log.filter Event.observed

/-- Two reads end alike. -/
inductive Reading.Eqv (W M : Set ℕ) : Reading V → Reading V → Prop
  | done {s t : Store V} {rest : List UInt8} : Agree ∅ ∅ s t → Eqv W M (.done s rest) (.done t rest)
  | more {s t : Store V} : Agree W M s t → Eqv W M (.more s) (.more t)
  | bad {s t : Store V} {why : Exn} : s.Heard t → Eqv W M (.bad why s) (.bad why t)

section Read

variable {c : Config V} {W M : Set ℕ} {s t σ : Store V} {xs rest : List UInt8} {why : Exn}
variable {pl : Plan V}

/-- Reads whose last effect heals end alike. -/
theorem Reading.of_eqv {f : Effect V} (hf : f.Heals W M) (h : Agree W M s t)
    (rest : List UInt8) : Reading.Eqv W M (.of (f s) rest) (.of (f t) rest) := by
  obtain ⟨he,ha,hn⟩ := hf h
  generalize f s=a at he ha hn ⊢
  generalize f t=b at he ha hn ⊢
  obtain ⟨s',e⟩ := a
  obtain ⟨t',e'⟩ := b
  cases he
  cases e with
  | none => exact .done (hn rfl)
  | some e => exact .bad ha.log

/-- A read that heals ends alike whatever is to be overwritten. -/
theorem Plan.read_eqv (hp : pl.Heals c W M) (h : Agree W M s t) (xs : List UInt8) :
    Reading.Eqv W M (pl.read c s xs) (pl.read c t xs) := by
  cases pl with
  | refuse why => exact .bad h.log
  | stuck => exact .more h
  | scalar k =>
    rw [Plan.read,Plan.read]
    cases Varint.read overlong xs with
    | done raw rest => exact Reading.of_eqv (hp raw) h rest
    | more => exact .more h
    | bad why => exact .bad h.log
  | payload n k =>
    rw [Plan.read,Plan.read]
    split
    · exact .more h
    · exact Reading.of_eqv (hp _) h _
  | elements count bound zigzag into k =>
    rw [Plan.read,Plan.read]
    obtain ⟨he,ha⟩ := blind_fillFrom c into 0 (scan bound zigzag count xs).1 h
    have hk : (scan bound zigzag count xs).1.length=count →
        ∀ rest, Reading.Eqv W M
          (.of ((fillFrom c into 0 (scan bound zigzag count xs).1).andThen
            (k (scan bound zigzag count xs).1) s) rest)
          (.of ((fillFrom c into 0 (scan bound zigzag count xs).1).andThen
            (k (scan bound zigzag count xs).1) t) rest) :=
      fun hl rest => Reading.of_eqv (hp _ hl) h rest
    rw [Effect.andThen,Effect.andThen] at hk
    generalize fillFrom c into 0 (scan bound zigzag count xs).1 s=a at he ha hk ⊢
    generalize fillFrom c into 0 (scan bound zigzag count xs).1 t=b at he ha hk ⊢
    obtain ⟨s',e⟩ := a
    obtain ⟨t',e'⟩ := b
    cases he
    cases e with
    | some e => exact .bad ha.log
    | none =>
      cases ht : (scan bound zigzag count xs).2 with
      | done rest => exact hk (scan_done_length ht) rest
      | more => exact .more ha
      | bad why => exact .bad ha.log

/-- A read short of bytes has touched nothing but what it is going to write. -/
theorem Plan.read_more (h : pl.read c s xs=.more σ) : Agree pl.words pl.bytes σ s := by
  have hof : ∀ {r : Store V × Option Exn} {rest : List UInt8}, Reading.of r rest≠.more σ := by
    rintro ⟨s',e⟩ rest hr
    cases e <;> cases hr
  cases pl with
  | refuse why => cases h
  | stuck => cases h; exact Agree.refl _ _ _
  | scalar k =>
    rw [Plan.read] at h
    split at h
    · exact absurd h hof
    · cases h; exact Agree.refl _ _ _
    · cases h
  | payload n k =>
    rw [Plan.read] at h
    split at h
    · cases h; exact Agree.refl _ _ _
    · exact absurd h hof
  | elements count bound zigzag into k =>
    rw [Plan.read] at h
    have hx : (scan bound zigzag count xs).1.length ≤ count := scan_length_le _ _ _ _
    cases hf : fillFrom c into 0 (scan bound zigzag count xs).1 s with
    | mk s' e =>
      rw [hf] at h
      cases e with
      | some e => cases h
      | none =>
        have hs : s'=σ := by
          dsimp only at h
          split at h
          · exact absurd h hof
          · cases h; rfl
          · cases h
        cases into with
        | none =>
          have hdone : fillFrom c none 0 (scan bound zigzag count xs).1 s=(s,none) := by
            cases (scan bound zigzag count xs).1 <;> rfl
          rw [hdone] at hf
          cases hf
          rw [←hs]
          exact Agree.refl _ _ _
        | some target =>
          have ht := touches_fillFrom c target.1 target.2 0 count hx s
          rw [hf,hs] at ht
          exact ht

/-- A read that is done is done alike with more behind it. -/
theorem Plan.read_done_append (h : pl.read c s xs=.done σ rest) (ys : List UInt8) :
    pl.read c s (xs++ys)=.done σ (rest++ys) := by
  have hof : ∀ {r : Store V × Option Exn} {mid : List UInt8}, Reading.of r mid=.done σ rest →
      Reading.of r (mid++ys)=.done σ (rest++ys) := by
    rintro ⟨s',e⟩ mid hr
    cases e with
    | none => cases hr; rfl
    | some e => cases hr
  cases pl with
  | refuse why => cases h
  | stuck => cases h
  | scalar k =>
    rw [Plan.read] at h ⊢
    cases hv : Varint.read overlong xs with
    | done raw mid =>
      rw [hv] at h
      rw [(Varint.stable_read _).done hv ys]
      exact hof h
    | more => rw [hv] at h; cases h
    | bad why => rw [hv] at h; cases h
  | payload n k =>
    rw [Plan.read] at h ⊢
    split at h
    · cases h
    · next hl =>
      rw [if_neg (by rw [List.length_append]; omega),List.take_append_of_le_length (by omega),
        List.drop_append_of_le_length (by omega)]
      exact hof h
  | elements count bound zigzag into k =>
    rw [Plan.read] at h ⊢
    have happ := scan_append bound zigzag count xs ys
    cases ht : (scan bound zigzag count xs).2 with
    | done mid =>
      rw [ht] at happ h
      dsimp only at happ h ⊢
      rw [happ]
      dsimp only
      split at h
      · cases h
      · exact hof h
    | more =>
      rw [ht] at h
      dsimp only at h
      split at h <;> cases h
    | bad why =>
      rw [ht] at h
      dsimp only at h
      split at h <;> cases h

/-- A read that is refused is refused alike with more behind it. -/
theorem Plan.read_bad_append (h : pl.read c s xs=.bad why σ) (ys : List UInt8) :
    pl.read c s (xs++ys)=.bad why σ := by
  have hof : ∀ {r : Store V × Option Exn} {mid mid' : List UInt8}, Reading.of r mid=.bad why σ →
      Reading.of r mid'=.bad why σ := by
    rintro ⟨s',e⟩ mid mid' hr
    cases e with
    | none => cases hr
    | some e => exact hr
  cases pl with
  | refuse why' => exact h
  | stuck => cases h
  | scalar k =>
    rw [Plan.read] at h ⊢
    cases hv : Varint.read overlong xs with
    | done raw mid =>
      rw [hv] at h
      rw [(Varint.stable_read _).done hv ys]
      exact hof h
    | more => rw [hv] at h; cases h
    | bad why' =>
      rw [hv] at h
      rw [(Varint.stable_read _).bad hv ys]
      exact h
  | payload n k =>
    rw [Plan.read] at h ⊢
    split at h
    · cases h
    · next hl =>
      rw [if_neg (by rw [List.length_append]; omega),List.take_append_of_le_length (by omega)]
      exact hof h
  | elements count bound zigzag into k =>
    rw [Plan.read] at h ⊢
    have happ := scan_append bound zigzag count xs ys
    cases ht : (scan bound zigzag count xs).2 with
    | done mid =>
      rw [ht] at happ h
      dsimp only at happ h ⊢
      rw [happ]
      dsimp only
      split at h
      · exact h
      · exact hof h
    | bad why' =>
      rw [ht] at happ h
      dsimp only at happ h ⊢
      rw [happ]
      exact h
    | more =>
      rw [ht] at happ h
      dsimp only at happ h ⊢
      -- what refuses is an element that was there already
      obtain ⟨zs,hz⟩ := happ
      rw [←hz,fillFrom_append,Effect.andThen]
      split at h
      · next s' e hf =>
        rw [hf]
        exact h
      · cases h

end Read

end SofaBuffers
