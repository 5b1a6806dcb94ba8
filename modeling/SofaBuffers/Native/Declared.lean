import SofaBuffers.Native.Arrays
import SofaBuffers.Walk.Within

/-!
# The element width a handler declares

An array hook answers with a destination and two sides, each of which may be open. The
interpreted engine compares every element with the sides as they are. The compiled one casts
them to machine words first, and keeps them for some answers only.
-/

set_option autoImplicit false

namespace SofaBuffers

open Resumable
open Dec

variable {V : Type}

/-- An item of so many bytes holds every value of the declared width: the sides it needs are
given, and fit. -/
def Fitting (zigzag : Bool) (size : ℕ) (lo hi : Option ℤ) : Prop :=
  (∃ h, hi=some h ∧ h ≤ (itemRange zigzag size).2) ∧
    (zigzag=true → ∃ l, lo=some l ∧ (itemRange zigzag size).1 ≤ l)

/-- Items of less than eight bytes are offered for a width that fits them only. -/
def Slotted (zigzag : Bool) (slot : Option ℕ) (lo hi : Option ℤ) : Prop :=
  ∀ size, slot=some size → size≠8 → Fitting zigzag size lo hi

/-- The answer keeps the list, or has items of so many bytes for as many elements. -/
inductive Suffices (zigzag : Bool) (n : ℕ) : Option ℕ → Option Dst → Prop
  /-- A list. -/
  | list : Suffices zigzag n none none
  /-- A writable buffer of the elements' kind. -/
  | items {b : Dst} {size : ℕ} (hb : b.Holds size n) (hs : b.signed=zigzag) :
      Suffices zigzag n (some size) (some b)

/-- What an array of `count` elements comes to under a declared width, where the bytes of these
of them are present. -/
inductive AsDeclared (c : Config V) (v : V) (fid count : ℕ) (zigzag : Bool) (slot : Option ℕ)
    (dst : Option Dst) (lo hi : Option ℤ) (raws : List ℕ) (tail : List UInt8) (s : Store V) :
    Reading V → Prop
  /-- The width does not fit the items. -/
  | refused {why : Exn} (hw : why.cls=.argument) (hf : ¬Slotted zigzag slot lo hi) :
      AsDeclared c v fid count zigzag slot dst lo hi raws tail s (.bad why s)
  /-- An element is outside. -/
  | outside {σ : Store V} {raw : ℕ} (hf : Slotted zigzag slot lo hi) (hraw : raw ∈ raws)
      (ho : ¬Admits lo hi (element zigzag raw)) :
      AsDeclared c v fid count zigzag slot dst lo hi raws tail s (.bad outsideWidth σ)
  /-- No element is outside, and more are to come. -/
  | waits {σ : Store V} (hf : Slotted zigzag slot lo hi)
      (ha : ∀ raw ∈ raws, Admits lo hi (element zigzag raw)) (hn : raws.length < count) :
      AsDeclared c v fid count zigzag slot dst lo hi raws tail s (.more σ)
  /-- All are there, and are delivered as a list. -/
  | listed (hdst : dst=none) (hf : Slotted zigzag slot lo hi)
      (ha : ∀ raw ∈ raws, Admits lo hi (element zigzag raw)) (hn : raws.length=count) :
      AsDeclared c v fid count zigzag slot dst lo hi raws tail s
        (.of (Effect.deliver c v fid (if zigzag then .signedArray (raws.map (element zigzag))
          else .unsignedArray (raws.map (element zigzag))) s) tail)
  /-- All are there, and are stored. -/
  | stored {b : Dst} {σ : Store V} (hdst : dst=some b) (hf : Slotted zigzag slot lo hi)
      (ha : ∀ raw ∈ raws, Admits lo hi (element zigzag raw)) (hn : raws.length=count)
      (hfill : fillFrom c (some (.buffer b,0)) 0 (raws.map (element zigzag)) s=(σ,none)) :
      AsDeclared c v fid count zigzag slot dst lo hi raws tail s (.done σ tail)

/-- Where a handler answers with these sides and a list or items of so many bytes, every integer
array comes to what is declared. -/
def Meets (visit : ∀ {V : Type}, Config V → V → ℕ → WireType → Pending → ℕ → Bool → DecM V Unit)
    (zigzag : Bool) (slot : Option ℕ) (lo hi : Option ℤ) : Prop :=
  ∀ {V : Type} (c : Config V) (v : V) (fid count : ℕ) (dst : Option Dst) (p : Pending)
    (d : Dec V) (raws : List ℕ) (tail : List UInt8), d.Filled → d.pos ≤ d.n → d.pending=some p →
    p.real=.varray zigzag count → (dst=none → p.real=p) →
    (arrayOffer c v fid (varrayType zigzag) count).2=(dst,lo,hi) → Suffices zigzag count slot dst →
    Elements none none zigzag d.rest raws tail →
    (raws.length=count ∨ raws.length < count ∧ Varint.Cut 0 tail) →
    ∃ rd, AsDeclared c v fid count zigzag slot dst lo hi raws tail
        ((arrayOffer c v fid (varrayType zigzag) count).1.foldl Store.call d.store) rd ∧
      ReadEnds (visit c v fid (varrayType zigzag) p count zigzag d) d p.real rd

section Widths

variable {zigzag : Bool} {size : ℕ} {lo hi : Option ℤ}

/-- A width fits an item as the interpreted engine tests it. -/
theorem widthFits_iff : widthFits size zigzag lo hi=true ↔ Fitting zigzag size lo hi := by
  have hbits : size*8=8*size := Nat.mul_comm size 8
  rw [widthFits.eq_def,Fitting,itemRange]
  dsimp only
  rw [hbits]
  cases zigzag with
  | false =>
    cases hi with
    | none => simp
    | some h =>
      simp only [Bool.false_eq_true,if_false,decide_eq_true_eq,Option.some.injEq,
        Int.le_sub_one_iff,exists_eq_left',IsEmpty.forall_iff,and_true]
  | true =>
    cases lo with
    | none => simp
    | some l =>
      cases hi with
      | none => simp
      | some h =>
        simp only [if_true,Bool.and_eq_true,decide_eq_true_eq,Option.some.injEq,
          Int.le_sub_one_iff,exists_eq_left',forall_const]
        tauto

/-- The elements before the first that is outside, which halts the array. -/
theorem Elements.first_outside {xs tail : List UInt8} {raws : List ℕ}
    (h : Elements none none zigzag xs raws tail)
    (ho : ¬∀ raw ∈ raws, Admits lo hi (element zigzag raw)) :
    ∃ front raw rest, raw ∈ raws ∧ ¬Admits lo hi (element zigzag raw) ∧
      front.length < raws.length ∧ Elements lo hi zigzag xs front rest ∧
      Halts lo hi zigzag rest outsideWidth := by
  obtain ⟨bs,hbs,rfl⟩ := h.spelled
  clear h
  induction hbs with
  | nil => exact absurd (by simp) ho
  | @cons cs ds r rs hr hrs ih =>
    by_cases ha : Admits lo hi (element zigzag r)
    · have ho' : ¬∀ raw ∈ rs, Admits lo hi (element zigzag raw) := by
        intro hall
        apply ho
        simpa using ⟨ha,hall⟩
      obtain ⟨front,raw,rest,hraw,hout,hlen,⟨⟨es,hes,hx⟩,hin⟩,hhalt⟩ := ih ho'
      refine ⟨r::front,raw,rest,List.mem_cons_of_mem r hraw,hout,?_,⟨⟨cs++es,.cons hr hes,?_⟩,?_⟩,
        hhalt⟩
      · simpa using hlen
      · rw [List.append_assoc,hx,List.append_assoc]
      · simpa using ⟨ha,hin⟩
    · refine ⟨[],r,(cs++ds)++tail,List.mem_cons_self,ha,by simp,⟨⟨[],.nil,rfl⟩,by simp⟩,?_⟩
      exact .outside hr (List.append_assoc cs ds tail) ha

end Widths

section Interpreted

variable {c : Config V} {v : V} {fid count : ℕ} {zigzag : Bool} {slot : Option ℕ}
variable {dst : Option Dst} {lo hi : Option ℤ} {raws : List ℕ} {tail xs : List UInt8}
variable {s : Store V}

/-- A plan for elements goes on where they were scanned and stored. -/
theorem read_scanned {bound : Bound} {into : Option (Sink × ℕ)} {k : List ℤ → Effect V}
    {ys : List ℤ} {t : Tail} {σ : Store V} (hscan : scan bound zigzag count xs=(ys,t))
    (hfill : fillFrom c into 0 ys s=(σ,none)) :
    (Plan.elements count bound zigzag into k).read c s xs=
      match t with
      | .done rest => .of (k ys σ) rest
      | .more => .more σ
      | .bad why => .bad why σ := by
  rw [Plan.read]
  cases t with
  | done rest => simp only [hscan,hfill]
  | more => simp only [hscan,hfill]
  | bad why => simp only [hscan,hfill]

/-- A plan for elements that cannot be stored fails. -/
theorem read_unstored {bound : Bound} {into : Option (Sink × ℕ)} {k : List ℤ → Effect V}
    {ys : List ℤ} {t : Tail} {σ : Store V} {e : Exn} (hscan : scan bound zigzag count xs=(ys,t))
    (hfill : fillFrom c into 0 ys s=(σ,some e)) :
    (Plan.elements count bound zigzag into k).read c s xs=.bad e σ := by
  rw [Plan.read]
  simp only [hscan,hfill]

/-- Elements under the declared width come to what is declared, where those inside it can be
stored: `into` is where they go, and `rd` how the whole array ends. -/
theorem elements_declared (hf : Slotted zigzag slot lo hi)
    (hel : Elements none none zigzag xs raws tail)
    (hend : raws.length=count ∨ raws.length < count ∧ Varint.Cut 0 tail)
    {into : Option (Sink × ℕ)} {k : List ℤ → Effect V}
    (hfill : ∀ raws : List ℕ, raws.length ≤ count → (∀ raw ∈ raws, raw < 2^64) →
      (∀ raw ∈ raws, Admits lo hi (element zigzag raw)) →
      (fillFrom c into 0 (raws.map (element zigzag)) s).2=none)
    (hdone : (∀ raw ∈ raws, Admits lo hi (element zigzag raw)) → raws.length=count →
      AsDeclared c v fid count zigzag slot dst lo hi raws tail s
        (.of (k (raws.map (element zigzag)) (fillFrom c into 0 (raws.map (element zigzag)) s).1)
          tail)) :
    AsDeclared c v fid count zigzag slot dst lo hi raws tail s
      ((Plan.elements count (.of lo hi zigzag) zigzag into k).read c s xs) := by
  have hlt : ∀ {raws : List ℕ} {rest : List UInt8}, Elements lo hi zigzag xs raws rest →
      ∀ raw ∈ raws, raw < 2^64 := by
    intro raws rest hel
    obtain ⟨bs,hbs,-⟩ := hel.spelled
    exact hbs.lt
  have hstored : ∀ {front : List ℕ} {rest : List UInt8}, Elements lo hi zigzag xs front rest →
      front.length ≤ count → fillFrom c into 0 (front.map (element zigzag)) s=
        ((fillFrom c into 0 (front.map (element zigzag)) s).1,none) := by
    intro front rest hfront hn
    have hnone := hfill front hn (hlt hfront) hfront.inside
    rw [←hnone]
  by_cases ha : ∀ raw ∈ raws, Admits lo hi (element zigzag raw)
  · have hel' : Elements lo hi zigzag xs raws tail := ⟨hel.spelled,ha⟩
    rcases hend with hn | ⟨hn,hcut⟩
    · rw [read_scanned (hel'.scan_done hn) (hstored hel' hn.le)]
      exact hdone ha hn
    · rw [read_scanned (hel'.scan_more hn hcut) (hstored hel' hn.le)]
      exact .waits hf ha hn
  · obtain ⟨front,raw,rest,hraw,ho,hlen,hfront,hhalt⟩ := hel.first_outside ha
    have hn : front.length < count := by omega
    rw [read_scanned (hfront.scan_bad hn hhalt) (hstored hfront hn.le)]
    exact .outside hf hraw ho

/-- A buffer that holds the elements receives them where the width fits its items. -/
theorem holds_receives {b : Dst} {size : ℕ} (hb : b.Holds size count) (hs : b.signed=zigzag)
    (hsize : size=1 ∨ size=2 ∨ size=4 ∨ size=8) (hf : Slotted zigzag (some size) lo hi) :
    b.Receives zigzag lo hi count := by
  obtain ⟨hwritable,rfl,hroom⟩ := hb
  refine ⟨hwritable,hs,?_,hroom⟩
  by_cases h8 : b.itemsize=8
  · exact .inl h8
  · have hfits := widthFits_iff.mpr (hf b.itemsize rfl h8)
    exact .inr ⟨by omega,hfits⟩

/-- A buffer that holds the elements is refused where the width does not fit its items. -/
theorem arrayView_unfit {b : Dst} {size : ℕ} (hb : b.Holds size count)
    (hsize : size=1 ∨ size=2 ∨ size=4 ∨ size=8) (hf : ¬Slotted zigzag (some size) lo hi) :
    arrayView b zigzag lo hi count=.error (.argument
      s!"on_array_begin declared a width that does not fit its {size}-byte destination") := by
  obtain ⟨hwritable,rfl,-⟩ := hb
  have hunfit : b.itemsize≠8 ∧ !widthFits b.itemsize zigzag lo hi := by
    simp only [Slotted,Option.some.injEq,forall_eq',←widthFits_iff] at hf
    simpa using hf
  rw [arrayView,writable.eq_def]
  dsimp only
  rw [if_pos hwritable]
  dsimp only
  rw [if_neg (not_not.mpr hsize),if_pos hunfit]

/-- An array is read as it is declared by its plan. -/
theorem plan_declared (c : Config V) (v : V) (fid : ℕ) (s : Store V) {p : Pending} (hslot : ∀ size, slot=some size →
      size=1 ∨ size=2 ∨ size=4 ∨ size=8) (hp : p.real=.varray zigzag count)
    (hcap : dst=none → p.real=p) (hdst : Suffices zigzag count slot dst)
    (hel : Elements none none zigzag xs raws tail)
    (hend : raws.length=count ∨ raws.length < count ∧ Varint.Cut 0 tail) :
    (arrayPlan c v fid p count zigzag (dst,lo,hi)).1=p.real ∧
      AsDeclared c v fid count zigzag slot dst lo hi raws tail s
        ((arrayPlan c v fid p count zigzag (dst,lo,hi)).2.read c s xs) := by
  cases hdst with
  | list =>
    have hf : Slotted zigzag none lo hi := by simp [Slotted]
    have hpending : p=.varray zigzag count := by rw [←hcap rfl,hp]
    subst hpending
    refine ⟨rfl,elements_declared hf hel hend (fun raws _ _ _ => by rw [fillFrom_none]) ?_⟩
    intro ha hn
    rw [fillFrom_none]
    cases zigzag with
    | false => exact .listed rfl hf ha hn
    | true => exact .listed rfl hf ha hn
  | @items b size hb hs =>
    have hsize := hslot size rfl
    by_cases hf : Slotted zigzag (some size) lo hi
    · have hreceives := holds_receives hb hs hsize hf
      have hcalm : ∀ raws : List ℕ, raws.length ≤ count → (∀ raw ∈ raws, raw < 2^64) →
          (∀ raw ∈ raws, Admits lo hi (element zigzag raw)) →
          (fillFrom c (some (.buffer b,0)) 0 (raws.map (element zigzag))).Calm := by
        intro raws hn hlt ha
        refine calm_fillFrom hb (by simpa using hn) fun x hx => ?_
        obtain ⟨raw,hraw,rfl⟩ := List.mem_map.mp hx
        have hin := (outside_iff (hlt raw hraw)).mpr (ha raw hraw)
        have hitem := hreceives.item (hlt raw hraw) hin
        rwa [hb.itemsize] at hitem
      rw [arrayPlan,hreceives.view]
      refine ⟨rfl,elements_declared hf hel hend ?_ ?_⟩
      · exact fun raws hn hlt ha => hcalm raws hn hlt ha s
      · intro ha hn
        obtain ⟨bs,hbs,-⟩ := hel.spelled
        exact .stored rfl hf ha hn ((hcalm raws hn.le hbs.lt ha).eq s)
    · rw [arrayPlan,arrayView_unfit hb hsize hf]
      exact ⟨rfl,.refused rfl hf⟩

/-- The interpreted engine reads every array as it is declared. -/
theorem visitVarints_meets (hslot : ∀ size, slot=some size → size=1 ∨ size=2 ∨ size=4 ∨ size=8) :
    Meets visitVarints zigzag slot lo hi := by
  intro V c v fid count dst p d raws tail hd hpos hq hp hcap hans hdst hel hend
  have hrun := @visitVarints_run V c v fid d p hd hpos hq (varrayType zigzag) count zigzag
  obtain ⟨hleft,hdeclared⟩ := plan_declared c v fid
    ((arrayOffer c v fid (varrayType zigzag) count).1.foldl Store.call d.store) hslot hp hcap hdst
    hel hend
  rw [hans,hleft] at hrun
  exact ⟨_,hdeclared,hrun⟩

end Interpreted

namespace Native

/-- How the compiled engine reads a visited integer array, its sides cast. -/
def castPlan (c : Config V) (v : V) (fid count : ℕ) (zigzag : Bool) (lo hi : Option ℤ) :
    Option Dst → Plan V
  | none => .elements count (castBound zigzag false lo hi) zigzag none fun out =>
      .deliver c v fid (if zigzag then .signedArray out else .unsignedArray out)
  | some b =>
    if b.itemsize≠8 ∧
        !widthFits b.itemsize zigzag (lo.isSome || hi.isSome) (castLo lo) (castHi hi) then
      .refuse (.argument
        s!"on_array_begin declared a width that does not fit its {b.itemsize}-byte destination")
    else .elements count (castBound zigzag true lo hi) zigzag (some (.buffer b,0)) fun _ => .done

/-- The upper side the compiled engine goes on with. -/
def wordHi (hi : Option ℤ) : Option ℤ := hi.filter (· ≤ 2^63-1)

section Compiled

variable {c : Config V} {v : V} {fid count : ℕ} {zigzag : Bool} {slot : Option ℕ}
variable {dst : Option Dst} {lo hi : Option ℤ} {size : ℕ} {d : Dec V} {p : Pending}

/-- A side the compiled engine goes on with is a declared one, and a signed word. -/
theorem wordHi_some {h : ℤ} : wordHi hi=some h ↔ hi=some h ∧ h < 2^63 := by
  rw [wordHi,Option.filter_eq_some_iff,decide_eq_true_eq,Int.le_sub_one_iff]

/-- A width fits an item as the compiled engine tests it. -/
theorem widthFits_cast (hsize : size=1 ∨ size=2 ∨ size=4) (hc : Castable lo hi)
    (hhi : ∀ h, hi=some h → h < 2^63) :
    widthFits size zigzag (lo.isSome || hi.isSome) (castLo lo) (castHi hi)=true ↔
      (lo.isSome || hi.isSome)=true ∧
        if zigzag then (itemRange true size).1 ≤ lo.getD (-2^63) ∧
          hi.getD (-1) ≤ (itemRange true size).2
        else hi.getD (2^64-1) ≤ (itemRange false size).2 := by
  have hbits : size*8=8*size := Nat.mul_comm size 8
  cases hb : lo.isSome || hi.isSome with
  | false => simp [widthFits]
  | true =>
    cases zigzag with
    | false =>
      have hnat := castHi_toNat hc
      have hlt : 8*size < 64 := by omega
      rw [←hnat]
      simp only [widthFits,Bool.not_true,Bool.false_eq_true,if_false,if_true,hbits,hlt,
        decide_eq_true_eq,itemRange,Int.le_sub_one_iff,true_and]
      norm_cast
    | true =>
      have hlow := castLo_toInt hc
      have hhigh := castHi_toInt hc hhi
      simp only [widthFits,Bool.not_true,Bool.false_eq_true,if_false,if_true,hbits,hlow,hhigh,
        Bool.and_eq_true,decide_eq_true_eq,itemRange,Int.le_sub_one_iff,true_and]

/-- What the compiled engine lets through fits the items it is stored in. -/
theorem castBound_item {raw : ℕ} (hsize : size=1 ∨ size=2 ∨ size=4 ∨ size=8) (hc : Castable lo hi)
    (hhi : ∀ h, hi=some h → h < 2^63)
    (hfits : ¬(size≠8 ∧
      !widthFits size zigzag (lo.isSome || hi.isSome) (castLo lo) (castHi hi)))
    (hraw : raw < 2^64) (hin : (castBound zigzag true lo hi).outside (element zigzag raw)=false) :
    (itemRange zigzag size).1 ≤ element zigzag raw ∧
      element zigzag raw ≤ (itemRange zigzag size).2 := by
  by_cases h8 : size=8
  · rw [h8]
    exact element_item hraw
  · have hsmall : size=1 ∨ size=2 ∨ size=4 := by omega
    have hfit : widthFits size zigzag (lo.isSome || hi.isSome) (castLo lo) (castHi hi)=true := by
      simpa [h8] using hfits
    obtain ⟨hb,hfit⟩ := (widthFits_cast hsmall hc hhi).mp hfit
    cases zigzag with
    | false =>
      have hzero : (itemRange false size).1 ≤ element false raw := by
        rw [element_unsigned]
        exact Int.natCast_nonneg raw
      cases hi with
      | none =>
        have hmax : (itemRange false size).2 < 2^64-1 := by
          rcases hsmall with rfl | rfl | rfl <;> decide
        simp only [Option.getD_none,Bool.false_eq_true,if_false] at hfit
        omega
      | some h =>
        simp [castBound,Bound.outside] at hin hfit
        omega
    | true =>
      simp [castBound,Bound.outside,hb] at hin hfit
      omega

/-- A visited integer array is read by the cast plan, where the sides can be cast. -/
theorem visitVarints_cast (swar : Bool) (hd : d.Filled) (hpos : d.pos ≤ d.n) (hq : d.pending=some p)
    (hp : p.real=.varray zigzag count) (hcap : dst=none → p.real=p)
    (hans : (arrayOffer c v fid (varrayType zigzag) count).2=(dst,lo,hi))
    (hdst : Suffices zigzag count slot dst)
    (hslot : ∀ size, slot=some size → size=1 ∨ size=2 ∨ size=4 ∨ size=8)
    (hlo : ∀ l, lo=some l → InDomain zigzag l) (hhi : ∀ h, hi=some h → InDomain zigzag h)
    (hc : slot.isSome → Castable lo (wordHi hi)) :
    ReadEnds (visitVarints swar c v fid (varrayType zigzag) p count zigzag d) d p.real
      ((castPlan c v fid count zigzag lo (wordHi hi) dst).read c
        ((arrayOffer c v fid (varrayType zigzag) count).1.foldl Store.call d.store) d.rest) := by
  rw [visitVarints,run_bind_ok (arrayAnswer_run (varrayType zigzag) count),hans]
  generalize (arrayOffer c v fid (varrayType zigzag) count).1.foldl Store.call d.store=s
  cases hdst with
  | list =>
    have hpending : p=.varray zigzag count := by rw [←hcap rfl,hp]
    subst hpending
    have hword : ∀ h, wordHi hi=some h → InDomain zigzag h ∧ h < 2^63 := by
      intro h hh
      obtain ⟨hh,hlt⟩ := wordHi_some.mp hh
      exact ⟨hhi h hh,hlt⟩
    have hquiet : ∀ xs, (Effect.deliver c v fid (if zigzag then .signedArray xs
      else .unsignedArray xs)).Quiet := fun xs => quiet_deliver _ _ _ _
    cases zigzag with
    | false =>
      have hrange : ∀ h, wordHi hi=some h → 0 ≤ h ∧ h < 2^63 := by
        intro h hh
        obtain ⟨hdom,hlt⟩ := hword h hh
        exact ⟨hdom.1,hlt⟩
      exact (readUnsignedArray_reads (d:={d with store := s}) swar hd hpos hq lo hrange hquiet
        ).of_start
    | true =>
      exact (readSignedArray_reads (d:={d with store := s}) swar hd hpos hq hlo
        (fun h hh => (hword h hh).1) hquiet).of_start
  | @items b size hb hs =>
    have hsize := hslot size rfl
    have hcast := hc rfl
    have hword : ∀ h, wordHi hi=some h → h < 2^63 := fun h hh => (wordHi_some.mp hh).2
    have hread : ReadEnds (varintsInto swar b count zigzag lo (wordHi hi)
        {d with pending := some p.real, store := s}) d p.real
        ((castPlan c v fid count zigzag lo (wordHi hi) (some b)).read c s d.rest) := by
      rw [varintsInto_cast swar hcast hb hsize,castPlan,hb.itemsize]
      by_cases hfits : size≠8 ∧
          !widthFits size zigzag (lo.isSome || (wordHi hi).isSome) (castLo lo) (castHi (wordHi hi))
      · rw [if_pos hfits,if_pos hfits]
        exact (readEnds_bad (k:=d.keep) (d:={d with pending := some p.real, store := s}) (by intro h; cases h)
          rfl).of_start
      · rw [if_neg hfits,if_neg hfits]
        have hout : ∀ raw < 2^64, elementOutside zigzag (lo.isSome || (wordHi hi).isSome) (castLo lo)
            (castHi (wordHi hi)) (BitVec.ofNat 64 raw)=
            (castBound zigzag true lo (wordHi hi)).outside (element zigzag raw) :=
          fun raw hraw => elementOutside_cast hcast hword hraw
        have hitem : ∀ raw < 2^64,
            (castBound zigzag true lo (wordHi hi)).outside (element zigzag raw)=false →
            (itemRange b.signed size).1 ≤ element zigzag raw ∧
              element zigzag raw ≤ (itemRange b.signed size).2 := by
          intro raw hraw hin
          rw [hs]
          exact castBound_item hsize hcast hword hfits hraw hin
        exact (fillVarintsAt_reads (d:={d with pending := some p.real, store := s}) swar c hb
          (by omega) hout hitem hd hpos rfl).of_start
    cases p <;> exact hread

/-- The casts lose nothing: they succeed, they leave the verdict on the items' width as it is, and
where that is good the one on every element. -/
structure Faithful (zigzag : Bool) (slot : Option ℕ) (lo hi : Option ℤ) : Prop where
  /-- The sides can be cast. -/
  castable : slot.isSome → Castable lo (wordHi hi)
  /-- The width fits the items still, or still does not. -/
  fits : ∀ size, slot=some size → size≠8 → (widthFits size zigzag (lo.isSome || (wordHi hi).isSome)
    (castLo lo) (castHi (wordHi hi))=true ↔ Fitting zigzag size lo hi)
  /-- The elements inside are the same. -/
  outside : Slotted zigzag slot lo hi → ∀ raw < 2^64,
    ((castBound zigzag slot.isSome lo (wordHi hi)).outside (element zigzag raw)=false ↔
      Admits lo hi (element zigzag raw))

/-- Two widths that let the same elements through scan the same. -/
theorem scan_congr {a b : Bound} (hab : ∀ raw < 2^64, a.outside (element zigzag raw)=
    b.outside (element zigzag raw)) (n : ℕ) (xs : List UInt8) :
    scan a zigzag n xs=scan b zigzag n xs := by
  induction n generalizing xs with
  | zero => rfl
  | succ n ih =>
    rw [scan,scan]
    cases hr : Varint.read overlong xs with
    | more => rfl
    | bad why => rfl
    | done raw rest =>
      dsimp only
      rw [hab raw (Varint.read_lt hr),ih]

/-- Where the casts lose nothing the cast plan reads as the plan of the interpreted engine. -/
theorem castPlan_read (h : Faithful zigzag slot lo hi) (hp : p.real=.varray zigzag count)
    (hcap : dst=none → p.real=p) (hdst : Suffices zigzag count slot dst)
    (hslot : ∀ size, slot=some size → size=1 ∨ size=2 ∨ size=4 ∨ size=8) (s : Store V)
    (xs : List UInt8) :
    (castPlan c v fid count zigzag lo (wordHi hi) dst).read c s xs=
      (arrayPlan c v fid p count zigzag (dst,lo,hi)).2.read c s xs := by
  have hplan : ∀ (into : Option (Sink × ℕ)) (k : List ℤ → Effect V), Slotted zigzag slot lo hi →
      (Plan.elements count (castBound zigzag slot.isSome lo (wordHi hi)) zigzag into k).read c s xs=
        (Plan.elements count (.of lo hi zigzag) zigzag into k).read c s xs := by
    intro into k hf
    have hsame : ∀ raw < 2^64, (castBound zigzag slot.isSome lo (wordHi hi)).outside
        (element zigzag raw)=(Bound.of lo hi zigzag).outside (element zigzag raw) := by
      intro raw hraw
      have hiff := (h.outside hf raw hraw).trans (outside_iff hraw).symm
      rwa [Bool.eq_iff_iff,←not_iff_not,Bool.not_eq_true,Bool.not_eq_true]
    rw [Plan.read,Plan.read,scan_congr hsame]
  cases hdst with
  | list =>
    have hf : Slotted zigzag none lo hi := by simp [Slotted]
    have hpending : p=.varray zigzag count := by rw [←hcap rfl,hp]
    subst hpending
    exact hplan none _ hf
  | @items b size hb hs =>
    have hsize := hslot size rfl
    have hfits : (size≠8 ∧ !widthFits size zigzag (lo.isSome || (wordHi hi).isSome) (castLo lo)
        (castHi (wordHi hi))) ↔ ¬Slotted zigzag (some size) lo hi := by
      have hslotted : Slotted zigzag (some size) lo hi ↔ (size≠8 → Fitting zigzag size lo hi) := by
        simp [Slotted]
      have hsame := h.fits size rfl
      rw [hslotted,Classical.not_imp,Bool.not_eq_true']
      refine and_congr_right fun h8 => ?_
      rw [←hsame h8,Bool.not_eq_true]
    rw [castPlan,hb.itemsize]
    by_cases hf : Slotted zigzag (some size) lo hi
    · have hreceives := holds_receives hb hs hsize hf
      rw [if_neg (by rw [hfits]; exact not_not_intro hf),arrayPlan,hreceives.view]
      exact hplan (some (.buffer b,0)) _ hf
    · rw [if_pos (hfits.mpr hf),arrayPlan,arrayView_unfit hb hsize hf]

/-- Where the casts lose nothing the compiled engine reads every array as it is declared. -/
theorem meets_of_faithful (swar : Bool)
    (hslot : ∀ size, slot=some size → size=1 ∨ size=2 ∨ size=4 ∨ size=8)
    (hlo : ∀ l, lo=some l → InDomain zigzag l) (hhi : ∀ h, hi=some h → InDomain zigzag h)
    (h : Faithful zigzag slot lo hi) : Meets (visitVarints swar) zigzag slot lo hi := by
  intro V c v fid count dst p d raws tail hd hpos hq hp hcap hans hdst hel hend
  have hrun := visitVarints_cast swar hd hpos hq hp hcap hans hdst hslot hlo hhi h.castable
  obtain ⟨-,hdeclared⟩ := plan_declared c v fid
    ((arrayOffer c v fid (varrayType zigzag) count).1.foldl Store.call d.store) hslot hp hcap hdst
    hel hend
  rw [castPlan_read h hp hcap hdst hslot] at hrun
  exact ⟨_,hdeclared,hrun⟩

end Compiled

/-- A handler that answers every integer array alike. -/
def answering (dst : Option Dst) (lo hi : Option ℤ) : Config Unit :=
  { hooks := fun _ => {onArrayBegin := some fun _ _ _ => some (dst,lo,hi)}, visitor := some () }

/-- A buffer of one item. -/
def oneItem (zigzag : Bool) (size : ℕ) : Dst :=
  {base := 0, itemsize := size, nbytes := size, signed := zigzag}

/-- A decoder before an array of one element, all of it there. -/
def beforeOne (zigzag : Bool) (raw : ℕ) : Dec Unit :=
  { (Dec.fresh listener [] blank).over (Varint.encode raw) with
    pending := some (.varray zigzag 1) }

/-- How a read ends: well, or in an exception of a class. -/
def ended (r : EStateM.Result Exn (Dec V) Unit) : Option ExnClass :=
  match r with
  | .ok .. => none
  | .error e _ => some e.cls

/-- How a reading ends. -/
def endedReading : Reading V → Option ExnClass
  | .done .. => none
  | .more _ => some .incomplete
  | .bad why _ => some why.cls

/-- How an array of one element ends as it is declared. -/
inductive DeclaredOne (zigzag : Bool) (slot : Option ℕ) (lo hi : Option ℤ) (raw : ℕ) :
    Option ExnClass → Prop
  /-- The declared width does not fit the items. -/
  | refused (hf : ¬Slotted zigzag slot lo hi) : DeclaredOne zigzag slot lo hi raw (some .argument)
  /-- The element is outside the declared width. -/
  | outside (hf : Slotted zigzag slot lo hi) (ho : ¬Admits lo hi (element zigzag raw)) :
      DeclaredOne zigzag slot lo hi raw (some .decode)
  /-- The element is inside the declared width. -/
  | inside (hf : Slotted zigzag slot lo hi) (ha : Admits lo hi (element zigzag raw)) :
      DeclaredOne zigzag slot lo hi raw none

/-- The compiled engine refuses the items' width. -/
def Unfit (zigzag : Bool) (slot : Option ℕ) (lo hi : Option ℤ) : Prop :=
  ∃ size, slot=some size ∧ size≠8 ∧
    ¬widthFits size zigzag (lo.isSome || hi.isSome) (castLo lo) (castHi hi)=true

/-- How an array of one element ends under sides that were cast. -/
inductive CastOne (zigzag : Bool) (slot : Option ℕ) (lo hi : Option ℤ) (raw : ℕ) :
    Option ExnClass → Prop
  /-- The cast width does not fit the items. -/
  | refused (hf : Unfit zigzag slot lo hi) : CastOne zigzag slot lo hi raw (some .argument)
  /-- The element is outside the sides that were cast. -/
  | outside (hf : ¬Unfit zigzag slot lo hi)
      (ho : (castBound zigzag slot.isSome lo hi).outside (element zigzag raw)=true) :
      CastOne zigzag slot lo hi raw (some .decode)
  /-- The element is inside the sides that were cast. -/
  | inside {o : Option ExnClass} (hf : ¬Unfit zigzag slot lo hi)
      (ha : (castBound zigzag slot.isSome lo hi).outside (element zigzag raw)=false)
      (hdecode : o≠some .decode) (hargument : o≠some .argument) : CastOne zigzag slot lo hi raw o

section Sample

variable {zigzag : Bool} {slot : Option ℕ} {lo hi : Option ℤ} {raw : ℕ} {dst : Option Dst}
variable {s : Store Unit}

/-- A read ends as its reading does. -/
theorem ended_reads {r : EStateM.Result Exn (Dec V) Unit} {d : Dec V} {p : Pending} {rd : Reading V}
    (h : ReadEnds r d p rd) : ended r=endedReading rd := by
  cases rd with
  | done s rest =>
    obtain ⟨k,rfl⟩ := h
    rfl
  | more s =>
    obtain ⟨msg,k,rfl⟩ := h
    rfl
  | bad why s =>
    obtain ⟨-,d',rfl,-⟩ := h
    rfl

/-- One element comes to what is declared. -/
theorem declared_one {rd : Reading Unit} (h : AsDeclared (answering dst lo hi) () 0 1 zigzag slot dst
    lo hi [raw] [] s rd) : DeclaredOne zigzag slot lo hi raw (endedReading rd) := by
  cases h with
  | @refused why hw hf =>
    rw [endedReading,hw]
    exact .refused hf
  | @outside σ r hf hraw ho =>
    obtain rfl := List.mem_singleton.mp hraw
    exact .outside hf ho
  | waits hf ha hn => exact absurd hn (Nat.lt_irrefl 1)
  | listed hdst hf ha hn => exact .inside hf (ha raw List.mem_cons_self)
  | stored hdst hf ha hn hfill => exact .inside hf (ha raw List.mem_cons_self)

/-- One element under a plan: it is outside, or it is delivered or stored. -/
theorem elements_one (zigzag : Bool) (hraw : raw < 2^64) (c : Config V) (bound : Bound) (into : Option (Sink × ℕ))
    {k : List ℤ → Effect V} (hk : ∀ xs, (k xs).Calm) (s : Store V) :
    (bound.outside (element zigzag raw)=true ∧ endedReading
        ((Plan.elements 1 bound zigzag into k).read c s (Varint.encode raw))=some .decode) ∨
      (bound.outside (element zigzag raw)=false ∧
        endedReading ((Plan.elements 1 bound zigzag into k).read c s (Varint.encode raw))≠
          some .decode ∧
        endedReading ((Plan.elements 1 bound zigzag into k).read c s (Varint.encode raw))≠
          some .argument) := by
  have hread : Varint.read overlong (Varint.encode raw)=.done raw [] := by
    have henc := Varint.read_encode overlong hraw []
    rwa [List.append_nil] at henc
  cases ho : bound.outside (element zigzag raw) with
  | true =>
    have hscan : scan bound zigzag 1 (Varint.encode raw)=([],.bad outsideWidth) := by
      rw [scan,hread]
      simp [ho]
    have hfill : fillFrom c into 0 [] s=(s,none) := rfl
    rw [read_scanned hscan hfill]
    exact .inl ⟨rfl,rfl⟩
  | false =>
    have hscan : scan bound zigzag 1 (Varint.encode raw)=([element zigzag raw],.done []) := by
      rw [scan,hread]
      simp [ho,scan]
    refine .inr ⟨rfl,?_⟩
    rcases hfill : fillFrom c into 0 [element zigzag raw] s with ⟨σ,e⟩
    cases e with
    | none =>
      rw [read_scanned hscan hfill]
      dsimp only
      rw [(hk _).eq]
      simp [Reading.of,endedReading]
    | some e =>
      rw [read_unstored hscan hfill]
      rcases fillFrom_error hfill with rfl | rfl
      · simp [endedReading,Exn.cls]
      · simp [endedReading,Exn.cls]

/-- One element comes to what the cast plan makes of it. -/
theorem castPlan_one (hraw : raw < 2^64) (lo hi hi' : Option ℤ) (s : Store Unit) :
    CastOne zigzag slot lo hi' raw (endedReading ((castPlan
      (answering (slot.map (oneItem zigzag)) lo hi) () 0 1 zigzag lo hi'
      (slot.map (oneItem zigzag))).read (answering (slot.map (oneItem zigzag)) lo hi) s
      (Varint.encode raw))) := by
  cases slot with
  | none =>
    have hfit : ¬Unfit zigzag none lo hi' := by simp [Unfit]
    have hcalm : ∀ xs, (Effect.deliver (answering none lo hi) () 0
        (if zigzag then .signedArray xs else .unsignedArray xs)).Calm := fun xs s => rfl
    have hone := elements_one zigzag hraw (answering none lo hi) (castBound zigzag false lo hi') none
      hcalm s
    rcases hone with ⟨ho,hcls⟩ | ⟨ha,hdecode,hargument⟩
    · rw [Option.map_none,castPlan,hcls]
      exact .outside hfit ho
    · exact .inside hfit ha hdecode hargument
  | some size =>
    have hunfit : Unfit zigzag (some size) lo hi' ↔ (size≠8 ∧
        !widthFits size zigzag (lo.isSome || hi'.isSome) (castLo lo) (castHi hi')) := by
      simp [Unfit]
    rw [Option.map_some,castPlan]
    by_cases hw : (oneItem zigzag size).itemsize≠8 ∧ !widthFits (oneItem zigzag size).itemsize zigzag
        (lo.isSome || hi'.isSome) (castLo lo) (castHi hi')
    · rw [if_pos hw]
      exact .refused (hunfit.mpr hw)
    · have hfit : ¬Unfit zigzag (some size) lo hi' := by
        rw [hunfit]
        exact hw
      have hone := elements_one zigzag hraw (answering (some (oneItem zigzag size)) lo hi)
        (castBound zigzag true lo hi') (some (.buffer (oneItem zigzag size),0))
        (fun _ => calm_done) s
      rw [if_neg hw]
      rcases hone with ⟨ho,hcls⟩ | ⟨ha,hdecode,hargument⟩
      · rw [hcls]
        exact .outside hfit ho
      · exact .inside hfit ha hdecode hargument

/-- Sides that cannot be cast raise. -/
theorem varintsInto_overflow (swar : Bool) (b : Dst) (count : ℕ) (zigzag : Bool) {lo hi : Option ℤ}
    (h : ¬Castable lo hi) (d : Dec V) :
    varintsInto swar b count zigzag lo hi d=.error .overflow d := by
  have hlo : (∀ l, lo=some l → -2^63 ≤ l ∧ l < 2^63) ∨ fillLo lo=.error .overflow := by
    cases lo with
    | none => exact .inl (by simp)
    | some l =>
      by_cases hl : -2^63 ≤ l ∧ l < 2^63
      · exact .inl (by simpa using hl)
      · exact .inr (if_neg hl)
  have hhi : (∀ x, hi=some x → 0 ≤ x ∧ x < 2^64) ∨ fillHi hi=.error .overflow := by
    cases hi with
    | none => exact .inl (by simp)
    | some x =>
      by_cases hx : 0 ≤ x ∧ x < 2^64
      · exact .inl (by simpa using hx)
      · exact .inr (if_neg hx)
  rcases hlo with hlo | hlo
  · rcases hhi with hhi | hhi
    · exact absurd ⟨hlo,hhi⟩ h
    · obtain ⟨x,hx⟩ : ∃ x, fillLo lo=.ok x := by
        cases lo with
        | none => exact ⟨_,rfl⟩
        | some l => exact ⟨_,asInt64_ok (hlo l rfl)⟩
      rw [varintsInto,hx,hhi]
      rfl
  · rw [varintsInto,hlo]
    rfl

/-- A buffer of one item has room for one element. -/
theorem oneItem_suffices (zigzag : Bool) (slot : Option ℕ) :
    Suffices zigzag 1 slot (slot.map (oneItem zigzag)) := by
  cases slot with
  | none => exact .list
  | some size => exact .items ⟨rfl,rfl,(Nat.one_mul size).le⟩ rfl

/-- What an engine that reads as declared makes of one element. -/
theorem meets_one {visit : ∀ {V : Type}, Config V → V → ℕ → WireType → Pending → ℕ → Bool →
      DecM V Unit} (h : Meets visit zigzag slot lo hi) (hraw : raw < 2^64) :
    DeclaredOne zigzag slot lo hi raw (ended (visit (answering (slot.map (oneItem zigzag)) lo hi) () 0
      (varrayType zigzag) (.varray zigzag 1) 1 zigzag (beforeOne zigzag raw))) := by
  have hspelled : Varint.SpellsAll (Varint.encode raw) [raw] := by
    have hall : Varint.SpellsAll ([raw].flatMap Varint.encode) [raw] :=
      Varint.spellsAll_encode (by simpa using hraw)
    simpa using hall
  have hrest : (beforeOne zigzag raw).rest=Varint.encode raw := List.take_length
  have hel : Elements none none zigzag (beforeOne zigzag raw).rest [raw] [] := by
    rw [hrest]
    exact ⟨⟨_,hspelled,(List.append_nil _).symm⟩,by simp [Admits]⟩
  obtain ⟨rd,hdeclared,hreads⟩ := h (answering (slot.map (oneItem zigzag)) lo hi) () 0 1
    (slot.map (oneItem zigzag)) (.varray zigzag 1) (beforeOne zigzag raw) [raw] [] (Nat.le_refl _)
    (Nat.zero_le _) rfl rfl (fun _ => rfl) rfl (oneItem_suffices zigzag slot) hel (.inl rfl)
  rw [ended_reads hreads]
  exact declared_one hdeclared

/-- What the compiled engine makes of one element, where the sides can be cast. -/
theorem compiled_one (swar : Bool) (hraw : raw < 2^64)
    (hslot : ∀ size, slot=some size → size=1 ∨ size=2 ∨ size=4 ∨ size=8)
    (hlo : ∀ l, lo=some l → InDomain zigzag l) (hhi : ∀ h, hi=some h → InDomain zigzag h)
    (hcast : slot.isSome → Castable lo (wordHi hi)) :
    CastOne zigzag slot lo (wordHi hi) raw (ended (visitVarints swar
      (answering (slot.map (oneItem zigzag)) lo hi) () 0 (varrayType zigzag) (.varray zigzag 1) 1
      zigzag (beforeOne zigzag raw))) := by
  have hans : (arrayOffer (answering (slot.map (oneItem zigzag)) lo hi) () 0 (varrayType zigzag) 1).2=
    (slot.map (oneItem zigzag),lo,hi) := rfl
  have hreads := visitVarints_cast (d:=beforeOne zigzag raw) (p:=.varray zigzag 1) swar
    (Nat.le_refl _) (Nat.zero_le _) rfl rfl (fun _ => rfl) hans (oneItem_suffices zigzag slot) hslot
    hlo hhi hcast
  have hrest : (beforeOne zigzag raw).rest=Varint.encode raw := List.take_length
  rw [hrest] at hreads
  rw [ended_reads hreads]
  exact castPlan_one hraw lo hi (wordHi hi) _

/-- An engine that reads as declared casts its sides without loss. -/
theorem faithful_of_meets (swar : Bool)
    (hslot : ∀ size, slot=some size → size=1 ∨ size=2 ∨ size=4 ∨ size=8)
    (hlo : ∀ l, lo=some l → InDomain zigzag l) (hhi : ∀ h, hi=some h → InDomain zigzag h)
    (h : Meets (visitVarints swar) zigzag slot lo hi) : Faithful zigzag slot lo hi := by
  have hcast : slot.isSome → Castable lo (wordHi hi) := by
    intro hsome
    obtain ⟨size,rfl⟩ := Option.isSome_iff_exists.mp hsome
    by_contra hno
    have hone := meets_one h (show 0 < 2^64 by decide)
    have hover : ∀ d : Dec Unit, varintsInto swar (oneItem zigzag size) 1 zigzag lo (wordHi hi) d=
      .error .overflow d := varintsInto_overflow swar _ 1 zigzag hno
    have hended : ended (visitVarints swar (answering ((some size).map (oneItem zigzag)) lo hi) () 0
        (varrayType zigzag) (.varray zigzag 1) 1 zigzag (beforeOne zigzag 0))=some .overflow := by
      show ended (varintsInto swar (oneItem zigzag size) 1 zigzag lo (wordHi hi) _)=_
      rw [hover]
      rfl
    rw [hended] at hone
    cases hone
  have hone : ∀ raw < 2^64, ∃ o, CastOne zigzag slot lo (wordHi hi) raw o ∧
      DeclaredOne zigzag slot lo hi raw o := fun raw hraw =>
    ⟨_,compiled_one swar hraw hslot hlo hhi hcast,meets_one h hraw⟩
  refine ⟨hcast,?_,?_⟩
  · rintro size rfl h8
    obtain ⟨o,hcompiled,hdeclared⟩ := hone 0 (by decide)
    have hunfit : Unfit zigzag (some size) lo (wordHi hi) ↔ ¬widthFits size zigzag
        (lo.isSome || (wordHi hi).isSome) (castLo lo) (castHi (wordHi hi))=true := by
      simp [Unfit,h8]
    have hslotted : Slotted zigzag (some size) lo hi ↔ Fitting zigzag size lo hi := by
      simp [Slotted,h8]
    rw [←hslotted,←not_iff_not,←hunfit]
    cases hdeclared with
    | refused hno =>
      cases hcompiled with
      | refused hu => exact ⟨fun _ => hno,fun _ => hu⟩
      | inside _ _ _ hargument => exact absurd rfl hargument
    | outside hf ho =>
      cases hcompiled with
      | outside hu _ => exact ⟨fun h => absurd h hu,fun h => absurd hf h⟩
      | inside _ _ hdecode _ => exact absurd rfl hdecode
    | inside hf ha =>
      cases hcompiled with
      | inside hu _ _ _ => exact ⟨fun h => absurd h hu,fun h => absurd hf h⟩
  · intro hf raw hraw
    obtain ⟨o,hcompiled,hdeclared⟩ := hone raw hraw
    cases hdeclared with
    | refused hno => exact absurd hf hno
    | outside _ ho =>
      cases hcompiled with
      | outside _ hout => simp [hout,ho]
      | inside _ _ hdecode _ => exact absurd rfl hdecode
    | inside _ ha =>
      cases hcompiled with
      | inside _ hin _ _ => simp [hin,ha]

end Sample

/-- The compiled engine compares unsigned words with their upper side only, which has to be a
signed word to be kept. -/
def UpperOnly (lo hi : Option ℤ) : Prop :=
  (∀ l, lo=some l → l=0) ∧ ∀ h, hi=some h → h < 2^63 ∨ h=2^64-1

/-- The answers the compiled engine's casts keep. -/
def Kept (zigzag : Bool) (slot : Option ℕ) (lo hi : Option ℤ) : Prop :=
  match slot,zigzag with
  | none,true => True
  | none,false => UpperOnly lo hi
  | some size,false =>
    if size=8 then UpperOnly lo hi
    else (∀ l, lo=some l → l < 2^63) ∧ (Fitting false size lo hi → ∀ l, lo=some l → l=0)
  | some size,true =>
    if size=8 then (lo=none ∧ hi=none) ∨ ∃ h, hi=some h ∧ 0 ≤ h
    else (∀ h, hi=some h → 0 ≤ h) ∧ (hi=none → ∀ l, lo=some l → l < (itemRange true size).1)

section Unsigned

variable {slot : Option ℕ} {lo hi : Option ℤ} {size : ℕ}

/-- An unsigned element passes under its upper side. -/
theorem castBound_unsigned (stored : Bool) (lo hi : Option ℤ) (raw : ℕ) :
    (castBound false stored lo hi).outside (element false raw)=false ↔
      ∀ h, hi=some h → (raw : ℤ) ≤ h := by
  rw [element_unsigned]
  cases hi with
  | none => simp [castBound,Bound.outside]
  | some h => simp [castBound,Bound.outside]

/-- Unsigned elements are judged as declared exactly where the upper side is all there is. -/
theorem unsigned_outside (stored : Bool) (hlo : ∀ l, lo=some l → InDomain false l)
    (hhi : ∀ h, hi=some h → InDomain false h) :
    (∀ raw < 2^64, ((castBound false stored lo (wordHi hi)).outside (element false raw)=false ↔
      Admits lo hi (element false raw))) ↔ UpperOnly lo hi := by
  constructor
  · intro h
    constructor
    · intro l hl
      have hdom : 0 ≤ l ∧ l < 2^64 := hlo l hl
      have hpass : ∀ h, wordHi hi=some h → ((0 : ℕ) : ℤ) ≤ h := fun h hh =>
        (hhi h (wordHi_some.mp hh).1).1
      have hadmits := (h 0 (by decide)).mp ((castBound_unsigned stored lo (wordHi hi) 0).mpr hpass)
      have hle : l ≤ ((0 : ℕ) : ℤ) := hadmits.1 l hl
      omega
    · intro x hx
      have hdom : 0 ≤ x ∧ x < 2^64 := hhi x hx
      by_contra hno
      have hpass : ∀ h, wordHi hi=some h → ((2^64-1 : ℕ) : ℤ) ≤ h := by
        intro h hh
        obtain ⟨hh,hlt⟩ := wordHi_some.mp hh
        rw [hx] at hh
        cases hh
        omega
      have hadmits := (h (2^64-1) (by decide)).mp
        ((castBound_unsigned stored lo (wordHi hi) (2^64-1)).mpr hpass)
      have hle : ((2^64-1 : ℕ) : ℤ) ≤ x := hadmits.2 x hx
      omega
  · rintro ⟨hlow,hupper⟩ raw hraw
    rw [castBound_unsigned,element_unsigned,Admits]
    constructor
    · intro hpass
      refine ⟨fun l hl => ?_,fun x hx => ?_⟩
      · rw [hlow l hl]
        exact Int.natCast_nonneg raw
      · rcases hupper x hx with hlt | rfl
        · exact hpass x (wordHi_some.mpr ⟨hx,hlt⟩)
        · omega
    · rintro ⟨-,hle⟩ h hh
      exact hle h (wordHi_some.mp hh).1

/-- Items of less than eight bytes are refused as declared where the sides can be cast. -/
theorem unsigned_fits (hsize : size=1 ∨ size=2 ∨ size=4) (hc : Castable lo (wordHi hi)) :
    widthFits size false (lo.isSome || (wordHi hi).isSome) (castLo lo) (castHi (wordHi hi))=true ↔
      Fitting false size lo hi := by
  have hmax : (itemRange false size).2 < 2^63 := by
    rcases hsize with rfl | rfl | rfl <;> decide
  rw [widthFits_cast hsize hc fun h hh => (wordHi_some.mp hh).2,Fitting]
  simp only [Bool.false_eq_true,if_false,false_implies,and_true]
  constructor
  · rintro ⟨-,hle⟩
    cases hw : wordHi hi with
    | none =>
      rw [hw,Option.getD_none] at hle
      omega
    | some h =>
      rw [hw,Option.getD_some] at hle
      exact ⟨h,(wordHi_some.mp hw).1,hle⟩
  · rintro ⟨h,hh,hle⟩
    have hw : wordHi hi=some h := wordHi_some.mpr ⟨hh,by omega⟩
    simpa [hw] using hle

/-- The casts of unsigned sides lose nothing exactly where they are kept. -/
theorem faithful_unsigned (hslot : ∀ size, slot=some size → size=1 ∨ size=2 ∨ size=4 ∨ size=8)
    (hlo : ∀ l, lo=some l → InDomain false l) (hhi : ∀ h, hi=some h → InDomain false h) :
    Faithful false slot lo hi ↔ Kept false slot lo hi := by
  cases slot with
  | none =>
    have hf : Slotted false none lo hi := by simp [Slotted]
    constructor
    · intro h
      exact (unsigned_outside false hlo hhi).mp (h.outside hf)
    · intro h
      exact ⟨by simp,by simp,fun _ => (unsigned_outside false hlo hhi).mpr h⟩
  | some size =>
    have hsize := hslot size rfl
    have hcast : (∀ l, lo=some l → l < 2^63) → Castable lo (wordHi hi) := by
      intro hlt
      refine ⟨fun l hl => ?_,fun h hh => hhi h (wordHi_some.mp hh).1⟩
      have hdom : 0 ≤ l ∧ l < 2^64 := hlo l hl
      have hltl := hlt l hl
      omega
    by_cases h8 : size=8
    · subst h8
      have hf : Slotted false (some 8) lo hi := by simp [Slotted]
      constructor
      · intro h
        exact (unsigned_outside true hlo hhi).mp (h.outside hf)
      · intro h
        have hkept : UpperOnly lo hi := h
        refine ⟨fun _ => hcast fun l hl => ?_,by simp,fun _ =>
          (unsigned_outside true hlo hhi).mpr hkept⟩
        rw [hkept.1 l hl]
        decide
    · have hsmall : size=1 ∨ size=2 ∨ size=4 := by omega
      have hslotted : Slotted false (some size) lo hi ↔ Fitting false size lo hi := by
        simp [Slotted,h8]
      have hmax : (itemRange false size).2 < 2^63 := by
        rcases hsmall with rfl | rfl | rfl <;> decide
      have hupper : Fitting false size lo hi → ((∀ l, lo=some l → l=0) ↔ UpperOnly lo hi) := by
        rintro ⟨⟨x,hx,hle⟩,-⟩
        refine ⟨fun h => ⟨h,fun y hy => ?_⟩,fun h => h.1⟩
        rw [hx] at hy
        cases hy
        omega
      rw [Kept,if_neg h8]
      constructor
      · intro h
        refine ⟨fun l hl => ((h.castable rfl).lo l hl).2,fun hfit => (hupper hfit).mpr ?_⟩
        exact (unsigned_outside true hlo hhi).mp (h.outside (hslotted.mpr hfit))
      · rintro ⟨hlt,hzero⟩
        refine ⟨fun _ => hcast hlt,?_,fun hf => ?_⟩
        · rintro _ ⟨⟩ -
          exact unsigned_fits hsmall (hcast hlt)
        · have hfit := hslotted.mp hf
          exact (unsigned_outside true hlo hhi).mpr ((hupper hfit).mp (hzero hfit))

end Unsigned

section Signed

variable {slot : Option ℕ} {lo hi : Option ℤ} {size : ℕ}

/-- A signed side is a signed word already. -/
theorem wordHi_signed (hhi : ∀ h, hi=some h → InDomain true h) : wordHi hi=hi := by
  cases hi with
  | none => rfl
  | some h => exact wordHi_some.mpr ⟨rfl,(hhi h rfl).2⟩

/-- A signed element passes between its sides, one of which may be open. -/
theorem castBound_signed (stored : Bool) (lo hi : Option ℤ) (x : ℤ) :
    (castBound true stored lo hi).outside x=false ↔ (lo=none ∧ hi=none) ∨
      (lo.getD (-2^63) ≤ x ∧ x ≤ hi.getD (if stored then -1 else 2^63-1)) := by
  cases lo with
  | none =>
    cases hi with
    | none => simp [castBound,Bound.outside]
    | some h => simp [castBound,Bound.outside]
  | some l => simp [castBound,Bound.outside]

/-- In a list the open sides are the ends of the domain. -/
theorem signed_listed {x : ℤ} (hx : -2^63 ≤ x ∧ x < 2^63) :
    (castBound true false lo hi).outside x=false ↔ Admits lo hi x := by
  rw [castBound_signed,Admits]
  cases lo with
  | none =>
    cases hi with
    | none => simp
    | some h =>
      simp
      omega
  | some l =>
    cases hi with
    | none =>
      simp
      omega
    | some h => simp

/-- In a buffer an open upper side is only harmless where nothing is declared. -/
theorem signed_stored {x : ℤ} (hx : -2^63 ≤ x) (h : (lo=none ∧ hi=none) ∨ hi.isSome) :
    (castBound true true lo hi).outside x=false ↔ Admits lo hi x := by
  rw [castBound_signed,Admits]
  rcases h with ⟨rfl,rfl⟩ | h
  · simp
  · obtain ⟨y,rfl⟩ := Option.isSome_iff_exists.mp h
    cases lo with
    | none =>
      simp
      omega
    | some l => simp

/-- Under a lower side alone a buffer takes nothing that is not negative. -/
theorem signed_open {l : ℤ} (hl : -2^63 ≤ l ∧ l < 2^63) :
    ∃ raw < 2^64, (castBound true true (some l) none).outside (element true raw)=true ∧
      Admits (some l) none (element true raw) := by
  have hmax : -2^63 ≤ max l 0 ∧ max l 0 < 2^63 := by omega
  have hback : element true (Zigzag.encode (max l 0))=max l 0 :=
    Zigzag.decode_encode hmax.1 hmax.2
  refine ⟨Zigzag.encode (max l 0),Zigzag.encode_lt _,?_,?_⟩
  · rw [hback,←Bool.not_eq_false,castBound_signed]
    simp
  · rw [hback]
    simp [Admits]

/-- Items of less than eight bytes are refused as declared exactly where an open upper side comes
with a lower side that is below all they hold. -/
theorem signed_fits (hsize : size=1 ∨ size=2 ∨ size=4) (hc : Castable lo hi)
    (hhi : ∀ h, hi=some h → InDomain true h) :
    (widthFits size true (lo.isSome || hi.isSome) (castLo lo) (castHi hi)=true ↔
      Fitting true size lo hi) ↔ (hi=none → ∀ l, lo=some l → l < (itemRange true size).1) := by
  have hmin : -2^63 < (itemRange true size).1 := by
    rcases hsize with rfl | rfl | rfl <;> decide
  have hmax : -1 ≤ (itemRange true size).2 := by
    rcases hsize with rfl | rfl | rfl <;> decide
  rw [widthFits_cast hsize hc fun h hh => (hhi h hh).2,Fitting]
  cases lo with
  | none =>
    cases hi with
    | none => simp
    | some h =>
      simp
      omega
  | some l =>
    cases hi with
    | none =>
      simp
      omega
    | some h =>
      simp
      omega

/-- The casts of signed sides lose nothing exactly where they are kept. -/
theorem faithful_signed (hslot : ∀ size, slot=some size → size=1 ∨ size=2 ∨ size=4 ∨ size=8)
    (hlo : ∀ l, lo=some l → InDomain true l) (hhi : ∀ h, hi=some h → InDomain true h) :
    Faithful true slot lo hi ↔ Kept true slot lo hi := by
  have hword := wordHi_signed hhi
  have hcast : (∀ h, hi=some h → 0 ≤ h) → Castable lo hi := by
    intro hpos
    refine ⟨hlo,fun h hh => ⟨hpos h hh,?_⟩⟩
    have hlt : h < 2^63 := (hhi h hh).2
    omega
  cases slot with
  | none =>
    refine ⟨fun _ => trivial,fun _ => ⟨by simp,by simp,fun _ raw hraw => ?_⟩⟩
    rw [hword]
    exact signed_listed (element_signed hraw)
  | some size =>
    have hsize := hslot size rfl
    by_cases h8 : size=8
    · subst h8
      have hf : Slotted true (some 8) lo hi := by simp [Slotted]
      constructor
      · intro h
        have hcastable := h.castable rfl
        have hout := h.outside hf
        rw [hword] at hcastable hout
        show (lo=none ∧ hi=none) ∨ ∃ h, hi=some h ∧ 0 ≤ h
        cases hi with
        | none =>
          cases lo with
          | none => exact .inl ⟨rfl,rfl⟩
          | some l =>
            obtain ⟨raw,hraw,ho,ha⟩ := signed_open (hlo l rfl)
            have hin := (hout raw hraw).mpr ha
            rw [Option.isSome_some,ho] at hin
            cases hin
        | some x => exact .inr ⟨x,rfl,(hcastable.hi x rfl).1⟩
      · intro h
        have hkept : (lo=none ∧ hi=none) ∨ ∃ h, hi=some h ∧ 0 ≤ h := h
        have hopen : (lo=none ∧ hi=none) ∨ hi.isSome := by
          rcases hkept with hnone | ⟨x,hx,-⟩
          · exact .inl hnone
          · exact .inr (by simp [hx])
        refine ⟨fun _ => ?_,by simp,fun _ raw hraw => ?_⟩
        · rw [hword]
          refine hcast fun x hx => ?_
          rcases hkept with ⟨-,hnone⟩ | ⟨y,hy,hpos⟩
          · rw [hnone] at hx
            cases hx
          · rw [hy] at hx
            cases hx
            exact hpos
        · rw [hword]
          exact signed_stored (element_signed hraw).1 hopen
    · have hsmall : size=1 ∨ size=2 ∨ size=4 := by omega
      rw [Kept,if_neg h8]
      constructor
      · intro h
        have hcastable := h.castable rfl
        have hfits := h.fits size rfl h8
        rw [hword] at hcastable hfits
        exact ⟨fun x hx => (hcastable.hi x hx).1,(signed_fits hsmall hcastable hhi).mp hfits⟩
      · rintro ⟨hpos,hopen⟩
        have hcastable := hcast hpos
        refine ⟨fun _ => ?_,?_,fun hf raw hraw => ?_⟩
        · rw [hword]
          exact hcastable
        · rintro _ ⟨⟩ -
          rw [hword]
          exact (signed_fits hsmall hcastable hhi).mpr hopen
        · obtain ⟨⟨x,hx,-⟩,-⟩ := hf size rfl h8
          rw [hword]
          exact signed_stored (element_signed hraw).1 (.inr (by simp [hx]))

end Signed

/-- Declared widths: the interpreted engine applies every answer's as it is, a list and a buffer
alike, and the compiled one exactly those its casts keep. -/
theorem visitVarints_declared (swar zigzag : Bool) (slot : Option ℕ) (lo hi : Option ℤ)
    (hslot : ∀ size, slot=some size → size=1 ∨ size=2 ∨ size=4 ∨ size=8)
    (hlo : ∀ l, lo=some l → InDomain zigzag l) (hhi : ∀ h, hi=some h → InDomain zigzag h) :
    Meets SofaBuffers.visitVarints zigzag slot lo hi ∧
      (Meets (visitVarints swar) zigzag slot lo hi ↔ Kept zigzag slot lo hi) := by
  have hiff : Faithful zigzag slot lo hi ↔ Kept zigzag slot lo hi := by
    cases zigzag with
    | false => exact faithful_unsigned hslot hlo hhi
    | true => exact faithful_signed hslot hlo hhi
  refine ⟨visitVarints_meets hslot,?_⟩
  rw [←hiff]
  exact ⟨faithful_of_meets swar hslot hlo hhi,meets_of_faithful swar hslot hlo hhi⟩

/-- Four-byte items under a width of two sides. -/
theorem visitVarints_declared_items :
    Meets SofaBuffers.visitVarints true (some 4) (some (-100)) (some 100) ∧
      (Meets (visitVarints true) true (some 4) (some (-100)) (some 100) ↔
        Kept true (some 4) (some (-100)) (some 100)) :=
  visitVarints_declared true true (some 4) (some (-100)) (some 100) (by simp)
    (by simp [InDomain]) (by simp [InDomain])

/-- A handler declares that unsigned elements are at least five: an array of a three is malformed in
the interpreted engine, and delivered by the compiled one. -/
theorem visitVarints_below :
    ended (SofaBuffers.visitVarints (answering none (some 5) none) () 0 .arrayUnsigned
        (.varray false 1) 1 false (beforeOne false 3))=some .decode ∧
      ended (visitVarints true (answering none (some 5) none) () 0 .arrayUnsigned (.varray false 1) 1
        false (beforeOne false 3))=none ∧ ¬Meets (visitVarints true) false none (some 5) none := by
  have hrun : ended (visitVarints true (answering none (some 5) none) () 0 .arrayUnsigned
      (.varray false 1) 1 false (beforeOne false 3))=none := by decide +kernel
  refine ⟨by decide +kernel,hrun,fun h => ?_⟩
  have hone : DeclaredOne false none (some 5) none 3 (ended (visitVarints true
      (answering none (some 5) none) () 0 .arrayUnsigned (.varray false 1) 1 false
      (beforeOne false 3))) := meets_one h (show 3 < 2^64 by decide)
  rw [hrun] at hone
  cases hone with
  | inside _ ha => exact absurd (ha.1 5 rfl) (by decide)

end Native

end SofaBuffers
