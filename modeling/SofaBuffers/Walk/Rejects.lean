import Mathlib.Data.List.TakeWhile
import SofaBuffers.Walk.Plain
import SofaBuffers.Walk.Caps
import SofaBuffers.Walk.Widths

/-!
# What a value is rejected for

A value of a message is rejected for a receiver's cap, for a declared bound or for
a declared width, or by the handler it is given to. A verdict on a whole value is
one of these, whoever reads it, and the value is read without a look at what was
called before.
-/

set_option autoImplicit false

namespace SofaBuffers

variable {V : Type}

/-- The integers a value carries. -/
def Datum.integers : Datum → List ℤ
  | .scalar signed raw => [element signed raw]
  | .varray signed raws => raws.map (element signed)
  | _ => []

/-- The width a row declares for its integers. -/
def Entry.width (e : Entry) : Option ℤ × Option ℤ :=
  match e.kind,e.elemBounded with
  | .unsigned,true | .arrayUnsigned,true => (none,some e.elemHi)
  | .signed,true | .arraySigned,true => (some e.elemLo,some e.elemHi)
  | _,_ => (none,none)

/-- Who reads a value that is met in a scope. -/
def Scope.reader (c : Config V) (k : Scope V) (id : ℕ) (p : Pending) : Reader V :=
  match Walk.matched c k.table id p.tag.1 p.tag.2 with
  | some e => .row e
  | none =>
    if Walk.named c k.table id || k.table.any c.closed then .nobody
    else
      match k.visitor with
      | none => .nobody
      | some v => if (Walk.fieldOffer c v id p).2 then .handler v else .nobody

namespace Reader

variable (c : Config V) (id : ℕ) (x : Datum)

/-- The width declared for the integers of a value. -/
def width : Reader V → Option ℤ × Option ℤ
  | .nobody => (none,none)
  | .row e => e.width
  | .handler v =>
    match x with
    | .varray signed raws => (arrayOffer c v id (varrayType signed) raws.length).2.2
    | _ => (none,none)

/-- A cap, a declared bound or a declared width rejects a value, or the handler does that is
given it. -/
inductive Rejects : Reader V → Exn → Prop
  /-- Nothing is declared of it, the decoder builds it and it is longer than the cap. -/
  | cap {r : Reader V} {msg : String} (h : park c x.extent.pending=.limit msg x.extent.pending)
      (hd : r.declared c id x.extent.pending=none) (hb : r.builds c id x.extent.pending=true) :
      Rejects r (.limit msg)
  /-- It is longer than is declared. -/
  | bound {r : Reader V} {most : ℕ} {why : Exn} (h : r.declared c id x.extent.pending=some most)
      (hn : most < x.extent.pending.length) (hw : settled (some most) x.extent.pending=.error why) :
      Rejects r why
  /-- An integer of it is outside the declared width. -/
  | width {r : Reader V} {y : ℤ} {why : Exn} (hy : y ∈ x.integers)
      (h : ¬Admits (r.width c id x).1 (r.width c id x).2 y)
      (hw : why=outsideWidth ∨ why=.decode "value outside declared width") : Rejects r why
  /-- A typed hook raises on it. -/
  | refused {v : V} {y : Value} {r : Refusal} (h : (c.hooks v).onValue id y=some r) :
      Rejects (.handler v) r.toExn

end Reader

/-- A value nobody reads is not rejected. -/
theorem Reader.Rejects.read {c : Config V} {id : ℕ} {x : Datum} {r : Reader V} {why : Exn}
    (h : r.Rejects c id x why) : r≠.nobody := by
  rintro rfl
  cases h with
  | cap _ _ hb => cases hb
  | bound hd => cases hd
  | width _ hout => exact hout ⟨fun _ h => (by cases h),fun _ h => (by cases h)⟩

section Plans

variable {c : Config V} {k : Scope V} {id : ℕ} {x : Datum} {bs : List UInt8} {v : V} {p : Pending}

/-- An element is left out of an array for being outside its width. -/
theorem outside_of_within {b : Bound} {ys : List ℤ} (h : (b.within ys).length < ys.length) :
    ∃ y ∈ ys, b.outside y=true := by
  by_contra hall
  have hin : b.within ys=ys := by
    refine List.takeWhile_eq_self_iff.mpr fun y hy => ?_
    cases ho : b.outside y with
    | true => exact absurd ⟨y,hy,ho⟩ hall
    | false => rfl
  rw [hin] at h
  omega

/-- The integers of a value are of 64 bits. -/
theorem Body.admits (hb : Body x bs) {lo hi : Option ℤ} {signed : Bool} {raws : List ℕ}
    (hx : x=.varray signed raws)
    (h : ((Bound.of lo hi signed).within (raws.map (element signed))).length <
      (raws.map (element signed)).length) : ∃ y ∈ x.integers, ¬Admits lo hi y := by
  subst hx
  obtain ⟨y,hy,hout⟩ := outside_of_within h
  refine ⟨y,hy,fun hadm => ?_⟩
  obtain ⟨raw,hraw,rfl⟩ := List.mem_map.mp hy
  cases hb with
  | varray _ hs =>
    have hin := (outside_iff (hs.lt raw hraw)).mpr hadm
    rw [hin] at hout
    cases hout

/-- What is copied into a buffer is copied plainly. -/
theorem plain_bytes {P : Exn → Prop} {who what : String} {o : Obj} {n : ℕ}
    {k : Dst → List UInt8 → Effect V} {st : FixlenSubtype} {data : List UInt8}
    (hk : ∀ view, (k view data).Plain P) :
    ((bytesPlan (byteView who what o n) n k).take c (.fixlen st data)).Plain P := by
  cases hv : byteView who what o n with
  | error why =>
    have hcls := byteView_cls hv
    exact plain_fault (by rw [hcls]; decide) (by rw [hcls]; decide)
  | ok view => exact hk view

/-- What is done with the payload of an array is done plainly. -/
theorem plain_span {P : Exn → Prop} {n size m l : ℕ} {k : List UInt8 → Effect V}
    {st : FixlenSubtype} {data : List UInt8} (hk : (k data).Plain P) :
    ((Plan.span n size k).take c (.farray st m l data)).Plain P := by
  rw [Plan.span]
  split
  · exact plain_fault (by decide) (by decide)
  · exact hk

/-- The integers of an array are held to the declared width. -/
theorem plain_elements {r : Reader V} {signed : Bool} {raws : List ℕ} {n : ℕ}
    (hx : x=.varray signed raws) (hb : Body x bs) {lo hi : Option ℤ}
    (hwidth : r.width c id x=(lo,hi)) (into : Option (Sink × ℕ)) {f : List ℤ → Effect V}
    (hf : ∀ ys, (f ys).Plain (r.Rejects c id x)) :
    ((Plan.elements n (.of lo hi signed) signed into f).take c x).Plain (r.Rejects c id x) := by
  subst hx
  refine (plain_fillFrom into 0 _).andThen ?_
  split
  · next hlt =>
    obtain ⟨y,hy,hout⟩ := hb.admits rfl hlt
    exact plain_raise fun _ => .width hy (by rw [hwidth]; exact hout) (.inl rfl)
  · exact hf _

/-- What a typed hook refuses is a rejection. -/
theorem plain_handler (v : V) (y : Value) :
    (Effect.deliver c v id y).Plain ((Reader.handler v).Rejects c id x) :=
  plain_deliver (fun _ _ hr => .refused hr) y

/-- A string, a blob or a float is read plainly for a handler. -/
theorem plain_fixlen {st : FixlenSubtype} {data : List UInt8} (hx : x=.fixlen st data)
    (ht : x.Textual) (hcap : ∀ msg q, p=.limit msg q →
      (Reader.handler v).builds c id x.extent.pending=true →
        (Reader.handler v).Rejects c id x (.limit msg)) :
    ((fixlenPlan c v id p st data.length (fixlenOffer c v id st data.length).2).2.take c x).Plain
      ((Reader.handler v).Rejects c id x) := by
  have hdeliver : ∀ y, (Effect.deliver c v id y).Plain ((Reader.handler v).Rejects c id x) :=
    plain_handler v
  subst hx
  cases hdst : (fixlenOffer c v id st data.length).2 with
  | some dst =>
    rw [fixlenPlan]
    split
    · next hst =>
      subst hst
      exact plain_bytes fun view => plain_copyText view ht
    · exact plain_bytes fun view => plain_copyInto view data
  | none =>
    have hdelivery : (fixlenDelivery c v id st data).Plain
        ((Reader.handler v).Rejects c id (.fixlen st data)) := by
      cases st with
      | string => exact plain_withText ht fun text => hdeliver _
      | blob | fp32 | fp64 => exact hdeliver _
    have hbuilds : (Reader.handler v).builds c id (Datum.fixlen st data).extent.pending=true :=
      Option.isNone_iff_eq_none.mpr hdst
    cases p with
    | limit msg q => exact plain_raise fun _ => hcap msg q rfl hbuilds
    | _ => exact hdelivery

/-- An array of integers is read plainly for a handler. -/
theorem plain_array {signed : Bool} {raws : List ℕ} (hx : x=.varray signed raws) (hb : Body x bs)
    (hcap : ∀ msg q, p=.limit msg q → (Reader.handler v).builds c id x.extent.pending=true →
      (Reader.handler v).Rejects c id x (.limit msg)) :
    ((arrayPlan c v id p raws.length signed
      (arrayOffer c v id (varrayType signed) raws.length).2).2.take c x).Plain
        ((Reader.handler v).Rejects c id x) := by
  have hdeliver : ∀ y, (Effect.deliver c v id y).Plain ((Reader.handler v).Rejects c id x) :=
    plain_handler v
  have hread : ∀ (lo hi : Option ℤ) (into : Option (Sink × ℕ)) (f : List ℤ → Effect V),
      (Reader.handler v).width c id x=(lo,hi) →
      (∀ ys, (f ys).Plain ((Reader.handler v).Rejects c id x)) →
      ((Plan.elements raws.length (.of lo hi signed) signed into f).take c x).Plain
        ((Reader.handler v).Rejects c id x) :=
    fun _ _ into _ hwidth hf => plain_elements hx hb hwidth into hf
  have hwidth : (Reader.handler v).width c id x=
      (arrayOffer c v id (varrayType signed) raws.length).2.2 := by
    rw [hx]
    rfl
  have hbuilds : (Reader.handler v).builds c id x.extent.pending=
      (arrayOffer c v id (varrayType signed) raws.length).2.1.isNone := by
    rw [hx]
    rfl
  rw [hbuilds] at hcap
  rw [hwidth] at hread
  generalize (arrayOffer c v id (varrayType signed) raws.length).2=answer at hread hcap
  obtain ⟨_|dst,lo,hi⟩ := answer
  · cases p with
    | limit msg q => exact plain_raise fun _ => hcap msg q rfl rfl
    | _ => exact hread lo hi none _ rfl fun ys => hdeliver _
  · rw [arrayPlan]
    cases hview : arrayView dst signed lo hi raws.length with
    | error why =>
      have hcls := arrayView_cls hview
      exact plain_fault (by rw [hcls]; decide) (by rw [hcls]; decide)
    | ok view => exact hread lo hi _ _ rfl fun _ => plain_done

/-- An array of floats is read plainly for a handler. -/
theorem plain_farray {st : FixlenSubtype} {n size : ℕ} {data : List UInt8}
    (hx : x=.farray st n size data) (hcap : ∀ msg q, p=.limit msg q →
      (Reader.handler v).builds c id x.extent.pending=true →
        (Reader.handler v).Rejects c id x (.limit msg)) :
    ((visitFarrayPlan c v id p st n size).2.2.take c x).Plain
      ((Reader.handler v).Rejects c id x) := by
  have hdeliver : ∀ y, (Effect.deliver c v id y).Plain ((Reader.handler v).Rejects c id x) :=
    plain_handler v
  have hbuilds : (Reader.handler v).builds c id x.extent.pending=
      ((st=.fp32 && (c.hooks v).wantsF32ArrayBits) ||
        (farrayOffer c v id (if st=.fp32 then 4 else 8) n).2.isNone) := by
    rw [hx]
    rfl
  have hdoubles : ∀ (width : ℕ) (dst : Option Dst),
      (dst=none → (Reader.handler v).builds c id x.extent.pending=true) →
      ((farrayPlan c v id p n size width dst).2.take c x).Plain
        ((Reader.handler v).Rejects c id x) := by
    intro width dst hdst
    subst hx
    cases dst with
    | some dst =>
      rw [farrayPlan]
      cases hview : farrayView dst n with
      | error why =>
        have hcls := farrayView_cls hview
        exact plain_fault (by rw [hcls]; decide) (by rw [hcls]; decide)
      | ok view => exact plain_span (plain_unpackFarrayInto _ _ _ _ _ _ _ _)
    | none =>
      cases p with
      | limit msg q => exact plain_raise fun _ => hcap msg q rfl (hdst rfl)
      | _ => exact plain_span (hdeliver _)
  rw [visitFarrayPlan]
  by_cases hst : st=.fp32
  · rw [if_pos hst]
    by_cases hbits : (c.hooks v).wantsF32ArrayBits=true
    · rw [if_pos hbits]
      have hyes : (Reader.handler v).builds c id x.extent.pending=true := by
        simp [hbuilds,hst,hbits]
      subst hx
      cases p with
      | limit msg q => exact plain_raise fun _ => hcap msg q rfl hyes
      | _ => exact plain_span (hdeliver _)
    · rw [if_neg hbits]
      refine hdoubles 4 _ fun hnone => ?_
      simp [hbuilds,hst,hnone]
  · rw [if_neg hst]
    refine hdoubles 8 _ fun hnone => ?_
    simp [hbuilds,hst,hnone]

/-- A value is read plainly for a handler. -/
theorem plain_visit (hb : Body x bs) (ht : x.Textual) (hp : p.real=x.extent.pending)
    (hcap : ∀ msg q, p=.limit msg q → (Reader.handler v).builds c id x.extent.pending=true →
      (Reader.handler v).Rejects c id x (.limit msg)) :
    (takeBy c (some v) id (.visit x.extent.pending.tag.1) p x).Plain
      ((Reader.handler v).Rejects c id x) := by
  have hdeliver : ∀ y, (Effect.deliver c v id y).Plain ((Reader.handler v).Rejects c id x) :=
    plain_handler v
  have hplan : ((visitPlan c v id x.extent.pending.tag.1 p).2.2.take c x).Plain
      ((Reader.handler v).Rejects c id x) := by
    cases x with
    | scalar signed raw =>
      cases signed with
      | false => exact hdeliver _
      | true => exact hdeliver _
    | fixlen st data =>
      simp only [Datum.extent,visitPlan,hp,Extent.pending,Pending.tag]
      exact plain_fixlen rfl ht hcap
    | varray signed raws =>
      cases signed with
      | false =>
        simp only [Datum.extent,visitPlan,hp,Extent.pending,Pending.tag]
        exact plain_array rfl hb hcap
      | true =>
        simp only [Datum.extent,visitPlan,hp,Extent.pending,Pending.tag]
        exact plain_array rfl hb hcap
    | farray st n size data =>
      simp only [Datum.extent,visitPlan,hp,Extent.pending,Pending.tag]
      exact plain_farray rfl hcap
  exact (plain_calls (visitPlan c v id x.extent.pending.tag.1 p).1).andThen hplan

/-- A bound is refused for being passed. -/
theorem settled_over {most : ℕ} {p : Pending} {why : Exn} (h : settled (some most) p=.error why)
    (hj : why.Judges) : most < p.length := by
  rw [settled] at h
  rw [Pending.length]
  cases hp : p.real with
  | fixlen st n | varray signed n | farray st n size =>
    rw [hp] at h
    dsimp only at h ⊢
    split at h
    · assumption
    · cases h
  | scalar signed | limit msg q | discard a b d =>
    rw [hp] at h
    cases h
    cases hj <;> contradiction

/-- A bound that is passed is refused whatever the cap. -/
theorem settled_real {declared : Option ℕ} {p : Pending} {why : Exn} (hp : p.real.real=p.real)
    (h : settled declared p=.error why) : settled declared p.real=.error why := by
  cases declared with
  | none => cases h
  | some most =>
    rw [settled] at h ⊢
    rw [hp]
    cases hr : p.real <;> rw [hr] at h <;> exact h

/-- A bound that is kept takes the cap off. -/
theorem settled_some {most : ℕ} {p q : Pending} (h : settled (some most) p=.ok q) : q=p.real := by
  rw [settled] at h
  cases hp : p.real with
  | fixlen st n | varray signed n | farray st n size =>
    rw [hp] at h
    dsimp only at h
    split at h <;> cases h
    rfl
  | scalar signed | limit msg q | discard a b d =>
    rw [hp] at h
    cases h

/-- A declared bound rejects plainly. -/
theorem Reader.Rejects.of_settled {r : Reader V} {d : Option ℕ} {why : Exn}
    (hd : r.declared c id x.extent.pending=d) (hp : p.real=x.extent.pending)
    (h : settled d p=.error why) (hj : why.Judges) : r.Rejects c id x why := by
  have hreal : p.real.real=p.real := by rw [hp,Extent.pending_real]
  have hset := settled_real hreal h
  rw [hp] at hset
  cases d with
  | none => cases hset
  | some most => exact .bound hd (settled_over hset hj) hset

/-- The array of a row is read plainly. -/
theorem plain_mappedArray {e : Entry} (hb : Body x bs)
    (hm : e.mismatch x.extent.pending.tag.1 x.extent.pending.tag.2=false)
    (hp : p=x.extent.pending) :
    ((mappedArrayPlan c e p).take c x).Plain ((Reader.row e).Rejects c id x) := by
  have hcount : ∀ got, (countArrival c e got).Plain ((Reader.row e).Rejects c id x) :=
    plain_countArrival e
  have hfault : (Effect.raise .assertion : Effect V).Plain ((Reader.row e).Rejects c id x) :=
    plain_fault (by decide) (by decide)
  subst hp
  cases x with
  | scalar signed raw => exact hfault
  | fixlen st data => exact hfault
  | farray st n size data =>
    exact plain_span (Effect.Plain.andThen (plain_unpackFarrayInto _ _ _ _ _ _ _ _) (hcount n))
  | varray signed raws =>
    rw [Datum.extent,Extent.pending,mappedArrayPlan.eq_def]
    dsimp only
    rw [Entry.mismatch,Entry.wt,Entry.st] at hm
    cases hkind : e.kind with
    | arrayUnsigned =>
      rw [hkind] at hm
      cases signed with
      | true => cases hm
      | false =>
        refine plain_elements rfl hb ?_ _ fun _ => hcount _
        rw [Reader.width,Entry.width,hkind]
        cases e.elemBounded <;> rfl
    | arraySigned =>
      rw [hkind] at hm
      cases signed with
      | false => cases hm
      | true =>
        refine plain_elements rfl hb ?_ _ fun _ => hcount _
        rw [Reader.width,Entry.width,hkind]
        cases e.elemBounded <;> rfl
    | arrayBoolean =>
      rw [hkind] at hm
      cases signed with
      | true => cases hm
      | false =>
        refine plain_elements rfl hb ?_ _ fun _ =>
          (plain_normaliseBooleans _ _).andThen (hcount _)
        rw [Reader.width,Entry.width,hkind]
    | _ => exact hfault

/-- What a string or blob row takes is a string, or a blob. -/
theorem Entry.object_of_match {e : Entry} (hk : e.kind.isObject=true)
    (hm : e.mismatch x.extent.pending.tag.1 x.extent.pending.tag.2=false) :
    ∃ data, x=.fixlen (if e.kind=.bytes then .blob else .string) data := by
  rw [Entry.mismatch,Entry.wt,Entry.st] at hm
  cases hkind : e.kind with
  | string | bytes =>
    rw [hkind] at hm
    cases x with
    | fixlen st data => cases st <;> first | exact ⟨data,rfl⟩ | cases hm
    | farray st n size data => cases hm
    | scalar signed raw => cases signed <;> cases hm
    | varray signed raws => cases signed <;> cases hm
  | _ =>
    rw [hkind] at hk
    cases hk

/-- The string or blob of a row is read plainly. -/
theorem plain_object {e : Entry} (ht : x.Textual)
    (hm : e.mismatch x.extent.pending.tag.1 x.extent.pending.tag.2=false)
    (hp : p.real=x.extent.pending) (hcap : ∀ msg q, p=.limit msg q → e.into=false →
      (Reader.row e).Rejects c id x (.limit msg)) (hk : e.kind.isObject=true) (s : Store V) :
    ((objectPlan c e s p).2.take c x).Plain ((Reader.row e).Rejects c id x) := by
  have hcount : ∀ got, (countArrival c e got).Plain ((Reader.row e).Rejects c id x) :=
    plain_countArrival e
  have hindex : (Effect.raise .index : Effect V).Plain ((Reader.row e).Rejects c id x) :=
    plain_fault (by decide) (by decide)
  obtain ⟨data,hx⟩ := Entry.object_of_match (x:=x) hk hm
  have htext : ¬e.kind=.bytes → Utf8.valid data=true := by
    intro hbytes
    rw [hx,if_neg hbytes] at ht
    exact ht
  generalize (Reader.row e).Rejects c id x=P at hcap hcount hindex ⊢
  generalize (if e.kind=.bytes then FixlenSubtype.blob else .string)=st at hx
  subst hx
  rw [objectPlan.eq_def]
  by_cases hinto : e.into=true
  · rw [if_pos hinto,hp]
    dsimp only [Datum.extent,Extent.pending]
    split
    · split
      · exact plain_bytes fun view => (plain_copyInto view data).andThen (hcount _)
      · next hbytes =>
        exact plain_bytes fun view => (plain_copyText view (htext hbytes)).andThen (hcount _)
    · exact hindex
  · rw [if_neg hinto]
    rw [Bool.not_eq_true] at hinto
    cases p with
    | limit msg q => exact plain_raise fun _ => hcap msg q rfl hinto
    | fixlen st' n =>
      dsimp only
      split
      · exact (plain_putObj _ _).andThen (hcount _)
      · next hbytes =>
        exact (plain_withText (htext hbytes) fun text => plain_putObj _ _).andThen (hcount _)
    | scalar signed | varray signed n | farray st n size | discard a b d => exact hindex

/-- A lone integer is rejected for its row's width. -/
theorem plain_scalarOutside {e : Entry} {signed : Bool} {raw : ℕ} {lo hi : Option ℤ}
    (hwidth : e.width=(lo,hi)) (hout : ¬Admits lo hi (element signed raw)) :
    (Effect.raise (.decode "value outside declared width") : Effect V).Plain
      ((Reader.row e).Rejects c id (.scalar signed raw)) := by
  refine plain_raise fun _ => .width (y:=element signed raw) ?_ ?_ (.inr rfl)
  · exact List.mem_singleton_self _
  · rw [Reader.width,hwidth]
    exact hout

/-- A value is read plainly for a row. -/
theorem plain_mapped {e : Entry} (hb : Body x bs) (ht : x.Textual)
    (hm : e.mismatch x.extent.pending.tag.1 x.extent.pending.tag.2=false)
    (hp : p.real=x.extent.pending) (hcap : ∀ msg q, p=.limit msg q → e.into=false →
      (Reader.row e).Rejects c id x (.limit msg))
    (harray : e.kind.isArray=true → p=x.extent.pending) (s : Store V) :
    ((mappedPlan c e s p).2.take c x).Plain ((Reader.row e).Rejects c id x) := by
  have hcount : ∀ got, (countArrival c e got).Plain ((Reader.row e).Rejects c id x) :=
    plain_countArrival e
  have hfault : (Effect.raise .assertion : Effect V).Plain ((Reader.row e).Rejects c id x) :=
    plain_fault (by decide) (by decide)
  have hwidth : e.elemBounded=true → (e.kind=.unsigned → e.width=(none,some e.elemHi)) ∧
      (e.kind=.signed → e.width=(some e.elemLo,some e.elemHi)) := by
    intro hbound
    constructor <;> (intro hkind; rw [Entry.width,hkind,hbound])
  rw [mappedPlan.eq_def]
  cases hkind : e.kind with
  | unsigned =>
    rw [Entry.mismatch,Entry.wt,hkind] at hm
    cases x with
    | scalar signed raw =>
      cases signed with
      | true => cases hm
      | false =>
        refine Effect.Plain.andThen ?_ (hcount 1)
        split
        · next hout =>
          rw [Bool.and_eq_true,decide_eq_true_eq] at hout
          refine plain_scalarOutside ((hwidth hout.1).1 hkind) fun hadm => ?_
          have hle := hadm.2 _ rfl
          exact absurd hout.2 (not_lt.mpr hle)
        · exact plain_put _ _ _
    | _ => exact hfault
  | signed =>
    rw [Entry.mismatch,Entry.wt,hkind] at hm
    cases x with
    | scalar signed raw =>
      cases signed with
      | false => cases hm
      | true =>
        refine Effect.Plain.andThen ?_ (hcount 1)
        split
        · next hout =>
          rw [Bool.and_eq_true] at hout
          refine plain_scalarOutside ((hwidth hout.1).2 hkind) fun hadm => ?_
          have hlo : e.elemLo ≤ Zigzag.decode raw := hadm.1 _ rfl
          have hhi : Zigzag.decode raw ≤ e.elemHi := hadm.2 _ rfl
          simp [hlo,hhi] at hout
        · exact plain_put _ _ _
    | _ => exact hfault
  | boolean =>
    cases x with
    | scalar signed raw => exact (plain_putWord _ _).andThen (hcount 1)
    | _ => exact hfault
  | float64 | float32 =>
    cases x with
    | fixlen st data => exact (plain_putWord _ _).andThen (hcount 1)
    | farray st n size data => exact (plain_putWord _ _).andThen (hcount 1)
    | _ => exact hfault
  | string | bytes => exact plain_object ht hm hp hcap (by rw [hkind]; rfl) s
  | sequence => exact hfault
  | arrayUnsigned | arraySigned | arrayBoolean | arrayFloat32 | arrayFloat64 =>
    exact plain_mappedArray hb hm (harray (by rw [hkind]; rfl))

/-- A value that breaks what its row declares is rejected once the row has arrived. -/
theorem takeBy_unsettled {e : Entry} {why : Exn} {w : Option V}
    (hs : settled e.declared (park c p)=.error why) :
    takeBy c w id (.mapped e) (park c p) x=(arrive c e).andThen (.raise why) := by
  funext s
  rw [takeBy,prepare]
  unfold Effect.andThen
  rcases arrive c e s with ⟨σ,_|e'⟩
  · dsimp only
    rw [hs]
    rfl
  · rfl

/-- A value that meets it is read for the row. -/
theorem takeBy_settled {e : Entry} {q : Pending} {w : Option V}
    (hs : settled e.declared (park c p)=.ok q) :
    takeBy c w id (.mapped e) (park c p) x=
      (arrive c e).andThen fun s => (mappedPlan c e s q).2.take c x s := by
  funext s
  rw [takeBy,prepare]
  unfold Effect.andThen
  rcases arrive c e s with ⟨σ,_|e'⟩
  · dsimp only
    rw [hs]
  · rfl

/-- A value is read plainly in its scope. -/
theorem plain_value (c : Config V) (k : Scope V) (id : ℕ) (hb : Body x bs) (ht : x.Textual)
    (hann : x.extent.pending.Announced) :
    (valueEffect c k id (park c x.extent.pending) x).Plain
      ((k.reader c id x.extent.pending).Rejects c id x) := by
  have hreal : (park c x.extent.pending).real=x.extent.pending := park_real x.extent.pending_real
  -- a cap is met only where nothing is declared, for a bound that was passed takes it off
  have hsettled : ∀ {r : Reader V} {q : Pending},
      settled (r.declared c id x.extent.pending) (park c x.extent.pending)=.ok q →
      q.real=x.extent.pending ∧ ∀ msg q', q=.limit msg q' →
        r.builds c id x.extent.pending=true → r.Rejects c id x (.limit msg) := by
    intro r q hq
    have hnot : ∀ msg q', x.extent.pending≠.limit msg q' := by
      intro msg q' hq'
      cases x <;> cases hq'
    cases hd : r.declared c id x.extent.pending with
    | none =>
      rw [hd] at hq
      cases hq
      refine ⟨hreal,fun msg q' hq' hbuilds => ?_⟩
      rcases park_cases c x.extent.pending with he|⟨msg',he⟩
      · rw [he] at hq'
        exact absurd hq' (hnot msg q')
      · rw [he] at hq'
        cases hq'
        exact .cap he hd hbuilds
    | some most =>
      rw [hd] at hq
      have hreal' := settled_some hq
      rw [hreal] at hreal'
      subst hreal'
      exact ⟨x.extent.pending_real,fun msg q' hq' => absurd hq' (hnot msg q')⟩
  rw [valueEffect,park_tag,Scope.reader]
  cases hrow : Walk.matched c k.table id x.extent.pending.tag.1 x.extent.pending.tag.2 with
  | some e =>
    dsimp only
    have hm := matched_mismatch hrow
    cases hs : settled e.declared (park c x.extent.pending) with
    | error why =>
      rw [takeBy_unsettled hs]
      exact (plain_arrive e).andThen (plain_raise fun hj => .of_settled rfl hreal hs hj)
    | ok q =>
      rw [takeBy_settled hs]
      refine (plain_arrive e).andThen ?_
      obtain ⟨hq,hcap⟩ := hsettled (r:=.row e) hs
      have harray : e.kind.isArray=true → q=x.extent.pending := by
        intro hk
        rw [Entry.declared,if_pos hk] at hs
        exact (settled_some hs).trans hreal
      refine plain_look (fun s => plain_mapped hb ht hm hq (fun msg q' hq' hinto => ?_) harray s)
        fun _ _ => rfl
      exact hcap msg q' hq' (by rw [Reader.builds,hinto]; rfl)
  | none =>
    dsimp only
    split
    · exact plain_done
    · cases hv : k.visitor with
      | none => exact plain_done
      | some v =>
        dsimp only
        rw [offerValue,fieldOffer_park c v id x.extent.pending_real]
        refine (plain_calls _).andThen ?_
        cases (Walk.fieldOffer c v id x.extent.pending).2 with
        | false => exact plain_done
        | true =>
          simp only [if_true]
          refine (plain_calls _).andThen ?_
          rw [boundOffer_park c v id x.extent.pending_real]
          cases hs : settled (Walk.boundOffer c v id x.extent.pending).2
            (park c x.extent.pending) with
          | error why => exact plain_raise fun hj => .of_settled rfl hreal hs hj
          | ok q =>
            obtain ⟨hq,hcap⟩ := hsettled (r:=.handler v) hs
            rw [park_tag]
            exact plain_visit hb ht hq hcap

end Plans

end SofaBuffers
