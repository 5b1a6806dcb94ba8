import SofaBuffers.Walk.Licensed
import SofaBuffers.Walk.Tables

/-!
# What a length or a count is held to

A length or a count a header announces is held to what the schema declares of
it, or else to the receiver's cap where the decoder is the one to build the
value, and to nothing where the value is skipped.
-/

set_option autoImplicit false

namespace SofaBuffers

open Resumable

variable {V : Type}

/-- The value bears a length or a count. -/
def Pending.Sized : Pending → Prop
  | .fixlen st _ => st=.string ∨ st=.blob
  | .varray .. | .farray .. => True
  | _ => False

/-- The receiver's cap on such a value. -/
def Config.cap (c : Config V) : Pending → ℕ
  | .fixlen .string _ => c.maxDynStringLen
  | .fixlen .. => c.maxDynBlobLen
  | _ => c.maxDynArrayCount

/-- Who reads a value. -/
inductive Reader (V : Type)
  /-- Nobody: it is skipped. -/
  | nobody
  /-- A row of a table. -/
  | row (e : Entry)
  /-- A handler. -/
  | handler (v : V)

namespace Walk

/-- Who reads a value that is met in a state, inside a skip or not. -/
def reader (c : Config V) (s : Walk V) (skip : Option ℕ) (id : ℕ) (p : Pending) : Reader V :=
  if skip.isSome then .nobody
  else
    match matched c s.bmap id p.tag.1 p.tag.2 with
    | some e => .row e
    | none =>
      if named c s.bmap id || s.bmap.any c.closed then .nobody
      else
        match s.visitor with
        | none => .nobody
        | some v => if (fieldOffer c v id p).2 then .handler v else .nobody

end Walk

/-- The length or count the schema declares for a value. -/
def Reader.declared (c : Config V) (id : ℕ) (p : Pending) : Reader V → Option ℕ
  | .nobody => none
  | .row e => e.declared
  | .handler v => (Walk.boundOffer c v id p).2

/-- The decoder builds the value: no row's buffer and no destination takes it. -/
def Reader.builds (c : Config V) (id : ℕ) (p : Pending) : Reader V → Bool
  | .nobody => false
  | .row e => !e.into
  | .handler v =>
    match p with
    | .fixlen st n => (fixlenOffer c v id st n).2.isNone
    | .varray signed n => (arrayOffer c v id (varrayType signed) n).2.1.isNone
    | .farray st n _ => (st=.fp32 && (c.hooks v).wantsF32ArrayBits) ||
        (farrayOffer c v id (if st=.fp32 then 4 else 8) n).2.isNone
    | _ => false

/-- Nothing came of a field but the arrival of its row, or questions about it. -/
inductive Reader.Only (c : Config V) (s : Store V) : Reader V → Store V → Prop
  /-- Questions were asked of the handler. -/
  | asked {r : Reader V} {es : List (Event V)}
      (h : ∀ e ∈ es, e.delivers=false ∧ e.scoped=false) : Only c s r (es.foldl Store.call s)
  /-- The arrival of the row was counted. -/
  | arrived {e : Entry} : Only c s (.row e) (arrive c e s).1

/-- How a reader reads a value. -/
def Reader.route (p : Pending) : Reader V → Option Route
  | .nobody => none
  | .row e => some (.mapped e)
  | .handler _ => some (.visit p.tag.1)

/-- A payload in place is not refused. -/
theorem span_accepts {count size : ℕ} {k : List UInt8 → Effect V} {why : Exn} :
    Plan.span count size k≠.refuse why := by
  intro h
  rw [Plan.span] at h
  split at h <;> cases h

/-- A payload that is copied is refused for the caller's buffer only. -/
theorem bytesPlan_refuse {who what : String} {o : Obj} {n : ℕ} {k : Dst → List UInt8 → Effect V}
    {why : Exn} (h : bytesPlan (byteView who what o n) n k=.refuse why) : why.cls=.argument := by
  cases hv : byteView who what o n with
  | error e =>
    rw [hv] at h
    cases h
    exact byteView_cls hv
  | ok view =>
    rw [hv] at h
    cases h

section Park

variable {c : Config V} {p : Pending}

/-- A value that bears a length or a count is no cap. -/
theorem Pending.Sized.real (h : p.Sized) : p.real=p := by
  cases p with
  | limit msg q => exact h.elim
  | _ => rfl

/-- A value that bears a length or a count is a payload or an array, and bears the one its header
announces. -/
theorem Pending.Sized.length_eq (h : p.Sized) :
    (∃ st n, p=.fixlen st n ∧ (st=.string ∨ st=.blob) ∧ p.length=n) ∨
      (∃ signed n, p=.varray signed n ∧ p.length=n) ∨ ∃ st n size, p=.farray st n size ∧ p.length=n := by
  cases p with
  | fixlen st n => exact Or.inl ⟨st,n,rfl,h,rfl⟩
  | varray signed n => exact Or.inr (Or.inl ⟨signed,n,rfl,rfl⟩)
  | farray st n size => exact Or.inr (Or.inr ⟨st,n,size,rfl,rfl⟩)
  | _ => exact h.elim

/-- A cap is parked on a value exactly where it is longer than the receiver takes. -/
theorem park_sized (c : Config V) (h : p.Sized) (hn : p.length ≤ fixlenMax) :
    (p.length ≤ c.cap p ∧ park c p=p) ∨ (c.cap p < p.length ∧ ∃ msg, park c p=.limit msg p) := by
  have hopen : c.capped=false → arrayMax ≤ c.maxDynArrayCount ∧ fixlenMax ≤ c.maxDynStringLen ∧
      fixlenMax ≤ c.maxDynBlobLen := by
    intro hc
    rw [Config.capped] at hc
    simp only [Bool.or_eq_false_iff,decide_eq_false_iff_not,Nat.not_lt] at hc
    exact ⟨hc.1.1,hc.1.2,hc.2⟩
  have hmax : arrayMax=fixlenMax := rfl
  rw [park.eq_def]
  cases hc : c.capped with
  | false =>
    obtain ⟨h1,h2,h3⟩ := hopen hc
    refine Or.inl ⟨hn.trans ?_,rfl⟩
    rw [Config.cap.eq_def]
    split <;> omega
  | true =>
    rw [if_pos rfl]
    rcases h.length_eq with ⟨st,n,rfl,rfl | rfl,hl⟩ | ⟨signed,n,rfl,hl⟩ | ⟨st,n,size,rfl,hl⟩ <;>
      rw [hl] <;> dsimp only [Config.cap]
    all_goals
      split
      · next hlt => exact Or.inr ⟨hlt,_,rfl⟩
      · next hle => exact Or.inl ⟨by omega,rfl⟩

/-- What is declared is settled on a value that bears a length or a count. -/
theorem settled_sized (h : p.Sized) (q : Pending) (hq : q.real=p) (most : ℕ) :
    (p.length ≤ most ∧ settled (some most) q=.ok p) ∨
      (most < p.length ∧ ∃ why, settled (some most) q=.error why ∧ why.cls=.decode) := by
  rw [settled,hq]
  rcases h.length_eq with ⟨st,n,rfl,-,hl⟩ | ⟨signed,n,rfl,hl⟩ | ⟨st,n,size,rfl,hl⟩ <;>
    rw [hl] <;> dsimp only
  all_goals
    split
    · next hlt => exact Or.inr ⟨hlt,_,rfl,rfl⟩
    · next hle => exact Or.inl ⟨by omega,rfl⟩

/-- A parked value is offered as it is. -/
theorem fieldOffer_park (c : Config V) (v : V) (id : ℕ) (hp : p.real=p) :
    Walk.fieldOffer c v id (park c p)=Walk.fieldOffer c v id p := by
  have hreal : (park c p).real=p.real := (park_real hp).trans hp.symm
  have hbuild : ∀ t, buildField id t (park c p)=buildField id t p := by
    intro t
    rw [buildField,hreal,buildField]
  rw [Walk.fieldOffer,park_tag,hbuild,Walk.fieldOffer]

/-- A bound is asked for as it is. -/
theorem boundOffer_park (c : Config V) (v : V) (id : ℕ) (hp : p.real=p) :
    Walk.boundOffer c v id (park c p)=Walk.boundOffer c v id p := by
  have hreal : (park c p).real=p.real := (park_real hp).trans hp.symm
  have hask : Walk.boundQuestion (park c p)=Walk.boundQuestion p := by
    rw [Walk.boundQuestion,hreal,Walk.boundQuestion]
  rw [Walk.boundOffer,hask,Walk.boundOffer]

/-- A parked value is dropped as the value is. -/
theorem drop_park (c : Config V) (hp : p.Sized) (xs : List UInt8) : (park c p).drop xs=p.drop xs := by
  rcases park_cases c p with he | ⟨msg,he⟩
  · rw [he]
  · rw [he]
    cases p with
    | fixlen | varray | farray => rfl
    | _ => exact hp.elim

/-- A value nobody reads is refused for an overlong varint only. -/
theorem drop_sized (hp : p.Sized) {xs : List UInt8} {why : Exn} (h : p.drop xs=.bad why) :
    why=overlong := by
  have hvarints : ∀ {n v : ℕ} {ys : List UInt8}, dropVarints n v ys=.bad why → why=overlong := by
    intro n v ys h
    fun_induction dropVarints n v ys with
    | case1 | case2 => cases h
    | case3 => cases h; rfl
    | case4 _ _ _ _ _ _ ih | case5 _ _ _ _ _ _ ih | case6 _ _ _ _ _ _ ih => exact ih h
  have hdiscard : ∀ {a n v : ℕ} {ys : List UInt8}, dropDiscard a n v ys=.bad why → why=overlong := by
    intro a n v ys h
    rw [dropDiscard] at h
    split at h
    · cases h
    · exact hvarints h
  cases p with
  | fixlen st n => exact hdiscard h
  | varray signed n =>
    have hr : dropReal (.varray signed n) xs=.bad why := h
    rw [dropReal] at hr
    exact hdiscard hr
  | farray st n size =>
    have hr : dropReal (.farray st n size) xs=.bad why := h
    rw [dropReal] at hr
    split at hr
    · cases hr
    · exact hdiscard hr
  | _ => exact hp.elim

/-- A visit reads past a cap where a destination takes the value. -/
theorem visitPlan_parked (v : V) (id : ℕ) (hp : p.Sized) (msg : String)
    (hb : Reader.builds c id p (.handler v)=false) :
    visitPlan c v id p.tag.1 (.limit msg p)=visitPlan c v id p.tag.1 p := by
  cases p with
  | fixlen st n =>
    have hsome : (fixlenOffer c v id st n).2.isNone=false := hb
    obtain ⟨d,hd⟩ : ∃ d, (fixlenOffer c v id st n).2=some d := by
      cases hd : (fixlenOffer c v id st n).2 with
      | none => rw [hd] at hsome; cases hsome
      | some d => exact ⟨d,rfl⟩
    show ((fixlenOffer c v id st n).1,fixlenPlan c v id (.limit msg (.fixlen st n)) st n
      (fixlenOffer c v id st n).2)=((fixlenOffer c v id st n).1,
        fixlenPlan c v id (.fixlen st n) st n (fixlenOffer c v id st n).2)
    rw [hd]
    rfl
  | varray signed n =>
    have hsome : (arrayOffer c v id (varrayType signed) n).2.1.isNone=false := hb
    have hplan : ∀ spec : Option Dst × Option ℤ × Option ℤ, spec.1.isNone=false →
        arrayPlan c v id (.limit msg (.varray signed n)) n signed spec=
          arrayPlan c v id (.varray signed n) n signed spec := by
      rintro ⟨_|d,lo,hi⟩ h
      · cases h
      · rfl
    have hcongr := hplan _ hsome
    cases signed with
    | false => exact congrArg (Prod.mk (arrayOffer c v id .arrayUnsigned n).1) hcongr
    | true => exact congrArg (Prod.mk (arrayOffer c v id .arraySigned n).1) hcongr
  | farray st n size =>
    have hor : ((st=.fp32 && (c.hooks v).wantsF32ArrayBits) ||
        (farrayOffer c v id (if st=.fp32 then 4 else 8) n).2.isNone)=false := hb
    rw [Bool.or_eq_false_iff] at hor
    obtain ⟨hbits,hsome⟩ := hor
    have hplan : ∀ (width : ℕ) (dst : Option Dst), dst.isNone=false →
        farrayPlan c v id (.limit msg (.farray st n size)) n size width dst=
          farrayPlan c v id (.farray st n size) n size width dst := by
      rintro width (_|d) h
      · cases h
      · rfl
    show visitFarrayPlan c v id (.limit msg (.farray st n size)) st n size=
      visitFarrayPlan c v id (.farray st n size) st n size
    rw [visitFarrayPlan,visitFarrayPlan]
    by_cases hst : st=.fp32
    · subst hst
      have hno : (c.hooks v).wantsF32ArrayBits=false := by simpa using hbits
      simp only [if_true,hno,Bool.false_eq_true,if_false]
      rw [hplan 4 _ (by simpa using hsome)]
    · simp only [hst,if_false] at hsome ⊢
      rw [hplan 8 _ hsome]
  | _ => exact hp.elim

/-- A visit is refused for a cap where the decoder would build the value. -/
theorem visitPlan_capped (v : V) (id : ℕ) (hp : p.Sized) (msg : String)
    (hb : Reader.builds c id p (.handler v)=true) :
    (visitPlan c v id p.tag.1 (.limit msg p)).2.2=.refuse (.limit msg) := by
  cases p with
  | fixlen st n =>
    have hnone : (fixlenOffer c v id st n).2=none := Option.isNone_iff_eq_none.mp hb
    show (fixlenPlan c v id (.limit msg (.fixlen st n)) st n (fixlenOffer c v id st n).2).2=_
    rw [hnone]
    rfl
  | varray signed n =>
    have hnone : (arrayOffer c v id (varrayType signed) n).2.1=none :=
      Option.isNone_iff_eq_none.mp hb
    have hplan : ∀ spec : Option Dst × Option ℤ × Option ℤ, spec.1=none →
        (arrayPlan c v id (.limit msg (.varray signed n)) n signed spec).2=.refuse (.limit msg) := by
      rintro ⟨dst,lo,hi⟩ h
      cases h
      rfl
    cases signed with
    | false => exact hplan _ hnone
    | true => exact hplan _ hnone
  | farray st n size =>
    have hor : ((st=.fp32 && (c.hooks v).wantsF32ArrayBits) ||
        (farrayOffer c v id (if st=.fp32 then 4 else 8) n).2.isNone)=true := hb
    have hplan : ∀ (width : ℕ) (dst : Option Dst), dst=none →
        (farrayPlan c v id (.limit msg (.farray st n size)) n size width dst).2=
          .refuse (.limit msg) := by
      rintro width dst h
      cases h
      rfl
    show (visitFarrayPlan c v id (.limit msg (.farray st n size)) st n size).2.2=_
    rw [visitFarrayPlan]
    by_cases hst : st=.fp32
    · rw [if_pos hst]
      by_cases hbits : (c.hooks v).wantsF32ArrayBits=true
      · rw [if_pos hbits]
        rfl
      · rw [if_neg hbits]
        refine hplan 4 _ (Option.isNone_iff_eq_none.mp ?_)
        simpa [hst,hbits] using hor
    · rw [if_neg hst]
      refine hplan 8 _ (Option.isNone_iff_eq_none.mp ?_)
      simpa [hst] using hor
  | _ => exact hp.elim

/-- A visit of a value that is not capped is refused for the caller's buffer only. -/
theorem visitPlan_refuse (v : V) (id : ℕ) (hp : p.Sized) {why : Exn}
    (h : (visitPlan c v id p.tag.1 p).2.2=.refuse why) : why.cls=.argument := by
  cases p with
  | fixlen st n =>
    have hplan : ∀ dst : Option Dst, (fixlenPlan c v id (.fixlen st n) st n dst).2=.refuse why →
        why.cls=.argument := by
      rintro (_|d) h
      · cases h
      · rw [fixlenPlan] at h
        split at h
        · exact bytesPlan_refuse h
        · exact bytesPlan_refuse h
    exact hplan _ h
  | varray signed n =>
    have hplan : ∀ spec : Option Dst × Option ℤ × Option ℤ,
        (arrayPlan c v id (.varray signed n) n signed spec).2=.refuse why → why.cls=.argument := by
      rintro ⟨_|d,lo,hi⟩ h
      · cases h
      · rw [arrayPlan] at h
        cases hv : arrayView d signed lo hi n with
        | error e =>
          rw [hv] at h
          cases h
          exact arrayView_cls hv
        | ok view => rw [hv] at h; cases h
    cases signed with
    | false => exact hplan _ h
    | true => exact hplan _ h
  | farray st n size =>
    have hplan : ∀ (width : ℕ) (dst : Option Dst),
        (farrayPlan c v id (.farray st n size) n size width dst).2=.refuse why →
          why.cls=.argument := by
      rintro width (_|d) h
      · exact (span_accepts h).elim
      · rw [farrayPlan] at h
        cases hv : farrayView d n with
        | error e =>
          rw [hv] at h
          cases h
          exact farrayView_cls hv
        | ok view =>
          rw [hv] at h
          exact (span_accepts h).elim
    have hr : (visitFarrayPlan c v id (.farray st n size) st n size).2.2=.refuse why := h
    rw [visitFarrayPlan] at hr
    split at hr
    · split at hr
      · exact (span_accepts hr).elim
      · exact hplan 4 _ hr
    · exact hplan 8 _ hr
  | _ => exact hp.elim

end Park

section Rows

variable {c : Config V} {e : Entry} {p q : Pending}

/-- A row that takes a value with a length or a count is an array's, a string's or a
blob's. -/
theorem Entry.Takes.sized (ht : e.Takes q) (hq : q.real=p) (hp : p.Sized) :
    e.kind.isArray=true ∨ (e.kind.isObject=true ∧ ∃ st n, p=.fixlen st n) := by
  have htype := ht.type
  have hsub := ht.1
  have htag : q.tag=p.tag := by
    rw [←hq]
    cases q <;> rfl
  rw [hq] at htype
  rw [Entry.mismatch,Bool.or_eq_false_iff,htag] at hsub
  obtain ⟨-,hst⟩ := hsub
  rcases hp.length_eq with ⟨st,n,rfl,hs,-⟩ | ⟨signed,n,rfl,-⟩ | ⟨st,n,size,rfl,-⟩
  · refine Or.inr ⟨?_,st,n,rfl⟩
    rw [Entry.st] at hst
    cases hkind : e.kind <;> rw [hkind] at htype hst <;> first | rfl | cases htype
    all_goals
      rcases hs with rfl | rfl <;> simp [Kind.tag,Pending.tag] at hst
  · refine Or.inl ?_
    cases hkind : e.kind <;> rw [hkind] at htype <;>
      first | rfl | (cases signed <;> cases htype)
  · refine Or.inl ?_
    cases hkind : e.kind <;> rw [hkind] at htype <;> first | rfl | cases htype

/-- A string or blob row reads an object. -/
theorem mappedPlan_object (c : Config V) (hk : e.kind.isObject=true) (s : Store V) (p : Pending) :
    mappedPlan c e s p=objectPlan c e s p := by
  rw [mappedPlan.eq_def]
  cases hkind : e.kind <;> rw [hkind] at hk <;> first | rfl | exact absurd hk (by decide)

/-- A row reads past a cap where its buffer takes the value. -/
theorem objectPlan_parked (hp : p.real=p) (hinto : e.into=true) (s : Store V) (msg : String) :
    objectPlan c e s (.limit msg p)=objectPlan c e s p := by
  have hreal : (Pending.limit msg p).real=p.real := hp.symm
  rw [objectPlan.eq_def,if_pos hinto,hreal,objectPlan.eq_def c e s p,if_pos hinto]

/-- A row of a value the decoder would build is refused for a cap. -/
theorem objectPlan_capped (hinto : e.into=false) (s : Store V) (msg : String) (p : Pending) :
    (objectPlan c e s (.limit msg p)).2=.refuse (.limit msg) := by
  rw [objectPlan.eq_def,if_neg (by rw [hinto]; decide)]

/-- A row's read of a value that is not capped is refused for the caller's buffer only. -/
theorem mappedPlan_refuse (hc : bindWords c=.ok ()) {r id : ℕ} (hl : c.lookup r id=some e)
    (ht : e.Takes p) (hp : p.Sized) {s : Store V} {why : Exn}
    (h : (mappedPlan c e s p).2=.refuse why) : why.cls=.argument := by
  rcases ht.sized hp.real hp with hk | ⟨hk,st,n,rfl⟩
  · have harray : (mappedPlan c e s p).2=mappedArrayPlan c e p := by
      rw [mappedPlan.eq_def]
      cases hkind : e.kind <;> rw [hkind] at hk <;> first | rfl | exact absurd hk (by decide)
    rw [harray,mappedArrayPlan.eq_def] at h
    rcases ht.array hk with ⟨signed,got,hr,hkind⟩ | ⟨st,got,size,hr⟩
    · rw [hp.real] at hr
      subst hr
      dsimp only at h
      rcases hkind with hkind | hkind | hkind <;> rw [hkind] at h <;> cases h
    · rw [hp.real] at hr
      subst hr
      exact (span_accepts h).elim
  · obtain ⟨f,hf,hlook⟩ := lookup_forest hl
    have hneed := Forest.lookup_objectsNeeded hlook
    have hslot := e.value_le.2.2 hk
    obtain ⟨-,hobjs⟩ := bindWords_ok hf hc
    rw [mappedPlan_object c hk,objectPlan.eq_def] at h
    split at h
    · dsimp only [Pending.real] at h
      rw [if_pos (by omega)] at h
      split at h
      · exact bytesPlan_refuse h
      · exact bytesPlan_refuse h
    · dsimp only at h
      split at h <;> cases h

end Rows

namespace Walk

variable {c : Config V} {s : Walk V} {skip : Option ℕ} {id : ℕ} {p : Pending}
variable {ys rest : List UInt8}

/-- What a walk does with a value that bears a length or a count, from its header on. -/
structure HeldTo (c : Config V) (s : Walk V) (skip : Option ℕ) (id : ℕ) (p : Pending)
    (rest : List UInt8) (h : Halt (Walk V) UInt8 Exn) : Prop where
  /-- Where nobody reads it, it is dropped, and refused for an overlong varint only. -/
  skipped : s.reader c skip id p=.nobody → ∃ q σ, Reader.Only c s.store .nobody σ ∧
    h=run c {s with mode := .header (some q) skip, store := σ} rest ∧
    ∀ xs, q.drop xs=p.drop xs ∧ ∀ why, q.drop xs=.bad why → why=overlong
  /-- Past what the schema declares it is invalid. -/
  invalid : ∀ most, (s.reader c skip id p).declared c id p=some most → most < p.length →
    ∃ why t, h=.fail why t rest ∧ why.cls=.decode ∧
      Reader.Only c s.store (s.reader c skip id p) t.store
  /-- Past the receiver's cap it is refused, where the decoder would build it and the
  schema declares nothing. -/
  limited : (s.reader c skip id p).declared c id p=none →
    (s.reader c skip id p).builds c id p=true → c.cap p < p.length →
    ∃ why t, h=.fail why t rest ∧ why.cls=.limit ∧
      Reader.Only c s.store (s.reader c skip id p) t.store
  /-- Any other value is read as if there were no cap, and not refused but for the caller's buffer.
  -/
  admitted : ∀ r, (s.reader c skip id p).route p=some r →
    (∀ most, (s.reader c skip id p).declared c id p=some most → p.length ≤ most) →
    ((s.reader c skip id p).declared c id p=none →
      (s.reader c skip id p).builds c id p=true → p.length ≤ c.cap p) →
    ∃ σ, h=finish c (valueStep c {s with store := σ} id r p rest) ∧
      ∀ why, (prepare c s.visitor id r p σ).2.2=.refuse why → why.cls=.argument

/-- A walk in front of a value meets it. -/
theorem run_met (hm : s.mode=.header none skip) (ht : readToken ys=.done (.value id p) rest) :
    run c s ys=finish c (meet c s skip (.value id p) rest) := by
  have hne : ys≠[] := by
    rintro rfl
    cases ht
  rw [run_finish,step,hm]
  dsimp only
  rw [headerStep,if_neg hne,ht]

/-- A parked value that is dropped. -/
theorem drop_parked (c : Config V) (hp : p.Sized) (xs : List UInt8) :
    (park c p).drop xs=p.drop xs ∧ ∀ why, (park c p).drop xs=.bad why → why=overlong := by
  refine ⟨drop_park c hp xs,fun why h => @drop_sized _ hp xs _ ?_⟩
  rw [←drop_park c hp]
  exact h

/-- A value that is refused before it is read ends the walk. -/
theorem finish_refused {r : Route} {q : Pending} {why : Exn}
    (h : (prepare c s.visitor id r q s.store).2.2=.refuse why) (rest : List UInt8) :
    ∃ t, finish c (valueStep c s id r q rest)=.fail why t rest ∧
      t.store=(prepare c s.visitor id r q s.store).1 := by
  rw [valueStep,h]
  exact ⟨_,rfl,rfl⟩

/-- What is read does not depend on what the walk was in the middle of. -/
theorem valueStep_mode (c : Config V) (s : Walk V) (m : Mode) (id : ℕ) (r : Route) (q : Pending)
    (rest : List UInt8) : valueStep c {s with mode := m} id r q rest=valueStep c s id r q rest := by
  rw [valueStep,valueStep]
  dsimp only
  cases (prepare c s.visitor id r q s.store).2.2.read c (prepare c s.visitor id r q s.store).1 rest <;>
    rfl

/-- A value that was met is read. -/
theorem run_value (c : Config V) (s : Walk V) (id : ℕ) (r : Route) (q : Pending)
    (rest : List UInt8) :
    run c {s with mode := .value id r q false} rest=finish c (valueStep c s id r q rest) := by
  rw [run_finish,←valueStep_mode c s (.value id r q false)]
  rfl

/-- What is read depends on the preparation only. -/
theorem valueStep_prepared {r : Route} {q q' : Pending}
    (h : prepare c s.visitor id r q s.store=prepare c s.visitor id r q' s.store)
    (rest : List UInt8) : valueStep c s id r q rest=valueStep c s id r q' rest := by
  rw [valueStep,valueStep,h]

/-- A row that arrived settles its bound and reads. -/
theorem prepare_arrived (hc : bindWords c=.ok ()) {e : Entry} {r fid : ℕ}
    (hl : c.lookup r fid=some e) (hk : e.kind≠.sequence) (v : Option V) (id : ℕ) (q : Pending)
    (σ : Store V) :
    prepare c v id (.mapped e) q σ=
      match settled e.declared q with
      | .error why => ((arrive c e σ).1,q,.refuse why)
      | .ok q => ((arrive c e σ).1,mappedPlan c e (arrive c e σ).1 q) := by
  have harr := arrive_ok hc hl hk σ
  generalize (arrive c e σ).1=τ at harr
  cases hq : settled e.declared q with
  | error why => simp only [prepare,harr,hq]
  | ok q => simp only [prepare,harr,hq]

/-- A value a row reads. -/
theorem row_heldTo (hc : bindWords c=.ok ()) (hp : p.Sized) (ha : p.Announced)
    (hn : p.length ≤ fixlenMax) {e : Entry} (he : matched c s.bmap id p.tag.1 p.tag.2=some e)
    (hr : s.reader c skip id p=.row e) :
    HeldTo c s skip id p rest
      (run c {s with mode := .value id (.mapped e) (park c p) false} rest) := by
  obtain ⟨f,r,hf,-,hlook,hmis⟩ := matched_lookup he
  have hl : c.lookup r id=some e := by rw [Config.lookup,hf]; exact hlook
  have htakes : e.Takes p := ⟨hmis,ha⟩
  have hkind := htakes.sized hp.real hp
  have hseq : e.kind≠.sequence := by
    intro h
    rcases hkind with hk | ⟨hk,-⟩ <;> rw [h] at hk <;> exact absurd hk (by decide)
  have hobject : e.declared=none → e.kind.isObject=true := by
    intro hd
    rcases hkind with hk | ⟨hk,-⟩
    · rw [Entry.declared,if_pos hk] at hd
      cases hd
    · exact hk
  have hprep := fun q => prepare_arrived hc hl hseq s.visitor id q s.store
  have honly : Reader.Only c s.store (.row e) (arrive c e s.store).1 := .arrived
  have hreal : (park c p).real=p := park_real hp.real
  rw [run_value]
  constructor
  · intro hnone
    rw [hr] at hnone
    cases hnone
  · intro most hd hlt
    rw [hr] at hd ⊢
    have hd : e.declared=some most := hd
    obtain ⟨why,hwhy,hcls⟩ := ((settled_sized hp (park c p) hreal most).resolve_left
      fun h => by omega).2
    have hrefuse := hprep (park c p)
    rw [hd,hwhy] at hrefuse
    obtain ⟨t,ht,hstore⟩ := finish_refused (congrArg (·.2.2) hrefuse) rest
    refine ⟨why,t,ht,hcls,?_⟩
    rw [hstore,hrefuse]
    exact honly
  · intro hd hb hlt
    rw [hr] at hd hb ⊢
    have hd : e.declared=none := hd
    have hinto : e.into=false := by simpa [Reader.builds] using hb
    obtain ⟨msg,hmsg⟩ := ((park_sized c hp hn).resolve_left fun h => by omega).2
    have hrefuse := hprep (park c p)
    rw [hd,hmsg,settled] at hrefuse
    dsimp only at hrefuse
    rw [mappedPlan_object c (hobject hd)] at hrefuse
    rw [hmsg]
    obtain ⟨t,ht,hstore⟩ := finish_refused
      ((congrArg (·.2.2) hrefuse).trans (objectPlan_capped hinto _ msg p)) rest
    refine ⟨.limit msg,t,ht,rfl,?_⟩
    rw [hstore,hrefuse]
    exact honly
  · intro r' hroute hle hcap
    rw [hr] at hroute hle hcap
    cases hroute
    have hsettled : settled e.declared p=.ok p := by
      cases hd : e.declared with
      | none => rfl
      | some most =>
        exact ((settled_sized hp p hp.real most).resolve_right
          fun h => absurd (hle most hd) (by omega)).2
    have hsame : prepare c s.visitor id (.mapped e) (park c p) s.store=
        prepare c s.visitor id (.mapped e) p s.store := by
      rw [hprep,hprep p,hsettled]
      cases hd : e.declared with
      | some most =>
        rw [((settled_sized hp (park c p) hreal most).resolve_right
          fun h => absurd (hle most hd) (by omega)).2]
      | none =>
        rw [settled]
        rcases park_sized c hp hn with ⟨-,heq⟩ | ⟨hlt,msg,heq⟩
        · rw [heq]
        · have hinto : e.into=true := by
            cases hi : e.into with
            | true => rfl
            | false =>
              have hno := hcap hd (by rw [Reader.builds,hi]; rfl)
              omega
          rw [heq]
          dsimp only
          rw [mappedPlan_object c (hobject hd),mappedPlan_object c (hobject hd),
            objectPlan_parked hp.real hinto]
    refine ⟨s.store,?_,?_⟩
    · rw [valueStep_prepared hsame]
    · intro why hwhy
      rw [hprep,hsettled] at hwhy
      exact mappedPlan_refuse hc hl htakes hp hwhy

/-- Asking whether a field is accepted and what bounds it delivers nothing. -/
theorem offers_asked (c : Config V) (v : V) (id : ℕ) (p : Pending) :
    (∀ e ∈ (fieldOffer c v id p).1, e.delivers=false ∧ e.scoped=false) ∧
      ∀ e ∈ (boundOffer c v id p).1, e.delivers=false ∧ e.scoped=false := by
  constructor
  · intro e he
    rw [fieldOffer] at he
    split at he
    · cases he
    · rw [List.mem_singleton.mp he]
      exact ⟨rfl,rfl⟩
  · intro e he
    rw [boundOffer.eq_def] at he
    split at he
    · rw [List.mem_singleton.mp he]
      exact ⟨rfl,rfl⟩
    · cases he

/-- Asking for a destination delivers nothing. -/
theorem visitPlan_asked (c : Config V) (v : V) (id : ℕ) (t : WireType) (p : Pending) :
    ∀ e ∈ (visitPlan c v id t p).1, e.delivers=false ∧ e.scoped=false := by
  intro e he
  have hobs := (visitPlan_asks v id t p e he).1
  cases e <;> first | exact ⟨rfl,rfl⟩ | cases hobs

/-- More questions were asked. -/
theorem only_asked {v : V} {σ τ : Store V} (h : Reader.Only c σ (.handler v) τ)
    {es : List (Event V)} (hes : ∀ e ∈ es, e.delivers=false ∧ e.scoped=false) :
    Reader.Only c σ (.handler v) (es.foldl Store.call τ) := by
  cases h with
  | asked hfs =>
    rw [←List.foldl_append]
    refine .asked fun e hmem => ?_
    rcases List.mem_append.mp hmem with h | h
    · exact hfs e h
    · exact hes e h

/-- A value a handler reads. -/
theorem handler_heldTo (hp : p.Sized) (hn : p.length ≤ fixlenMax) {v : V}
    (hv : s.visitor=some v) (hf : (fieldOffer c v id p).2=true)
    (hr : s.reader c skip id p=.handler v) :
    HeldTo c s skip id p rest (finish c (offerField c s v id (park c p) rest)) := by
  have hreal : (park c p).real=p := park_real hp.real
  obtain ⟨hfield,hbound⟩ := offers_asked c v id p
  have hoffer : offerField c s v id (park c p) rest=
      match settled (boundOffer c v id p).2 (park c p) with
      | .error why => .fail why {s with
          mode := .header (some (park c p)) none
          store := (boundOffer c v id p).1.foldl Store.call
            ((fieldOffer c v id p).1.foldl Store.call s.store)} rest
      | .ok q => .next {s with
          mode := .value id (.visit p.tag.1) q false
          store := (boundOffer c v id p).1.foldl Store.call
            ((fieldOffer c v id p).1.foldl Store.call s.store)} rest := by
    rw [offerField]
    dsimp only
    rw [fieldOffer_park c v id hp.real,boundOffer_park c v id hp.real,park_tag]
    exact if_pos hf
  rw [hoffer]
  generalize hσ : (boundOffer c v id p).1.foldl Store.call
    ((fieldOffer c v id p).1.foldl Store.call s.store)=σ
  have honly : Reader.Only c s.store (.handler v) σ := by
    rw [←hσ]
    exact only_asked (.asked hfield) hbound
  have hprep : ∀ q, prepare c s.visitor id (.visit p.tag.1) q σ=
      ((visitPlan c v id p.tag.1 q).1.foldl Store.call σ,(visitPlan c v id p.tag.1 q).2) := by
    intro q
    rw [hv]
    rfl
  constructor
  · intro hnone
    rw [hr] at hnone
    cases hnone
  · intro most hd hlt
    rw [hr] at hd ⊢
    have hd : (boundOffer c v id p).2=some most := hd
    obtain ⟨why,hwhy,hcls⟩ := ((settled_sized hp (park c p) hreal most).resolve_left
      fun h => by omega).2
    rw [hd,hwhy]
    exact ⟨why,_,rfl,hcls,honly⟩
  · intro hd hb hlt
    rw [hr] at hd hb ⊢
    have hd : (boundOffer c v id p).2=none := hd
    obtain ⟨msg,hmsg⟩ := ((park_sized c hp hn).resolve_left fun h => by omega).2
    rw [hd,hmsg,settled]
    have hrefuse := (congrArg (·.2.2) (hprep (.limit msg p))).trans
      (visitPlan_capped v id hp msg hb)
    obtain ⟨t,ht,hstore⟩ := finish_refused (s:={s with store := σ}) hrefuse rest
    refine ⟨.limit msg,t,?_,rfl,?_⟩
    · show run c _ rest=_
      rw [run_value c {s with store := σ}]
      exact ht
    · rw [hstore]
      show Reader.Only c s.store _ (prepare c s.visitor id _ _ σ).1
      rw [hprep]
      exact only_asked honly (visitPlan_asked c v id _ _)
  · intro r' hroute hle hcap
    rw [hr] at hroute hle hcap
    cases hroute
    have hq : ∃ q, settled (boundOffer c v id p).2 (park c p)=.ok q ∧
        visitPlan c v id p.tag.1 q=visitPlan c v id p.tag.1 p := by
      cases hd : (boundOffer c v id p).2 with
      | some most =>
        exact ⟨p,((settled_sized hp (park c p) hreal most).resolve_right
          fun h => absurd (hle most hd) (by omega)).2,rfl⟩
      | none =>
        refine ⟨park c p,rfl,?_⟩
        rcases park_sized c hp hn with ⟨-,heq⟩ | ⟨hlt,msg,heq⟩
        · rw [heq]
        · rw [heq]
          refine visitPlan_parked v id hp msg ?_
          cases hb : Reader.builds c id p (.handler v) with
          | false => rfl
          | true =>
            have hno := hcap hd hb
            omega
    obtain ⟨q,hset,hplan⟩ := hq
    rw [hset]
    have hsame : prepare c s.visitor id (.visit p.tag.1) q σ=
        prepare c s.visitor id (.visit p.tag.1) p σ := by
      rw [hprep,hprep,hplan]
    refine ⟨σ,?_,fun why hwhy => ?_⟩
    · show run c _ rest=_
      rw [run_value c {s with store := σ},valueStep_prepared (s:={s with store := σ}) hsame]
    · rw [hprep] at hwhy
      exact visitPlan_refuse v id hp hwhy

/-- A value nobody reads. -/
theorem nobody_heldTo (hp : p.Sized) (hr : s.reader c skip id p=.nobody) {σ : Store V}
    (ho : Reader.Only c s.store .nobody σ) :
    HeldTo c s skip id p rest
      (run c {s with mode := .header (some (park c p)) skip, store := σ} rest) := by
  constructor
  · exact fun _ => ⟨park c p,σ,ho,rfl,drop_parked c hp⟩
  · intro most hd
    rw [hr] at hd
    cases hd
  · intro _ hb
    rw [hr] at hb
    cases hb
  · intro r hroute
    rw [hr] at hroute
    cases hroute

/-- A value that bears a length or a count is held to what the schema declares, or else to
the receiver's cap. -/
theorem run_heldTo (hc : bindWords c=.ok ()) (hm : s.mode=.header none skip)
    (ht : readToken ys=.done (.value id p) rest) (hp : p.Sized) :
    HeldTo c s skip id p rest (run c s ys) := by
  have ha := (readToken_announced ht).1
  have hn := readToken_sized ht
  have hstay : Reader.Only c s.store .nobody s.store := @Reader.Only.asked _ c s.store .nobody [] (by simp)
  rw [run_met hm ht]
  cases skip with
  | some target => exact nobody_heldTo hp rfl hstay
  | none =>
    show HeldTo c s none id p rest (finish c (startValue c s id (park c p) rest))
    rw [startValue,park_tag]
    cases he : matched c s.bmap id p.tag.1 p.tag.2 with
    | some e =>
      have hr : s.reader c none id p=.row e := by
        rw [reader,if_neg (by simp),he]
      exact row_heldTo hc hp ha hn he hr
    | none =>
      dsimp only
      cases hnamed : named c s.bmap id || s.bmap.any c.closed with
      | true =>
        have hr : s.reader c none id p=.nobody := by
          rw [reader,if_neg (by simp),he]
          dsimp only
          rw [if_pos hnamed]
        exact nobody_heldTo hp hr hstay
      | false =>
        rw [if_neg (by decide)]
        cases hv : s.visitor with
        | none =>
          have hr : s.reader c none id p=.nobody := by
            rw [reader,if_neg (by simp),he]
            dsimp only
            rw [if_neg (by rw [hnamed]; decide),hv]
          exact nobody_heldTo hp hr hstay
        | some v =>
          dsimp only
          have hr : s.reader c none id p=
              if (fieldOffer c v id p).2 then .handler v else .nobody := by
            rw [reader,if_neg (by simp),he]
            dsimp only
            rw [if_neg (by rw [hnamed]; decide),hv]
          by_cases hf : (fieldOffer c v id p).2=true
          · rw [if_pos hf] at hr
            exact handler_heldTo hp hn hv hf hr
          · rw [if_neg hf] at hr
            have hdecl : offerField c s v id (park c p) rest=
                decline {s with store := (fieldOffer c v id p).1.foldl Store.call s.store}
                  (park c p) rest := by
              rw [offerField]
              dsimp only
              rw [fieldOffer_park c v id hp.real,if_neg hf]
            rw [hdecl]
            exact nobody_heldTo hp hr (.asked (offers_asked c v id p).1)

end Walk

end SofaBuffers
