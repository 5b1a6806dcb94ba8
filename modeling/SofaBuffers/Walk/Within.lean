import SofaBuffers.Walk.Licence
import SofaBuffers.Walk.Chunk

/-!
# Reads keep to a licence

A read asks the handler for a destination or sees a row arrive, and then makes
the change its plan says. Each keeps to a licence for the row, or for the
handler's destinations, whatever bytes the value is read off.
-/

set_option autoImplicit false

namespace SofaBuffers

open Resumable

variable {V : Type}

/-- The buffer takes the elements of an integer array as they are declared. -/
structure Dst.Receives (d : Dst) (signed : Bool) (lo hi : Option ℤ) (n : ℕ) : Prop where
  /-- It is a writable, contiguous buffer. -/
  writable : d.writable=true
  /-- The items of the buffer are of the elements' kind. -/
  kind : d.signed=signed
  /-- They hold what is declared. -/
  width : d.itemsize=8 ∨
    ((d.itemsize=1 ∨ d.itemsize=2 ∨ d.itemsize=4) ∧ widthFits d.itemsize signed lo hi=true)
  /-- There is room for them. -/
  room : n*d.itemsize ≤ d.nbytes

/-- What reading for a handler needs. -/
structure Licence.Handler (A : Licence V) (c : Config V) (v : V) : Prop where
  /-- Every hook of it may be called but those of scopes. -/
  call : ∀ e : Event V, e.scoped=false → e.who=v → A.call e
  /-- The destination of a string has room. -/
  string : ∀ g, (c.hooks v).onStringBegin=some g → ∀ id n d, g id n=some d →
    A.Sure (d.Holds 1 n ∧ d.signed=false)
  /-- The destination of a blob has room. -/
  blob : ∀ g, (c.hooks v).onBlobBegin=some g → ∀ id n d, g id n=some d →
    A.Sure (d.Holds 1 n ∧ d.signed=false)
  /-- The destination of an integer array receives it. -/
  array : ∀ g, (c.hooks v).onArrayBegin=some g → ∀ id signed n d lo hi,
    g id (varrayType signed) n=some (some d,lo,hi) → A.Sure (d.Receives signed lo hi n)
  /-- The destination of a float array has room. -/
  floats : ∀ g, (c.hooks v).onFloatArrayBegin=some g → ∀ id st n d, g id st n=some d →
    A.Sure (d.Holds 8 n)

/-- The plan keeps to a licence from a storage on. -/
def Plan.Within (A : Licence V) (c : Config V) (s : Store V) : Plan V → Prop
  | .refuse why => A.raise why s
  | .stuck => True
  | .scalar k => ∀ raw, raw < 2^64 → (k raw).Within A
  | .payload n k => ∀ data, data.length=n → A.given s.obj → A.Allows s (k data s)
  | .elements count bound zigzag into k => ∀ raws : List ℕ, raws.length ≤ count →
      (∀ raw ∈ raws, raw < 2^64 ∧ bound.outside (element zigzag raw)=false) →
      (fillFrom c into 0 (raws.map (element zigzag))).Within A ∧
        (raws.length=count → (k (raws.map (element zigzag))).Within A)

/-- A reading keeps to a licence. -/
def Licence.Reads (A : Licence V) (s : Store V) : Reading V → Prop
  | .done t _ | .more t => A.Allows s (t,none)
  | .bad why t => A.Allows s (t,some why)

/-- A buffer of bytes is refused as the caller's. -/
theorem byteView_cls {who what : String} {o : Obj} {size : ℕ} {e : Exn}
    (h : byteView who what o size=.error e) : e.cls=.argument := by
  rw [byteView] at h
  split at h
  · next hw =>
    cases h
    exact writable_error hw
  · dsimp only at h
    split at h
    · cases h
      rfl
    · split at h <;> cases h
      rfl

/-- A buffer of integers is refused as the caller's. -/
theorem arrayView_cls {d : Dst} {zigzag : Bool} {lo hi : Option ℤ} {n : ℕ} {e : Exn}
    (h : arrayView d zigzag lo hi n=.error e) : e.cls=.argument := by
  rw [arrayView] at h
  split at h
  · next hw =>
    cases h
    exact writable_error hw
  · dsimp only at h
    split at h
    · cases h
      rfl
    · split at h
      · cases h
        rfl
      · split at h <;> cases h
        rfl

/-- A buffer of integers that is taken has room. -/
theorem arrayView_room {d view : Dst} {zigzag : Bool} {lo hi : Option ℤ} {n : ℕ}
    (h : arrayView d zigzag lo hi n=.ok view) : n*view.itemsize ≤ view.nbytes := by
  rw [arrayView] at h
  split at h
  · cases h
  · dsimp only at h
    split at h
    · cases h
    · split at h
      · cases h
      · split at h
        · cases h
        · cases h
          omega

/-- A buffer of doubles is refused as the caller's. -/
theorem farrayView_cls {d : Dst} {n : ℕ} {e : Exn} (h : farrayView d n=.error e) :
    e.cls=.argument := by
  rw [farrayView] at h
  split at h
  · next hw =>
    cases h
    exact writable_error hw
  · dsimp only at h
    split at h
    · cases h
      rfl
    · split at h <;> cases h
      rfl

section Plans

variable {A : Licence V} {c : Config V} {s : Store V}

/-- The elements a scan read fit 64 bits and the declared width. -/
theorem scan_raws (bound : Bound) (zigzag : Bool) (n : ℕ) (xs : List UInt8) :
    ∃ raws : List ℕ, (scan bound zigzag n xs).1=raws.map (element zigzag) ∧ raws.length ≤ n ∧
      ∀ raw ∈ raws, raw < 2^64 ∧ bound.outside (element zigzag raw)=false := by
  induction n generalizing xs with
  | zero => exact ⟨[],rfl,Nat.le_refl _,by simp⟩
  | succ n ih =>
    have hnone : ∃ raws : List ℕ, ([] : List ℤ)=raws.map (element zigzag) ∧ raws.length ≤ n+1 ∧
        ∀ raw ∈ raws, raw < 2^64 ∧ bound.outside (element zigzag raw)=false :=
      ⟨[],rfl,Nat.zero_le _,by simp⟩
    rw [scan]
    cases hr : Varint.read overlong xs with
    | more => exact hnone
    | bad why => exact hnone
    | done raw rest =>
      dsimp only
      split
      · exact hnone
      · next hin =>
        obtain ⟨raws,heq,hlen,hall⟩ := ih rest
        refine ⟨raw::raws,by rw [heq,List.map_cons],Nat.succ_le_succ hlen,fun r hm => ?_⟩
        rcases List.mem_cons.mp hm with rfl | hm
        · exact ⟨Varint.read_lt hr,by simpa using hin⟩
        · exact hall r hm

/-- A read that has its bytes keeps to a licence as its effect does. -/
theorem reads_of {r : Store V × Option Exn} (h : A.Allows s r) (rest : List UInt8) :
    A.Reads s (.of r rest) := by
  rcases r with ⟨t,_|why⟩
  · exact h
  · exact h

/-- Reading a plan that keeps to a licence does. -/
theorem Plan.Within.read {pl : Plan V} (h : pl.Within A c s) (hv : A.Verdicts)
    (hs : A.given s.obj) (xs : List UInt8) : A.Reads s (pl.read c s xs) := by
  have hmore : A.Reads s (.more s : Reading V) := A.allows_done s
  have hbad : ∀ (t : Store V) (why : Exn), why.cls=.decode → A.Allows s (t,none) →
      A.Reads s (.bad why t : Reading V) := by
    intro t why hw ht
    exact ht.trans (A.allows_raise (hv why t (.inl hw)))
  cases pl with
  | refuse why => exact A.allows_raise h
  | stuck => exact hmore
  | scalar k =>
    rw [Plan.read]
    cases hr : Varint.read overlong xs with
    | done raw rest => exact reads_of (h raw (Varint.read_lt hr) s hs) rest
    | more => exact hmore
    | bad why => exact hbad s why (varint_cls xs why hr) (A.allows_done s)
  | payload n k =>
    rw [Plan.read]
    split
    · exact hmore
    · next hlen => exact reads_of (h (xs.take n) (by rw [List.length_take]; omega) hs) _
  | elements count bound zigzag into k =>
    obtain ⟨raws,heq,hlen,hall⟩ := scan_raws bound zigzag count xs
    obtain ⟨hfill,hk⟩ := h raws hlen hall
    have hstored := hfill s hs
    simp only [Plan.read]
    rw [heq]
    rcases hf : fillFrom c into 0 (raws.map (element zigzag)) s with ⟨t,_|why⟩
    · rw [hf] at hstored
      cases ht : (scan bound zigzag count xs).2 with
      | done rest =>
        have hcount := scan_done_length ht
        rw [heq,List.length_map] at hcount
        exact reads_of (hstored.trans (hk hcount t (hstored.given hs))) rest
      | more => exact hstored
      | bad why =>
        rcases scan_bad ht with rfl | rfl
        · exact hbad t _ rfl hstored
        · exact hbad t _ rfl hstored
    · rw [hf] at hstored
      exact hstored

/-- A payload in place keeps to a licence as what is done with it does. -/
theorem within_span {count size : ℕ} {k : List UInt8 → Effect V}
    (h : ∀ data, data.length=count*size → (k data).Within A) :
    (Plan.span count size k).Within A c s := by
  rw [Plan.span]
  split
  · exact trivial
  · exact fun data hdata => h data hdata s

/-- A copy into a buffer that may be refused. -/
theorem within_refused (hany : ∀ why, why.cls=.argument ∨ why.cls=.value → A.raise why s)
    (who what : String) (o : Obj) (n : ℕ) {k : Dst → List UInt8 → Effect V}
    (hk : ∀ view : Dst, (view.signed=false ∨ A.raise .value s) → ∀ data, A.given s.obj →
      A.Allows s (k view data s)) :
    (bytesPlan (byteView who what o n) n k).Within A c s := by
  cases hv : byteView who what o n with
  | error why => exact hany why (.inl (byteView_cls hv))
  | ok view => exact fun data _ => hk view (.inr (hany .value (.inr rfl))) data

/-- A copy into a buffer that was looked at. -/
theorem within_bytes {d : Dst} {n : ℕ} (hd : A.SureAt s (d.Holds 1 n ∧ d.signed=false))
    (who what : String) {k : Dst → List UInt8 → Effect V}
    (hk : ∀ view : Dst, (view.signed=false ∨ A.raise .value s) → ∀ data, A.given s.obj →
      A.Allows s (k view data s)) :
    (bytesPlan (byteView who what (.buffer d) n) n k).Within A c s := by
  rcases hd with ⟨hd,hu⟩ | hany
  · rw [byteView_holds hd]
    exact fun data _ => hk d (.inl hu) data
  · exact within_refused hany who what (.buffer d) n hk

end Plans

section Visits

variable {A : Licence V} {c : Config V} {v : V} {s : Store V}

/-- A handler may be given a value. -/
theorem Licence.Handler.deliver (h : A.Handler c v) (hv : A.Verdicts) (id : ℕ) (x : Value) :
    (Effect.deliver c v id x).Within A := within_deliver (h.call _ rfl rfl) hv

/-- A fixlen value is read for a handler within its licence. -/
theorem fixlenPlan_within (h : A.Handler c v) (hv : A.Verdicts) (id : ℕ) (p : Pending)
    (st : FixlenSubtype) (n : ℕ) :
    (fixlenPlan c v id p st n (fixlenOffer c v id st n).2).2.Within A c s := by
  have hdelivery : ∀ data, (fixlenDelivery c v id st data).Within A := by
    intro data
    cases st with
    | string => exact within_withText hv fun text => h.deliver hv id _
    | blob | fp32 | fp64 => exact h.deliver hv id _
  have hnone : (fixlenPlan c v id p st n none).2.Within A c s := by
    cases p with
    | limit msg q => exact hv _ s (.inr rfl)
    | _ => exact fun data _ => hdelivery data s
  rw [fixlenOffer.eq_def]
  split
  · next _ _ g hg =>
    cases hd : g id n with
    | none => exact hnone
    | some d => exact within_bytes ((h.string g hg id n d hd).at s) _ _ fun view hu data _ => allows_copyText hu hv data
  · next _ _ g hg =>
    cases hd : g id n with
    | none => exact hnone
    | some d => exact within_bytes ((h.blob g hg id n d hd).at s) _ _ fun view hu data _ => allows_copyInto hu data
  · exact hnone

/-- An element inside a width that fits an item fits the item. -/
theorem Dst.Receives.item {d : Dst} {signed : Bool} {lo hi : Option ℤ} {n raw : ℕ}
    (h : d.Receives signed lo hi n) (hraw : raw < 2^64)
    (hin : (Bound.of lo hi signed).outside (element signed raw)=false) :
    (itemRange d.signed d.itemsize).1 ≤ element signed raw ∧
      element signed raw ≤ (itemRange d.signed d.itemsize).2 := by
  rw [h.kind]
  rcases h.width with h8 | ⟨hsize,hfit⟩
  · rw [h8]
    exact element_item hraw
  · rw [Bound.outside,Bound.of] at hin
    rw [widthFits.eq_def] at hfit
    cases signed with
    | false =>
      cases hi with
      | none => cases hfit
      | some hi =>
        simp only [Option.isSome_some,Bool.or_true,Option.getD_some,Bool.true_and,
          Bool.or_eq_false_iff,decide_eq_false_iff_not,Bool.false_eq_true,if_false,
          decide_eq_true_eq,element] at hin hfit ⊢
        rw [itemRange]
        rw [Nat.mul_comm 8]
        simp only [Bool.false_eq_true,if_false]
        omega
    | true =>
      cases lo with
      | none => cases hfit
      | some lo =>
        cases hi with
        | none => cases hfit
        | some hi =>
          simp only [Option.isSome_some,Bool.or_true,Option.getD_some,Bool.true_and,
            Bool.or_eq_false_iff,decide_eq_false_iff_not,if_true,Bool.and_eq_true,
            decide_eq_true_eq] at hin hfit ⊢
          rw [itemRange]
          rw [Nat.mul_comm 8]
          simp only [if_true]
          omega

/-- An element inside a declared width is assigned within a licence. -/
theorem Dst.Receives.fits {d : Dst} {signed : Bool} {lo hi : Option ℤ} {n i raw : ℕ}
    (h : d.Receives signed lo hi n) (hi' : i < n) (hraw : raw < 2^64)
    (hin : (Bound.of lo hi signed).outside (element signed raw)=false) :
    A.Fits c (.buffer d) i (element signed raw) := by
  have hroom : (i+1)*d.itemsize ≤ d.nbytes := (Nat.mul_le_mul_right _ hi').trans h.room
  exact ⟨.inl hroom,.inl (h.item hraw hin)⟩

/-- A destination that receives an array is taken as it is. -/
theorem Dst.Receives.view {d : Dst} {signed : Bool} {lo hi : Option ℤ} {n : ℕ}
    (h : d.Receives signed lo hi n) : arrayView d signed lo hi n=.ok d := by
  have hroom := h.room
  rw [arrayView,SofaBuffers.writable.eq_def]
  dsimp only
  rw [if_pos h.writable]
  dsimp only
  rcases h.width with h8 | ⟨hsize,hfit⟩
  · rw [if_neg (by omega),if_neg (by simp [h8]),if_neg (by omega)]
  · rw [if_neg (by omega),if_neg (by simp [hfit]),if_neg (by omega)]

/-- An integer array is read for a handler within its licence. -/
theorem arrayPlan_within (h : A.Handler c v) (hv : A.Verdicts) (id : ℕ) (p : Pending)
    (signed : Bool) (n : ℕ) :
    (arrayPlan c v id p n signed (arrayOffer c v id (varrayType signed) n).2).2.Within A c s := by
  have hlist : ∀ lo hi, (arrayPlan c v id p n signed (none,lo,hi)).2.Within A c s := by
    intro lo hi
    cases p with
    | limit msg q => exact hv _ s (.inr rfl)
    | _ => exact fun raws _ _ => ⟨within_fillNone 0 _,fun _ => h.deliver hv id _⟩
  rw [arrayOffer]
  cases hg : (c.hooks v).onArrayBegin with
  | none => exact hlist none none
  | some g =>
    dsimp only
    cases ha : g id (varrayType signed) n with
    | none => exact hlist none none
    | some answer =>
      obtain ⟨_|d,lo,hi⟩ := answer
      · exact hlist lo hi
      · rw [Option.getD_some,arrayPlan]
        rcases h.array g hg id signed n d lo hi ha with hr | hany
        · rw [hr.view]
          refine fun raws hlen hall => ⟨within_fillFrom fun k x hk => ?_,fun _ => within_done⟩
          obtain ⟨raw,hraw,rfl⟩ : ∃ raw, raws[k]?=some raw ∧ element signed raw=x := by
            rw [List.getElem?_map] at hk
            exact Option.map_eq_some_iff.mp hk
          obtain ⟨hlt,rfl⟩ := List.getElem?_eq_some_iff.mp hraw
          obtain ⟨h64,hin⟩ := hall _ (List.getElem_mem hlt)
          exact hr.fits (by omega) h64 hin
        · cases hview : arrayView d signed lo hi n with
          | error why => exact hany why s (.inl (arrayView_cls hview))
          | ok view =>
            refine fun raws hlen hall => ⟨within_fillFrom fun k x hk => ?_,fun _ => within_done⟩
            have hlt := (List.getElem?_eq_some_iff.mp hk).1
            rw [List.length_map] at hlt
            have hroom := arrayView_room hview
            rw [Nat.zero_add,Nat.zero_add]
            exact ⟨.inl ((Nat.mul_le_mul_right _ (by omega)).trans hroom),
              .inr fun s => hany .value s (.inr rfl)⟩

/-- A fixlen array is read for a handler within its licence. -/
theorem visitFarrayPlan_within (h : A.Handler c v) (hv : A.Verdicts) (id : ℕ) (p : Pending)
    (st : FixlenSubtype) (n size : ℕ) :
    (visitFarrayPlan c v id p st n size).2.2.Within A c s := by
  have hdoubles : ∀ width, (farrayPlan c v id p n size width (farrayOffer c v id width n).2).2.Within
      A c s := by
    intro width
    have hlist : (farrayPlan c v id p n size width none).2.Within A c s := by
      cases p with
      | limit msg q => exact hv _ s (.inr rfl)
      | _ => exact within_span fun data _ => h.deliver hv id _
    rw [farrayOffer]
    cases hg : (c.hooks v).onFloatArrayBegin with
    | none => exact hlist
    | some g =>
      dsimp only
      cases hd : g id (if width=4 then .fp32 else .fp64) n with
      | none => exact hlist
      | some d =>
        rw [farrayPlan]
        have hstore : ∀ view : Dst, A.Doubles c (.buffer view) 0 n → ∀ data,
            (storeFarray c (.buffer view) 0 n width data).Within A :=
          fun view hr data => within_unpackFarrayInto hr data width 0 (by omega)
        rcases h.floats g hg id _ n d hd with hr | hany
        · rw [farrayView_holds hr]
          exact within_span fun data _ => hstore d (.inl (by rw [Nat.zero_add]; exact hr.room)) data
        · cases hview : farrayView d n with
          | error why => exact hany why s (.inl (farrayView_cls hview))
          | ok view =>
            exact within_span fun data _ => hstore view (.inr fun s => hany .value s (.inr rfl)) data
  rw [visitFarrayPlan]
  split
  · split
    · rw [farrayBitsPlan.eq_def]
      split
      · exact hv _ s (.inr rfl)
      · exact within_span fun data _ => h.deliver hv id _
    · exact hdoubles 4
  · exact hdoubles 8

/-- A value is read for a handler within its licence. -/
theorem visitPlan_within (h : A.Handler c v) (hv : A.Verdicts) (id : ℕ) {p : Pending}
    (hp : p.Announced) : (visitPlan c v id p.tag.1 p).2.2.Within A c s := by
  have htag : p.tag=p.real.tag := by
    cases p <;> rfl
  rw [htag]
  cases hr : p.real with
  | scalar signed =>
    cases signed with
    | false => exact fun raw _ => h.deliver hv id _
    | true => exact fun raw _ => h.deliver hv id _
  | fixlen st n =>
    simp only [visitPlan,hr,Pending.tag]
    exact fixlenPlan_within h hv id p st n
  | varray signed n =>
    cases signed with
    | false =>
      simp only [visitPlan,hr,Pending.tag]
      exact arrayPlan_within h hv id p false n
    | true =>
      simp only [visitPlan,hr,Pending.tag]
      exact arrayPlan_within h hv id p true n
  | farray st n size =>
    simp only [visitPlan,hr,Pending.tag]
    exact visitFarrayPlan_within h hv id p st n size
  | limit msg q =>
    rw [Pending.Announced,hr] at hp
    exact hp.elim
  | discard a b c =>
    rw [Pending.Announced,hr] at hp
    exact hp.elim

end Visits

/-- The length or the count a header announced. -/
def Pending.length (p : Pending) : ℕ :=
  match p.real with
  | .fixlen _ n | .varray _ n | .farray _ n _ => n
  | _ => 0

/-- A value that was settled keeps to what is declared. -/
theorem settled_length {declared : Option ℕ} {p q : Pending} (h : settled declared p=.ok q) :
    ∀ most, declared=some most → p.length ≤ most := by
  intro most hd
  subst hd
  rw [settled] at h
  rw [Pending.length]
  cases hp : p.real with
  | fixlen st n | varray signed n | farray st n size =>
    rw [hp] at h
    dsimp only at h ⊢
    split at h
    · cases h
    · omega
  | _ => exact Nat.zero_le _

section Rows

variable {A : Licence V} {c : Config V} {s : Store V} {e : Entry}

/-- An array's elements have slots within its capacity. -/
theorem Licence.Row.fits (h : A.Row c e) (hk : e.kind.isArray=true) {got k raw : ℕ} (hg : got ≤ e.cap)
    (hi : k < got) (hraw : raw < 2^64) :
    A.Fits c .unsignedWords (e.slot+k) (element false raw) ∧
      A.Fits c .signedWords (e.slot+k) (element true raw) := by
  have hslot := h.array hk (e.slot+k) (by omega) (by omega)
  have hz := Zigzag.decode_range hraw
  refine ⟨⟨hslot,.inl ?_⟩,⟨hslot,.inl hz⟩⟩
  show (0 : ℤ) ≤ raw ∧ (raw : ℤ) < 2^64
  omega

/-- A row takes values of its own wire type. -/
theorem Entry.Takes.type {p : Pending} (h : e.Takes p) : p.real.tag.1=e.kind.tag.1 := by
  have hm := h.1
  rw [Entry.mismatch,Bool.or_eq_false_iff] at hm
  have hreal : p.real.tag=p.tag := by
    cases p <;> rfl
  rw [hreal]
  exact not_not.mp (of_decide_eq_false hm.1)

/-- An array row takes integers or floats as its kind is. -/
theorem Entry.Takes.array {p : Pending} (h : e.Takes p) (hk : e.kind.isArray=true) :
    (∃ signed got, p.real=.varray signed got ∧
      (e.kind=.arrayUnsigned ∨ e.kind=.arraySigned ∨ e.kind=.arrayBoolean)) ∨
      ∃ st got size, p.real=.farray st got size := by
  have ht := h.type
  have ha := h.2
  cases hr : p.real with
  | varray signed got =>
    rw [hr] at ht
    cases hkind : e.kind <;> rw [hkind] at ht hk <;>
      first
      | exact absurd hk (by decide)
      | (cases signed <;> cases ht; done)
      | exact .inl ⟨signed,got,rfl,by simp⟩
  | farray st got size => exact .inr ⟨st,got,size,rfl⟩
  | scalar signed =>
    rw [hr] at ht
    cases hkind : e.kind <;> rw [hkind] at ht hk <;>
      first
      | exact absurd hk (by decide)
      | (cases signed <;> cases ht)
  | fixlen st n =>
    rw [hr] at ht
    cases hkind : e.kind <;> rw [hkind] at ht hk <;>
      first
      | exact absurd hk (by decide)
      | cases ht
  | limit msg q =>
    rw [Pending.Announced,hr] at ha
    exact ha.elim
  | discard a b d =>
    rw [Pending.Announced,hr] at ha
    exact ha.elim

/-- The elements of an array row are stored within its licence. -/
theorem mappedArrayPlan_within (h : A.Row c e) (hk : e.kind.isArray=true) {p : Pending}
    (hp : p.real=p) (hg : p.length ≤ e.cap) (ht : e.Takes p) :
    (mappedArrayPlan c e p).Within A c s := by
  have hcount : ∀ got, (countArrival c e got).Within A := within_countArrival h.count
  have hfill : ∀ (into : Sink) (zigzag : Bool) (bound : Bound) (got : ℕ) (raws : List ℕ),
      (into=.unsignedWords ∧ zigzag=false ∨ into=.signedWords ∧ zigzag=true) → got ≤ e.cap →
      raws.length ≤ got →
      (∀ raw ∈ raws, raw < 2^64 ∧ bound.outside (element zigzag raw)=false) →
      (fillFrom c (some (into,e.slot)) 0 (raws.map (element zigzag))).Within A := by
    intro into zigzag bound got raws hinto hgot hlen hall
    refine within_fillFrom fun k x hx => ?_
    obtain ⟨raw,hraw,rfl⟩ : ∃ raw, raws[k]?=some raw ∧ element zigzag raw=x := by
      rw [List.getElem?_map] at hx
      exact Option.map_eq_some_iff.mp hx
    obtain ⟨hlt,rfl⟩ := List.getElem?_eq_some_iff.mp hraw
    have hboth := h.fits hk hgot (show 0+k < got by omega) (hall _ (List.getElem_mem hlt)).1
    rcases hinto with ⟨rfl,rfl⟩ | ⟨rfl,rfl⟩
    · exact hboth.1
    · exact hboth.2
  have hslots : ∀ got, got ≤ e.cap → ∀ k, e.slot ≤ k → k < e.slot+got → A.Word c k :=
    fun got hgot k hlo hhi => h.array hk k hlo (by omega)
  rcases ht.array hk with ⟨signed,got,hr,hkind⟩ | ⟨st,got,size,hr⟩
  · rw [hp] at hr
    subst hr
    rw [mappedArrayPlan.eq_def]
    dsimp only
    rcases hkind with hkind | hkind | hkind
    · rw [hkind]
      exact fun raws hlen hall =>
        ⟨hfill _ _ _ got raws (.inl ⟨rfl,rfl⟩) hg hlen hall,fun _ => hcount got⟩
    · rw [hkind]
      exact fun raws hlen hall =>
        ⟨hfill _ _ _ got raws (.inr ⟨rfl,rfl⟩) hg hlen hall,fun _ => hcount got⟩
    · rw [hkind]
      exact fun raws hlen hall => ⟨hfill _ _ _ got raws (.inl ⟨rfl,rfl⟩) hg hlen hall,
        fun _ => (within_normaliseBooleans (hslots got hg)).andThen (hcount got)⟩
  · rw [hp] at hr
    subst hr
    refine within_span fun data _ => Effect.Within.andThen ?_ (hcount got)
    exact within_unpackFarrayInto ((h.doubles hk).part (Nat.le_refl _)
      (Nat.add_le_add_left hg _)) data _ 0 (Nat.lt_succ_of_le (Nat.sub_le _ _))

/-- The value of a string or blob row is stored within its licence. -/
theorem objectPlan_within (h : A.Row c e) (hv : A.Verdicts) (hk : e.kind.isObject=true)
    {p : Pending} {st : FixlenSubtype} {n : ℕ} (hp : p.real=.fixlen st n)
    (hn : A.Sure (p.length ≤ fixlenMax))
    (hg : ∀ most, e.declared=some most → p.length ≤ most) (hs : A.given s.obj) :
    (objectPlan c e s p).2.Within A c s := by
  have hcount : ∀ got, (countArrival c e got).Within A := within_countArrival h.count
  have hlen : p.length=n := by rw [Pending.length,hp]
  rw [objectPlan.eq_def]
  by_cases hinto : e.into=true
  · rw [if_pos hinto,hp]
    dsimp only
    rw [hlen] at hg hn
    split
    · have hsure : A.SureAt s (∃ d, s.obj e.slot=.buffer d ∧ d.Holds 1 n ∧ d.signed=false) :=
        (hn.at s).elim (fun hn => h.filled hk hinto s hs n hn hg) .inr
      rcases hsure with ⟨d,hd,hroom⟩ | hany
      · rw [hd]
        split
        · exact within_bytes (.inl hroom) _ _ fun view hu data hs =>
            (allows_copyInto hu data).andThen (hcount n) hs
        · exact within_bytes (.inl hroom) _ _ fun view hu data hs =>
            (allows_copyText hu hv data).andThen (hcount n) hs
      · split
        · exact within_refused hany _ _ _ n fun view hu data hs =>
            (allows_copyInto hu data).andThen (hcount n) hs
        · exact within_refused hany _ _ _ n fun view hu data hs =>
            (allows_copyText hu hv data).andThen (hcount n) hs
    · next hslot => exact ((h.entry hk hinto).resolve_left hslot) s
  · have hobj := h.object hk (by simpa using hinto)
    rw [if_neg hinto]
    cases p with
    | limit msg q => exact hv _ s (.inr rfl)
    | fixlen st' n' =>
      dsimp only
      split
      · exact fun data _ => ((within_putObj hobj _).andThen (hcount 1)) s
      · exact fun data _ =>
          ((within_withText hv fun text => within_putObj hobj _).andThen (hcount 1)) s
    | _ => cases hp

/-- A row's value is stored within its licence. -/
theorem mappedPlan_within (h : A.Row c e) (hv : A.Verdicts) {p : Pending} (ht : e.Takes p)
    (hn : A.Sure (p.length ≤ fixlenMax)) (hg : ∀ most, e.declared=some most → p.length ≤ most)
    (hun : e.kind.isArray=true → p.real=p) (hs : A.given s.obj) :
    (mappedPlan c e s p).2.Within A c s := by
  have hcount : ∀ got, (countArrival c e got).Within A := within_countArrival h.count
  have hscalar : ∀ (into : Sink) (x : ℤ), e.kind.isScalar=true →
      (into=.unsignedWords ∧ 0 ≤ x ∧ x < 2^64 ∨ into=.signedWords ∧ -2^63 ≤ x ∧ x < 2^63) →
      (into.put c e.slot x).Within A := by
    intro into x hk hx
    rcases hx with ⟨rfl,hx⟩ | ⟨rfl,hx⟩
    · exact within_put ⟨h.scalar hk,.inl hx⟩
    · exact within_put ⟨h.scalar hk,.inl hx⟩
  have hobject : e.kind.isObject=true → (objectPlan c e s p).2.Within A c s := by
    intro hk
    have htype := ht.type
    have hann := ht.2
    rw [Pending.Announced] at hann
    cases hr : p.real with
    | fixlen st n => exact objectPlan_within h hv hk hr hn hg hs
    | scalar signed | varray signed n =>
      rw [hr] at htype
      cases hkind : e.kind <;> rw [hkind] at htype hk <;>
        first
        | exact absurd hk (by decide)
        | (cases signed <;> cases htype)
    | farray st n size =>
      rw [hr] at htype
      cases hkind : e.kind <;> rw [hkind] at htype hk <;>
        first
        | exact absurd hk (by decide)
        | cases htype
    | limit msg q | discard a b d =>
      rw [hr] at hann
      exact hann.elim
  have harray : e.kind.isArray=true → (mappedArrayPlan c e p).Within A c s := by
    intro hk
    exact mappedArrayPlan_within h hk (hun hk) (hg e.cap (by rw [Entry.declared,if_pos hk])) ht
  rw [mappedPlan.eq_def]
  cases hkind : e.kind with
  | unsigned =>
    intro raw hraw
    refine Effect.Within.andThen ?_ (hcount 1)
    split
    · exact within_raise fun s => hv _ s (.inl rfl)
    · exact hscalar _ _ (by rw [hkind]; rfl) (.inl ⟨rfl,by omega,by omega⟩)
  | signed =>
    intro raw hraw
    have hz := Zigzag.decode_range hraw
    refine Effect.Within.andThen ?_ (hcount 1)
    split
    · exact within_raise fun s => hv _ s (.inl rfl)
    · exact hscalar _ _ (by rw [hkind]; rfl) (.inr ⟨rfl,hz⟩)
  | boolean =>
    exact fun raw _ => (within_putWord (h.scalar (by rw [hkind]; rfl)) _).andThen (hcount 1)
  | float64 | float32 =>
    exact fun data _ => ((within_putWord (h.scalar (by rw [hkind]; rfl)) _).andThen (hcount 1)) s
  | string | bytes => exact hobject (by rw [hkind]; rfl)
  | sequence =>
    have htype := ht.type
    have hann := ht.2
    rw [Pending.Announced] at hann
    rw [hkind] at htype
    cases hr : p.real with
    | scalar signed | varray signed n => rw [hr] at htype; cases signed <;> cases htype
    | fixlen st n | farray st n size => rw [hr] at htype; cases htype
    | limit msg q | discard a b d => rw [hr] at hann; exact hann.elim
  | arrayUnsigned | arraySigned | arrayBoolean | arrayFloat32 | arrayFloat64 =>
    exact harray (by rw [hkind]; rfl)

end Rows

section Prepared

variable {A : Licence V} {c : Config V} {v : Option V} {id : ℕ} {r : Route} {p : Pending}
variable {s : Store V}

/-- What reading by a route needs. -/
def Licence.Route (A : Licence V) (c : Config V) (v : Option V) : Route → Prop
  | .visit _ => ∃ w, v=some w ∧ A.Handler c w
  | .mapped e => A.Row c e

/-- A bound that was settled takes the cap off an array. -/
theorem settled_array {e : Entry} {q : Pending} (hk : e.kind.isArray=true) (ht : e.Takes p)
    (h : settled e.declared p=.ok q) : q.real=q := by
  rw [Entry.declared,if_pos hk,settled] at h
  rcases ht.array hk with ⟨signed,got,hr,-⟩ | ⟨st,got,size,hr⟩ <;>
    (rw [hr] at h
     dsimp only at h
     split at h
     · cases h
     · cases h
       rfl)

/-- An announced value is parked once at most. -/
theorem Pending.Announced.real_real (h : p.Announced) : p.real.real=p.real := by
  rw [Pending.Announced] at h
  cases hr : p.real with
  | limit msg q => rw [hr] at h; exact h.elim
  | _ => rfl

/-- A row's bound is refused for the message's sake. -/
theorem Entry.Takes.settled_cls {e : Entry} (ht : e.Takes p) {why : Exn}
    (h : SofaBuffers.settled e.declared p=.error why) : why.cls=.decode := by
  have htype := ht.type
  have hann := ht.2
  rw [Pending.Announced] at hann
  rw [SofaBuffers.settled.eq_def] at h
  cases hd : e.declared with
  | none => rw [hd] at h; cases h
  | some most =>
    rw [hd] at h
    dsimp only at h
    cases hr : p.real with
    | fixlen st n | varray signed n | farray st n size =>
      rw [hr] at h
      dsimp only at h
      split at h
      · cases h
        rfl
      · cases h
    | scalar signed =>
      rw [hr] at htype
      rw [Entry.declared] at hd
      cases hkind : e.kind <;> rw [hkind] at htype hd <;>
        first
        | (cases signed <;> cases htype; done)
        | exact absurd hd (by simp [Kind.isArray,Kind.isObject])
    | limit msg q | discard a b d => rw [hr] at hann; exact hann.elim

/-- The cap of an announced value says nothing of its length. -/
theorem Pending.Announced.real_length (h : p.Announced) : p.real.length=p.length := by
  rw [Pending.length,h.real_real,Pending.length]

/-- What is still pending after the preparation is as long. -/
theorem prepare_length (ha : r.Accepts c p) : (prepare c v id r p s).2.1.length=p.length := by
  have hof : ∀ {q : Pending}, p.Announced → q=p ∨ q=p.real → q.length=p.length := by
    rintro q h (rfl | rfl)
    · rfl
    · exact h.real_length
  cases r with
  | visit t =>
    cases v with
    | none => rfl
    | some v => exact hof ha.2 (visitPlan_pending v id t p)
  | mapped e =>
    rw [prepare]
    rcases arrive c e s with ⟨t,_|why⟩
    · dsimp only
      cases hq : settled e.declared p with
      | error why => rfl
      | ok q =>
        have hlen := hof ha.1.2 (settled_eq hq)
        have hann := (ha.1.settled hq).2
        rcases mappedPlan_pending (c:=c) e t q with hp | hp
        · exact (congrArg Pending.length hp).trans hlen
        · exact (congrArg Pending.length hp).trans (hann.real_length.trans hlen)
    · rfl

/-- A read that was prepared keeps to a licence for its route, and so did the
preparation. -/
theorem prepare_within (hr : A.Route c v r) (hv : A.Verdicts) (ha : r.Accepts c p)
    (hn : A.Sure (p.length ≤ fixlenMax)) (hs : A.given s.obj) :
    A.Allows s ((prepare c v id r p s).1,none) ∧
      (prepare c v id r p s).2.2.Within A c (prepare c v id r p s).1 := by
  cases r with
  | visit t =>
    obtain ⟨w,rfl,hw⟩ := hr
    obtain ⟨rfl,hann⟩ := ha
    exact ⟨A.allows_calls (fun e he => hw.call e (Event.unscoped (visitPlan_asks w id _ p e he).1)
      (visitPlan_asks w id _ p e he).2) s,visitPlan_within hw hv id hann⟩
  | mapped e =>
    have harr := within_arrive hr.toArrival s hs
    rw [prepare]
    rcases hf : arrive c e s with ⟨t,_|why⟩
    · rw [hf] at harr
      dsimp only
      cases hset : settled e.declared p with
      | error why =>
        exact ⟨harr,hv _ _ (.inl (ha.1.settled_cls hset))⟩
      | ok q =>
        refine ⟨harr,mappedPlan_within hr hv (ha.1.settled hset) ?_ ?_ ?_ (harr.given hs)⟩
        · rcases settled_eq hset with rfl | rfl
          · exact hn
          · rw [ha.1.2.real_length]
            exact hn
        · have hlen := settled_length hset
          rcases settled_eq hset with rfl | rfl
          · exact hlen
          · rw [ha.1.2.real_length]
            exact hlen
        · exact fun hk => settled_array hk ha.1 hset
    · rw [hf] at harr
      exact ⟨⟨harr.word,harr.obj,harr.log,by simp⟩,harr.raise why rfl⟩

end Prepared

/-- Counting an occurrence keeps to a licence for its slot, which may be full. -/
theorem within_countOccurrence {A : Licence V} {c : Config V} {e : Entry}
    (h : ∀ i, e.countAt=some i → A.Word c i)
    (hfull : ∀ s i, e.countAt=some i → (s.word i).toNat+1=2^64 → A.raise .value s) :
    (Walk.countOccurrence c e).Within A := by
  rw [Walk.countOccurrence]
  cases hc : e.countAt with
  | none => exact within_done
  | some i =>
    have hi := h i hc
    intro s hs
    dsimp only
    split
    · next hn =>
      by_cases hmax : (s.word i).toNat+1=2^64
      · rw [Sink.put,if_pos hn,if_neg (by omega)]
        exact A.allows_raise (hfull s i hc hmax)
      · have hlt := (s.word i).isLt
        exact @within_put _ _ c .unsignedWords _ _ ⟨hi,.inl ⟨by omega,by omega⟩⟩ s hs
    · next hn => exact A.allows_raise ((hi.2.resolve_left hn) s)

/-- Anything may be written and raised, and calls of a kind may be made. -/
def Licence.free (call : Event V → Prop) : Licence V where
  word _ := True
  obj _ := True
  call := call
  raise _ _ := True
  given _ := True
  stable _ _ _ _ := trivial

section Free

variable {c : Config V} {call : Event V → Prop}

/-- Every row may be stored freely. -/
theorem Licence.free_row (c : Config V) (e : Entry) : (Licence.free call).Row c e where
  which _ _ := ⟨trivial,.inr fun _ => trivial⟩
  words _ _ _ := ⟨trivial,.inr fun _ => trivial⟩
  objects _ _ _ := ⟨trivial,.inr fun _ => trivial⟩
  into _ _ _ := within_resetInto (.inr fun _ => trivial) fun _ _ => .inr fun _ _ => trivial
  count _ _ := ⟨trivial,.inr fun _ => trivial⟩
  scalar _ := ⟨trivial,.inr fun _ => trivial⟩
  array _ _ _ _ := ⟨trivial,.inr fun _ => trivial⟩
  doubles _ := ⟨fun _ _ _ => trivial,.inr fun _ => trivial⟩
  object _ _ := ⟨trivial,.inr fun _ => trivial⟩
  entry _ _ := .inr fun _ => trivial
  filled _ _ _ _ _ _ _ := .inr fun _ _ => trivial

/-- A handler that may be called may be read for freely. -/
theorem Licence.free_handler {v : V} (h : ∀ e : Event V, e.scoped=false → e.who=v → call e) :
    (Licence.free call).Handler c v where
  call := h
  string _ _ _ _ _ _ := .inr fun _ _ _ => trivial
  blob _ _ _ _ _ _ := .inr fun _ _ _ => trivial
  array _ _ _ _ _ _ _ _ _ := .inr fun _ _ _ => trivial
  floats _ _ _ _ _ _ _ := .inr fun _ _ _ => trivial

end Free

end SofaBuffers
