import SofaBuffers.Walk.Ready
import SofaBuffers.Walk.Refine
import SofaBuffers.Walk.Chunk

/-!
# What well-formed fields do

The meaning of a row of fields is a change of the handler's storage, read off
the fields themselves: whose a value is, how a sequence is entered and what is
done at its end. A walk over the bytes of the fields makes that change and is
where it was.
-/

set_option autoImplicit false

namespace SofaBuffers

open Resumable

variable {V : Type}

/-- What governs a scope. -/
structure Scope (V : Type) where
  /-- The handler, if there is one. -/
  visitor : Option V
  /-- The table, unless the handler opened the scope. -/
  table : Option ℕ
  deriving DecidableEq

/-- What governs a message. -/
def Config.scope (c : Config V) : Scope V := ⟨c.visitor,c.forest.map fun _ => 0⟩

/-- Hook calls in order. -/
def Effect.calls (es : List (Event V)) : Effect V := .update (es.foldl Store.call)

/-- Hook calls come before what follows them. -/
theorem calls_andThen (es : List (Event V)) (f : Effect V) (s : Store V) :
    (Effect.calls es).andThen f s=f (es.foldl Store.call s) := rfl

/-- Read a whole value by a route. -/
def takeBy (c : Config V) (v : Option V) (id : ℕ) (r : Route) (p : Pending) (x : Datum) :
    Effect V := fun s =>
  let ready := prepare c v id r p s
  ready.2.2.take c x ready.1

/-- Offer a whole value to a handler. -/
def offerValue (c : Config V) (v : V) (id : ℕ) (p : Pending) (x : Datum) : Effect V :=
  let offer := Walk.fieldOffer c v id p
  (Effect.calls offer.1).andThen
    (if offer.2 then
      let ask := Walk.boundOffer c v id p
      (Effect.calls ask.1).andThen
        (match settled ask.2 p with
        | .error why => .raise why
        | .ok q => takeBy c (some v) id (.visit p.tag.1) q x)
    else .done)

/-- What a value does in a scope, its cap being parked. -/
def valueEffect (c : Config V) (k : Scope V) (id : ℕ) (p : Pending) (x : Datum) : Effect V :=
  match Walk.matched c k.table id p.tag.1 p.tag.2 with
  | some e => takeBy c k.visitor id (.mapped e) p x
  | none =>
    if Walk.named c k.table id || k.table.any c.closed then .done
    else
      match k.visitor with
      | none => .done
      | some v => offerValue c v id p x

/-- A sequence that is entered. -/
structure Entered (V : Type) where
  /-- What governs it. -/
  inside : Scope V
  /-- The calls made when it ends. -/
  closing : List (Event V)

/-- What the start of a sequence does in a scope, and how it is entered unless it is
skipped. -/
def enter (c : Config V) (k : Scope V) (id : ℕ) : Effect V × Option (Entered V) :=
  match Walk.matched c k.table id .sequenceStart none with
  | some e =>
    ((arrive c e).andThen (Walk.countOccurrence c e),
      some ⟨{visitor := k.visitor, table := e.child},[]⟩)
  | none =>
    if k.table.any c.closed then (.done,none)
    else
      match k.visitor with
      | none => (.done,none)
      | some v =>
        let offer := Walk.sequenceOffer c v id
        let inside (v : V) : Entered V :=
          ⟨{visitor := some v, table := none},[.sequenceEnd v]⟩
        (Effect.calls offer.1,
          match offer.2 with
          | .skip => none
          | .stay => some (inside v)
          | .descend child => some (inside child))

/-- What the fields of a scope do. -/
def Tree.effect (c : Config V) (k : Scope V) : Tree → Effect V
  | .nil => .done
  | .value id x rest => (valueEffect c k id (park c x.extent.pending) x).andThen (rest.effect c k)
  | .sequence id inner rest =>
    let start := enter c k id
    start.1.andThen
      (match start.2 with
      | none => rest.effect c k
      | some into =>
        (inner.effect c into.inside).andThen
          ((Effect.calls into.closing).andThen (rest.effect c k)))

namespace Walk

/-- What governs the innermost scope. -/
def scope (s : Walk V) : Scope V := ⟨s.visitor,s.bmap⟩

@[simp] theorem scope_visitor (s : Walk V) : s.scope.visitor=s.visitor := rfl

@[simp] theorem scope_table (s : Walk V) : s.scope.table=s.bmap := rfl

/-- The walk is between two constructs that are not skipped, in the scopes of as many open
sequences as are counted. -/
structure Open (c : Config V) (s : Walk V) : Prop where
  /-- It is between two constructs. -/
  between : s.mode=.header none none
  /-- The sequences open are no more than can be. -/
  depth : s.depth ≤ maxDepth
  /-- The handlers suspended are those of open scopes. -/
  stacked : Stacked s.vstack s.depth
  /-- With tables, one is suspended for each open sequence. -/
  tables : c.forest.isSome=true → s.bstack.length=s.depth
  /-- Without tables, none is current or suspended. -/
  bare : c.forest=none → s.bmap=none ∧ s.bstack=[]

/-- A walk over the bytes makes a change of the storage and goes on, unless the change
raises. -/
def Does (c : Config V) (s : Walk V) (xs : List UInt8) (f : Effect V) (s' : Walk V)
    (rest : List UInt8) : Prop :=
  match f s.store with
  | (σ,none) => run c s xs=run c {s' with store := σ} rest
  | (σ,some why) => ∃ u rest', run c s xs=.fail why u rest' ∧ u.store=σ

section Does

variable {c : Config V} {s s' u : Walk V} {xs ys rest : List UInt8} {f g : Effect V}

/-- A walk that makes one change and then another makes both in that order. -/
theorem Does.andThen (hf : Does c s xs f u ys)
    (hg : ∀ σ, Does c {u with store := σ} ys g s' rest) : Does c s xs (f.andThen g) s' rest := by
  rw [Does] at hf ⊢
  rw [Effect.andThen]
  rcases hfs : f s.store with ⟨σ,_|why⟩
  · rw [hfs] at hf
    have hgo := hg σ
    rw [Does] at hgo
    dsimp only at hf hgo ⊢
    rw [hf]
    exact hgo
  · rw [hfs] at hf
    exact hf

/-- A step that makes no change. -/
theorem Does.step (h : Walk.step c s xs=.next u ys) (hs : u.store=s.store)
    (hd : Does c u ys f s' rest) : Does c s xs f s' rest := by
  rw [Does] at hd ⊢
  rw [hs] at hd
  rw [run_next h]
  exact hd

/-- Nothing is done to go on. -/
theorem Does.done (h : run c s xs=run c {s' with store := s.store} rest) :
    Does c s xs .done s' rest := h

/-- A walk is indifferent to how its change is written. -/
theorem Does.congr (h : Does c s xs f s' rest) (he : f s.store=g s.store) :
    Does c s xs g s' rest := by
  rw [Does,←he]
  exact h

end Does

end Walk

/-- Nothing is parked of what leading words announce. -/
@[simp] theorem Extent.pending_real (x : Extent) : x.pending.real=x.pending := by
  cases x <;> rfl

/-- Leading words announce a value that can be announced. -/
theorem Announces.announced {hd : List UInt8} {id : ℕ} {x : Extent}
    (h : Announces hd (.value id x)) : x.pending.Announced :=
  (readToken_announced (h.read [])).1

section Whole

variable {c : Config V}

/-- A varint is dropped as it is spelled. -/
theorem dropVarints_spells {i v : ℕ} {bs : List UInt8} (h : Varint.Spells i bs v) (n : ℕ)
    (rest : List UInt8) : dropVarints (n+1) i (bs++rest)=dropVarints n 0 rest := by
  induction h with
  | @last i b hb hi =>
    rw [List.singleton_append,dropVarints]
    rcases hi with hi|⟨hi,hb1⟩
    · rw [if_neg (by omega),if_pos (show b.toNat < 0x80 from hb)]
    · rw [if_pos (by omega),if_neg (by omega)]
  | @group i b bs v hb hi _ ih =>
    rw [List.cons_append,dropVarints,if_neg (by omega),
      if_neg (show ¬b.toNat < 0x80 from by omega)]
    exact ih

/-- Varints are dropped as they are spelled. -/
theorem dropVarints_all {es : List UInt8} {raws : List ℕ} (h : Varint.SpellsAll es raws)
    (rest : List UInt8) : dropVarints raws.length 0 (es++rest)=.gone rest := by
  induction h with
  | nil => rw [List.nil_append,List.length_nil,dropVarints]
  | cons hv _ ih =>
    rw [List.length_cons,List.append_assoc,dropVarints_spells hv]
    exact ih

/-- A value is parked or it is not. -/
theorem park_cases (c : Config V) (p : Pending) :
    park c p=p ∨ ∃ msg, park c p=.limit msg p := by
  unfold park
  grind

/-- A parked cap does not matter to a value nobody reads. -/
theorem park_drop (c : Config V) (x : Extent) (xs : List UInt8) :
    (park c x.pending).drop xs=dropReal x.pending xs := by
  rcases park_cases c x.pending with he|⟨msg,he⟩
  · rw [he]
    cases x <;> rfl
  · rw [he]
    rfl

/-- A whole value nobody reads is dropped. -/
theorem drop_whole {x : Datum} {bs : List UInt8} (hb : Body x bs) (hx : x.extent.Small)
    (rest : List UInt8) : dropReal x.extent.pending (bs++rest)=.gone rest := by
  have hbytes : ∀ (n : ℕ) (data : List UInt8), data.length=n →
      dropDiscard n 0 0 (data++rest)=.gone rest := by
    intro n data hn
    rw [dropDiscard,if_neg (by rw [List.length_append]; omega),←hn,List.drop_left,dropVarints]
  cases hb with
  | scalar signed h =>
    show dropReal (.scalar signed) _=_
    rw [dropReal,Word.read h]
  | fixlen st => exact hbytes _ _ rfl
  | @varray bs raws signed h =>
    show dropDiscard 0 raws.length 0 (bs++rest)=_
    rw [dropDiscard,if_neg (by omega),List.drop_zero]
    exact dropVarints_all h rest
  | @farray _ count size st h =>
    show dropReal (.farray st count size) _=_
    have hspan := span_eq (V:=Unit) hx fun _ => .done
    have hsize : ¬sysMaxsize < count*size := by
      intro hlt
      rw [Plan.span,if_pos hlt] at hspan
      cases hspan
    rw [dropReal,if_neg hsize]
    exact hbytes _ _ h

/-- What a copy into a buffer is read by fits its payload. -/
theorem suits_bytes (view : Except Exn Dst) (st : FixlenSubtype) (n : ℕ)
    (k : Dst → List UInt8 → Effect V) : (bytesPlan view n k).Suits (.fixlen st n) := by
  cases view with
  | error why => exact .refuse _ why
  | ok view => exact .payload st n (k view)

/-- What the elements of a fixlen array are read by fits them. -/
theorem suits_span {st : FixlenSubtype} {n size : ℕ} (h : Extent.Small (.farray st n size))
    (k : List UInt8 → Effect V) : (Plan.span n size k).Suits (.farray st n size) := by
  rw [span_eq h]
  exact .span st n size k

/-- What a visited fixlen value is read by fits it. -/
theorem suits_fixlen (v : V) (id : ℕ) (p : Pending) (st : FixlenSubtype) (n : ℕ)
    (dst : Option Dst) : (fixlenPlan c v id p st n dst).2.Suits (.fixlen st n) := by
  cases dst with
  | some dst =>
    rw [fixlenPlan]
    split
    · exact suits_bytes _ st n _
    · exact suits_bytes _ st n _
  | none =>
    cases p with
    | limit msg q => exact .refuse _ _
    | _ => exact .payload st n _

/-- What a visited integer array is read by fits it. -/
theorem suits_array (v : V) (id : ℕ) (p : Pending) (signed zigzag : Bool) (n : ℕ)
    (spec : Option Dst × Option ℤ × Option ℤ) :
    (arrayPlan c v id p n zigzag spec).2.Suits (.varray signed n) := by
  obtain ⟨dst,lo,hi⟩ := spec
  cases dst with
  | none =>
    cases p with
    | limit msg q => exact .refuse _ _
    | _ => exact .elements signed zigzag n _ _ _
  | some dst =>
    rw [arrayPlan]
    cases arrayView dst zigzag lo hi n with
    | error why => exact .refuse _ why
    | ok view => exact .elements signed zigzag n _ _ _

/-- What a visited fixlen array is read by fits it. -/
theorem suits_farray (v : V) (id : ℕ) (p : Pending) {st : FixlenSubtype} {n size : ℕ}
    (h : Extent.Small (.farray st n size)) :
    (visitFarrayPlan c v id p st n size).2.2.Suits (.farray st n size) := by
  have hplan : ∀ (width : ℕ) (dst : Option Dst),
      (farrayPlan c v id p n size width dst).2.Suits (.farray st n size) := by
    intro width dst
    cases dst with
    | some dst =>
      rw [farrayPlan]
      cases farrayView dst n with
      | error why => exact .refuse _ why
      | ok view => exact suits_span h _
    | none =>
      cases p with
      | limit msg q => exact .refuse _ _
      | _ => exact suits_span h _
  rw [visitFarrayPlan]
  split
  · split
    · cases p with
      | limit msg q => exact .refuse _ _
      | _ => exact suits_span h _
    · exact hplan 4 _
  · exact hplan 8 _

/-- What a visited value is read by fits it. -/
theorem suits_visit (v : V) (id : ℕ) {p : Pending} {x : Extent} (hp : p.real=x.pending)
    (h : x.Small) (t : WireType) (ht : t=x.pending.tag.1) :
    (visitPlan c v id t p).2.2.Suits x := by
  subst ht
  cases x with
  | scalar signed =>
    cases signed with
    | false => exact .scalar _ _
    | true => exact .scalar _ _
  | fixlen st n =>
    simp only [visitPlan,hp,Extent.pending,Pending.tag]
    exact suits_fixlen v id p st n _
  | varray signed n =>
    cases signed with
    | false =>
      simp only [visitPlan,hp,Extent.pending,Pending.tag]
      exact suits_array v id p false false n _
    | true =>
      simp only [visitPlan,hp,Extent.pending,Pending.tag]
      exact suits_array v id p true true n _
  | farray st n size =>
    simp only [visitPlan,hp,Extent.pending,Pending.tag]
    exact suits_farray v id p h

/-- What the value of a string or blob row is read by fits it. -/
theorem suits_object (e : Entry) (s : Store V) {p : Pending} {st : FixlenSubtype} {n : ℕ}
    (hp : p.real=.fixlen st n) : (objectPlan c e s p).2.Suits (.fixlen st n) := by
  rw [objectPlan.eq_def]
  split
  · rw [hp]
    dsimp only
    split
    · split
      · exact suits_bytes _ st n _
      · exact suits_bytes _ st n _
    · exact .refuse _ _
  · cases p with
    | limit msg q => exact .refuse _ _
    | fixlen st' n' =>
      cases hp
      dsimp only
      split
      · exact .payload st n _
      · exact .payload st n _
    | _ => exact .refuse _ _

/-- What the elements of an array row are read by fits them. -/
theorem suits_mappedArray (e : Entry) {p : Pending} {x : Extent} (hp : p.real=x.pending)
    (h : x.Small) (hx : p.real=p) : (mappedArrayPlan c e p).Suits x := by
  rw [hx] at hp
  subst hp
  cases x with
  | varray signed n =>
    rw [Extent.pending,mappedArrayPlan.eq_def]
    dsimp only
    cases e.kind with
    | arrayUnsigned => exact .elements signed false n _ _ _
    | arraySigned => exact .elements signed true n _ _ _
    | arrayBoolean => exact .elements signed false n _ _ _
    | _ => exact .refuse _ _
  | farray st n size => exact suits_span h _
  | scalar signed => exact .refuse _ _
  | fixlen st n => exact .refuse _ _

/-- What a row's value is read by fits it. -/
theorem suits_mapped {e : Entry} {p : Pending} {x : Extent} (s : Store V)
    (hm : e.mismatch x.pending.tag.1 x.pending.tag.2=false) (ha : x.pending.Announced)
    (hp : p.real=x.pending) (h : x.Small) : (mappedPlan c e s p).2.Suits x := by
  have harray : (mappedArrayPlan c e p).Suits x := by
    by_cases hx : p.real=p
    · exact suits_mappedArray e hp h hx
    · cases p with
      | limit msg q => exact .refuse _ _
      | _ => exact absurd rfl hx
  rw [Entry.mismatch,Entry.wt,Entry.st] at hm
  rw [mappedPlan.eq_def]
  generalize e.kind=kind at hm
  cases x with
  | scalar signed =>
    cases signed with
    | false =>
      cases kind with
      | unsigned | boolean => exact .scalar _ _
      | _ => cases hm
    | true =>
      cases kind with
      | signed => exact .scalar _ _
      | _ => cases hm
  | fixlen st n =>
    cases kind with
    | string | bytes => exact suits_object e s hp
    | float64 =>
      cases st with
      | fp64 => cases ha; exact .payload _ _ _
      | fp32 | string | blob => cases hm
    | float32 =>
      cases st with
      | fp32 => cases ha; exact .payload _ _ _
      | fp64 | string | blob => cases hm
    | _ => cases hm
  | varray signed n =>
    cases kind with
    | arrayUnsigned | arraySigned | arrayBoolean => exact harray
    | _ => cases signed <;> cases hm
  | farray st n size =>
    cases kind with
    | arrayFloat32 | arrayFloat64 => exact harray
    | _ => cases hm

/-- What a value is read by fits it, whoever reads it. -/
theorem suits_prepare (v : Option V) (id : ℕ) {r : Route} {p : Pending} {x : Extent} (s : Store V)
    (hr : match r with
      | .visit t => t=x.pending.tag.1
      | .mapped e => e.mismatch x.pending.tag.1 x.pending.tag.2=false)
    (ha : x.pending.Announced) (hp : p.real=x.pending) (h : x.Small) :
    (prepare c v id r p s).2.2.Suits x := by
  cases r with
  | visit t =>
    cases v with
    | none => exact .refuse _ _
    | some v => exact suits_visit v id hp h t hr
  | mapped e =>
    rw [prepare]
    rcases arrive c e s with ⟨σ,_|why⟩
    · dsimp only
      cases hs : settled e.declared p with
      | error why => exact .refuse _ _
      | ok q =>
        have hq : q.real=x.pending := by
          rcases settled_eq hs with rfl|rfl
          · exact hp
          · rw [hp]
            cases x <;> rfl
        exact suits_mapped σ hr ha hq h
    · exact .refuse _ _

end Whole

namespace Walk

section Fields

variable {c : Config V} {s s' : Walk V} {x : Datum} {hd bs rest : List UInt8} {id : ℕ}

/-- Leading words are met. -/
theorem meets {skipping : Option ℕ} (hm : s.mode=.header none skipping) {l : Lead} (ha : Announces hd l)
    (rest : List UInt8) : step c s (hd++rest)=meet c s skipping l.token rest := by
  rw [step,hm]
  dsimp only
  rw [headerStep,if_neg (ha.ne_nil rest),ha.read rest]

/-- A value nobody reads is dropped. -/
theorem run_drop {skip : Option ℕ} (hb : Body x bs) (hx : x.extent.Small) (rest : List UInt8) :
    run c {s with mode := .header (some (park c x.extent.pending)) skip} (bs++rest)=
      run c {s with mode := .header none skip} rest := by
  refine run_next ?_
  show dropStep _ _ skip _=_
  rw [dropStep,park_drop,drop_whole hb hx]

/-- An end marker met in a skip may end it. -/
theorem skips_stop {target : ℕ} {tl : List UInt8} (hm : s.mode=.header none (some target))
    (ha : Announces tl .stop) (hd : 0 < s.depth) (rest : List UInt8) :
    step c s (tl++rest)=.next {s with
      mode := .header none (if target < s.depth-1 then some target else none)
      depth := s.depth-1} rest := by
  have hpos : ¬s.depth ≤ 0 := by omega
  refine (meets hm ha rest).trans ?_
  simp only [Lead.token,meet,onTokenSkipping,hpos,if_false]

/-- Skipped fields are walked over. -/
theorem run_skip {room target : ℕ} {t : Tree} {bs : List UInt8} (hf : Fields room t bs)
    (hm : s.mode=.header none (some target)) (ht : target < s.depth)
    (hd : s.depth+room=maxDepth) (rest : List UInt8) : run c s (bs++rest)=run c s rest := by
  have hsame : ∀ (s : Walk V), s.mode=.header none (some target) →
      ({s with mode := .header none (some target)} : Walk V)=s := by
    rintro ⟨mode,_⟩ rfl
    rfl
  induction hf generalizing s rest with
  | nil => rfl
  | @value room id x tree hd bs xs ha hb _ _ ih =>
    have hmeet := meets (c:=c) hm ha (bs++(xs++rest))
    rw [List.append_assoc,List.append_assoc,run_next hmeet,run_drop hb ha.small,hsame s hm]
    exact ih hm ht hd rest
  | @sequence room id inner tree lead tl xs ys ha htl _ _ ih ih' =>
    rw [List.append_assoc,List.append_assoc,List.append_assoc]
    have hstart : step c s (lead++(xs++(tl++(ys++rest))))=
        .next {s with mode := .header none (some target), depth := s.depth+1}
          (xs++(tl++(ys++rest))) :=
      (meets hm ha _).trans (if_neg (by omega))
    have hstop : step c {s with mode := .header none (some target), depth := s.depth+1}
        (tl++(ys++rest))=.next s (ys++rest) := by
      refine (skips_stop rfl htl (Nat.succ_pos s.depth) _).trans ?_
      simp only [Nat.add_sub_cancel,ht,if_true]
      exact congrArg (Step.next · _) (hsame s hm)
    rw [run_next hstart,ih rfl (Nat.lt_succ_of_lt ht) (by dsimp only; omega),run_next hstop]
    exact ih' hm ht hd rest

/-- A value read by a route makes its change. -/
theorem does_take {s : Walk V} (hm : s.mode=.header none none) (hb : Body x bs) {r : Route}
    {p : Pending} (hp : (prepare c s.visitor id r p s.store).2.2.Suits x.extent)
    (rest : List UInt8) :
    Does c {s with mode := .value id r p false} (bs++rest) (takeBy c s.visitor id r p x) s rest := by
  have hsame : ∀ σ, ({s with mode := .header none none, store := σ} : Walk V)={s with store := σ} := by
    intro σ
    rw [←hm]
  have hstep : step c {s with mode := .value id r p false} (bs++rest)=
      valueStep c {s with mode := .value id r p false} id r p (bs++rest) := rfl
  rw [valueStep] at hstep
  dsimp only at hstep
  rw [read_whole c hb hp] at hstep
  rw [Does,takeBy]
  dsimp only
  rcases hf : (prepare c s.visitor id r p s.store).2.2.take c x
    (prepare c s.visitor id r p s.store).1 with ⟨σ,_|why⟩
  · rw [hf] at hstep
    rw [run_next hstep]
    exact congrArg (run c · rest) (hsame σ)
  · rw [hf] at hstep
    exact ⟨_,_,run_fail hstep,rfl⟩

/-- An offered value makes the change its handler's answers lead to. -/
theorem does_offer {s : Walk V} (hm : s.mode=.header none none) {v : V} (hv : s.visitor=some v)
    (hb : Body x bs) (ha : x.extent.pending.Announced) (hx : x.extent.Small) {xs : List UInt8}
    (hstep : step c s xs=offerField c s v id (park c x.extent.pending) (bs++rest)) :
    Does c s xs (offerValue c v id (park c x.extent.pending) x) s rest := by
  have hp : (park c x.extent.pending).real=x.extent.pending := park_real x.extent.pending_real
  have hback : ∀ σ, run c {s with mode := .header none none, store := σ} rest=
      run c {s with store := σ} rest := by
    intro σ
    rw [←hm]
  rw [offerField] at hstep
  rw [Does,offerValue,calls_andThen]
  dsimp only at hstep ⊢
  generalize (fieldOffer c v id (park c x.extent.pending)).1.foldl Store.call s.store=σ₁ at hstep ⊢
  cases haccept : (fieldOffer c v id (park c x.extent.pending)).2 with
  | false =>
    rw [haccept] at hstep
    have hdrop := @run_drop _ c {s with store := σ₁} _ _ none hb hx rest
    exact ((run_next hstep).trans hdrop).trans (hback σ₁)
  | true =>
    rw [haccept] at hstep
    simp only [if_true] at hstep ⊢
    rw [calls_andThen]
    generalize (boundOffer c v id (park c x.extent.pending)).1.foldl Store.call σ₁=σ₂ at hstep ⊢
    cases hs : settled (boundOffer c v id (park c x.extent.pending)).2 (park c x.extent.pending) with
    | error why =>
      rw [hs] at hstep
      exact ⟨_,_,run_fail hstep,rfl⟩
    | ok q =>
      rw [hs] at hstep
      dsimp only at hstep ⊢
      have hq : q.real=x.extent.pending := by
        rcases settled_eq hs with rfl|rfl
        · exact hp
        · rw [hp,x.extent.pending_real]
      have htake := does_take (c:=c) (s:={s with store := σ₂}) hm hb
        (suits_prepare s.visitor id (r:=.visit (park c x.extent.pending).tag.1) σ₂
          (by rw [park_tag]) ha hq hx) rest
      rw [run_next hstep]
      exact htake.congr (by dsimp only; rw [hv])

/-- A value makes the change it means in its scope. -/
theorem does_value {s : Walk V} (hm : s.mode=.header none none)
    (ha : Announces hd (.value id x.extent)) (hb : Body x bs) (rest : List UInt8) :
    Does c s (hd++(bs++rest)) (valueEffect c s.scope id (park c x.extent.pending) x) s rest := by
  have hx := ha.small
  have hann := ha.announced
  have hp : (park c x.extent.pending).real=x.extent.pending := park_real x.extent.pending_real
  have hback : ({s with mode := .header none none} : Walk V)=s := by rw [←hm]
  have hstep : step c s (hd++(bs++rest))=
      startValue c s id (park c x.extent.pending) (bs++rest) := meets hm ha _
  have hdecline : step c s (hd++(bs++rest))=decline s (park c x.extent.pending) (bs++rest) →
      Does c s (hd++(bs++rest)) .done s rest := by
    intro h
    refine Does.done ?_
    rw [run_next h,run_drop hb hx,hback]
  rw [startValue] at hstep
  rw [valueEffect]
  simp only [scope_table,scope_visitor]
  cases hmatch : matched c s.bmap id (park c x.extent.pending).tag.1
    (park c x.extent.pending).tag.2 with
  | some e =>
    rw [hmatch] at hstep
    have htag := matched_mismatch hmatch
    rw [park_tag] at htag
    refine Does.step hstep rfl ?_
    exact does_take hm hb (suits_prepare s.visitor id s.store htag hann hp hx) rest
  | none =>
    rw [hmatch] at hstep
    dsimp only at hstep ⊢
    split at hstep
    · next hnamed => exact (hdecline hstep).congr (congrFun (if_pos hnamed).symm _)
    · next hnamed =>
      refine Does.congr ?_ (congrFun (if_neg hnamed).symm _)
      cases hv : s.visitor with
      | none =>
        rw [hv] at hstep
        exact hdecline hstep
      | some v =>
        rw [hv] at hstep
        exact does_offer hm hv hb hann hx hstep

end Fields

end Walk

end SofaBuffers
