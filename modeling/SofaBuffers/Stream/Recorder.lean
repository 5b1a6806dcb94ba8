import Mathlib.Data.List.TakeWhile
import SofaBuffers.Walk.Scopes
import SofaBuffers.Stream.Verdict

/-!
# What a message says

A message fed whole makes the change its fields mean to the handler it is fed
to. A visitor that records what it is told has, in the end, the values and the
scopes of the message in order, and nothing else.
-/

set_option autoImplicit false

namespace SofaBuffers

open Resumable Dec

section Fed

variable {V : Type} {c : Config V} {r : Reassembly} {store : Store V} {d : Dec V}

/-- A fresh decoder is between two constructs and no sequence is open. -/
theorem fresh_open (c : Config V) (rbuf : List UInt8) (store : Store V) :
    (Dec.fresh c rbuf store).view.Open c where
  between := rfl
  depth := Nat.zero_le _
  stacked := .nil 0
  tables _ := rfl
  bare hf := by
    constructor
    · show c.forest.map (fun _ => 0)=none
      rw [hf]
      rfl
    · rfl

/-- A walk made a change and was done, or made it up to where it raised. -/
def Walk.Came (h : Halt (Walk V) UInt8 Exn) (r : Store V × Option Exn) : Prop :=
  match r with
  | (σ,none) => ∃ u, h=.stop u ∧ u.store=σ
  | (σ,some why) => ∃ u rest, h=.fail why u rest ∧ u.store=σ

/-- A walk over a message makes the change its fields mean. -/
theorem fields_run (h : Dec.init c r store=.ok d) {t : Tree} {s : List UInt8}
    (hs : Fields maxDepth t s) : Walk.Came (Walk.run c d.view s) (t.effect c c.scope store) := by
  obtain ⟨⟨rbuf,-,rfl⟩,-⟩ := init_ok h
  have hopen := fresh_open c rbuf store
  have hdoes := Walk.run_fields hs hopen (by show 0+maxDepth=maxDepth; rw [Nat.zero_add]) []
  rw [List.append_nil] at hdoes
  have hscope : (Dec.fresh c rbuf store).view.scope=c.scope := rfl
  have hstore : (Dec.fresh c rbuf store).view.store=store := rfl
  rw [Walk.Does,hscope,hstore] at hdoes
  rcases heffect : t.effect c c.scope store with ⟨σ,_|why⟩
  · rw [heffect] at hdoes
    have hstop : Walk.run c {(Dec.fresh c rbuf store).view with store := σ} []=
        .stop {(Dec.fresh c rbuf store).view with store := σ} := Walk.run_stop rfl
    exact ⟨_,hdoes.trans hstop,rfl⟩
  · rw [heffect] at hdoes
    exact hdoes

/-- A message fed whole makes the change its fields mean. -/
theorem feed_fields (h : Dec.init c r store=.ok d) {t : Tree} {s : List UInt8}
    (hs : Fields maxDepth t s) {σ : Store V} (ht : t.effect c c.scope store=(σ,none)) :
    ∃ d', feed c s d=.ok .complete d' ∧ d'.store=σ := by
  have hrun := fields_run h hs
  rw [ht] at hrun
  obtain ⟨u,hrun,hstore⟩ := hrun
  obtain ⟨⟨rbuf,-,rfl⟩,-⟩ := init_ok h
  have hat := fresh_at c rbuf store
  have hends := feed_ends c hat.idle hat.live s
  rw [FeedEnds,hat.held,if_neg (fun hn => hn.1 rfl),List.nil_append,hrun] at hends
  generalize feed c s (Dec.fresh c rbuf store)=res at hends ⊢
  cases hends with
  | complete hh hat' =>
    injection hh with hh
    refine ⟨_,rfl,?_⟩
    rw [show (_ : Dec V).store=(_ : Dec V).view.store from rfl,hat'.view,←hh]
    exact hstore
  | suspended hh | lost hh | invalid hh | limited hh | raised hh => cases hh

end Fed

/-- A visitor that overrides the value hooks and the sequence hooks and no other; singles it
takes by their bits or as doubles. -/
def recorder (raw : Bool) : Config Unit where
  hooks _ := {
    onSequenceBegin := some fun _ => .stay
    wantsF32Bits := raw
    wantsF32ArrayBits := raw }
  visitor := some ()

/-- A value as a hook receives it. -/
def Datum.value (raw : Bool) : Datum → Value
  | .scalar false v => .unsigned v
  | .scalar true v => .signed (Zigzag.decode v)
  | .fixlen .string data => .string ((Utf8.decode data).getD [])
  | .fixlen .blob data => .bytes data
  | .fixlen .fp32 data =>
    if raw then .float32Bits (unpackU32 data) else .float32 (unpackF32 structF32 data)
  | .fixlen .fp64 data => .float64 (unpackF64 data)
  | .varray false raws => .unsignedArray (raws.map (element false))
  | .varray true raws => .signedArray (raws.map (element true))
  | .farray .fp32 count _ data =>
    if raw then .float32ArrayBits count (data.take (count*4))
    else .float32Array (unpackF32Array structF32 data count 0)
  | .farray _ count _ data => .float64Array (unpackF64Array data count 0)

/-- What a visitor is told of the fields of a scope, in order. -/
def Tree.log (raw : Bool) : Tree → List (Event Unit)
  | .nil => []
  | .value id x rest => .value () id (x.value raw)::rest.log raw
  | .sequence id inner rest =>
    .sequenceBegin () id::(inner.log raw++.sequenceEnd ()::rest.log raw)

/-- The handler takes every value by a typed hook and is told of every sequence; it may
decline any of them, and bound them. -/
structure Hooks.Records {V : Type} (h : Hooks V) (raw : Bool) : Prop where
  /-- It is told of sequences. -/
  sequence : h.onSequenceBegin.isSome=true
  /-- It offers no destination for integers. -/
  array : h.onArrayBegin=none
  /-- It offers no destination for a blob. -/
  blob : h.onBlobBegin=none
  /-- It offers no destination for a string. -/
  string : h.onStringBegin=none
  /-- It offers no destination for floats. -/
  floats : h.onFloatArrayBegin=none
  /-- Whether it takes singles by their bits. -/
  bits : h.wantsF32Bits=raw
  /-- Whether it takes arrays of singles by their bits. -/
  arrayBits : h.wantsF32ArrayBits=raw

section Records

variable {V : Type} {c : Config V} {raw : Bool} {v : V} {x : Datum} {bs : List UInt8}

/-- The elements of an array are told at once when it is read to its end. -/
theorem record_elements (c : Config V) (zigzag : Bool) (raws : List ℕ) (k : List ℤ → Effect V) :
    (Plan.elements raws.length (.of none none zigzag) zigzag none k).take c (.varray zigzag raws)=
      k (raws.map (element zigzag)) := by
  have hfill : ∀ xs : List ℤ, fillFrom c none 0 xs=.done := by
    intro xs
    cases xs <;> rfl
  simp only [Plan.take,within_none,hfill,Nat.lt_irrefl,if_false]
  rfl

/-- No destination is offered for a payload. -/
theorem Hooks.Records.fixlenOffer (h : (c.hooks v).Records raw) (id : ℕ) (st : FixlenSubtype)
    (n : ℕ) : SofaBuffers.fixlenOffer c v id st n=([],none) := by
  rw [SofaBuffers.fixlenOffer.eq_def,h.string,h.blob]
  cases st <;> rfl

/-- A whole value is given to a recording handler. -/
theorem records_take (h : (c.hooks v).Records raw) (id : ℕ) (hb : Body x bs)
    (hx : x.extent.Small) (ht : x.Textual) :
    takeBy c (some v) id (.visit x.extent.pending.tag.1) x.extent.pending x=
      .deliver c v id (x.value raw) := by
  cases hb with
  | scalar signed hw => cases signed <;> rfl
  | fixlen st =>
    have hplan : takeBy c (some v) id (.visit .fixlen) (.fixlen st bs.length) (.fixlen st bs)=
        fixlenDelivery c v id st bs := by
      funext s
      rw [takeBy,prepare,visitPlan]
      dsimp only [Pending.real]
      rw [h.fixlenOffer]
      rfl
    refine hplan.trans ?_
    cases st with
    | fp32 => rw [fixlenDelivery,h.bits,Datum.value]
    | fp64 | blob => rfl
    | string =>
      obtain ⟨text,htext⟩ := Option.isSome_iff_exists.mp ht
      rw [fixlenDelivery,withText,Datum.value,htext]
      rfl
  | @varray bs raws signed hw =>
    have hplan : takeBy c (some v) id (.visit (varrayType signed)) (.varray signed raws.length)
        (.varray signed raws)=
          (Plan.elements raws.length (.of none none signed) signed none fun out =>
            .deliver c v id (if signed then .signedArray out else .unsignedArray out)).take c
              (.varray signed raws) := by
      funext s
      cases signed with
      | false =>
        show takeBy c (some v) id (.visit .arrayUnsigned) _ _ s=_
        rw [takeBy,prepare,visitPlan]
        dsimp only [Pending.real]
        rw [arrayOffer,h.array]
        rfl
      | true =>
        show takeBy c (some v) id (.visit .arraySigned) _ _ s=_
        rw [takeBy,prepare,visitPlan]
        dsimp only [Pending.real]
        rw [arrayOffer,h.array]
        rfl
    rw [record_elements] at hplan
    cases signed with
    | false => exact hplan
    | true => exact hplan
  | @farray _ count size st hl =>
    have hspan : ∀ k : List UInt8 → Effect V,
        (Plan.span count size k).take c (.farray st count size bs)=k bs := by
      intro k
      rw [span_eq hx]
      rfl
    have hplan : takeBy c (some v) id (.visit .arrayFixlen) (.farray st count size)
        (.farray st count size bs)=fun s =>
          let r := visitFarrayPlan c v id (.farray st count size) st count size
          r.2.2.take c (.farray st count size bs) (r.1.foldl Store.call s) := rfl
    refine hplan.trans (funext fun s => ?_)
    rw [visitFarrayPlan,farrayOffer,farrayOffer,h.floats,h.arrayBits]
    cases st with
    | fp32 =>
      cases raw with
      | true =>
        show (Plan.span count size _).take _ _ s=_
        rw [hspan]
        rfl
      | false =>
        show (Plan.span count size _).take _ _ s=_
        rw [hspan]
        rfl
    | fp64 =>
      show (Plan.span count size _).take _ _ s=_
      rw [hspan]
      rfl
    | string | blob => exact hx.1.elim

end Records

section Recorder

variable {raw : Bool} {x : Datum} {bs : List UInt8}

/-- A recording visitor declines nothing, and nothing is capped. -/
theorem recorder_welcoming (raw : Bool) : (recorder raw).Welcoming where
  table := rfl
  array := rfl
  string := rfl
  blob := rfl
  hooks _ := {
    field := by intro g h; cases h
    sequence := by intro g h id; cases h; simp
    bound := by intro g h; cases h
    value := fun _ _ => rfl
    array := by intro g h; cases h
    blob := by intro g h; cases h
    string := by intro g h; cases h
    floats := by intro g h; cases h }

/-- A recording visitor records what it is told. -/
theorem recorder_records (raw : Bool) : ((recorder raw).hooks ()).Records raw :=
  ⟨rfl,rfl,rfl,rfl,rfl,rfl,rfl⟩

/-- A whole value is told to the visitor. -/
theorem record_value (raw : Bool) (id : ℕ) (hb : Body x bs) (hx : x.extent.Small)
    (ht : x.Textual) (s : Store Unit) :
    takeBy (recorder raw) (some ()) id (.visit x.extent.pending.tag.1) x.extent.pending x s=
      (s.call (.value () id (x.value raw)),none) := by
  rw [records_take (recorder_records raw) id hb hx ht]
  rfl

/-- The fields of a scope are told to the visitor in order. -/
theorem record_fields (raw : Bool) {room : ℕ} {t : Tree} {s : List UInt8} (h : Fields room t s)
    (σ : Store Unit) :
    t.effect (recorder raw) ⟨some (),none⟩ σ=({σ with log := σ.log++t.log raw},none) := by
  induction h generalizing σ with
  | nil =>
    rw [Tree.effect,Tree.log,List.append_nil]
    rfl
  | @value room id x rest hd bs xs h hb ht _ ih =>
    have hpark := (recorder_welcoming raw).park x.extent.pending
    have hvalue := record_value raw id hb h.small ht σ
    rw [Tree.effect,hpark,Effect.andThen]
    have hoffer : valueEffect (recorder raw) ⟨some (),none⟩ id x.extent.pending x σ=
        takeBy (recorder raw) (some ()) id (.visit x.extent.pending.tag.1) x.extent.pending x σ := rfl
    rw [hoffer,hvalue]
    dsimp only
    rw [ih,Store.call,Tree.log,List.append_assoc]
    rfl
  | @sequence room id inner rest hd tl xs ys h ht _ _ ih ih' =>
    have henter : enter (recorder raw) ⟨some (),none⟩ id=
        (Effect.calls [.sequenceBegin () id],some ⟨⟨some (),none⟩,[.sequenceEnd ()]⟩) := rfl
    rw [Tree.effect,henter]
    dsimp only
    rw [calls_andThen,Effect.andThen,ih]
    dsimp only
    rw [calls_andThen,ih',Tree.log]
    simp [Store.call]

/-- A message is accepted by a recording visitor, and what the visitor was told is the
message. -/
theorem feed_recorder {r : Reassembly} {store : Store Unit} {d : Dec Unit}
    (h : Dec.init (recorder raw) r store=.ok d) {t : Tree} {s : List UInt8}
    (hs : Fields maxDepth t s) :
    ∃ d', feed (recorder raw) s d=.ok .complete d' ∧
      d'.store={store with log := store.log++t.log raw} :=
  feed_fields h hs (record_fields raw hs store)

/-- A string a recording visitor accepts is a message of fields the visitor was told. -/
theorem fields_accepted {r : Reassembly} {store : Store Unit} {d d₁ : Dec Unit}
    (h : Dec.init (recorder raw) r store=.ok d) {s : List UInt8}
    (hs : feed (recorder raw) s d=.ok .complete d₁) :
    ∃ t, Fields maxDepth t s ∧ d₁.store.log=store.log++t.log raw := by
  have hwelcome := recorder_welcoming raw
  rcases string_cases s with ⟨t,ht⟩ | hbad | ⟨n,hcut⟩
  · obtain ⟨d',hfeed,hstore⟩ := feed_recorder h ht
    rw [hs] at hfeed
    cases hfeed
    exact ⟨t,ht,congrArg Store.log hstore⟩
  · obtain ⟨d',hfeed⟩ := feed_malformed hwelcome h hbad
    rw [hs] at hfeed
    cases hfeed
  · rcases feed_truncated hwelcome h hcut with ⟨-,d',hfeed⟩ | ⟨-,d',hfeed⟩
    · rw [hs] at hfeed
      cases hfeed
    · rw [hs] at hfeed
      cases hfeed

end Recorder

/-- The decoder under the recording visitor can be built. -/
theorem init_recorder :
    Dec.init (recorder true) (.size 16) blank=
      .ok (Dec.fresh (recorder true) (List.replicate 16 0) blank) := rfl

end SofaBuffers
