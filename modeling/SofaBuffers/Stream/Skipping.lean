import SofaBuffers.Walk.Declined
import SofaBuffers.Stream.Safe
import SofaBuffers.Stream.Recorder

/-!
# Skipping does not disturb what is read

A message a visitor that declines nothing accepts is read by any handler as the
message without the fields the handler declines: fed in chunks of any kind, it
ends as that message does, and where it is not complete a cap, a declared bound
or a declared width rejects a field that is read. What a recording handler is
told is what the visitor was told, the declined fields and sequences left out.
-/

set_option autoImplicit false

namespace SofaBuffers

open Resumable Dec

variable {V : Type}

/-- What an event tells of a field that is read, whoever is told. -/
def Config.told (c : Config V) (e : Event V) : Option (Event Unit) :=
  match e with
  | .value _ id x => some (.value () id x)
  | .sequenceBegin _ id => if c.declined e then none else some (.sequenceBegin () id)
  | .sequenceEnd _ => some (.sequenceEnd ())
  | _ => none

section Told

variable {c : Config V} {raw : Bool} {v : V} {id : ℕ} {x : Datum} {bs : List UInt8}
variable {s σ : Store V} {k : Scope V}

/-- What was told in a storage's calls. -/
def Store.told (c : Config V) (s : Store V) : List (Event Unit) := s.log.filterMap c.told

/-- One more call tells what it tells. -/
theorem told_calls (es : List (Event V)) (s : Store V) :
    (es.foldl Store.call s).told c=s.told c++es.filterMap c.told := by
  rw [Store.told,calls_log,List.filterMap_append]
  rfl

/-- Questions about a field tell nothing. -/
theorem told_offer (c : Config V) (v : V) (id : ℕ) (p : Pending) :
    (Walk.fieldOffer c v id p).1.filterMap c.told=[] ∧
      (Walk.boundOffer c v id p).1.filterMap c.told=[] := by
  constructor
  · rw [Walk.fieldOffer]
    cases (c.hooks v).onField <;> rfl
  · rw [Walk.boundOffer.eq_def]
    split <;> rfl

/-- What a cap is parked on bears a length or a count. -/
theorem parked_sized {msg : String} (h : park c x.extent.pending=.limit msg x.extent.pending) :
    x.extent.pending.Sized := by
  cases x with
  | varray signed raws => trivial
  | farray st n size data => trivial
  | scalar signed raw =>
    rw [park.eq_def] at h
    split at h <;> cases h
  | fixlen st data =>
    cases st with
    | string => exact .inl rfl
    | blob => exact .inr rfl
    | fp32 | fp64 =>
      rw [park.eq_def] at h
      split at h <;> cases h

/-- A recording handler has the decoder build what it takes. -/
theorem Hooks.Records.builds (h : (c.hooks v).Records raw) (id : ℕ) {p : Pending} (hp : p.Sized) :
    (Reader.handler v).builds c id p=true := by
  cases p with
  | fixlen st n =>
    rw [Reader.builds,h.fixlenOffer]
    rfl
  | varray signed n =>
    rw [Reader.builds,arrayOffer,h.array]
    rfl
  | farray st n size =>
    rw [Reader.builds,farrayOffer,h.floats]
    exact Bool.or_true _
  | _ => exact hp.elim

/-- A hook that did not raise was called. -/
theorem deliver_ok {y : Value} (h : Effect.deliver c v id y s=(σ,none)) :
    σ=s.call (.value v id y) := by
  rw [Effect.deliver] at h
  cases hr : (c.hooks v).onValue id y with
  | none =>
    rw [hr] at h
    exact (congrArg Prod.fst h).symm
  | some r =>
    rw [hr] at h
    cases congrArg Prod.snd h

/-- A value that is read is told to a recording handler. -/
theorem told_value (h : (c.hooks v).Records raw) (hk : k.table=none) (hv : k.visitor=some v)
    (hb : Body x bs) (hx : x.extent.Small) (ht : x.Textual)
    (hr : k.reader c id x.extent.pending≠.nobody)
    (hs : valueEffect c k id (park c x.extent.pending) x s=(σ,none)) :
    σ.told c=s.told c++[.value () id (x.value raw)] := by
  have hmatch : ∀ t st, Walk.matched c k.table id t st=none := by
    intro t st
    rw [hk]
    rfl
  have hnamed : (Walk.named c k.table id || k.table.any c.closed)=false := by
    rw [hk]
    rfl
  have haccept : (Walk.fieldOffer c v id x.extent.pending).2=true := by
    rw [Scope.reader,hmatch,hnamed,hv] at hr
    cases hans : (Walk.fieldOffer c v id x.extent.pending).2 with
    | true => rfl
    | false => exact absurd (by simp [hans]) hr
  obtain ⟨hfield,hbound⟩ := told_offer c v id x.extent.pending
  rw [valueEffect,hmatch,hnamed,hv] at hs
  simp only [Bool.false_eq_true,if_false] at hs
  rw [offerValue,fieldOffer_park c v id x.extent.pending_real,calls_andThen,haccept] at hs
  simp only [if_true] at hs
  rw [boundOffer_park c v id x.extent.pending_real,calls_andThen] at hs
  generalize hs₁ : (Walk.boundOffer c v id x.extent.pending).1.foldl Store.call
    ((Walk.fieldOffer c v id x.extent.pending).1.foldl Store.call s)=s₁ at hs
  have htold : s₁.told c=s.told c := by
    rw [←hs₁,told_calls,told_calls,hfield,hbound,List.append_nil,List.append_nil]
  have hdeliver : takeBy c (some v) id (.visit x.extent.pending.tag.1) x.extent.pending x s₁=
      (σ,none) → σ.told c=s.told c++[.value () id (x.value raw)] := by
    intro htake
    rw [records_take h id hb hx ht] at htake
    rw [deliver_ok htake,←htold]
    exact told_calls [.value v id (x.value raw)] s₁
  have hreal : (park c x.extent.pending).real=x.extent.pending := park_real x.extent.pending_real
  cases hset : settled (Walk.boundOffer c v id x.extent.pending).2 (park c x.extent.pending) with
  | error why =>
    rw [hset] at hs
    cases congrArg Prod.snd hs
  | ok q =>
    rw [hset,park_tag] at hs
    dsimp only at hs
    rcases settled_eq hset with rfl|rfl
    · rcases park_cases c x.extent.pending with he|⟨msg,he⟩
      · rw [he] at hs
        exact hdeliver hs
      · have hsized := parked_sized he
        have hplan := visitPlan_capped v id hsized msg (h.builds id hsized)
        rw [he,takeBy,prepare] at hs
        dsimp only at hs
        rw [hplan] at hs
        cases congrArg Prod.snd hs
    · rw [hreal] at hs
      exact hdeliver hs

/-- Calls that tell nothing may be left out. -/
theorem told_filter {f : Event V → Bool} (hf : ∀ e, f e=false → c.told e=none)
    (es : List (Event V)) : (es.filter f).filterMap c.told=es.filterMap c.told := by
  induction es with
  | nil => rfl
  | cons e es ih =>
    cases he : f e with
    | true => rw [List.filter_cons_of_pos he,List.filterMap_cons,ih,List.filterMap_cons]
    | false =>
      rw [List.filter_cons_of_neg (by rw [he]; simp),ih,List.filterMap_cons,hf e he]

/-- Storages that are the same but for declined questions were told the same of the fields that are
read. -/
theorem Store.Same.told {t : Store V} (h : s.Same c t) : s.told c=t.told c := by
  have hfilter := told_filter (c:=c) (f:=fun e => !c.declined e) fun e he => by
    cases e with
    | sequenceBegin w i => rw [Config.told,if_pos (by simpa using he)]
    | value w i y => cases he
    | sequenceEnd w => cases he
    | _ => rfl
  rw [Store.told,Store.told,←hfilter,h.log,hfilter]

/-- Storages that were told the same were told the same of the fields that are read. -/
theorem told_heard {t : Store V} (h : s.Heard t) : s.told c=t.told c := by
  have hfilter := told_filter (c:=c) (f:=Event.observed) fun e he => by
    cases e <;> first | rfl | cases he
  rw [Store.told,Store.told,←hfilter,show s.log.filter Event.observed=_ from h,hfilter]

/-- The start of a sequence that is entered is told to a recording handler, and so is its
end. -/
theorem told_enter (h : (c.hooks v).Records raw) (hk : k.table=none) (hv : k.visitor=some v)
    {into : Entered V} (he : (enter c k id).2=some into) :
    (∃ w, into=⟨⟨some w,none⟩,[.sequenceEnd w]⟩) ∧
      ∃ es, (enter c k id).1=Effect.calls es ∧ es.filterMap c.told=[.sequenceBegin () id] := by
  obtain ⟨begin,hbegin⟩ := Option.isSome_iff_exists.mp h.sequence
  have hoffer : Walk.sequenceOffer c v id=([.sequenceBegin v id],begin id) := by
    rw [Walk.sequenceOffer,hbegin]
  have hmatch : Walk.matched c none id .sequenceStart none=none := rfl
  have hany : (none : Option ℕ).any c.closed=false := rfl
  rw [enter,hk,hv,hmatch,hany] at he ⊢
  simp only [hoffer,Bool.false_eq_true,if_false] at he ⊢
  have hopen : c.declined (.sequenceBegin v id)=false →
      ∃ es, Effect.calls [.sequenceBegin v id]=Effect.calls es ∧
        es.filterMap c.told=[.sequenceBegin () id] := by
    intro hno
    refine ⟨_,rfl,?_⟩
    rw [List.filterMap_cons,Config.told,hno]
    rfl
  rw [Config.declined,hbegin] at hopen
  dsimp only at hopen
  cases hans : begin id with
  | skip =>
    rw [hans] at he
    cases he
  | stay =>
    rw [hans] at he hopen
    cases he
    exact ⟨⟨v,rfl⟩,hopen rfl⟩
  | descend child =>
    rw [hans] at he hopen
    cases he
    exact ⟨⟨child,rfl⟩,hopen rfl⟩

/-- Changes in order that went well. -/
theorem andThen_ok {f g : Effect V} (h : f.andThen g s=(σ,none)) :
    ∃ t, f s=(t,none) ∧ g t=(σ,none) := by
  rw [Effect.andThen] at h
  rcases hf : f s with ⟨t,_|why⟩
  · rw [hf] at h
    exact ⟨t,rfl,h⟩
  · rw [hf] at h
    cases h

/-- Of fields a recording handler is told those that are not declined, in order. -/
theorem told_fields (hrec : ∀ v, (c.hooks v).Records raw) {room : ℕ} {t : Tree}
    (hf : Fields room t bs) (hk : k.table=none) (hv : k.visitor=some v)
    (hs : t.effect c k s=(σ,none)) : σ.told c=s.told c++(t.kept c k).log raw := by
  induction hf generalizing k v s σ with
  | nil =>
    cases hs
    exact (List.append_nil _).symm
  | @value room id x rest hd bs xs ha hb ht _ ih =>
    rw [Tree.effect] at hs
    obtain ⟨s₁,hvalue,hrest⟩ := andThen_ok hs
    have htail := ih hk hv hrest
    have hread : k.reader c id x.extent.pending≠.nobody →
        σ.told c=s.told c++(Tree.value id x (rest.kept c k)).log raw := by
      intro hne
      have hone := told_value (hrec v) hk hv hb ha.small ht hne hvalue
      rw [htail,hone,Tree.log,List.append_assoc]
      rfl
    rw [Tree.kept]
    cases hreader : k.reader c id x.extent.pending with
    | nobody =>
      have hsame := (alike_declined hreader (Store.Same.refl s)).2
      rw [hvalue] at hsame
      rw [htail,hsame.told]
      rfl
    | row e => exact hread (by rw [hreader]; simp)
    | handler w => exact hread (by rw [hreader]; simp)
  | @sequence room id inner rest lead tl xs ys ha htl _ _ ih ih' =>
    rw [Tree.effect] at hs
    obtain ⟨s₁,hstart,hs⟩ := andThen_ok hs
    rw [Tree.kept]
    cases henter : (enter c k id).2 with
    | none =>
      rw [henter] at hs
      have hsame := (alike_skipped henter (Store.Same.refl s)).2
      rw [hstart] at hsame
      rw [ih' hk hv hs,hsame.told]
      rfl
    | some into =>
      rw [henter] at hs
      obtain ⟨⟨w,rfl⟩,es,hes,htold⟩ := told_enter (hrec v) hk hv henter
      obtain ⟨s₂,hinner,hs⟩ := andThen_ok hs
      obtain ⟨s₃,hclose,hs⟩ := andThen_ok hs
      rw [hes] at hstart
      cases hstart
      cases hclose
      rw [ih' hk hv hs,told_calls,ih rfl rfl hinner,told_calls,htold,Tree.log]
      simp only [List.append_assoc]
      rfl

end Told

/-- The event shows in a decode that skips: it is no destination hook, which a suspended read
asks again, and no question answered by declining. -/
def Config.hears (c : Config V) (e : Event V) : Bool := e.observed && !c.declined e

/-- Two decodes end alike but for the questions answered by declining: the same outcome or
exception, the same deliveries, and the same storage if they are complete. -/
inductive SameSkipping (c : Config V) :
    EStateM.Result Exn (Dec V) Status → EStateM.Result Exn (Dec V) Status → Prop
  /-- Both answer. -/
  | answered {st : Status} {d d' : Dec V}
      (heard : d.store.log.filter c.hears=d'.store.log.filter c.hears)
      (stored : st=.complete →
        d.store.word=d'.store.word ∧ d.store.obj=d'.store.obj ∧ d.store.mem=d'.store.mem) :
      SameSkipping c (.ok st d) (.ok st d')
  /-- Both raise. -/
  | raised {e : Exn} {d d' : Dec V}
      (heard : d.store.log.filter c.hears=d'.store.log.filter c.hears) :
      SameSkipping c (.error e d) (.error e d')

/-- What a decode of fields comes to where the destinations suffice. -/
inductive Tree.Comes (c : Config V) (store : Store V) (t : Tree) :
    EStateM.Result Exn (Dec V) Status → Prop
  /-- The message is complete. -/
  | complete {d : Dec V} : Comes c store t (.ok .complete d)
  /-- A declared bound, a declared width or the handler rejects a value. -/
  | invalid {why : Exn} {d : Dec V} (h : t.Rejected c c.scope why) (hw : why.cls=.decode) :
      Comes c store t (.ok .invalid d)
  /-- A cap or the handler rejects one. -/
  | limited {why : Exn} {d : Dec V} (h : t.Rejected c c.scope why) (hw : why.cls=.limit) :
      Comes c store t (.error why d)
  /-- A count of occurrences is full. -/
  | full {why : Exn} {σ : Store V} {d : Dec V} (h : t.effect c c.scope store=(σ,some why))
      (hfull : c.Full σ) : Comes c store t (.error why d)

section Skipping

variable {c : Config V} {r : Reassembly} {store : Store V} {d : Dec V}

/-- Storages that were told the same show the same. -/
theorem hears_of_heard {s t : Store V} (h : s.Heard t) :
    s.log.filter c.hears=t.log.filter c.hears := by
  have hfilter : ∀ es : List (Event V),
      es.filter c.hears=(es.filter Event.observed).filter fun e => !c.declined e := by
    intro es
    rw [List.filter_filter]
    exact List.filter_congr fun e _ => Bool.and_comm _ _
  rw [hfilter,hfilter]
  exact congrArg _ h

/-- Storages that are the same but for declined questions show the same. -/
theorem Store.Same.hears {s t : Store V} (h : s.Same c t) :
    s.log.filter c.hears=t.log.filter c.hears := by
  have hfilter : ∀ es : List (Event V),
      es.filter c.hears=(es.filter fun e => !c.declined e).filter Event.observed := by
    intro es
    rw [List.filter_filter]
    rfl
  rw [hfilter,hfilter,h.log]

/-- Decodes of changes that come to the same end alike. -/
theorem skipping_answers {h h' : Halt (Walk V) UInt8 Exn}
    {res res' : EStateM.Result Exn (Dec V) Status} (ha : Answers h res) (ha' : Answers h' res')
    {x x' : Store V × Option Exn} (hc : Walk.Came h x) (hc' : Walk.Came h' x') (hs : x.2=x'.2)
    (hsame : x.1.Same c x'.1) : SameSkipping c res res' := by
  obtain ⟨σ,e⟩ := x
  obtain ⟨σ',e'⟩ := x'
  cases hs
  cases e with
  | none =>
    obtain ⟨u,rfl,rfl⟩ := hc
    obtain ⟨u',rfl,rfl⟩ := hc'
    cases res with
    | error e d => exact ha.elim
    | ok st d =>
      cases res' with
      | error e d' => exact ha'.elim
      | ok st' d' =>
        obtain ⟨rfl,hd⟩ := ha
        obtain ⟨rfl,hd'⟩ := ha'
        have hword : ∀ {s t : Store V}, Agree ∅ ∅ s t → s.word=t.word ∧ s.mem=t.mem :=
          fun h => ⟨funext fun i => h.word i (Set.notMem_empty i),
            funext fun a => h.mem a (Set.notMem_empty a)⟩
        refine .answered ?_ fun _ => ⟨?_,?_,?_⟩
        · exact (hears_of_heard hd.log).symm.trans (hsame.hears.trans (hears_of_heard hd'.log))
        · exact (hword hd).1.symm.trans (hsame.word.trans (hword hd').1)
        · exact hd.obj.symm.trans (hsame.obj.trans hd'.obj)
        · exact (hword hd).2.symm.trans (hsame.mem.trans (hword hd').2)
  | some why =>
    obtain ⟨u,rest,rfl,rfl⟩ := hc
    obtain ⟨u',rest',rfl,rfl⟩ := hc'
    have hheard : ∀ {d d' : Dec V}, u.store.Heard d.store → u'.store.Heard d'.store →
        d.store.log.filter c.hears=d'.store.log.filter c.hears :=
      fun hd hd' => (hears_of_heard hd).symm.trans (hsame.hears.trans (hears_of_heard hd'))
    cases res with
    | ok st d =>
      cases res' with
      | error e d' => exact absurd ha.2.1 ha'.2.1
      | ok st' d' =>
        obtain ⟨rfl,-,hd⟩ := ha
        obtain ⟨rfl,-,hd'⟩ := ha'
        exact .answered (hheard hd hd') (by simp)
    | error e d =>
      cases res' with
      | ok st' d' => exact absurd ha'.2.1 ha.2.1
      | error e' d' =>
        obtain ⟨rfl,-,hd⟩ := ha
        obtain ⟨rfl,-,hd'⟩ := ha'
        exact .raised (hheard hd hd')

/-- What fields raise that is no verdict, a full count of occurrences raises where the
destinations suffice. -/
theorem fields_fault (h : Dec.init c r store=.ok d) (hh : ∀ v, (c.hooks v).Sufficient)
    (ho : c.Sufficient store.obj) {t : Tree} {s : List UInt8} (hs : Fields maxDepth t s)
    {σ : Store V} {why : Exn} (ht : t.effect c c.scope store=(σ,some why)) (hj : ¬why.Judges) :
    c.Full σ := by
  have hrun := fields_run h hs
  rw [ht] at hrun
  obtain ⟨u,rest,hrun,rfl⟩ := hrun
  obtain ⟨⟨rbuf,-,rfl⟩,hc⟩ := init_ok h
  have hstart := fresh_licensed (Licence.safe c) c rbuf store
  have hlicensed := Walk.run_licensed (safe_covers hc hh) trivial hstart s
  rw [hrun] at hlicensed
  have hrefused : Walk.Refused (Licence.safe c) store why u := hlicensed
  have hshort : c.Short u.store := by
    rcases hrefused.raise why rfl with hcls|hcls|hshort
    · exact absurd (.inl hcls) hj
    · exact absurd (.inr hcls) hj
    · exact hshort
  refine hshort.resolve_right ?_
  rintro ⟨i,n,hasks,hn⟩
  obtain ⟨htakes,hstores⟩ := ho i n hasks
  rw [show u.store.obj i=store.obj i from hrefused.obj i hstores] at hn
  exact hn htakes

/-- A decode of fields comes to what they do. -/
theorem fields_comes (h : Dec.init c r store=.ok d) (hh : ∀ v, (c.hooks v).Sufficient)
    (ho : c.Sufficient store.obj) {t : Tree} {s : List UInt8} (hs : Fields maxDepth t s)
    {res : EStateM.Result Exn (Dec V) Status} (ha : Answers (Walk.run c d.view s) res) :
    t.Comes c store res := by
  have hcame := fields_run h hs
  have hplain := (plain_tree (c:=c) hs c.scope).verdict store
  rcases heffect : t.effect c c.scope store with ⟨σ,_|why⟩
  · rw [heffect] at hcame
    obtain ⟨u,hrun,rfl⟩ := hcame
    rw [hrun] at ha
    cases res with
    | error e d => exact ha.elim
    | ok st d =>
      obtain ⟨rfl,-⟩ := ha
      exact .complete
  · rw [heffect] at hcame hplain
    obtain ⟨u,rest,hrun,rfl⟩ := hcame
    rw [hrun] at ha
    cases res with
    | ok st d =>
      obtain ⟨rfl,hw,-⟩ := ha
      exact .invalid (hplain why rfl (.inl hw)) hw
    | error e d =>
      obtain ⟨rfl,hne,-⟩ := ha
      by_cases hw : e.cls=.limit
      · exact .limited (hplain e rfl (.inr hw)) hw
      · exact .full heffect (fields_fault h hh ho hs heffect fun hj => hj.elim hne hw)

/-- Chunks are decoded as the message without the fields that are declined. -/
structure Skips (c : Config V) (raw : Bool) (store : Store V) (d : Dec V) (s : List UInt8) (t : Tree)
    (res : EStateM.Result Exn (Dec V) Status) : Prop where
  /-- The decode ends as that of the bytes left does. -/
  removed : ∃ left : List UInt8, left.Sublist s ∧ Fields maxDepth (t.kept c c.scope) left ∧
    SameSkipping c res (feed c left d)
  /-- It is complete unless a field that is read is rejected. -/
  outcome : (∀ v, (c.hooks v).Sufficient) → c.Sufficient store.obj →
    t.Comes c store res
  /-- A recording handler is told of the fields that are read. -/
  told : (∀ v, (c.hooks v).Records raw) → c.forest=none → ∀ d', res=.ok .complete d' →
    d'.store.told c=store.told c++(t.kept c c.scope).log raw

/-- A decoder that could be built without a table has a handler. -/
theorem visited (h : Dec.init c r store=.ok d) (hf : c.forest=none) : ∃ v, c.visitor=some v := by
  cases hv : c.visitor with
  | some v => exact ⟨v,rfl⟩
  | none =>
    rw [Dec.init,hf,hv] at h
    cases h

/-- Skipping never disturbs what is read: what a visitor that declines nothing accepts, any
handler is fed in chunks of any kind as the message without the fields it declines. -/
theorem feed_skipping (h : Dec.init c r store=.ok d) {raw : Bool} {r₀ : Reassembly}
    {store₀ : Store Unit} {d₀ d₁ : Dec Unit} (h₀ : Dec.init (recorder raw) r₀ store₀=.ok d₀)
    {chunks : List (List UInt8)} (hs : feed (recorder raw) chunks.flatten d₀=.ok .complete d₁)
    (hfit : chunks.flatten.length ≤ d.rbuf.length) :
    ∃ t, Fields maxDepth t chunks.flatten ∧ d₁.store.log=store₀.log++t.log raw ∧
      Skips c raw store d chunks.flatten t (feedAll c .complete chunks d) := by
  obtain ⟨t,ht,hlog⟩ := fields_accepted h₀ hs
  obtain ⟨left,hsub,hleft⟩ := ht.kept c c.scope
  have hwhole := fresh_answers h chunks hfit
  have hone := fresh_answers h [left]
    (by rw [List.flatten_singleton]; exact hsub.length_le.trans hfit)
  rw [feedAll_one,List.flatten_singleton] at hone
  obtain ⟨hsame,hstore⟩ := alike_kept ht c.scope (Store.Same.refl (c:=c) store)
  have hcame := fields_run h ht
  refine ⟨t,ht,hlog,⟨left,hsub,hleft,?_⟩,fun hh ho => ?_,fun hrec hf d' hd' => ?_⟩
  · exact skipping_answers hwhole hone hcame (fields_run h hleft) hsame hstore
  · exact fields_comes h hh ho ht hwhole
  · rw [hd'] at hwhole
    rcases heffect : t.effect c c.scope store with ⟨σ,_|why⟩
    · rw [heffect] at hcame
      obtain ⟨u,hrun,rfl⟩ := hcame
      rw [hrun] at hwhole
      obtain ⟨-,hd⟩ := hwhole
      obtain ⟨v,hv⟩ := visited h hf
      rw [←told_heard hd.log]
      exact told_fields hrec ht (by rw [Config.scope,hf]; rfl) hv heffect
    · rw [heffect] at hcame
      obtain ⟨u,rest,hrun,rfl⟩ := hcame
      rw [hrun] at hwhole
      cases hwhole.1

end Skipping

/-- A visitor that declines the fields of id 2 and the sequences of id 3 and caps strings. -/
def chooser : Config Unit where
  hooks _ := {
    onField := some fun f => f.id≠2
    onSequenceBegin := some fun id => if id=3 then .skip else .stay
    wantsF32Bits := true
    wantsF32ArrayBits := true }
  visitor := some ()
  maxDynStringLen := 3

/-- A string of id 2 past the cap, a sequence of id 3 and an integer behind them. -/
def choices : List (List UInt8) :=
  [[0x12,0x22,0x61],[0x62,0x63,0x64,0x1E,0x08],[0x05,0x07,0x08,0x07]]

/-- The choices are a message. -/
theorem choices_fields : Fields maxDepth
    (.value 2 (.fixlen .string [0x61,0x62,0x63,0x64])
      (.sequence 3 (.value 1 (.scalar false 5) .nil) (.value 1 (.scalar false 7) .nil)))
    choices.flatten := by
  have hword : ∀ b : UInt8, b.toNat < 128 → Word [b] b.toNat := by
    intro b hb
    have hlast := Varint.Spells.last (i:=0) hb (Or.inl (by decide))
    simpa using hlast
  have hone : Announces [0x08] (.value 1 (.scalar false)) :=
    .scalar false ⟨hword 0x08 (by decide),by decide⟩
  have htext : Announces ([0x12]++[0x22]) (.value 2 (.fixlen .string 4)) :=
    .fixlen (n:=4) ⟨hword 0x12 (by decide),by decide⟩ (hword 0x22 (by decide))
      (show 4 ≤ fixlenMax by decide)
  have hint : ∀ {room : ℕ} (b : UInt8), b.toNat < 128 →
      Fields room (.value 1 (.scalar false b.toNat) .nil) ([0x08]++([b]++[])) :=
    fun b hb => .value hone (.scalar false (hword b hb)) trivial (.nil _)
  have hstart : Announces [0x1E] (.start 3) := .start ⟨hword 0x1E (by decide),by decide⟩
  have hend : Header [0x07] 0 .sequenceEnd := ⟨hword 0x07 (by decide),by decide⟩
  have hstop : Announces [0x07] .stop := .stop hend
  have hutf : Utf8.valid [0x61,0x62,0x63,0x64]=true := by decide
  have hrest : Fields (254+1) (.sequence 3 (.value 1 (.scalar false 5) .nil)
      (.value 1 (.scalar false 7) .nil)) _ :=
    .sequence hstart hstop (hint 0x05 (by decide)) (hint 0x07 (by decide))
  have hfields := Fields.value (x:=.fixlen .string [0x61,0x62,0x63,0x64]) htext (.fixlen .string _)
    hutf hrest
  exact hfields

/-- The visitor is fed it as the integer alone. -/
theorem feed_skipping_choices :
    ∃ t, Skips chooser true blank (Dec.fresh chooser (List.replicate 16 0) blank) choices.flatten t
      (feedAll chooser .complete choices (Dec.fresh chooser (List.replicate 16 0) blank)) := by
  obtain ⟨d₁,hfeed,-⟩ := feed_recorder init_recorder choices_fields
  have hinit : Dec.init chooser (.size 16) blank=
      .ok (Dec.fresh chooser (List.replicate 16 0) blank) := rfl
  obtain ⟨t,-,-,hskips⟩ := feed_skipping hinit init_recorder hfeed (by decide)
  exact ⟨t,hskips⟩

end SofaBuffers
