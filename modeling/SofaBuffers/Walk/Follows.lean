import SofaBuffers.Walk.Told

/-!
# The walk follows the constructs

A walk over a string is, between any two of its steps, behind some constructs of
it and at most a part of the next one. It is in the scopes those constructs come
to, and has made the calls they lead to and those of the part. It is suspended
where the next construct is not whole, and refused only where the next one is.
-/

set_option autoImplicit false

namespace SofaBuffers

open Resumable

variable {V : Type}

/-- What is behind a walk over a string: constructs, the scopes they come to, and the calls
made since. -/
structure Account (c : Config V) (before : List (Event V)) (total : List UInt8) (ms : List Mark)
    (fs : List (Enclosure V)) (k : ℕ) (es new : List (Event V)) (rest : List UInt8)
    (log : List (Event V)) : Prop where
  /-- The bytes of the constructs come before those that are left. -/
  bytes : ∃ done, Marked ms done ∧ total=done++rest
  /-- The constructs come to the scopes and lead to calls. -/
  told : Told c ms fs k es
  /-- The other calls are those of a value that is there in part, outside a skip. -/
  begun : new≠[] → k=0 ∧ ∃ hd id x ys, Announces hd (.value id x) ∧ rest=hd++ys
  /-- They are made on the handler of the innermost scope. -/
  mine : c.Mine fs new
  /-- Nothing else was called. -/
  log : log=before++(es++new)

/-- The construct that comes next, if it is whole, is refused. -/
def Config.Stuck (c : Config V) (before : List (Event V)) (fs : List (Enclosure V)) (k : ℕ)
    (es : List (Event V)) (rest : List UInt8) : Prop :=
  ∃ σ : Store V, σ.log=before++es ∧
    ∀ m bs ys, Mark.Spelled m bs → rest=bs++ys → c.Refuses fs k σ m

section Account

variable {c : Config V} {before es new log : List (Event V)} {total rest : List UInt8}
variable {ms : List Mark} {fs : List (Enclosure V)} {k : ℕ}

/-- No calls are anybody's. -/
theorem mine_nil (c : Config V) (fs : List (Enclosure V)) : c.Mine fs [] :=
  fun _ he => absurd he List.not_mem_nil

/-- Calls of the same handler go together. -/
theorem Config.Mine.append {old : List (Event V)} (h : c.Mine fs old) (h' : c.Mine fs new) :
    c.Mine fs (old++new) := by
  intro e he
  rcases List.mem_append.mp he with he | he
  · exact h e he
  · exact h' e he

/-- A construct that was taken is behind the walk. -/
theorem Account.taken {bs : List UInt8} (h : Account c before total ms fs k es new (bs++rest) log)
    {m : Mark} (hm : m.Spelled bs) {fs' : List (Enclosure V)} {k' : ℕ} {es' log' : List (Event V)}
    (ht : Told c (ms++[m]) fs' k' es') (hl : log'=before++es') :
    Account c before total (ms++[m]) fs' k' es' [] rest log' where
  bytes := by
    obtain ⟨done,hdone,htotal⟩ := h.bytes
    exact ⟨done++bs,.snoc hm hdone,by rw [htotal,List.append_assoc]⟩
  told := ht
  begun hn := absurd rfl hn
  mine := mine_nil c fs'
  log := by rw [hl,List.append_nil]

/-- A value that begins is not behind the walk yet. -/
theorem Account.more {log' : List (Event V)} (h : Account c before total ms fs 0 es [] rest log)
    {hd ys : List UInt8} {id : ℕ} {x : Extent} (ha : Announces hd (.value id x))
    (hr : rest=hd++ys) (hnew : c.Mine fs new) (hl : log'=log++new) :
    Account c before total ms fs 0 es new rest log' where
  bytes := h.bytes
  told := h.told
  begun _ := ⟨rfl,hd,id,x,ys,ha,hr⟩
  mine := hnew
  log := by rw [hl,h.log,List.append_nil,List.append_assoc]

/-- More bytes behind those that are left change nothing. -/
theorem Account.behind (h : Account c before total ms fs k es new rest log) (ys : List UInt8) :
    Account c before (total++ys) ms fs k es new (rest++ys) log where
  bytes := by
    obtain ⟨done,hdone,htotal⟩ := h.bytes
    exact ⟨done,hdone,by rw [htotal,List.append_assoc]⟩
  told := h.told
  begun hn := by
    obtain ⟨hk,hd,id,x,zs,ha,hzs⟩ := h.begun hn
    exact ⟨hk,hd,id,x,zs++ys,ha,by rw [hzs,List.append_assoc]⟩
  mine := h.mine
  log := h.log

/-- Where nothing is whole nothing is refused. -/
theorem stuck_of_unfinished (hu : Unfinished rest) {σ : Store V} (hσ : σ.log=before++es) :
    c.Stuck before fs k es rest :=
  ⟨σ,hσ,fun m bs ys hm he => absurd he (hu m bs ys hm)⟩

end Account

namespace Walk

/-- What a step on a value comes to: with its bytes there, the change it means in the
innermost scope; else it waits, or the value is one that is refused there. -/
def ReadsTo (c : Config V) (fs : List (Enclosure V)) (id : ℕ) (x : Extent) (σ : Store V)
    (xs : List UInt8) : WalkStep V → Prop
  | .next t rest => ∃ y bs τ, Datum.extent y=x ∧ Body y bs ∧ xs=bs++rest ∧
      valueEffect c (c.within fs) id (park c x.pending) y σ=(τ,none) ∧ τ.Heard t.store
  | .wait _ _ => ∀ y bs ys, Datum.extent y=x → Body y bs → xs≠bs++ys
  | .stop _ => False
  | .fail _ _ _ => ∀ y bs ys, Datum.extent y=x → Body y bs → xs=bs++ys →
      (valueEffect c (c.within fs) id (park c x.pending) y σ).2≠none

/-- A walk over a string is between two constructs of it, or is dropping or reading a value. -/
inductive Follows (c : Config V) (before : List (Event V)) (total : List UInt8) (s : Walk V)
    (xs : List UInt8) : Prop
  /-- It is between two constructs. -/
  | between {ms : List Mark} {fs : List (Enclosure V)} {k : ℕ} {es : List (Event V)}
      (hm : s.mode=.header none s.skipping)
      (h : Account c before total ms fs k es [] xs s.store.log) (hn : Nests c fs k s)
  /-- It is behind the leading words of a value that nobody reads, and some bytes of it. -/
  | dropping {ms : List Mark} {fs : List (Enclosure V)} {k : ℕ} {es new : List (Event V)}
      {hd used : List UInt8} {id : ℕ} {x : Extent} {q : Pending}
      (hm : s.mode=.header (some q) s.skipping) (ha : Announces hd (.value id x))
      (h : Account c before total ms fs k es new (hd++(used++xs)) s.store.log) (hn : Nests c fs k s)
      (hq : ∀ ys, q.drop (xs++ys)=dropReal x.pending (used++(xs++ys)))
      (ht : ∀ y, Datum.extent y=x → Told c (ms++[.value id y]) fs k (es++new))
  /-- It is behind the leading words of a value it reads. -/
  | reading {ms : List Mark} {fs : List (Enclosure V)} {es new : List (Event V)}
      {hd : List UInt8} {id : ℕ} {x : Extent} {r : Route} {p : Pending} {b : Bool} {σ : Store V}
      (hm : s.mode=.value id r p b) (ha : Announces hd (.value id x))
      (h : Account c before total ms fs 0 es new (hd++xs) s.store.log) (hn : Nests c fs 0 s)
      (hσ : σ.log=before++es) (hr : ∀ ys, ReadsTo c fs id x σ (xs++ys) (step c s (xs++ys)))

/-- The walk is where the next construct is not whole. -/
def Suspended (c : Config V) (before : List (Event V)) (total : List UInt8) (s : Walk V)
    (ys : List UInt8) : Prop :=
  ∃ ms fs k es new rest, Account c before total ms fs k es new rest s.store.log ∧
    Nests c fs k s ∧ Unfinished rest ∧ ys<:+rest

/-- What a step of such a walk leaves: it goes on, is suspended before a construct that is
not whole, ends in no scope, or is refused with the next construct. -/
def Leaves (c : Config V) (before : List (Event V)) (total : List UInt8) : WalkStep V → Prop
  | .next s rest => Follows c before total s rest
  | .wait s rest => Follows c before total s rest ∧ Suspended c before total s rest
  | .stop s => Follows c before total s [] ∧
      ∃ ms es, Account c before total ms [] 0 es [] [] s.store.log ∧ Nests c [] 0 s
  | .fail _ s _ => ∃ ms fs k es new rest,
      Account c before total ms fs k es new rest s.store.log ∧ c.Stuck before fs k es rest

section Follows

variable {c : Config V} {before es new : List (Event V)} {total xs rest hd : List UInt8}
variable {ms : List Mark} {fs : List (Enclosure V)} {k id : ℕ} {s : Walk V} {x : Extent}

/-- A walk that has met a value nobody reads drops it. -/
theorem Follows.declined (hm : s.mode=.header (some (park c x.pending)) s.skipping)
    (ha : Announces hd (.value id x))
    (h : Account c before total ms fs k es new (hd++xs) s.store.log) (hn : Nests c fs k s)
    (ht : ∀ y, Datum.extent y=x → Told c (ms++[.value id y]) fs k (es++new)) :
    Follows c before total s xs := by
  have hnone : Account c before total ms fs k es new (hd++([]++xs)) s.store.log := h
  exact .dropping hm ha hnone hn (fun ys => park_drop c x _) ht

/-- A sequence or an end marker that is met is taken or refused. -/
theorem Moves.leaves {m : Mark} {r : WalkStep V} (hr : Moves c fs k s m rest r)
    (h : Account c before total ms fs k es [] (hd++rest) s.store.log) (hm : m.Spelled hd)
    (hone : ∀ m' bs ys, m'.Spelled bs → hd++rest=bs++ys → m'=m) : Leaves c before total r := by
  have hlog := h.log
  rw [List.append_nil] at hlog
  cases hr with
  | next hn hm' hl ht =>
    refine .between hm' (h.taken hm (ht h.told) ?_) hn
    rw [hl,hlog,List.append_assoc]
  | fail hl hr =>
    refine ⟨ms,fs,k,es,[],hd++rest,?_,s.store,hlog,?_⟩
    · rw [hl]
      exact h
    · intro m' bs ys hm' heq
      rw [hone m' bs ys hm' heq]
      exact hr

/-- A value nobody is offered leads to nothing. -/
theorem hears_nothing (he : ∀ y, Datum.extent y=x →
      valueEffect c (c.within fs) id (park c x.pending) y=.done) {y : Datum}
    (hy : Datum.extent y=x) (σ : Store V) : c.Hears fs id y [] := by
  refine ⟨mine_nil c fs,σ,σ,?_,by rw [List.append_nil]⟩
  rw [hy,he y hy]
  rfl

/-- A read that has just begun reads to what the value means. -/
theorem readsTo_prepared {r : Route} {p : Pending} {σ : Store V} (hm : s.mode=.value id r p false)
    (hp : (prepare c s.visitor id r p s.store).2.2.Suits x)
    (he : ∀ y, Datum.extent y=x → valueEffect c (c.within fs) id (park c x.pending) y σ=
      takeBy c s.visitor id r p y s.store) (zs : List UInt8) :
    ReadsTo c fs id x σ zs (step c s zs) := by
  -- a value that is there is read as what it means
  have hwhole : ∀ {y : Datum} {bs ys : List UInt8}, Datum.extent y=x → Body y bs → zs=bs++ys →
      (prepare c s.visitor id r p s.store).2.2.read c (prepare c s.visitor id r p s.store).1 zs=
        .of (valueEffect c (c.within fs) id (park c x.pending) y σ) ys := by
    intro y bs ys hy hb hzs
    rw [he y hy,takeBy]
    subst hy hzs
    exact read_whole c hb hp _ ys
  rw [step,hm]
  simp only [Bool.false_and,Bool.false_eq_true,if_false]
  rw [valueStep]
  cases hpl : (prepare c s.visitor id r p s.store).2.2.read c
    (prepare c s.visitor id r p s.store).1 zs with
  | done τ rest =>
    obtain ⟨y,bs,hy,hb,hzs⟩ := read_spells hp hpl
    obtain ⟨heff,-⟩ := Reading.of_done ((hwhole hy hb hzs).symm.trans hpl)
    exact ⟨y,bs,τ,hy,hb,hzs,heff,rfl⟩
  | more τ =>
    intro y bs ys hy hb hzs
    have hall := (hwhole hy hb hzs).symm.trans hpl
    rcases hv : valueEffect c (c.within fs) id (park c x.pending) y σ with ⟨υ,_|why⟩ <;>
      rw [hv] at hall <;> cases hall
  | bad why τ =>
    intro y bs ys hy hb hzs hnone
    have hall := (hwhole hy hb hzs).symm.trans hpl
    rcases hv : valueEffect c (c.within fs) id (park c x.pending) y σ with ⟨υ,_|why'⟩
    · rw [hv] at hall
      cases hall
    · rw [hv] at hnone
      cases hnone

/-- Steps that agree read to the same. -/
theorem ReadsTo.congr {σ : Store V} {zs : List UInt8} {a b : WalkStep V}
    (h : ReadsTo c fs id x σ zs b) (he : StepEqv (Alike c) Heard a b) :
    ReadsTo c fs id x σ zs a := by
  cases he with
  | next ha =>
    obtain ⟨τ,rfl,hagree⟩ := ha
    obtain ⟨y,bs,υ,hy,hb,hzs,heff,hheard⟩ := h
    exact ⟨y,bs,υ,hy,hb,hzs,heff,Eq.trans hheard hagree.log.symm⟩
  | wait => exact h
  | stop => exact h
  | fail => exact h

/-- A handler is the one asked whether it accepts a field. -/
theorem mine_fieldOffer {v : V} (hv : (c.within fs).visitor=some v) (id : ℕ) (p : Pending) :
    c.Mine fs (fieldOffer c v id p).1 := by
  intro e he
  rw [fieldOffer.eq_def] at he
  split at he
  · cases he
  · rw [List.mem_singleton.mp he]
    exact ⟨rfl,hv⟩

/-- A handler is the one asked what bounds a field. -/
theorem mine_boundOffer {v : V} (hv : (c.within fs).visitor=some v) (id : ℕ) (p : Pending) :
    c.Mine fs (boundOffer c v id p).1 := by
  intro e he
  rw [boundOffer.eq_def] at he
  split at he
  · rw [List.mem_singleton.mp he]
    exact ⟨rfl,hv⟩
  · cases he

/-- A value offered to a handler is declined, refused or read. -/
theorem leaves_offerField (hm : s.mode=.header none none) (ha : Announces hd (.value id x))
    (h : Account c before total ms fs 0 es [] (hd++rest) s.store.log) (hn : Nests c fs 0 s)
    {v : V} (hv : s.visitor=some v)
    (hmeant : ∀ y, Datum.extent y=x → valueEffect c (c.within fs) id (park c x.pending) y=
      offerValue c v id (park c x.pending) y) :
    Leaves c before total (offerField c s v id (park c x.pending) rest) := by
  have hskip : s.skipping=none := by rw [skipping,hm]
  have hlog := h.log
  rw [List.append_nil] at hlog
  have hwho : (c.within fs).visitor=some v := hn.visitor.symm.trans hv
  have hfield : c.Mine fs (fieldOffer c v id (park c x.pending)).1 := mine_fieldOffer hwho id _
  rw [offerField]
  dsimp only
  cases haccept : (fieldOffer c v id (park c x.pending)).2 with
  | false =>
    refine .declined (s:={s with
        mode := .header (some (park c x.pending)) none
        store := (fieldOffer c v id (park c x.pending)).1.foldl Store.call s.store})
      rfl ha (h.more ha rfl hfield (calls_log _ _)) (hn.change _ hskip.symm) fun y hy => ?_
    refine .value ⟨hfield,s.store,_,?_,congrArg _ (calls_log _ _)⟩ h.told
    rw [hy,hmeant y hy,offerValue]
    dsimp only
    rw [haccept]
    rfl
  | true =>
    simp only [if_true]
    have hcalls : ((boundOffer c v id (park c x.pending)).1.foldl Store.call
        ((fieldOffer c v id (park c x.pending)).1.foldl Store.call s.store)).log=s.store.log++
          ((fieldOffer c v id (park c x.pending)).1++
            (boundOffer c v id (park c x.pending)).1) := by
      rw [calls_log,calls_log,List.append_assoc]
    have hmore := h.more ha rfl (hfield.append (mine_boundOffer hwho id _)) hcalls
    cases hset : settled (boundOffer c v id (park c x.pending)).2 (park c x.pending) with
    | error why =>
      refine ⟨ms,fs,0,es,_,hd++rest,hmore,s.store,hlog,?_⟩
      intro m bs ys hspell heq
      obtain ⟨y,cs,rfl,hy,-,-⟩ := hspell.value_inv ha heq
      refine .value rfl ?_
      rw [hy,hmeant y hy,offerValue]
      dsimp only
      rw [haccept,hset]
      simp only [calls_andThen,if_true,Effect.raise]
      simp
    | ok q =>
      have hreal : (park c x.pending).real=x.pending := park_real x.pending_real
      have hq : q.real=x.pending := by
        rcases settled_eq hset with rfl | rfl
        · exact hreal
        · rw [hreal,x.pending_real]
      refine .reading (σ:=s.store) rfl ha hmore (hn.change _ hskip.symm) hlog fun ys => ?_
      have hsuits := fun τ => suits_prepare (c:=c) (r:=.visit (park c x.pending).tag.1)
        s.visitor id τ (by rw [park_tag]) ha.announced hq ha.small
      refine readsTo_prepared (s:={s with
        mode := .value id (.visit (park c x.pending).tag.1) q false, store := _}) rfl
        (hsuits _) (fun y hy => ?_) _
      rw [hmeant y hy,offerValue]
      dsimp only
      rw [haccept,hset,hv]
      rfl

/-- A value that is met outside a skip is read, dropped or refused. -/
theorem leaves_startValue (hm : s.mode=.header none none) (ha : Announces hd (.value id x))
    (h : Account c before total ms fs 0 es [] (hd++rest) s.store.log) (hn : Nests c fs 0 s) :
    Leaves c before total (startValue c s id (park c x.pending) rest) := by
  have hskip : s.skipping=none := by rw [skipping,hm]
  have hlog := h.log
  rw [List.append_nil] at hlog
  -- nobody reads the value, and nobody was asked
  have hdecline : (∀ y, Datum.extent y=x →
      valueEffect c (c.within fs) id (park c x.pending) y=.done) →
      Leaves c before total (decline s (park c x.pending) rest) := by
    intro he
    exact .declined (s:={s with mode := .header (some (park c x.pending)) none}) rfl ha h
      (hn.change s.store hskip.symm) fun y hy => .value (hears_nothing he hy s.store) h.told
  rw [startValue]
  cases hmatch : matched c s.bmap id (park c x.pending).tag.1 (park c x.pending).tag.2 with
  | some e =>
    have htag := matched_mismatch hmatch
    rw [park_tag] at htag
    refine .reading (s:={s with mode := .value id (.mapped e) (park c x.pending) false})
      (σ:=s.store) rfl ha h (hn.change s.store hskip.symm) hlog fun ys => ?_
    have hreal : (park c x.pending).real=x.pending := park_real x.pending_real
    have hsuits := suits_prepare (c:=c) (r:=.mapped e) s.visitor id s.store htag ha.announced hreal
      ha.small
    refine readsTo_prepared (s:={s with mode := .value id (.mapped e) (park c x.pending) false})
      rfl hsuits (fun y hy => ?_) _
    rw [valueEffect,←hn.table,hmatch,←hn.visitor]
  | none =>
    dsimp only
    split
    · next hnamed =>
      refine hdecline fun y hy => ?_
      rw [valueEffect,←hn.table,hmatch]
      exact if_pos hnamed
    · next hnamed =>
      cases hv : s.visitor with
      | none =>
        refine hdecline fun y hy => ?_
        rw [valueEffect,←hn.table,hmatch,←hn.visitor,hv]
        exact if_neg hnamed
      | some v =>
        refine leaves_offerField hm ha h hn hv fun y hy => ?_
        rw [valueEffect,←hn.table,hmatch,←hn.visitor,hv]
        exact if_neg hnamed

/-- A value that is read is behind the walk, is not whole, or is refused. -/
theorem leaves_reading (hc : bindWords c=.ok ()) (hs : Scoping c s) {r : Route} {p : Pending}
    {b : Bool} {σ : Store V} (hm : s.mode=.value id r p b) (ha : Announces hd (.value id x))
    (h : Account c before total ms fs 0 es new (hd++xs) s.store.log) (hn : Nests c fs 0 s)
    (hσ : σ.log=before++es) (hr : ∀ ys, ReadsTo c fs id x σ (xs++ys) (step c s (xs++ys))) :
    Leaves c before total (step c s xs) := by
  have hskip : s.skipping=none := by rw [skipping,hm]
  have hacc : r.Accepts c p := by
    have hsound := hs.sound
    rw [Sound,hm] at hsound
    exact hsound
  -- whatever the read calls, it calls the innermost handler
  have hroute : (Licence.free fun e : Event V => e.scoped=false ∧
      (c.within fs).visitor=some e.who).Route c s.visitor r := by
    cases r with
    | mapped e => exact Licence.free_row c e
    | visit t =>
      obtain ⟨v,hv⟩ := Option.isSome_iff_exists.mp (hs.handled id t p b hm)
      refine ⟨v,hv,Licence.free_handler fun e he hw => ⟨he,?_⟩⟩
      rw [←hn.visitor,hv,hw]
  have hverdicts : (Licence.free fun e : Event V => e.scoped=false ∧
      (c.within fs).visitor=some e.who).Verdicts := fun _ _ _ => trivial
  obtain ⟨hready,hplan⟩ := @prepare_within _ _ _ _ id _ _ s.store hroute hverdicts hacc
    (.inr fun _ _ _ => trivial) trivial
  have hread := hplan.read hverdicts trivial xs
  have hold : ∀ {τ : Store V × Option Exn}, (Licence.free fun e : Event V => e.scoped=false ∧
      (c.within fs).visitor=some e.who).Allows s.store τ →
      ∃ more, c.Mine fs more ∧ τ.1.log=before++(es++(new++more)) := by
    intro τ hτ
    obtain ⟨more,hmore,hcalls⟩ := hτ.log
    exact ⟨more,hcalls,by rw [hmore,h.log,List.append_assoc,List.append_assoc]⟩
  have hpart : ∀ {more log : List (Event V)}, c.Mine fs more → log=before++(es++(new++more)) →
      Account c before total ms fs 0 es (new++more) (hd++xs) log := fun hmore hlog =>
    ⟨h.bytes,h.told,fun _ => ⟨rfl,hd,id,x,xs,ha,rfl⟩,h.mine.append hmore,hlog⟩
  have hnow := hr []
  rw [List.append_nil] at hnow
  have hunfinished : (∀ y bs ys, Datum.extent y=x → Body y bs → xs≠bs++ys) →
      Unfinished (hd++xs) := by
    intro hnone m bs ys hspell heq
    obtain ⟨y,cs,-,hy,hb,hxs⟩ := hspell.value_inv ha heq
    exact hnone y cs ys hy hb hxs
  by_cases hwait : (b && !p.ready xs)=true
  · have hstep : step c s xs=.wait s xs := by
      rw [step,hm]
      exact if_pos hwait
    rw [hstep] at hnow ⊢
    exact ⟨.reading hm ha h hn hσ hr,ms,fs,0,es,new,hd++xs,h,hn,hunfinished hnow,
      List.suffix_append hd xs⟩
  · have hstep : step c s xs=valueStep c s id r p xs := by
      rw [step,hm]
      exact if_neg hwait
    have hsame := hstep
    rw [hstep] at hnow ⊢
    rw [valueStep] at hsame hnow ⊢
    cases hpl : (prepare c s.visitor id r p s.store).2.2.read c
      (prepare c s.visitor id r p s.store).1 xs with
    | done τ rest =>
      rw [hpl] at hread hnow
      obtain ⟨more,hmore,hlog⟩ := hold (hready.trans hread)
      obtain ⟨y,bs,υ,rfl,hb,rfl,heff,hheard⟩ := hnow
      have htold : Told c (ms++[.value id y]) fs 0 (es++(new++more)) := by
        refine .value ⟨h.mine.append hmore,σ,υ,heff,?_⟩ h.told
        rw [hσ,List.append_assoc]
        exact Eq.trans hheard (congrArg (List.filter Event.observed) hlog)
      have hacc' := h
      rw [←List.append_assoc] at hacc'
      exact .between (s:={s with mode := .header none none, store := τ}) rfl
        (hacc'.taken (.value ha hb) htold hlog) (hn.change (m:=.header none none) τ hskip.symm)
    | more τ =>
      rw [hpl] at hread hnow hsame
      obtain ⟨more,hmore,hlog⟩ := hold (hready.trans hread)
      have hacc' := hpart hmore hlog
      have hn' : Nests c fs 0 {s with
          mode := .value id r (prepare c s.visitor id r p s.store).2.1 true, store := τ} :=
        hn.change _ hskip.symm
      refine ⟨.reading rfl ha hacc' hn' hσ fun ys => ?_,ms,fs,0,es,new++more,hd++xs,hacc',hn',
        hunfinished hnow,List.suffix_append hd xs⟩
      exact (hr ys).congr (step_wait hc hs.sound hsame ys)
    | bad why τ =>
      rw [hpl] at hread hnow
      obtain ⟨more,hmore,hlog⟩ := hold (hready.trans hread)
      refine ⟨ms,fs,0,es,new++more,hd++xs,hpart hmore hlog,σ,hσ,?_⟩
      intro m bs ys hspell heq
      obtain ⟨y,cs,rfl,rfl,hb,hxs⟩ := hspell.value_inv ha heq
      exact .value rfl (hnow y cs ys rfl hb hxs)

/-- A header that is met leads on, or is refused. -/
theorem leaves_meet (hm : s.mode=.header none s.skipping) {l : Lead} (ha : Announces hd l)
    (h : Account c before total ms fs k es [] (hd++rest) s.store.log) (hn : Nests c fs k s) :
    Leaves c before total (meet c s s.skipping l.token rest) := by
  cases l with
  | start id =>
    exact (moves_start hn h.told.bare id rest).leaves h (.start ha)
      fun m' bs ys hm' heq => hm'.start_inv ha heq
  | stop =>
    exact (moves_stop hn h.told rest).leaves h (.stop ha) fun m' bs ys hm' heq =>
      hm'.stop_inv ha heq
  | value id x =>
    cases hs : s.skipping with
    | none =>
      have hk := hn.flat hs
      subst hk
      rw [hs] at hm
      exact leaves_startValue hm ha h hn
    | some target =>
      obtain ⟨k,rfl,-⟩ := hn.over hs
      refine .declined (s:={s with mode := .header (some (park c x.pending)) (some target)})
        rfl ha h (hn.change s.store hs.symm) fun y hy => ?_
      rw [List.append_nil]
      exact .valueOver id y h.told

/-- A value that is dropped is behind the walk, is not whole, or is broken. -/
theorem leaves_dropping {used : List UInt8} {q : Pending} (hm : s.mode=.header (some q) s.skipping)
    (ha : Announces hd (.value id x))
    (h : Account c before total ms fs k es new (hd++(used++xs)) s.store.log) (hn : Nests c fs k s)
    (hq : ∀ ys, q.drop (xs++ys)=dropReal x.pending (used++(xs++ys)))
    (ht : ∀ y, Datum.extent y=x → Told c (ms++[.value id y]) fs k (es++new)) :
    Leaves c before total (step c s xs) := by
  have hdrop := hq []
  rw [List.append_nil] at hdrop
  -- a value that is there is dropped
  have hunfinished : (∀ rest, q.drop xs≠.gone rest) → Unfinished (hd++(used++xs)) := by
    intro hnone m bs ys hspell heq
    obtain ⟨y,cs,rfl,rfl,hb,hxs⟩ := hspell.value_inv ha heq
    rw [hdrop,hxs] at hnone
    exact hnone ys (drop_whole hb ha.small ys)
  rw [step,hm]
  dsimp only
  rw [dropStep]
  cases hd' : q.drop xs with
  | gone rest =>
    rw [hdrop] at hd'
    obtain ⟨y,bs,hy,hb,hused⟩ := drop_spells hd'
    have hacc := h
    rw [hused,←List.append_assoc] at hacc
    have htold := ht y hy
    subst hy
    exact .between (s:={s with mode := .header none s.skipping}) rfl
      (hacc.taken (.value ha hb) htold h.log) (hn.change (m:=.header none s.skipping) s.store rfl)
  | left q' rest =>
    obtain ⟨mid,rfl⟩ := Pending.drop_left hd'
    have hmore : ∀ ys, q'.drop (rest++ys)=dropReal x.pending ((used++mid)++(rest++ys)) := by
      intro ys
      have hext := Pending.drop_extends q (mid++rest) ys
      rw [hd'] at hext
      rw [List.append_assoc,←List.append_assoc mid,←hq ys]
      exact hext
    have hacc := h
    rw [←List.append_assoc used] at hacc
    have hn' : Nests c fs k {s with mode := .header (some q') s.skipping} :=
      hn.change (m:=.header (some q') s.skipping) s.store rfl
    refine ⟨.dropping (s:={s with mode := .header (some q') s.skipping}) rfl ha hacc hn' hmore ht,
      ms,fs,k,es,new,_,h,hn',hunfinished ?_,?_⟩
    · intro ys hgone
      rw [hgone] at hd'
      cases hd'
    · rw [←List.append_assoc used,←List.append_assoc]
      exact List.suffix_append _ rest
  | bad why =>
    have hσ : ({s.store with log := before++es} : Store V).log=before++es := rfl
    refine ⟨ms,fs,k,es,new,hd++(used++xs),h,stuck_of_unfinished (hunfinished ?_) hσ⟩
    intro rest hgone
    rw [hgone] at hd'
    cases hd'

/-- Every step of a walk follows the constructs. -/
theorem follows_step (hc : bindWords c=.ok ()) (h : Follows c before total s xs)
    (hs : Scoping c s) : Leaves c before total (step c s xs) := by
  cases h with
  | reading hm ha h hn hσ hr => exact leaves_reading hc hs hm ha h hn hσ hr
  | dropping hm ha h hn hq ht => exact leaves_dropping hm ha h hn hq ht
  | @between ms fs k es hm h hn =>
    have hself : Follows c before total s xs := .between hm h hn
    have hlog := h.log
    rw [List.append_nil] at hlog
    have hlevel := hn.level
    rw [step,hm]
    dsimp only
    rw [headerStep]
    split
    · next hxs =>
      subst hxs
      split
      · exact ⟨hself,ms,fs,k,es,[],[],h,hn,unfinished_nil,List.suffix_rfl⟩
      · next hd =>
        have hk : k=0 := by omega
        have hfs : fs=[] := List.length_eq_zero_iff.mp (by omega)
        subst hk hfs
        exact ⟨hself,ms,es,h,hn⟩
    · cases hr : readToken xs with
      | more =>
        refine ⟨hself,ms,fs,k,es,[],xs,h,hn,unfinished_of_token fun tok rest hr' => ?_,
          List.suffix_rfl⟩
        rw [hr] at hr'
        cases hr'
      | bad why =>
        refine ⟨ms,fs,k,es,[],xs,h,stuck_of_unfinished (unfinished_of_token ?_) hlog⟩
        intro tok rest hr'
        rw [hr] at hr'
        cases hr'
      | done tok rest =>
        obtain ⟨hd,l,ha,rfl,rfl⟩ := readToken_announces hr
        exact leaves_meet hm ha h hn

/-- More bytes behind those at hand change nothing. -/
theorem Follows.more (h : Follows c before total s xs) (ys : List UInt8) :
    Follows c before (total++ys) s (xs++ys) := by
  cases h with
  | between hm h hn => exact .between hm (h.behind ys) hn
  | dropping hm ha h hn hq ht =>
    have h' := h.behind ys
    rw [List.append_assoc,List.append_assoc] at h'
    refine .dropping hm ha h' hn (fun zs => ?_) ht
    rw [List.append_assoc]
    exact hq (ys++zs)
  | reading hm ha h hn hσ hr =>
    have h' := h.behind ys
    rw [List.append_assoc] at h'
    refine .reading hm ha h' hn hσ fun zs => ?_
    rw [List.append_assoc]
    exact hr (ys++zs)

/-- A walk that follows the constructs of a string is in scopes they come to. -/
theorem Follows.account (h : Follows c before total s xs) : ∃ ms fs k es new rest,
    Account c before total ms fs k es new rest s.store.log ∧ Nests c fs k s ∧ xs<:+rest := by
  cases h with
  | between _ h hn => exact ⟨_,_,_,_,_,_,h,hn,List.suffix_rfl⟩
  | @dropping _ _ _ _ _ hd used _ _ _ _ _ h hn =>
    refine ⟨_,_,_,_,_,_,h,hn,?_⟩
    rw [←List.append_assoc]
    exact List.suffix_append (hd++used) xs
  | @reading _ _ _ _ hd _ _ _ _ _ _ _ _ h hn =>
    exact ⟨_,_,_,_,_,_,h,hn,List.suffix_append hd xs⟩

/-- A walk that stops is where the next construct is not whole. -/
theorem suspended_stop {es : List (Event V)}
    (h : Account c before total ms [] 0 es [] [] s.store.log) (hn : Nests c [] 0 s) :
    Suspended c before total s [] :=
  ⟨ms,[],0,es,[],[],h,hn,unfinished_nil,List.suffix_rfl⟩

/-- In every state a run passes through the walk follows the constructs. -/
theorem follows_passes (hc : bindWords c=.ok ()) {t : Walk V} {ys : List UInt8}
    (hp : Passes (step c) s xs t ys) (h : Follows c before total s xs) (hs : Scoping c s) :
    Follows c before total t ys ∧ Scoping c t := by
  induction hp with
  | here => exact ⟨h,hs⟩
  | @next s s' t xs rest ys hstep _ ih =>
    have hleaves := follows_step hc h hs
    have hkeeps := scoping_step hs xs
    rw [hstep] at hleaves hkeeps
    exact ih hleaves hkeeps

/-- Where a run ends it follows the constructs. -/
theorem follows_run (hc : bindWords c=.ok ()) (h : Follows c before total s xs)
    (hs : Scoping c s) :
    Leaves c before total (run c s xs).last ∧ (run c s xs).last.Keeps (Scoping c) := by
  obtain ⟨t,ys,hpass,hlast⟩ := run_last (progress c) s xs
  obtain ⟨hfollows,hscoping⟩ := follows_passes hc hpass h hs
  have hleaves := follows_step hc hfollows hscoping
  have hkeeps := scoping_step hscoping ys
  rw [hlast] at hleaves hkeeps
  exact ⟨hleaves,hkeeps⟩

end Follows

end Walk

end SofaBuffers
