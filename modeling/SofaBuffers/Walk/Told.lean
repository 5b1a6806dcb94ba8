import SofaBuffers.Walk.Marks
import SofaBuffers.Walk.Scopes
import SofaBuffers.Walk.Within

/-!
# What a handler is told of its scopes

The scopes open at any moment are a stack of enclosures: the sequence of a table
row, a sequence the handler stays for, one it descends to another handler for.
They settle the handler that is called and the table that is consulted. The
constructs of a stream settle the enclosures in their turn, and with them the
calls that are made and the sequences that are skipped.
-/

set_option autoImplicit false

namespace SofaBuffers

open Resumable

variable {V : Type}

/-- Calls are recorded in order. -/
theorem calls_log (es : List (Event V)) (s : Store V) : (es.foldl Store.call s).log=s.log++es := by
  induction es generalizing s with
  | nil => exact (List.append_nil _).symm
  | cons e es ih =>
    rw [List.foldl_cons,ih]
    exact List.append_assoc _ _ _

/-- A scope that is open. -/
inductive Enclosure (V : Type)
  /-- The sequence of a row, whose table takes it. -/
  | row (child : ℕ)
  /-- A sequence the handler around it stays for. -/
  | own
  /-- A sequence another handler takes. -/
  | child (v : V)
  deriving DecidableEq, Repr

/-- What governs a scope inside another. -/
def Scope.into (k : Scope V) : Enclosure V → Scope V
  | .row child => ⟨k.visitor,some child⟩
  | .own => ⟨k.visitor,none⟩
  | .child v => ⟨some v,none⟩

/-- What governs the innermost of the scopes that are open. -/
def Config.within (c : Config V) : List (Enclosure V) → Scope V
  | [] => c.scope
  | f::fs => (c.within fs).into f

/-- The tables of the scopes around the innermost. -/
def Config.tables (c : Config V) : List (Enclosure V) → List (Option ℕ)
  | [] => []
  | _::fs => (c.within fs).table::c.tables fs

/-- The handlers that gave way to another, each with the depth it takes over again at. -/
def Config.waiting (c : Config V) : List (Enclosure V) → List (V × ℕ)
  | [] => []
  | .child _::fs => ((c.within fs).visitor.map fun v => (v,fs.length)).toList++c.waiting fs
  | _::fs => c.waiting fs

/-- Calls are on the handler of the innermost scope, and open or close none. -/
def Config.Mine (c : Config V) (fs : List (Enclosure V)) (new : List (Event V)) : Prop :=
  ∀ e ∈ new, e.scoped=false ∧ (c.within fs).visitor=some e.who

/-- Calls are those a value leads to in the innermost scope. -/
structure Config.Hears (c : Config V) (fs : List (Enclosure V)) (id : ℕ) (x : Datum)
    (new : List (Event V)) : Prop where
  /-- They are made on its handler. -/
  mine : c.Mine fs new
  /-- They are what the value means there, and it is not refused; a destination may have been
  asked for again. -/
  meant : ∃ σ τ, valueEffect c (c.within fs) id (park c x.extent.pending) x σ=(τ,none) ∧
    τ.log.filter Event.observed=(σ.log++new).filter Event.observed

/-- A sequence that is no row's is offered to the handler of the innermost scope. -/
structure Offered (c : Config V) (fs : List (Enclosure V)) (v : V) (id : ℕ) : Prop where
  /-- It is the handler's scope. -/
  handler : (c.within fs).visitor=some v
  /-- No row of the table takes the sequence. -/
  free : Walk.matched c (c.within fs).table id .sequenceStart none=none
  /-- The table is not closed to it. -/
  open_ : ¬(c.within fs).table.any c.closed=true

/-- What the constructs of a stream come to: the scopes they leave open, the sequences
they leave open inside one that is skipped, and the calls they lead to. -/
inductive Told (c : Config V) : List Mark → List (Enclosure V) → ℕ → List (Event V) → Prop
  /-- No constructs come to nothing. -/
  | start : Told c [] [] 0 []
  /-- A value leads to what it means in the innermost scope. -/
  | value {ms : List Mark} {fs : List (Enclosure V)} {es new : List (Event V)} {id : ℕ} {x : Datum}
      (h : c.Hears fs id x new) : Told c ms fs 0 es → Told c (ms++[.value id x]) fs 0 (es++new)
  /-- The sequence of a row opens, and no handler hears of it. -/
  | row {ms : List Mark} {fs : List (Enclosure V)} {es : List (Event V)} {e : Entry} {id child : ℕ}
      (he : Walk.matched c (c.within fs).table id .sequenceStart none=some e)
      (hc : e.child=some child) : Told c ms fs 0 es → Told c (ms++[.start id]) (.row child::fs) 0 es
  /-- It closes, and no handler hears of it. -/
  | rowEnd {ms : List Mark} {fs : List (Enclosure V)} {es : List (Event V)} {child : ℕ} :
      Told c ms (.row child::fs) 0 es → Told c (ms++[.stop]) fs 0 es
  /-- A sequence that is nobody's is skipped, and no handler hears of it. -/
  | unheard {ms : List Mark} {fs : List (Enclosure V)} {es : List (Event V)} {id : ℕ}
      (hm : Walk.matched c (c.within fs).table id .sequenceStart none=none)
      (hn : (c.within fs).table.any c.closed=true ∨ (c.within fs).visitor=none) :
      Told c ms fs 0 es → Told c (ms++[.start id]) fs 1 es
  /-- A handler declines a sequence, and that is all it hears of it. -/
  | declined {ms : List Mark} {fs : List (Enclosure V)} {es : List (Event V)} {v : V} {id : ℕ}
      (h : Offered c fs v id) (ha : (Walk.sequenceOffer c v id).2=.skip) : Told c ms fs 0 es →
      Told c (ms++[.start id]) fs 1 (es++(Walk.sequenceOffer c v id).1)
  /-- A handler stays for a sequence. -/
  | own {ms : List Mark} {fs : List (Enclosure V)} {es : List (Event V)} {v : V} {id : ℕ}
      (h : Offered c fs v id) (ha : (Walk.sequenceOffer c v id).2=.stay) : Told c ms fs 0 es →
      Told c (ms++[.start id]) (.own::fs) 0 (es++(Walk.sequenceOffer c v id).1)
  /-- A handler gives a sequence to another. -/
  | child {ms : List Mark} {fs : List (Enclosure V)} {es : List (Event V)} {v w : V} {id : ℕ}
      (h : Offered c fs v id) (ha : (Walk.sequenceOffer c v id).2=.descend w) : Told c ms fs 0 es →
      Told c (ms++[.start id]) (.child w::fs) 0 (es++(Walk.sequenceOffer c v id).1)
  /-- The handler of a scope that was not a row's hears it close. -/
  | finish {ms : List Mark} {f : Enclosure V} {fs : List (Enclosure V)} {es : List (Event V)} {v : V}
      (hf : ∀ child, f≠.row child) (hv : (c.within (f::fs)).visitor=some v) :
      Told c ms (f::fs) 0 es → Told c (ms++[.stop]) fs 0 (es++[.sequenceEnd v])
  /-- A value inside a skip leads to nothing. -/
  | valueOver {ms : List Mark} {fs : List (Enclosure V)} {k : ℕ} {es : List (Event V)} (id : ℕ)
      (x : Datum) : Told c ms fs (k+1) es → Told c (ms++[.value id x]) fs (k+1) es
  /-- A sequence that opens inside a skip belongs to it. -/
  | startOver {ms : List Mark} {fs : List (Enclosure V)} {k : ℕ} {es : List (Event V)} (id : ℕ) :
      Told c ms fs (k+1) es → Told c (ms++[.start id]) fs (k+2) es
  /-- An end marker inside a skip closes the innermost of its sequences. -/
  | stopOver {ms : List Mark} {fs : List (Enclosure V)} {k : ℕ} {es : List (Event V)} :
      Told c ms fs (k+1) es → Told c (ms++[.stop]) fs k es

/-- Over some storage a construct that comes next is refused: a value by what it means, a
sequence by its row or because too many are open, an end marker because none is. -/
inductive Config.Refuses (c : Config V) (fs : List (Enclosure V)) (k : ℕ) (σ : Store V) : Mark → Prop
  /-- The value is refused where it belongs. -/
  | value {id : ℕ} {x : Datum} (hk : k=0)
      (h : (valueEffect c (c.within fs) id (park c x.extent.pending) x σ).2≠none) :
      Refuses c fs k σ (.value id x)
  /-- The row of the sequence is refused. -/
  | row {id : ℕ} (hk : k=0) (h : ((enter c (c.within fs) id).1 σ).2≠none) :
      Refuses c fs k σ (.start id)
  /-- As many sequences are open as may be. -/
  | deep {id : ℕ} (h : maxDepth ≤ fs.length+k) : Refuses c fs k σ (.start id)
  /-- No sequence is open. -/
  | stray (h : fs.length+k=0) : Refuses c fs k σ .stop

section Told

variable {c : Config V} {ms : List Mark} {fs : List (Enclosure V)} {k : ℕ} {es : List (Event V)}

/-- Without tables no scope is a row's. -/
theorem Told.rowless (h : Told c ms fs k es) (hf : c.forest=none) :
    ∀ child, .row child∉fs := by
  induction h with
  | start => exact fun _ => List.not_mem_nil
  | row he hc _ ih =>
    obtain ⟨f,r,hsome,-⟩ := Walk.matched_lookup he
    rw [hf] at hsome
    cases hsome
  | rowEnd _ ih => exact fun child hc => ih child (List.mem_cons_of_mem _ hc)
  | own _ _ _ ih => exact fun child hc => ih child (by simpa using hc)
  | child _ _ _ ih => exact fun child hc => ih child (by simpa using hc)
  | finish _ _ _ ih => exact fun child hc => ih child (List.mem_cons_of_mem _ hc)
  | value _ _ ih | unheard _ _ _ ih | declined _ _ _ ih | valueOver _ _ _ ih | startOver _ _ ih
  | stopOver _ ih => exact ih

/-- Where no scope is a row's and there are no tables, none is consulted. -/
theorem Config.within_rowless (hf : c.forest=none) (h : ∀ child, .row child∉fs) :
    (c.within fs).table=none := by
  cases fs with
  | nil => rw [within,scope,hf]; rfl
  | cons f fs =>
    cases f with
    | row child => exact absurd List.mem_cons_self (h child)
    | own => rfl
    | child w => rfl

/-- Without tables none is consulted in the scopes of a stream. -/
theorem Told.bare (h : Told c ms fs k es) (hf : c.forest=none) : (c.within fs).table=none :=
  Config.within_rowless hf (h.rowless hf)

/-- A scope that is no row's was opened by a handler. -/
theorem Told.handled (h : Told c ms fs k es) : ∀ outer f rest, fs=outer++f::rest →
    (∀ child, f≠.row child) → (c.within rest).visitor.isSome=true := by
  have hopen : ∀ {fs : List (Enclosure V)} {g : Enclosure V},
      (∀ outer f rest, fs=outer++f::rest → (∀ child, f≠.row child) →
        (c.within rest).visitor.isSome=true) →
      ((∀ child, g≠.row child) → (c.within fs).visitor.isSome=true) →
      ∀ outer f rest, g::fs=outer++f::rest → (∀ child, f≠.row child) →
        (c.within rest).visitor.isSome=true := by
    intro fs g ih hg outer f rest heq hf
    cases outer with
    | nil =>
      cases heq
      exact hg hf
    | cons g' outer =>
      cases heq
      exact ih outer f rest rfl hf
  have hclose : ∀ {fs : List (Enclosure V)} {g : Enclosure V},
      (∀ outer f rest, g::fs=outer++f::rest → (∀ child, f≠.row child) →
        (c.within rest).visitor.isSome=true) →
      ∀ outer f rest, fs=outer++f::rest → (∀ child, f≠.row child) →
        (c.within rest).visitor.isSome=true := by
    intro fs g ih outer f rest heq hf
    exact ih (g::outer) f rest (by rw [heq]; rfl) hf
  induction h with
  | start => intro outer f rest heq; cases outer <;> cases heq
  | row he hc _ ih => exact hopen ih fun hg => absurd rfl (hg _)
  | rowEnd _ ih => exact hclose ih
  | own ho _ _ ih => exact hopen ih fun _ => by rw [ho.handler]; rfl
  | child ho _ _ ih => exact hopen ih fun _ => by rw [ho.handler]; rfl
  | finish _ _ _ ih => exact hclose ih
  | value _ _ ih | unheard _ _ _ ih | declined _ _ _ ih | valueOver _ _ _ ih | startOver _ _ ih
  | stopOver _ ih => exact ih

/-- The handlers that gave way did so in scopes around the innermost. -/
theorem Config.waiting_stacked (c : Config V) (fs : List (Enclosure V)) :
    Stacked (c.waiting fs) fs.length := by
  induction fs with
  | nil => exact .nil 0
  | cons f fs ih =>
    cases f with
    | row child => exact ih.mono (Nat.le_succ _)
    | own => exact ih.mono (Nat.le_succ _)
    | child w =>
      rw [waiting]
      cases (c.within fs).visitor with
      | none => exact ih.mono (Nat.le_succ _)
      | some v => exact .cons (Nat.lt_succ_self _) ih

/-- One table is suspended for each scope. -/
@[simp] theorem Config.tables_length (c : Config V) (fs : List (Enclosure V)) :
    (c.tables fs).length=fs.length := by
  induction fs with
  | nil => rfl
  | cons f fs ih => rw [tables,List.length_cons,ih,List.length_cons]

end Told

namespace Walk

/-- The depth a skip goes back to, if the walk is in one. -/
def skipping (s : Walk V) : Option ℕ :=
  match s.mode with
  | .header _ skip => skip
  | .value .. => none

/-- The walk is inside these scopes, and so many sequences are open in a skip inside them. -/
structure Nests (c : Config V) (fs : List (Enclosure V)) (k : ℕ) (s : Walk V) : Prop where
  /-- There are as many as are open. -/
  level : s.depth=fs.length+k
  /-- A skip goes back to the innermost scope. -/
  skip : s.skipping=if k=0 then none else some fs.length
  /-- No more are open than may be. -/
  depth : s.depth ≤ maxDepth
  /-- The handler is the innermost one's. -/
  visitor : s.visitor=(c.within fs).visitor
  /-- The table is the innermost one's. -/
  table : s.bmap=(c.within fs).table
  /-- The tables around it are suspended, where there are tables. -/
  tables : s.bstack=if c.forest.isSome then c.tables fs else []
  /-- The handlers that gave way are suspended. -/
  waiting : s.vstack=c.waiting fs

section Nests

variable {c : Config V} {fs : List (Enclosure V)} {k : ℕ} {s : Walk V}

/-- Other storage and another mode are in the same scopes if they are in the same skip. -/
theorem Nests.change (h : Nests c fs k s) {m : Mode} (σ : Store V)
    (hm : ({s with mode := m} : Walk V).skipping=s.skipping) :
    Nests c fs k {s with mode := m, store := σ} where
  level := h.level
  skip := hm.trans h.skip
  depth := h.depth
  visitor := h.visitor
  table := h.table
  tables := h.tables
  waiting := h.waiting

/-- Outside a skip every sequence that is open is a scope. -/
theorem Nests.flat (h : Nests c fs k s) (hs : s.skipping=none) : k=0 := by
  have hskip := h.skip
  rw [hs] at hskip
  by_contra hk
  rw [if_neg hk] at hskip
  cases hskip

/-- A skip goes back to the innermost scope, over at least one sequence. -/
theorem Nests.over (h : Nests c fs k s) {target : ℕ} (hs : s.skipping=some target) :
    ∃ j, k=j+1 ∧ target=fs.length := by
  have hskip := h.skip
  rw [hs] at hskip
  cases k with
  | zero => cases hskip
  | succ j => exact ⟨j,rfl,Option.some.inj hskip⟩

/-- The sequence of a row is one more scope. -/
theorem Nests.inRow (h : Nests c fs 0 s) (hd : s.depth < maxDepth) (hf : c.forest.isSome=true)
    (child : ℕ) (σ : Store V) :
    Nests c (.row child::fs) 0 {s with
      mode := .header none none, depth := s.depth+1, bmap := some child
      bstack := s.bmap::s.bstack, store := σ} where
  level := congrArg (·+1) h.level
  skip := rfl
  depth := hd
  visitor := h.visitor
  table := rfl
  tables := by
    have ht := h.tables
    rw [if_pos hf] at ht ⊢
    show s.bmap::s.bstack=(c.within fs).table::c.tables fs
    rw [ht,h.table]
  waiting := h.waiting

/-- The enclosing table is hidden, and there is room for it. -/
theorem Nests.hideMap (h : Nests c fs 0 s) (hbare : c.forest=none → (c.within fs).table=none)
    (hd : s.depth < maxDepth) (σ : Store V) :
    Walk.hideMap c {s with depth := s.depth+1, store := σ}=some {s with
      depth := s.depth+1, bmap := none, store := σ
      bstack := if c.forest.isSome then (c.within fs).table::c.tables fs else []} := by
  have hlevel := h.level
  have htables := h.tables
  rw [Walk.hideMap]
  by_cases hf : c.forest.isSome=true
  · rw [if_pos hf] at htables ⊢
    rw [if_pos hf,pushMap]
    refine (if_pos ?_).trans ?_
    · dsimp only
      rw [htables,Config.tables_length]
      omega
    · rw [htables,h.table]
  · have hnone := hbare (Option.not_isSome_iff_eq_none.mp hf)
    rw [if_neg hf] at htables ⊢
    rw [if_neg hf]
    rw [←htables,←hnone,←h.table]

/-- A sequence the handler stays for is one more scope. -/
theorem Nests.inOwn (h : Nests c fs 0 s) (hd : s.depth < maxDepth) (σ : Store V) :
    Nests c (.own::fs) 0 {s with
      mode := .header none none, depth := s.depth+1, bmap := none
      bstack := if c.forest.isSome then (c.within fs).table::c.tables fs else [], store := σ} where
  level := congrArg (·+1) h.level
  skip := rfl
  depth := hd
  visitor := h.visitor
  table := rfl
  tables := rfl
  waiting := h.waiting

/-- A sequence the handler gives to another is one more scope. -/
theorem Nests.inChild (h : Nests c fs 0 s) (hd : s.depth < maxDepth) {v : V}
    (hv : (c.within fs).visitor=some v) (w : V) (σ : Store V) :
    Nests c (.child w::fs) 0 {s with
      mode := .header none none, depth := s.depth+1, bmap := none
      bstack := if c.forest.isSome then (c.within fs).table::c.tables fs else []
      visitor := some w, vstack := (v,s.depth)::s.vstack, store := σ} where
  level := congrArg (·+1) h.level
  skip := rfl
  depth := hd
  visitor := rfl
  table := rfl
  tables := rfl
  waiting := by
    show (v,s.depth)::s.vstack=_
    rw [Config.waiting,hv,h.waiting,h.level]
    rfl

/-- A sequence that is skipped leaves the scopes as they are. -/
theorem Nests.inSkip (h : Nests c fs 0 s) (hd : s.depth < maxDepth) (σ : Store V) :
    Nests c fs 1 {s with
      mode := .header none (some s.depth), depth := s.depth+1, store := σ} where
  level := congrArg (·+1) h.level
  skip := congrArg some h.level
  depth := hd
  visitor := h.visitor
  table := h.table
  tables := h.tables
  waiting := h.waiting

/-- A sequence that opens in a skip leaves the scopes as they are. -/
theorem Nests.deeper (h : Nests c fs (k+1) s) (hd : s.depth < maxDepth) :
    Nests c fs (k+2) {s with mode := .header none (some fs.length), depth := s.depth+1} where
  level := congrArg (·+1) h.level
  skip := rfl
  depth := hd
  visitor := h.visitor
  table := h.table
  tables := h.tables
  waiting := h.waiting

/-- A sequence that closes in a skip leaves the scopes as they are, and the last one ends
the skip. -/
theorem Nests.shallower (h : Nests c fs (k+1) s) :
    Nests c fs k {s with
      mode := .header none (if fs.length < s.depth-1 then some fs.length else none)
      depth := s.depth-1} where
  level := by
    have hlevel := h.level
    show s.depth-1=fs.length+k
    omega
  skip := by
    have hlevel := h.level
    show (if fs.length < s.depth-1 then some fs.length else none)=_
    by_cases hk : k=0
    · rw [if_neg (by omega),if_pos hk]
    · rw [if_pos (by omega),if_neg hk]
  depth := Nat.le_trans (Nat.sub_le _ _) h.depth
  visitor := h.visitor
  table := h.table
  tables := h.tables
  waiting := h.waiting

/-- The end marker of a row's sequence gives back the table around it. -/
theorem Nests.leaveRow {child : ℕ} (h : Nests c (.row child::fs) 0 s)
    (hf : c.forest.isSome=true) :
    Nests c fs 0 {Walk.endSequence {s with depth := s.depth-1} with mode := .header none none} ∧
      (Walk.endSequence {s with depth := s.depth-1}).store=s.store := by
  have hlevel := h.level
  have htable : s.bmap=some child := h.table
  have htables := h.tables
  rw [if_pos hf] at htables
  have hend : Walk.endSequence {s with depth := s.depth-1}={s with
      depth := s.depth-1, bmap := (c.within fs).table, bstack := c.tables fs} := by
    rw [Walk.endSequence.eq_def]
    dsimp only
    rw [htables,htable]
    rfl
  rw [hend]
  refine ⟨?_,rfl⟩
  exact {
    level := by
      rw [List.length_cons] at hlevel
      show s.depth-1=fs.length+0
      omega
    skip := rfl
    depth := Nat.le_trans (Nat.sub_le _ _) h.depth
    visitor := h.visitor
    table := rfl
    tables := by rw [if_pos hf]
    waiting := h.waiting }

/-- The end marker of a handler's scope gives back the tables around it. -/
theorem Nests.endSequence {f : Enclosure V} (h : Nests c (f::fs) 0 s)
    (hf : ∀ child, f≠.row child) (hbare : c.forest=none → (c.within fs).table=none) :
    Walk.endSequence {s with depth := s.depth-1}=closeScope {s with
      depth := s.depth-1, bmap := (c.within fs).table
      bstack := if c.forest.isSome then c.tables fs else []} := by
  have htables := h.tables
  have htable : s.bmap=none := by
    rw [h.table]
    cases f with
    | row child => exact absurd rfl (hf child)
    | own => rfl
    | child w => rfl
  rw [Walk.endSequence.eq_def]
  by_cases hforest : c.forest.isSome=true
  · rw [if_pos hforest] at htables ⊢
    dsimp only
    rw [htables,htable]
    rfl
  · have hnone := hbare (Option.not_isSome_iff_eq_none.mp hforest)
    rw [if_neg hforest] at htables ⊢
    dsimp only
    rw [htables,htable,hnone]

/-- The end marker of a handler's scope is heard by that handler, and the one around it
takes over. -/
theorem Nests.leaveScope {f : Enclosure V} (h : Nests c (f::fs) 0 s) (hf : ∀ child, f≠.row child)
    (hbare : c.forest=none → (c.within fs).table=none)
    (hv : (c.within fs).visitor.isSome=true) :
    ∃ w, (c.within (f::fs)).visitor=some w ∧
      Nests c fs 0 {Walk.endSequence {s with depth := s.depth-1} with mode := .header none none} ∧
      (Walk.endSequence {s with depth := s.depth-1}).store=s.store.call (.sequenceEnd w) := by
  obtain ⟨v,hv⟩ := Option.isSome_iff_exists.mp hv
  have hlevel := h.level
  rw [List.length_cons] at hlevel
  have hlen : fs.length=s.depth-1 := by omega
  have hstack := c.waiting_stacked fs
  have hcall := h.endSequence hf hbare
  have hvis := h.visitor
  have hwait := h.waiting
  have hback : ∀ u : Walk V, u={s with
      depth := s.depth-1, visitor := (c.within fs).visitor, vstack := c.waiting fs
      bmap := (c.within fs).table, bstack := if c.forest.isSome then c.tables fs else []
      store := u.store} → Nests c fs 0 {u with mode := .header none none} := by
    intro u hu
    rw [hu]
    exact {
      level := hlen.symm
      skip := rfl
      depth := Nat.le_trans (Nat.sub_le _ _) h.depth
      visitor := rfl
      table := rfl
      tables := rfl
      waiting := rfl }
  -- whichever handler the scope was, the one around it takes over
  have hend : ∃ w, (c.within (f::fs)).visitor=some w ∧
      Walk.endSequence {s with depth := s.depth-1}={s with
        depth := s.depth-1, visitor := (c.within fs).visitor, vstack := c.waiting fs
        bmap := (c.within fs).table, bstack := if c.forest.isSome then c.tables fs else []
        store := s.store.call (.sequenceEnd w)} := by
    cases f with
    | row child => exact absurd rfl (hf child)
    | own =>
      have hvis' : s.visitor=some v := hvis.trans hv
      refine ⟨v,hv,hcall.trans ?_⟩
      rw [closeScope]
      dsimp only
      rw [hvis']
      dsimp only [call]
      rw [popVisitor.eq_def,show s.vstack=c.waiting fs from hwait,hv]
      dsimp only
      cases hstack' : c.waiting fs with
      | nil => rfl
      | cons top rest =>
        rw [hstack'] at hstack
        cases hstack with
        | cons hlt _ =>
          dsimp only
          rw [if_neg (by omega)]
    | child w =>
      have hvis' : s.visitor=some w := hvis
      refine ⟨w,rfl,hcall.trans ?_⟩
      rw [closeScope]
      dsimp only
      rw [hvis']
      dsimp only [call]
      rw [popVisitor.eq_def,hwait,Config.waiting,hv]
      exact if_pos hlen
  obtain ⟨w,hw,hend⟩ := hend
  exact ⟨w,hw,hback _ (by rw [hend]),by rw [hend]⟩

/-- A step goes on in the scopes a construct leads to, or refuses the construct. -/
inductive Moves (c : Config V) (fs : List (Enclosure V)) (k : ℕ) (s : Walk V) (m : Mark)
    (rest : List UInt8) : WalkStep V → Prop
  /-- The construct was taken. -/
  | next {s' : Walk V} {fs' : List (Enclosure V)} {k' : ℕ} {new : List (Event V)}
      (hn : Nests c fs' k' s') (hm : s'.mode=.header none s'.skipping)
      (hl : s'.store.log=s.store.log++new)
      (ht : ∀ {ms es}, Told c ms fs k es → Told c (ms++[m]) fs' k' (es++new)) :
      Moves c fs k s m rest (.next s' rest)
  /-- It was refused, and no handler heard of it. -/
  | fail {why : Exn} {s' : Walk V} {ys : List UInt8} (hl : s'.store.log=s.store.log)
      (hr : c.Refuses fs k s.store m) : Moves c fs k s m rest (.fail why s' ys)

/-- A construct that was taken without a call. -/
theorem Moves.quiet {m : Mark} {s' : Walk V} {fs' : List (Enclosure V)} {k' : ℕ}
    {rest : List UInt8} (hn : Nests c fs' k' s') (hm : s'.mode=.header none s'.skipping)
    (hl : s'.store.log=s.store.log)
    (ht : ∀ {ms es}, Told c ms fs k es → Told c (ms++[m]) fs' k' es) :
    Moves c fs k s m rest (.next s' rest) := by
  refine .next hn hm (hl.trans (List.append_nil _).symm) fun h => ?_
  rw [List.append_nil]
  exact ht h

/-- A change for a row that arrives calls nobody. -/
theorem quiet_row (c : Config V) (e : Entry) (σ : Store V) :
    (arrive c e σ).1.log=σ.log ∧ (countOccurrence c e σ).1.log=σ.log := by
  have hrow : (Licence.free fun _ : Event V => False).Row c e := Licence.free_row c e
  have hnone : ∀ {r : Store V × Option Exn},
      (Licence.free fun _ : Event V => False).Allows σ r → r.1.log=σ.log := by
    intro r hr
    obtain ⟨new,hnew,hcalls⟩ := hr.log
    cases new with
    | nil => rw [hnew,List.append_nil]
    | cons e new => exact absurd (hcalls e List.mem_cons_self) id
  refine ⟨hnone (within_arrive hrow.toArrival σ trivial),hnone ?_⟩
  exact within_countOccurrence (c:=c) (e:=e) hrow.count (fun _ _ _ _ => trivial) σ trivial

/-- The sequence of a row opens. -/
theorem moves_startMapped (h : Nests c fs 0 s) (hd : s.depth < maxDepth) {id : ℕ} {e : Entry}
    (he : matched c s.bmap id .sequenceStart none=some e) (rest : List UInt8) :
    Moves c fs 0 s (.start id) rest (startMapped c {s with depth := s.depth+1} e rest) := by
  obtain ⟨f,r,hf,-,hrow,hmis⟩ := matched_lookup he
  have hforest : c.forest.isSome=true := by rw [hf]; rfl
  have hkind := Entry.sequence_of_match hmis
  obtain ⟨child,hchild⟩ := Option.isSome_iff_exists.mp ((Forest.lookup_child hrow).mp hkind)
  have htables := h.tables
  have hlevel := h.level
  rw [if_pos hforest] at htables
  have harr := (quiet_row c e s.store).1
  have henter : (enter c (c.within fs) id).1=(arrive c e).andThen (countOccurrence c e) := by
    rw [enter,←h.table,he]
  rw [startMapped,hchild]
  dsimp only
  rcases ha : arrive c e s.store with ⟨σ,_|why⟩
  · rw [ha] at harr
    have hcount := (quiet_row c e σ).2
    dsimp only
    rw [pushMap,if_pos (by dsimp only; rw [htables,Config.tables_length]; omega)]
    dsimp only
    rcases hs : countOccurrence c e σ with ⟨τ,_|why⟩
    · rw [hs] at hcount
      exact .quiet (h.inRow hd hforest child τ) rfl (hcount.trans harr)
        fun ht => .row (h.table ▸ he) hchild ht
    · rw [hs] at hcount
      refine .fail (hcount.trans harr) (.row rfl ?_)
      rw [henter,Effect.andThen,ha]
      dsimp only
      rw [hs]
      simp
  · rw [ha] at harr
    refine .fail harr (.row rfl ?_)
    rw [henter,Effect.andThen,ha]
    simp

/-- A handler is offered a sequence that no row takes. -/
theorem moves_startVisited (h : Nests c fs 0 s) (hbare : c.forest=none → (c.within fs).table=none)
    (hd : s.depth < maxDepth) {v : V} {id : ℕ} (ho : Offered c fs v id) (rest : List UInt8) :
    Moves c fs 0 s (.start id) rest (startVisited c {s with depth := s.depth+1} v id rest) := by
  have hcalls := calls_log (sequenceOffer c v id).1 s.store
  have hlevel := h.level
  rw [startVisited]
  dsimp only
  cases ha : (sequenceOffer c v id).2 with
  | skip => exact .next (h.inSkip hd _) rfl hcalls fun ht => .declined ho ha ht
  | stay =>
    dsimp only
    rw [h.hideMap hbare hd]
    exact .next (h.inOwn hd _) rfl hcalls fun ht => .own ho ha ht
  | descend w =>
    dsimp only
    have hlen := (c.waiting_stacked fs).length_le
    rw [h.hideMap hbare hd]
    dsimp only
    rw [pushVisitor,if_pos (by dsimp only; rw [h.waiting]; omega)]
    exact .next (h.inChild hd ho.handler w _) rfl hcalls fun ht => .child ho ha ht

/-- A sequence opens, or is skipped. -/
theorem moves_start (h : Nests c fs k s) (hbare : c.forest=none → (c.within fs).table=none)
    (id : ℕ) (rest : List UInt8) :
    Moves c fs k s (.start id) rest (meet c s s.skipping (.start id) rest) := by
  have hlevel := h.level
  cases hs : s.skipping with
  | some target =>
    obtain ⟨k,rfl,rfl⟩ := h.over hs
    rw [meet,onTokenSkipping]
    split
    · exact .fail rfl (.deep (by omega))
    · exact .quiet (h.deeper (by omega)) rfl rfl fun ht => .startOver id ht
  | none =>
    have hk := h.flat hs
    subst hk
    rw [meet,onToken]
    split
    · exact .fail rfl (.deep (by omega))
    · have hd : s.depth < maxDepth := by omega
      have hskip : ∀ (hm : matched c s.bmap id .sequenceStart none=none)
          (hn : s.bmap.any c.closed=true ∨ s.visitor=none),
          Moves c fs 0 s (.start id) rest (skip {s with depth := s.depth+1} rest) := by
        intro hm hn
        rw [h.table] at hm hn
        rw [h.visitor] at hn
        exact .quiet (h.inSkip hd s.store) rfl rfl fun ht => .unheard hm hn ht
      rw [startSequence]
      dsimp only
      cases he : matched c s.bmap id .sequenceStart none with
      | some e => exact moves_startMapped h hd he rest
      | none =>
        dsimp only
        split
        · next hclosed => exact hskip he (.inl hclosed)
        · next hclosed =>
          split
          · next hv => exact hskip he (.inr hv)
          · next v hv =>
            have ho : Offered c fs v id := by
              refine ⟨h.visitor.symm.trans hv,?_,?_⟩
              · rw [←h.table]
                exact he
              · rw [←h.table]
                exact hclosed
            exact moves_startVisited h hbare hd ho rest

/-- The innermost sequence closes. -/
theorem moves_stop {ms : List Mark} {es : List (Event V)} (h : Nests c fs k s)
    (ht : Told c ms fs k es) (rest : List UInt8) :
    Moves c fs k s .stop rest (meet c s s.skipping .stop rest) := by
  have hlevel := h.level
  cases hs : s.skipping with
  | some target =>
    obtain ⟨k,rfl,rfl⟩ := h.over hs
    rw [meet,onTokenSkipping]
    split
    · exact .fail rfl (.stray (by omega))
    · exact .quiet h.shallower rfl rfl fun ht => .stopOver ht
  | none =>
    have hk := h.flat hs
    subst hk
    rw [meet,onToken]
    split
    · exact .fail rfl (.stray (by omega))
    · cases fs with
      | nil =>
        rw [List.length_nil] at hlevel
        omega
      | cons f fs =>
        have hbare : c.forest=none → (c.within fs).table=none := fun hnone =>
          Config.within_rowless hnone fun child hc =>
            ht.rowless hnone child (List.mem_cons_of_mem f hc)
        by_cases hf : ∃ child, f=.row child
        · obtain ⟨child,rfl⟩ := hf
          have hforest : c.forest.isSome=true := by
            by_contra hnone
            exact ht.rowless (Option.not_isSome_iff_eq_none.mp hnone) child List.mem_cons_self
          obtain ⟨hleft,hstore⟩ := h.leaveRow hforest
          exact .quiet hleft rfl (congrArg Store.log hstore) fun ht => .rowEnd ht
        · have hrow : ∀ child, f≠.row child := fun child hc => hf ⟨child,hc⟩
          obtain ⟨w,hw,hleft,hstore⟩ := h.leaveScope hrow hbare (ht.handled [] f fs rfl hrow)
          exact .next hleft rfl (congrArg Store.log hstore) fun ht => .finish hrow hw ht

/-- A value that is visited has a handler. -/
def Handled (s : Walk V) : Prop :=
  ∀ id t p b, s.mode=.value id (.visit t) p b → s.visitor.isSome=true

/-- No value is visited between constructs. -/
theorem handled_header {drop : Option Pending} {skip : Option ℕ} (hm : s.mode=.header drop skip) :
    s.Handled := by
  intro id t p b hv
  rw [hm] at hv
  cases hv

/-- The walk is in scopes that a stream leads to. -/
structure Scoping (c : Config V) (s : Walk V) : Prop where
  /-- The value in hand is read by a route the walk can have taken. -/
  sound : s.Sound c
  /-- A value that is visited has a handler. -/
  handled : s.Handled
  /-- Some constructs come to the scopes it is in. -/
  nests : ∃ ms fs k es, Told c ms fs k es ∧ Nests c fs k s

/-- Meeting a value leaves the scopes as they are. -/
theorem startValue_nests (h : Nests c fs k s) (hm : s.mode=.header none none) (id : ℕ)
    (p : Pending) (rest : List UInt8) :
    (startValue c s id p rest).Keeps fun s' => s'.Handled ∧ Nests c fs k s' := by
  have hskip : s.skipping=none := by rw [skipping,hm]
  have hdecline : (decline s p rest).Keeps fun s' => s'.Handled ∧ Nests c fs k s' :=
    ⟨handled_header rfl,h.change (m:=.header (some p) none) s.store hskip.symm⟩
  rw [startValue]
  cases matched c s.bmap id p.tag.1 p.tag.2 with
  | some e =>
    refine ⟨?_,h.change (m:=.value id (.mapped e) p false) s.store hskip.symm⟩
    intro id t p b hm'
    cases hm'
  | none =>
    dsimp only
    split
    · exact hdecline
    · split
      · exact hdecline
      · next v hv =>
        rw [offerField]
        dsimp only
        split
        · split
          · trivial
          · next q hq =>
            refine ⟨?_,h.change (m:=.value id (.visit p.tag.1) q false) _ hskip.symm⟩
            intro id t p b _
            show s.visitor.isSome=true
            rw [hv]
            rfl
        · exact ⟨handled_header rfl,h.change (m:=.header (some p) none) _ hskip.symm⟩

/-- Reading a value leaves the scopes as they are. -/
theorem valueStep_nests (h : Nests c fs k s) (hh : s.Handled) {id : ℕ} {r : Route} {p : Pending}
    {b : Bool} (hm : s.mode=.value id r p b) (xs : List UInt8) :
    (valueStep c s id r p xs).Keeps fun s' => s'.Handled ∧ Nests c fs k s' := by
  have hskip : s.skipping=none := by rw [skipping,hm]
  rw [valueStep]
  cases (prepare c s.visitor id r p s.store).2.2.read c
    (prepare c s.visitor id r p s.store).1 xs with
  | done σ rest =>
    exact ⟨handled_header rfl,h.change (m:=.header none none) σ hskip.symm⟩
  | more σ =>
    refine ⟨?_,h.change (m:=.value id r (prepare c s.visitor id r p s.store).2.1 true) σ hskip.symm⟩
    intro id' t p' b' hm'
    cases hm'
    exact hh id t p b hm
  | bad why σ => trivial

/-- Meeting a header leads to scopes of the stream. -/
theorem meet_nests {ms : List Mark} {es : List (Event V)} (h : Nests c fs k s)
    (ht : Told c ms fs k es) (hm : s.mode=.header none s.skipping) (tok : Token)
    (rest : List UInt8) :
    (meet c s s.skipping tok rest).Keeps fun s' =>
      s'.Handled ∧ ∃ ms fs k es, Told c ms fs k es ∧ Nests c fs k s' := by
  have hmoves : ∀ {m : Mark} {r : WalkStep V}, Moves c fs k s m rest r → r.Keeps fun s' =>
      s'.Handled ∧ ∃ ms fs k es, Told c ms fs k es ∧ Nests c fs k s' := by
    intro m r hr
    cases hr with
    | next hn hm' _ ht' =>
      exact ⟨handled_header hm',_,_,_,_,ht' ht,hn⟩
    | fail => trivial
  cases tok with
  | start id => exact hmoves (moves_start h ht.bare id rest)
  | stop => exact hmoves (moves_stop h ht rest)
  | value id p =>
    cases hs : s.skipping with
    | none =>
      rw [hs] at hm
      have hvalue := startValue_nests h hm id (park c p) rest
      cases hr : startValue c s id (park c p) rest with
      | next s' ys | wait s' ys | stop s' =>
        rw [hr] at hvalue
        rw [meet,onToken,hr]
        exact ⟨hvalue.1,_,_,_,_,ht,hvalue.2⟩
      | fail why s' ys =>
        rw [meet,onToken,hr]
        trivial
    | some target =>
      refine ⟨handled_header rfl,_,_,_,_,ht,?_⟩
      exact h.change (m:=.header (some (park c p)) (some target)) s.store hs.symm

/-- Every step leads to scopes of the stream. -/
theorem scoping_step (h : Scoping c s) (xs : List UInt8) : (step c s xs).Keeps (Scoping c) := by
  obtain ⟨ms,fs,k,es,ht,hn⟩ := h.nests
  have hkeep := keeps_step h.sound xs
  have hstep : (step c s xs).Keeps fun s' =>
      s'.Handled ∧ ∃ ms fs k es, Told c ms fs k es ∧ Nests c fs k s' := by
    rw [step]
    cases hm : s.mode with
    | value id r p resumed =>
      dsimp only
      split
      · exact ⟨h.handled,_,_,_,_,ht,hn⟩
      · have hvalue := valueStep_nests hn h.handled hm xs
        cases hr : valueStep c s id r p xs with
        | next s' ys | wait s' ys | stop s' =>
          rw [hr] at hvalue
          exact ⟨hvalue.1,_,_,_,_,ht,hvalue.2⟩
        | fail why s' ys => trivial
    | header drop skip =>
      have hskip : s.skipping=skip := by rw [skipping,hm]
      cases drop with
      | some p =>
        have hchange : ∀ q, Nests c fs k {s with mode := .header q skip} := fun q =>
          hn.change (m:=.header q skip) s.store hskip.symm
        dsimp only
        rw [dropStep]
        cases p.drop xs with
        | gone rest => exact ⟨handled_header rfl,_,_,_,_,ht,hchange none⟩
        | left q rest => exact ⟨handled_header rfl,_,_,_,_,ht,hchange (some q)⟩
        | bad why => trivial
      | none =>
        dsimp only
        rw [headerStep]
        split
        · split <;> exact ⟨h.handled,_,_,_,_,ht,hn⟩
        · cases readToken xs with
          | more => exact ⟨h.handled,_,_,_,_,ht,hn⟩
          | bad why => trivial
          | done tok rest =>
            have hmeet := meet_nests hn ht (by rw [hm,hskip]) tok rest
            rw [hskip] at hmeet
            exact hmeet
  cases hr : step c s xs with
  | next s' rest | wait s' rest | stop s' =>
    rw [hr] at hkeep hstep
    exact ⟨hkeep,hstep.1,hstep.2⟩
  | fail why s' rest => trivial

end Nests

end Walk

end SofaBuffers
