import SofaBuffers.Walk.Plan

/-!
# The walk as a machine

The decoder's field walk with the buffer taken away: a state, and one step on
the bytes still to be walked. A step drops a value nobody reads, or reads a
header and settles whose the construct is, or reads a value. Between feeds the
machine is suspended in the state the last step left it in.
-/

set_option autoImplicit false

namespace SofaBuffers

open Resumable

variable {V : Type}

/-- What the walk is in the middle of. -/
inductive Mode
  /-- Between constructs: a value may be left to drop, and a skip may be
  walking back to a depth. -/
  | header (drop : Option Pending) (skip : Option ℕ)
  /-- At a value, met by this feed or by an earlier one. -/
  | value (id : ℕ) (r : Route) (p : Pending) (resumed : Bool)
  deriving DecidableEq, Repr

/-- The walk between two steps. -/
structure Walk (V : Type) where
  /-- What it is in the middle of. -/
  mode : Mode := .header none none
  /-- Sequences open. -/
  depth : ℕ := 0
  /-- The current handler. -/
  visitor : Option V
  /-- The handlers suspended by a descent. -/
  vstack : List (V × ℕ) := []
  /-- The current table. -/
  bmap : Option ℕ := none
  /-- The tables suspended by a descent. -/
  bstack : List (Option ℕ) := []
  /-- The handler's storage. -/
  store : Store V

/-- Are all bytes of a value there, as far as its header tells? -/
def Pending.ready (p : Pending) (xs : List UInt8) : Bool :=
  match p with
  | .fixlen _ length => length ≤ xs.length
  | .farray _ count elemSize => count*elemSize ≤ xs.length
  | _ => true

/-- A step of the walk. -/
abbrev WalkStep (V : Type) := Step (Walk V) UInt8 Exn

namespace Walk

/-- Leave the construct behind and go on. -/
def go (s : Walk V) (rest : List UInt8) : WalkStep V :=
  .next {s with mode := .header none none} rest

/-- Leave the value to be dropped. -/
def decline (s : Walk V) (p : Pending) (rest : List UInt8) : WalkStep V :=
  .next {s with mode := .header (some p) none} rest

/-- Walk back to the depth the sequence just opened closes to. -/
def skip (s : Walk V) (rest : List UInt8) : WalkStep V :=
  .next {s with mode := .header none (some (s.depth-1))} rest

/-- Suspend the current table and go on in a scope. -/
def pushMap (s : Walk V) (inner : Option ℕ) : Option (Walk V) :=
  if s.bstack.length < maxDepth then some {s with bstack := s.bmap::s.bstack, bmap := inner}
  else none

/-- Suspend the current handler for a child's scope. -/
def pushVisitor (s : Walk V) (outer child : V) : Option (Walk V) :=
  if s.vstack.length < maxDepth then
    some {s with vstack := (outer,s.depth-1)::s.vstack, visitor := some child}
  else none

/-- Go back to the handler a child's scope suspended, if it was this scope. -/
def popVisitor (s : Walk V) : Walk V :=
  match s.vstack with
  | (outer,depth)::rest =>
    if depth=s.depth then {s with visitor := some outer, vstack := rest} else s
  | [] => s

/-- A call on a handler is made. -/
def call (s : Walk V) (e : Event V) : Walk V := {s with store := s.store.call e}

/-- The handler hears its scope close, and a child's scope ends with it. -/
def closeScope (s : Walk V) : Walk V :=
  match s.visitor with
  | none => popVisitor s
  | some v => popVisitor (s.call (.sequenceEnd v))

/-- The end marker of a sequence was read. -/
def endSequence (s : Walk V) : Walk V :=
  match s.bstack with
  | outer::rest =>
    if s.bmap.isSome then {s with bmap := outer, bstack := rest}
    else closeScope {s with bmap := outer, bstack := rest}
  | [] => closeScope s

/-- One more occurrence of a sequence row. -/
def countOccurrence (c : Config V) (e : Entry) : Effect V :=
  match e.countAt with
  | none => .done
  | some i => fun s =>
    if i < c.nwords then Sink.put c .unsignedWords i (((s.word i).toNat : ℤ)+1) s
    else (s,some .index)

/-- The walk descends into a sequence a row names. -/
def startMapped (c : Config V) (s : Walk V) (e : Entry) (rest : List UInt8) : WalkStep V :=
  match e.child with
  | none => .fail .assertion s rest
  | some child =>
    match arrive c e s.store with
    | (σ,some why) => .fail why {s with store := σ} rest
    | (σ,none) =>
      match pushMap {s with store := σ} (some child) with
      | none => .fail .index {s with store := σ} rest
      | some s =>
        match countOccurrence c e s.store with
        | (σ,some why) => .fail why {s with store := σ} rest
        | (σ,none) => go {s with store := σ} rest

/-- What the handler answers to a sequence, and the call it was asked by. -/
def sequenceOffer (c : Config V) (v : V) (id : ℕ) : List (Event V) × SeqAnswer V :=
  match (c.hooks v).onSequenceBegin with
  | none => ([],.stay)
  | some begin => ([.sequenceBegin v id],begin id)

/-- Keep the enclosing table from matching inside a scope the handler opens. -/
def hideMap (c : Config V) (s : Walk V) : Option (Walk V) :=
  if c.forest.isSome then pushMap s none else some s

/-- The handler is asked about a sequence no row names. -/
def startVisited (c : Config V) (s : Walk V) (v : V) (id : ℕ) (rest : List UInt8) :
    WalkStep V :=
  let offer := sequenceOffer c v id
  let s := {s with store := offer.1.foldl Store.call s.store}
  match offer.2 with
  | .skip => skip s rest
  | .stay =>
    match hideMap c s with
    | none => .fail .index s rest
    | some s => go s rest
  | .descend child =>
    match hideMap c s with
    | none => .fail .index s rest
    | some s =>
      match pushVisitor s v child with
      | none => .fail .index s rest
      | some s => go s rest

/-- The call `on_field` is asked by, and whether the field is accepted. -/
def fieldOffer (c : Config V) (v : V) (id : ℕ) (p : Pending) : List (Event V) × Bool :=
  match (c.hooks v).onField with
  | none => ([],true)
  | some accept =>
    let field := buildField id p.tag.1 p
    ([.field v field],accept field)

/-- The question `on_schema_bound` is asked about a value, if it is asked. -/
def boundQuestion (p : Pending) : Option (ℕ × WireType × Option FixlenSubtype) :=
  match p.real with
  | .fixlen st n => if st=.fp32 ∨ st=.fp64 then none else some (n,.fixlen,some st)
  | .varray signed n => some (n,if signed then .arraySigned else .arrayUnsigned,none)
  | .farray st n _ => some (n,.arrayFixlen,some st)
  | _ => none

/-- The call `on_schema_bound` is asked by, and the answer. -/
def boundOffer (c : Config V) (v : V) (id : ℕ) (p : Pending) : List (Event V) × Option ℕ :=
  match (c.hooks v).onSchemaBound,boundQuestion p with
  | some bound,some (n,wt,st) =>
    let declared := bound id n wt st
    ([.bound v id n wt st],if declared < 0 then none else some declared.toNat)
  | _,_ => ([],none)

/-- A value no row names is offered to the handler. -/
def offerField (c : Config V) (s : Walk V) (v : V) (id : ℕ) (p : Pending) (rest : List UInt8) :
    WalkStep V :=
  let offer := fieldOffer c v id p
  let s := {s with store := offer.1.foldl Store.call s.store}
  if offer.2 then
    let offer := boundOffer c v id p
    let s := {s with store := offer.1.foldl Store.call s.store}
    match settled offer.2 p with
    | .error why => .fail why {s with mode := .header (some p) none} rest
    | .ok q => .next {s with mode := .value id (.visit p.tag.1) q false} rest
  else decline s p rest

/-- The row of the current table that takes an id under a wire tag. -/
def matched (c : Config V) (bmap : Option ℕ) (id : ℕ) (t : WireType)
    (st : Option FixlenSubtype) : Option Entry :=
  (bmap.bind fun r => c.lookup r id).filter fun e => !e.mismatch t st

/-- Whether the current table names an id at all. -/
def named (c : Config V) (bmap : Option ℕ) (id : ℕ) : Bool :=
  (bmap.bind fun r => c.lookup r id).isSome

/-- Settle whose value was announced. -/
def startValue (c : Config V) (s : Walk V) (id : ℕ) (p : Pending) (rest : List UInt8) :
    WalkStep V :=
  match matched c s.bmap id p.tag.1 p.tag.2 with
  | some e => .next {s with mode := .value id (.mapped e) p false} rest
  | none =>
    if named c s.bmap id || s.bmap.any c.closed then decline s p rest
    else
      match s.visitor with
      | none => decline s p rest
      | some v => offerField c s v id p rest

/-- Settle whose sequence was opened; the depth counts it already. -/
def startSequence (c : Config V) (s : Walk V) (id : ℕ) (rest : List UInt8) : WalkStep V :=
  match matched c s.bmap id .sequenceStart none with
  | some e => startMapped c s e rest
  | none =>
    if s.bmap.any c.closed then skip s rest
    else
      match s.visitor with
      | none => skip s rest
      | some v => startVisited c s v id rest

/-- What a header leads to outside a skip. -/
def onToken (c : Config V) (s : Walk V) (t : Token) (rest : List UInt8) : WalkStep V :=
  match t with
  | .value id p => startValue c s id (park c p) rest
  | .start id =>
    if maxDepth ≤ s.depth then .fail (.decode "nesting exceeds MAX_DEPTH=255") s rest
    else startSequence c {s with depth := s.depth+1} id rest
  | .stop =>
    if s.depth ≤ 0 then .fail (.decode "unbalanced sequence end") s rest
    else go (endSequence {s with depth := s.depth-1}) rest

/-- What a header leads to inside a skip back to a depth. -/
def onTokenSkipping (c : Config V) (s : Walk V) (target : ℕ) (t : Token) (rest : List UInt8) :
    WalkStep V :=
  match t with
  | .value _ p => .next {s with mode := .header (some (park c p)) (some target)} rest
  | .start _ =>
    if maxDepth ≤ s.depth then .fail (.decode "nesting exceeds MAX_DEPTH=255") s rest
    else .next {s with mode := .header none (some target), depth := s.depth+1} rest
  | .stop =>
    if s.depth ≤ 0 then .fail (.decode "unbalanced sequence end") s rest
    else
      let skip := if target < s.depth-1 then some target else none
      .next {s with mode := .header none skip, depth := s.depth-1} rest

/-- What a header leads to. -/
def meet (c : Config V) (s : Walk V) (skip : Option ℕ) (t : Token) (rest : List UInt8) :
    WalkStep V :=
  match skip with
  | none => onToken c s t rest
  | some target => onTokenSkipping c s target t rest

/-- Read a header. -/
def headerStep (c : Config V) (s : Walk V) (skip : Option ℕ) (xs : List UInt8) : WalkStep V :=
  if xs=[] then
    if s.depth≠0 then .wait s [] else .stop s
  else
    match readToken xs with
    | .more => .wait s xs
    | .bad why => .fail why s xs
    | .done t rest => meet c s skip t rest

/-- Drop a value nobody reads. -/
def dropStep (s : Walk V) (p : Pending) (skip : Option ℕ) (xs : List UInt8) : WalkStep V :=
  match p.drop xs with
  | .gone rest => .next {s with mode := .header none skip} rest
  | .left p rest => .wait {s with mode := .header (some p) skip} rest
  | .bad why => .fail why s xs

/-- Read a value. -/
def valueStep (c : Config V) (s : Walk V) (id : ℕ) (r : Route) (p : Pending)
    (xs : List UInt8) : WalkStep V :=
  let ready := prepare c s.visitor id r p s.store
  match ready.2.2.read c ready.1 xs with
  | .done σ rest => go {s with store := σ} rest
  | .more σ => .wait {s with mode := .value id r ready.2.1 true, store := σ} xs
  | .bad why σ => .fail why {s with mode := .header (some ready.2.1) none, store := σ} xs

section ValueStep

variable {c : Config V} {s : Walk V} {id : ℕ} {r : Route} {p : Pending} {xs rest : List UInt8}
  {σ : Store V} {why : Exn}

/-- A value that was read is followed by the next header. -/
theorem valueStep_done
    (h : (prepare c s.visitor id r p s.store).2.2.read c
      (prepare c s.visitor id r p s.store).1 xs=.done σ rest) :
    valueStep c s id r p xs=go {s with store := σ} rest := by
  rw [valueStep,h]

/-- A value whose bytes are short is read again. -/
theorem valueStep_more
    (h : (prepare c s.visitor id r p s.store).2.2.read c
      (prepare c s.visitor id r p s.store).1 xs=.more σ) :
    valueStep c s id r p xs=
      .wait {s with mode := .value id r (prepare c s.visitor id r p s.store).2.1 true, store := σ}
        xs := by
  rw [valueStep,h]

/-- A value that was rejected ends the walk. -/
theorem valueStep_bad
    (h : (prepare c s.visitor id r p s.store).2.2.read c
      (prepare c s.visitor id r p s.store).1 xs=.bad why σ) :
    valueStep c s id r p xs=
      .fail why {s with
        mode := .header (some (prepare c s.visitor id r p s.store).2.1) none, store := σ} xs := by
  rw [valueStep,h]

end ValueStep

/-- One step of the walk. -/
def step (c : Config V) (s : Walk V) (xs : List UInt8) : WalkStep V :=
  match s.mode with
  | .header none skip => headerStep c s skip xs
  | .header (some p) skip => dropStep s p skip xs
  | .value id r p resumed =>
    if resumed && !p.ready xs then .wait s xs else valueStep c s id r p xs

/-- How much is still to be done: the bytes, and the value in hand. -/
def size (s : Walk V) (xs : List UInt8) : ℕ :=
  2*xs.length+match s.mode with
    | .header none _ => 0
    | .header (some _) _ => 1
    | .value .. => 1

/-- Walk the bytes at hand. -/
def run (c : Config V) (s : Walk V) (xs : List UInt8) : Halt (Walk V) UInt8 Exn :=
  Resumable.run (step c) size s xs

end Walk

end SofaBuffers
