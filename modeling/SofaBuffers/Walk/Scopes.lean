import SofaBuffers.Walk.Meaning

/-!
# Scopes are entered and left

A sequence that is not skipped is a scope of its own: of a table row, of the
handler that stays, or of another it descends to. Its end marker gives back the
scope around it, and the fields inside make the change they mean there. What
well-formed fields do is therefore read off the fields alone.
-/

set_option autoImplicit false

namespace SofaBuffers

open Resumable

variable {V : Type}

/-- A row that takes the start of a sequence is a sequence row. -/
theorem Entry.sequence_of_match {e : Entry} {st : Option FixlenSubtype}
    (h : e.mismatch .sequenceStart st=false) : e.kind=.sequence := by
  rw [Entry.mismatch,Bool.or_eq_false_iff] at h
  have hwt : e.kind.tag.1=.sequenceStart := (not_not.mp (of_decide_eq_false h.1)).symm
  cases hk : e.kind <;> rw [hk] at hwt <;> first | rfl | cases hwt

namespace Walk

variable {c : Config V} {s s' : Walk V}

/-- Storage is not the walk's. -/
theorem Open.store (h : s.Open c) (σ : Store V) : ({s with store := σ} : Walk V).Open c :=
  ⟨h.between,h.depth,h.stacked,h.tables,h.bare⟩

/-- The walk is in the scope of a sequence, which its end marker leaves. -/
structure Inside (c : Config V) (s s' : Walk V) (into : Entered V) : Prop where
  /-- It is between two constructs. -/
  opened : s'.Open c
  /-- One more sequence is open. -/
  depth : s'.depth=s.depth+1
  /-- The scope is the sequence's. -/
  scope : s'.scope=into.inside
  /-- The end marker leads back. -/
  leaves : ∀ (σ : Store V) (tl rest : List UInt8), Announces tl .stop →
    Does c {s' with store := σ} (tl++rest) (Effect.calls into.closing) s rest

/-- An end marker closes the innermost scope. -/
theorem step_stop {tl : List UInt8} (hm : s.mode=.header none none) (ha : Announces tl .stop)
    (hd : 0 < s.depth) (rest : List UInt8) :
    step c s (tl++rest)=go (endSequence {s with depth := s.depth-1}) rest := by
  have hpos : ¬s.depth ≤ 0 := by omega
  refine (meets hm ha rest).trans ?_
  simp only [Lead.token,meet,onToken,hpos,if_false]

/-- No handler is suspended for a scope as deep as the innermost. -/
theorem Open.popVisitor (h : s.Open c) : Walk.popVisitor s=s := by
  have hstack := h.stacked
  rw [Walk.popVisitor.eq_def]
  split
  · next outer e rest he =>
    rw [he] at hstack
    cases hstack with
    | cons hlt _ => rw [if_neg (by omega)]
  · rfl

/-- The walk inside a sequence a row names. -/
def inRow (s : Walk V) (child : ℕ) : Walk V :=
  {s with depth := s.depth+1, bmap := some child, bstack := s.bmap::s.bstack}

/-- The tables suspended in a scope the handler opened. -/
def hidden (c : Config V) (s : Walk V) : List (Option ℕ) :=
  if c.forest.isSome then s.bmap::s.bstack else s.bstack

/-- The walk inside a sequence the handler stays for. -/
def inHandler (c : Config V) (s : Walk V) : Walk V :=
  {s with depth := s.depth+1, bmap := none, bstack := hidden c s}

/-- The walk inside a sequence the handler descends to another for. -/
def inChild (c : Config V) (s : Walk V) (outer child : V) : Walk V :=
  {s with
    depth := s.depth+1, bmap := none, bstack := hidden c s, visitor := some child
    vstack := (outer,s.depth)::s.vstack}

/-- The tables suspended count the scopes. -/
theorem Open.hidden_length (h : s.Open c) (hf : c.forest.isSome=true) :
    (hidden c s).length=s.depth+1 := by
  rw [hidden,if_pos hf,List.length_cons,h.tables hf]

/-- Without tables none is suspended. -/
theorem Open.hidden_bare (h : s.Open c) (hf : c.forest=none) : hidden c s=[] := by
  rw [hidden,hf]
  exact (h.bare hf).2

/-- The walk is inside the sequence of a row. -/
theorem inside_row (h : s.Open c) (hd : s.depth < maxDepth) (hf : c.forest.isSome=true)
    (child : ℕ) :
    Inside c s (s.inRow child) ⟨⟨s.visitor,some child⟩,[]⟩ where
  opened := by
    have hb : c.forest≠none := fun hn => by rw [hn] at hf; cases hf
    exact ⟨h.between,hd,h.stacked.mono (Nat.le_succ _),fun hf' => congrArg (·+1) (h.tables hf'),
      fun hn => absurd hn hb⟩
  depth := rfl
  scope := rfl
  leaves := by
    intro σ tl rest ha
    have hstep := step_stop (c:=c) (s:={s.inRow child with store := σ}) h.between ha
      (Nat.succ_pos s.depth) rest
    refine Does.done ((run_next hstep).trans ?_)
    rw [inRow,endSequence]
    simp only [Option.isSome_some,if_true,Nat.add_sub_cancel,←h.between]

/-- The end of a handler's scope gives the table back. -/
theorem Open.endSequence (h : s.Open c) {u : Walk V} (hm : u.bmap=none)
    (hs : u.bstack=hidden c s) :
    Walk.endSequence u=closeScope {u with bmap := s.bmap, bstack := s.bstack} := by
  by_cases hf : c.forest.isSome=true
  · rw [hidden,if_pos hf] at hs
    rw [Walk.endSequence.eq_def,hs,hm]
    rfl
  · have hbare := h.bare (Option.not_isSome_iff_eq_none.mp hf)
    rw [hidden,if_neg hf,hbare.2] at hs
    have hsame : ({u with bmap := s.bmap, bstack := s.bstack} : Walk V)=u := by
      rw [hbare.1,hbare.2,←hm,←hs]
    rw [hsame,Walk.endSequence.eq_def,hs]

/-- The walk is inside a sequence the handler stays for. -/
theorem inside_handler (h : s.Open c) (hd : s.depth < maxDepth) {v : V} (hv : s.visitor=some v) :
    Inside c s (inHandler c s) ⟨⟨some v,none⟩,[.sequenceEnd v]⟩ where
  opened := ⟨h.between,hd,h.stacked.mono (Nat.le_succ _),h.hidden_length,
    fun hf => ⟨rfl,h.hidden_bare hf⟩⟩
  depth := rfl
  scope := by rw [scope,inHandler,hv]
  leaves := by
    intro σ tl rest ha
    have hstep := step_stop (c:=c) (s:={inHandler c s with store := σ}) h.between ha
      (Nat.succ_pos s.depth) rest
    rw [h.endSequence rfl rfl,closeScope] at hstep
    dsimp only [inHandler] at hstep
    rw [hv] at hstep
    have hpop := (h.store (σ.call (.sequenceEnd v))).popVisitor
    simp only [call,Nat.add_sub_cancel] at hstep
    rw [←hv,hpop,go] at hstep
    have hback : ({s with
        mode := .header none none, store := σ.call (.sequenceEnd v)} : Walk V)=
          {s with store := σ.call (.sequenceEnd v)} := by
      rw [←h.between]
    exact run_next (hstep.trans (congrArg (Step.next · rest) hback))

/-- The walk is inside a sequence the handler descends to another for. -/
theorem inside_child (h : s.Open c) (hd : s.depth < maxDepth) {v : V} (hv : s.visitor=some v)
    (child : V) :
    Inside c s (inChild c s v child) ⟨⟨some child,none⟩,[.sequenceEnd child]⟩ where
  opened := ⟨h.between,hd,.cons (Nat.lt_succ_self _) h.stacked,h.hidden_length,
    fun hf => ⟨rfl,h.hidden_bare hf⟩⟩
  depth := rfl
  scope := rfl
  leaves := by
    intro σ tl rest ha
    have hstep := step_stop (c:=c) (s:={inChild c s v child with store := σ}) h.between ha
      (Nat.succ_pos s.depth) rest
    rw [h.endSequence rfl rfl,closeScope] at hstep
    dsimp only [inChild] at hstep
    simp only [call,Nat.add_sub_cancel,Walk.popVisitor,if_true] at hstep
    have hback : ({s with
        mode := .header none none, visitor := some v,
        store := σ.call (.sequenceEnd child)} : Walk V)=
          {s with store := σ.call (.sequenceEnd child)} := by
      rw [←h.between,←hv]
    exact run_next (hstep.trans (congrArg (Step.next · rest) hback))

/-- What the start of a sequence leads to: a skip back to where it opened, or the
scope it is entered in. -/
def Starts (c : Config V) (s : Walk V) (xs rest : List UInt8)
    (start : Effect V × Option (Entered V)) : Prop :=
  match start.2 with
  | none =>
    Does c s xs start.1 {s with mode := .header none (some s.depth), depth := s.depth+1} rest
  | some into => ∃ s' : Walk V, Inside c s s' into ∧ Does c s xs start.1 s' rest

/-- A row that is matched is one of a table, and takes the tag. -/
theorem matched_lookup {bmap : Option ℕ} {id : ℕ} {t : WireType} {st : Option FixlenSubtype}
    {e : Entry} (h : matched c bmap id t st=some e) :
    ∃ f r, c.forest=some f ∧ bmap=some r ∧ f.lookup r id=some e ∧ e.mismatch t st=false := by
  obtain ⟨hlook,hmis⟩ := Option.filter_eq_some_iff.mp h
  obtain ⟨r,hr,hrow⟩ := Option.bind_eq_some_iff.mp hlook
  rw [Config.lookup] at hrow
  obtain ⟨f,hf,hrow⟩ := Option.bind_eq_some_iff.mp hrow
  exact ⟨f,r,hf,hr,hrow,by simpa using hmis⟩

/-- The sequence of a row is entered. -/
theorem starts_row (h : s.Open c) (hd : s.depth < maxDepth) {id : ℕ} {e : Entry}
    (hm : matched c s.bmap id .sequenceStart none=some e) {xs rest : List UInt8}
    (hstep : step c s xs=startMapped c {s with depth := s.depth+1} e rest) :
    Starts c s xs rest ((arrive c e).andThen (countOccurrence c e),
      some ⟨⟨s.visitor,e.child⟩,[]⟩) := by
  obtain ⟨f,r,hf,-,hrow,hmis⟩ := matched_lookup hm
  have hforest : c.forest.isSome=true := by rw [hf]; rfl
  have hkind := Entry.sequence_of_match hmis
  obtain ⟨child,hchild⟩ := Option.isSome_iff_exists.mp ((Forest.lookup_child hrow).mp hkind)
  rw [hchild]
  refine ⟨s.inRow child,inside_row h hd hforest child,?_⟩
  rw [startMapped,hchild] at hstep
  dsimp only at hstep ⊢
  rw [Does,Effect.andThen]
  rcases harr : arrive c e s.store with ⟨σ,_|why⟩
  · rw [harr] at hstep
    dsimp only at hstep ⊢
    rw [pushMap,if_pos (by dsimp only; rw [h.tables hforest]; exact hd)] at hstep
    dsimp only at hstep
    rcases hcount : countOccurrence c e σ with ⟨τ,_|why⟩
    · rw [hcount] at hstep
      refine (run_next hstep).trans ?_
      rw [inRow,h.between]
    · rw [hcount] at hstep
      exact ⟨_,_,run_fail hstep,rfl⟩
  · rw [harr] at hstep
    exact ⟨_,_,run_fail hstep,rfl⟩

/-- The handler's scope hides the enclosing table. -/
theorem Open.hideMap (h : s.Open c) (hd : s.depth < maxDepth) (σ : Store V) :
    Walk.hideMap c {s with depth := s.depth+1, store := σ}=some {inHandler c s with store := σ} := by
  rw [Walk.hideMap,inHandler,hidden]
  by_cases hf : c.forest.isSome=true
  · have hlen := h.tables hf
    rw [if_pos hf,if_pos hf,pushMap]
    exact if_pos (by dsimp only; omega)
  · have hbare := h.bare (Option.not_isSome_iff_eq_none.mp hf)
    rw [if_neg hf,if_neg hf,hbare.1]

/-- A sequence the handler is asked about is skipped, or entered. -/
theorem starts_handler (h : s.Open c) (hd : s.depth < maxDepth) {v : V} (hv : s.visitor=some v)
    (id : ℕ) {xs rest : List UInt8}
    (hstep : step c s xs=startVisited c {s with depth := s.depth+1} v id rest) :
    Starts c s xs rest (Effect.calls (sequenceOffer c v id).1,
      match (sequenceOffer c v id).2 with
      | .skip => none
      | .stay => some ⟨⟨some v,none⟩,[.sequenceEnd v]⟩
      | .descend child => some ⟨⟨some child,none⟩,[.sequenceEnd child]⟩) := by
  rw [startVisited] at hstep
  dsimp only at hstep
  have hback : ∀ σ, Walk.go {inHandler c s with store := σ} rest=
      .next {inHandler c s with store := σ} rest := by
    intro σ
    rw [go]
    exact congrArg (Step.next · rest) (by rw [inHandler,←h.between])
  cases hans : (sequenceOffer c v id).2 with
  | skip =>
    rw [hans] at hstep
    exact run_next hstep
  | stay =>
    rw [hans] at hstep
    dsimp only at hstep
    rw [h.hideMap hd] at hstep
    exact ⟨_,inside_handler h hd hv,run_next (hstep.trans (hback _))⟩
  | descend child =>
    rw [hans] at hstep
    dsimp only at hstep
    have hlen := h.stacked.length_le
    rw [h.hideMap hd] at hstep
    dsimp only [inHandler] at hstep
    rw [pushVisitor,if_pos (by dsimp only; omega)] at hstep
    refine ⟨_,inside_child h hd hv child,?_⟩
    refine (run_next hstep).trans ?_
    rw [inChild,h.between]
    rfl

/-- The start of a sequence leads where its scope says. -/
theorem starts (h : s.Open c) (hd : s.depth < maxDepth) {id : ℕ} {lead : List UInt8}
    (ha : Announces lead (.start id)) (rest : List UInt8) :
    Starts c s (lead++rest) rest (enter c s.scope id) := by
  have hdepth : ¬maxDepth ≤ s.depth := by omega
  have hstep : step c s (lead++rest)=startSequence c {s with depth := s.depth+1} id rest := by
    refine (meets h.between ha rest).trans ?_
    simp only [Lead.token,meet,onToken,hdepth,if_false]
  rw [startSequence] at hstep
  rw [scope,enter]
  dsimp only at hstep ⊢
  cases hm : matched c s.bmap id .sequenceStart none with
  | some e =>
    rw [hm] at hstep
    exact starts_row h hd hm hstep
  | none =>
    rw [hm] at hstep
    dsimp only at hstep ⊢
    split at hstep
    · next hclosed =>
      rw [if_pos hclosed]
      exact run_next hstep
    · next hclosed =>
      rw [if_neg hclosed]
      cases hv : s.visitor with
      | none =>
        have hskip : step c s (lead++rest)=({s with depth := s.depth+1} : Walk V).skip rest := by
          simp only [hstep,hv]
        exact run_next hskip
      | some v =>
        have hvisit : step c s (lead++rest)=
            startVisited c {s with depth := s.depth+1} v id rest := by
          simp only [hstep,hv]
        exact starts_handler h hd hv id hvisit

/-- Well-formed fields make the change they mean in their scope, and leave the walk
where it was. -/
theorem run_fields {room : ℕ} {t : Tree} {bs : List UInt8} (hf : Fields room t bs) {s : Walk V}
    (h : s.Open c) (hr : s.depth+room=maxDepth) (rest : List UInt8) :
    Does c s (bs++rest) (t.effect c s.scope) s rest := by
  induction hf generalizing s rest with
  | nil => exact Does.done rfl
  | value ha hb _ _ ih =>
    rw [List.append_assoc,List.append_assoc]
    exact (does_value h.between ha hb _).andThen fun σ => ih (h.store σ) hr rest
  | @sequence room id inner tree lead tl xs ys ha htl _ _ ih ih' =>
    have hd : s.depth < maxDepth := by omega
    have hstart := starts h hd ha (xs++(tl++(ys++rest)))
    rw [List.append_assoc,List.append_assoc,List.append_assoc]
    rw [Starts] at hstart
    rw [Tree.effect]
    cases henter : (enter c s.scope id).2 with
    | none =>
      rw [henter] at hstart
      refine hstart.andThen fun σ => ?_
      have hskip := @run_skip _ c
        {s with mode := .header none (some s.depth), depth := s.depth+1, store := σ} _ s.depth _ _
        ‹Fields room inner xs› rfl (Nat.lt_succ_self _) (by dsimp only; omega) (tl++(ys++rest))
      have hstop : step c {s with mode := .header none (some s.depth), depth := s.depth+1, store := σ}
          (tl++(ys++rest))=.next {s with store := σ} (ys++rest) := by
        refine (skips_stop rfl htl (Nat.succ_pos s.depth) _).trans ?_
        simp only [Nat.add_sub_cancel,Nat.lt_irrefl,if_false,←h.between]
      have hrest := ih' (h.store σ) hr rest
      rw [Does] at hrest ⊢
      rw [hskip,run_next hstop]
      exact hrest
    | some into =>
      rw [henter] at hstart
      obtain ⟨s',hin,hdoes⟩ := hstart
      refine hdoes.andThen fun σ => ?_
      have hinner := ih (hin.opened.store σ) (by dsimp only; rw [hin.depth]; omega)
        (tl++(ys++rest))
      have hscope : ({s' with store := σ} : Walk V).scope=into.inside := hin.scope
      rw [hscope] at hinner
      refine hinner.andThen fun σ₁ => ?_
      refine (hin.leaves σ₁ tl (ys++rest) htl).andThen fun σ₂ => ?_
      exact ih' (h.store σ₂) hr rest

end Walk

end SofaBuffers
