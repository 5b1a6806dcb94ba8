import SofaBuffers.Walk.Rejects

/-!
# Fields nobody reads

A field is declined where no row takes it and no handler wants it, and a sequence
where none enters it. What fields do is what those of them do that are not
declined, but for the questions the declined ones were declined by, and a verdict
they come to rejects one that is not.
-/

set_option autoImplicit false

namespace SofaBuffers

variable {V : Type}

/-- The fields of a scope that are not declined, all the way down. -/
def Tree.kept (c : Config V) (k : Scope V) : Tree → Tree
  | .nil => .nil
  | .value id x rest =>
    match k.reader c id x.extent.pending with
    | .nobody => rest.kept c k
    | _ => .value id x (rest.kept c k)
  | .sequence id inner rest =>
    match (enter c k id).2 with
    | none => rest.kept c k
    | some into => .sequence id (inner.kept c into.inside) (rest.kept c k)

/-- A value among the fields of a scope that is met on a walk over them, and the scope it is
met in. -/
inductive Tree.Meets (c : Config V) : Scope V → Tree → Scope V → ℕ → Datum → Prop
  /-- The first one. -/
  | here (k : Scope V) (id : ℕ) (x : Datum) (rest : Tree) : Meets c k (.value id x rest) k id x
  /-- One behind a value. -/
  | behind {k k' : Scope V} {rest : Tree} {id : ℕ} {x : Datum} (i : ℕ) (y : Datum)
      (h : Meets c k rest k' id x) : Meets c k (.value i y rest) k' id x
  /-- One inside a sequence that is entered. -/
  | inside {k k' : Scope V} {inner : Tree} {id : ℕ} {x : Datum} (i : ℕ) (rest : Tree)
      {into : Entered V} (he : (enter c k i).2=some into) (h : Meets c into.inside inner k' id x) :
      Meets c k (.sequence i inner rest) k' id x
  /-- One behind a sequence. -/
  | after {k k' : Scope V} {rest : Tree} {id : ℕ} {x : Datum} (i : ℕ) (inner : Tree)
      (h : Meets c k rest k' id x) : Meets c k (.sequence i inner rest) k' id x

/-- A value that is read among the fields of a scope is rejected. -/
def Tree.Rejected (c : Config V) (k : Scope V) (t : Tree) (why : Exn) : Prop :=
  ∃ k' id x, t.Meets c k k' id x ∧ k'.reader c id x.extent.pending≠.nobody ∧
    (k'.reader c id x.extent.pending).Rejects c id x why

/-- The event is a question that was answered by declining. -/
def Config.declined (c : Config V) : Event V → Bool
  | .field v f =>
    match (c.hooks v).onField with
    | none => false
    | some accept => !accept f
  | .sequenceBegin v id =>
    match (c.hooks v).onSequenceBegin with
    | none => false
    | some begin =>
      match begin id with
      | .skip => true
      | _ => false
  | _ => false

/-- The storages are the same but for the questions answered by declining. -/
structure Store.Same (c : Config V) (s t : Store V) : Prop where
  /-- The slots hold the same words. -/
  word : s.word=t.word
  /-- The entries are the same. -/
  obj : s.obj=t.obj
  /-- The bytes are the same. -/
  mem : s.mem=t.mem
  /-- The same calls were made. -/
  log : s.log.filter (fun e => !c.declined e)=t.log.filter fun e => !c.declined e

section Kept

variable {c : Config V} {k : Scope V} {s t : Store V} {P : Exn → Prop} {f g : Effect V}

/-- A storage is the same as itself. -/
theorem Store.Same.refl (s : Store V) : s.Same c s := ⟨rfl,rfl,rfl,rfl⟩

/-- Being the same goes on. -/
theorem Store.Same.trans {u : Store V} (h : s.Same c t) (h' : t.Same c u) : s.Same c u :=
  ⟨h.word.trans h'.word,h.obj.trans h'.obj,h.mem.trans h'.mem,h.log.trans h'.log⟩

/-- A question answered by declining makes no difference. -/
theorem same_declined {e : Event V} (he : c.declined e=true) (s : Store V) :
    (s.call e).Same c s := by
  refine ⟨rfl,rfl,rfl,?_⟩
  simp [Store.call,List.filter_append,he]

/-- The changes are the same but for the questions answered by declining. -/
def Effect.Alike (c : Config V) (f g : Effect V) : Prop :=
  ∀ ⦃s t⦄, s.Same c t → (f s).2=(g t).2 ∧ (f s).1.Same c (g t).1

/-- A plain change keeps storages the same. -/
theorem Effect.Plain.alike (hf : f.Plain P) : f.Alike c f := by
  intro s t h
  have hs := hf.unheard s.log {s with log := []}
  have ht := hf.unheard t.log {t with log := []}
  have hempty : ({s with log := []} : Store V)={t with log := []} := by
    rw [h.word,h.obj,h.mem]
  simp only [Store.preceded,List.append_nil] at hs ht
  rw [hempty] at hs
  rw [show f s=_ from hs,show f t=_ from ht]
  generalize f {t with log := []}=r
  refine ⟨rfl,rfl,rfl,rfl,?_⟩
  simp only [List.filter_append,h.log]

/-- Changes in order are alike when each are. -/
theorem Effect.Alike.andThen {f' g' : Effect V} (hf : f.Alike c f') (hg : g.Alike c g') :
    (f.andThen g).Alike c (f'.andThen g') := by
  intro s t h
  obtain ⟨he,hs⟩ := hf h
  rw [Effect.andThen,Effect.andThen]
  generalize f s=a at he hs ⊢
  generalize f' t=b at he hs ⊢
  obtain ⟨s',e⟩ := a
  obtain ⟨t',e'⟩ := b
  cases he
  cases e with
  | none => exact hg hs
  | some why => exact ⟨rfl,hs⟩

/-- A change that comes to nothing may be left out. -/
theorem Effect.Alike.drop {g' : Effect V} (hf : f.Alike c .done) (hg : g.Alike c g') :
    (f.andThen g).Alike c g' := hf.andThen hg

/-- A declined value comes to nothing. -/
theorem alike_declined {id : ℕ} {x : Datum} (h : k.reader c id x.extent.pending=.nobody) :
    (valueEffect c k id (park c x.extent.pending) x).Alike c .done := by
  have hdone : (Effect.done : Effect V).Alike c .done := fun _ _ hs => ⟨rfl,hs⟩
  rw [Scope.reader] at h
  rw [valueEffect,park_tag]
  cases hrow : Walk.matched c k.table id x.extent.pending.tag.1 x.extent.pending.tag.2 with
  | some e =>
    rw [hrow] at h
    cases h
  | none =>
    rw [hrow] at h
    dsimp only at h ⊢
    by_cases hnamed : (Walk.named c k.table id || k.table.any c.closed)=true
    · rw [if_pos hnamed]
      exact hdone
    · rw [if_neg hnamed] at h ⊢
      cases hv : k.visitor with
      | none => exact hdone
      | some v =>
        rw [hv] at h
        dsimp only at h ⊢
        rw [offerValue,fieldOffer_park c v id x.extent.pending_real]
        have haccept : (Walk.fieldOffer c v id x.extent.pending).2=false := by
          cases hans : (Walk.fieldOffer c v id x.extent.pending).2 with
          | false => rfl
          | true =>
            rw [hans] at h
            cases h
        clear h
        intro s t hs
        rw [haccept,calls_andThen]
        refine ⟨rfl,?_⟩
        show ((Walk.fieldOffer c v id x.extent.pending).1.foldl Store.call s).Same c t
        rw [Walk.fieldOffer] at haccept ⊢
        cases hask : (c.hooks v).onField with
        | none =>
          rw [hask] at haccept
          cases haccept
        | some accept =>
          rw [hask] at haccept
          dsimp only at haccept ⊢
          refine (same_declined ?_ s).trans hs
          rw [Config.declined,hask]
          dsimp only
          rw [haccept]
          rfl

/-- A declined sequence comes to nothing. -/
theorem alike_skipped {id : ℕ} (h : (enter c k id).2=none) : (enter c k id).1.Alike c .done := by
  have hdone : (Effect.done : Effect V).Alike c .done := fun _ _ hs => ⟨rfl,hs⟩
  rw [enter] at h ⊢
  cases hrow : Walk.matched c k.table id .sequenceStart none with
  | some e =>
    rw [hrow] at h
    cases h
  | none =>
    rw [hrow] at h
    dsimp only at h ⊢
    split
    · exact hdone
    · next hclosed =>
      rw [if_neg hclosed] at h
      cases hv : k.visitor with
      | none => exact hdone
      | some v =>
        rw [hv] at h
        dsimp only at h ⊢
        intro s t hs
        refine ⟨rfl,?_⟩
        show ((Walk.sequenceOffer c v id).1.foldl Store.call s).Same c t
        rw [Walk.sequenceOffer] at h ⊢
        cases hask : (c.hooks v).onSequenceBegin with
        | none =>
          rw [hask] at h
          cases h
        | some begin =>
          rw [hask] at h
          dsimp only at h ⊢
          refine (same_declined ?_ s).trans hs
          rw [Config.declined,hask]
          dsimp only
          cases hans : begin id with
          | skip => rfl
          | stay | descend child =>
            rw [hans] at h
            cases h

/-- The start of a sequence is plain. -/
theorem plain_enter (id : ℕ) : (enter c k id).1.Plain P := by
  rw [enter]
  cases Walk.matched c k.table id .sequenceStart none with
  | some e => exact (plain_arrive e).andThen (plain_countOccurrence e)
  | none =>
    dsimp only
    split
    · exact plain_done
    · cases k.visitor with
      | none => exact plain_done
      | some v => exact plain_calls _

/-- What fields do is what those of them do that are not declined. -/
theorem alike_kept {room : ℕ} {t : Tree} {bs : List UInt8} (hf : Fields room t bs) (k : Scope V) :
    (t.effect c k).Alike c ((t.kept c k).effect c k) := by
  induction hf generalizing k with
  | nil => exact plain_done (P:=fun _ => True).alike
  | @value room id x rest hd bs xs ha hb ht _ ih =>
    have hvalue := (plain_value c k id hb ht ha.announced).alike.andThen (ih k)
    rw [Tree.effect,Tree.kept]
    cases hreader : k.reader c id x.extent.pending with
    | nobody => exact (alike_declined hreader).drop (ih k)
    | row e => exact hvalue
    | handler v => exact hvalue
  | @sequence room id inner rest lead tl xs ys ha htl _ _ ih ih' =>
    rw [Tree.effect,Tree.kept]
    cases henter : (enter c k id).2 with
    | none => exact (alike_skipped henter).drop (ih' k)
    | some into =>
      rw [Tree.effect,henter]
      have hcalls := plain_calls (P:=fun _ => True) into.closing
      refine (plain_enter (P:=fun _ => True) id).alike.andThen ?_
      exact (ih into.inside).andThen (hcalls.alike.andThen (ih' k))

/-- What is rejected behind a field is rejected. -/
theorem Tree.Rejected.mono {t u : Tree} {k k' : Scope V} {why : Exn}
    (h : t.Rejected c k' why) (hm : ∀ {l id x}, t.Meets c k' l id x → u.Meets c k l id x) :
    u.Rejected c k why := by
  obtain ⟨l,id,x,hmeet,hr⟩ := h
  exact ⟨l,id,x,hm hmeet,hr⟩

/-- A verdict fields come to is a rejection of a value that is read among them. -/
theorem plain_tree {room : ℕ} {t : Tree} {bs : List UInt8} (hf : Fields room t bs) (k : Scope V) :
    (t.effect c k).Plain (t.Rejected c k) := by
  induction hf generalizing k with
  | nil => exact plain_done
  | @value room id x rest hd bs xs ha hb ht _ ih =>
    have hvalue := plain_value c k id hb ht ha.announced
    refine (hvalue.mono fun why hr => ?_).andThen ((ih k).mono fun why hr => ?_)
    · exact ⟨k,id,x,.here k id x rest,hr.read,hr⟩
    · exact hr.mono fun hmeet => .behind id x hmeet
  | @sequence room id inner rest lead tl xs ys ha htl _ _ ih ih' =>
    rw [Tree.effect]
    have hrest : (rest.effect c k).Plain ((Tree.sequence id inner rest).Rejected c k) :=
      (ih' k).mono fun why hr => hr.mono fun hmeet => .after id inner hmeet
    refine (plain_enter id).andThen ?_
    cases henter : (enter c k id).2 with
    | none => exact hrest
    | some into =>
      refine ((ih into.inside).mono fun why hr => ?_).andThen
        ((plain_calls into.closing).andThen hrest)
      exact hr.mono fun hmeet => .inside id rest henter hmeet

/-- What is left of fields has the bytes that are left of theirs. -/
theorem Fields.kept {room : ℕ} {t : Tree} {bs : List UInt8} (hf : Fields room t bs)
    (c : Config V) (k : Scope V) :
    ∃ left : List UInt8, left.Sublist bs ∧ Fields room (t.kept c k) left := by
  induction hf generalizing k with
  | nil room => exact ⟨[],.slnil,.nil room⟩
  | @value room id x rest hd bs xs ha hb ht _ ih =>
    obtain ⟨left,hsub,hleft⟩ := ih k
    have hvalue : ∃ left : List UInt8, left.Sublist (hd++(bs++xs)) ∧
        Fields room (.value id x (rest.kept c k)) left :=
      ⟨hd++(bs++left),(hsub.append_left bs).append_left hd,.value ha hb ht hleft⟩
    rw [Tree.kept]
    cases k.reader c id x.extent.pending with
    | nobody =>
      refine ⟨left,hsub.trans ?_,hleft⟩
      exact (List.sublist_append_right bs xs).trans (List.sublist_append_right hd _)
    | row e => exact hvalue
    | handler v => exact hvalue
  | @sequence room id inner rest hd tl xs ys ha htl _ _ ih ih' =>
    obtain ⟨left,hsub,hleft⟩ := ih' k
    rw [Tree.kept]
    cases (enter c k id).2 with
    | none =>
      refine ⟨left,hsub.trans ?_,hleft⟩
      exact (List.sublist_append_right tl ys).trans
        ((List.sublist_append_right xs _).trans (List.sublist_append_right hd _))
    | some into =>
      obtain ⟨left',hsub',hleft'⟩ := ih into.inside
      refine ⟨hd++(left'++(tl++left)),?_,.sequence ha htl hleft' hleft⟩
      exact (hsub'.append (hsub.append_left tl)).append_left hd

end Kept

end SofaBuffers
