import Mathlib.Data.List.TakeWhile
import SofaBuffers.Encoder.Streaming

/-!
# Lazy framing prunes the tree

A sequence is framed when something is written in it. What comes out is the
eager serialization of the tree of calls without the sequences nothing was
written in, and what is held back are the innermost open sequences.
-/

set_option autoImplicit false

namespace SofaBuffers

/-- A tree of calls, the last one outermost. -/
inductive CallTree
  /-- No call. -/
  | nil
  /-- A field behind other calls. -/
  | field (before : CallTree) (call : Call)
  /-- A sequence behind other calls; its frame may be kept though nothing is in it. -/
  | sequence (before : CallTree) (id : ℕ) (body : CallTree) (keep : Bool)
  deriving DecidableEq

/-- The bytes of a field. -/
def Move.bytes : Move → List UInt8
  | .field bytes _ => bytes
  | _ => []

/-- A field, or nothing of one. -/
def Move.Flat : Move → Prop
  | .refused _ | .field .. => True
  | _ => False

namespace CallTree

/-- The call that closes a sequence. -/
def closing (keep : Bool) : Call := if keep then .sequenceEndKeep else .sequenceEnd

/-- The calls of a tree in order. -/
def calls : CallTree → List Call
  | nil => []
  | field before c => before.calls++[c]
  | sequence before id body keep =>
    before.calls++(.sequenceBeginLazy (.int id)::(body.calls++[closing keep]))

/-- The calls of a tree with every sequence framed. -/
def eager (narrow : BitVec 64 → Option (BitVec 32)) : CallTree → List UInt8
  | nil => []
  | field before c => before.eager narrow++(c.move narrow).bytes
  | sequence before id body _ =>
    before.eager narrow++(headerBytes id .sequenceStart++body.eager narrow++stopBytes)

/-- The tree without the sequences in which there is nothing, bottom-up. -/
def prune : CallTree → CallTree
  | nil => nil
  | field before c => field before.prune c
  | sequence before id body keep =>
    if body.prune=nil ∧ keep=false then before.prune
    else sequence before.prune id body.prune keep

/-- The calls of a tree are taken, so many sequences being open around it. -/
def Accepted (narrow : BitVec 64 → Option (BitVec 32)) : CallTree → ℕ → Prop
  | nil, _ => True
  | field before c, depth =>
    before.Accepted narrow depth ∧ c.Sized ∧ ∃ bytes, c.move narrow=.field bytes none
  | sequence before id body _, depth =>
    before.Accepted narrow depth ∧ id ≤ idMax ∧ depth < maxDepth ∧
      body.Accepted narrow (depth+1)

/-- The calls of a tree that stand for fields write fields. -/
def Formed (narrow : BitVec 64 → Option (BitVec 32)) : CallTree → Prop
  | nil => True
  | field before c => before.Formed narrow ∧ (c.move narrow).Flat
  | sequence before _ body _ => before.Formed narrow ∧ body.Formed narrow

/-- A tree behind another. -/
def behind (t : CallTree) : CallTree → CallTree
  | nil => t
  | field before c => field (t.behind before) c
  | sequence before id body keep => sequence (t.behind before) id body keep

/-- Behind nothing a tree is what it is. -/
@[simp] theorem nil_behind (t : CallTree) : nil.behind t=t := by
  induction t with
  | nil => rfl
  | field before c ih => rw [behind,ih]
  | sequence before id body keep ih _ => rw [behind,ih]

/-- Nothing of the tree survives. -/
def Vanishes (t : CallTree) : Prop := t.prune=nil

instance (t : CallTree) : Decidable t.Vanishes := inferInstanceAs (Decidable (_=_))

end CallTree

/-- Calls some of whose sequences are still open. -/
structure Nest where
  /-- What was called before the outermost of them. -/
  root : CallTree := .nil
  /-- The open sequences, innermost first, each with what was called in it. -/
  opened : List (ℕ × CallTree) := []

namespace Nest

variable {narrow : BitVec 64 → Option (BitVec 32)} {n : Nest}

/-- The calls in order. -/
def calls (n : Nest) : List Call :=
  n.root.calls++n.opened.reverse.flatMap fun s => .sequenceBeginLazy (.int s.1)::s.2.calls

/-- Change the innermost tree. -/
def grow (n : Nest) (f : CallTree → CallTree) : Nest :=
  match n.opened with
  | [] => {n with root := f n.root}
  | s::opened => {n with opened := (s.1,f s.2)::opened}

/-- Close the innermost sequence. -/
def close (n : Nest) (keep : Bool) : Nest :=
  match n.opened with
  | [] => n
  | s::opened => ({n with opened := opened} : Nest).grow (·.sequence s.1 s.2 keep)

/-- Put one more call behind a nest. -/
def push (n : Nest) : Call → Nest
  | .sequenceBeginLazy (.int id) => {n with opened := (id.toNat,.nil)::n.opened}
  | .sequenceEnd => n.close false
  | .sequenceEndKeep => n.close true
  | c => n.grow (·.field c)

/-- The open sequences in which there is nothing, up to the innermost in which there is. -/
def bare (n : Nest) : List (ℕ × CallTree) := n.opened.takeWhile (·.2.Vanishes)

/-- The open sequences around them. -/
def framed (n : Nest) : List (ℕ × CallTree) := n.opened.dropWhile (·.2.Vanishes)

/-- A sequence that is open, with its header. -/
def openBytes (narrow : BitVec 64 → Option (BitVec 32)) (s : ℕ × CallTree) : List UInt8 :=
  headerBytes s.1 .sequenceStart++s.2.prune.eager narrow

/-- The pruned tree, with the headers of these open sequences. -/
def bytes (narrow : BitVec 64 → Option (BitVec 32)) (n : Nest) (opened : List (ℕ × CallTree)) :
    List UInt8 :=
  n.root.prune.eager narrow++opened.reverse.flatMap (openBytes narrow)

/-- A call more in the innermost tree is a call more. -/
theorem grow_calls {f : CallTree → CallTree} {cs : List Call} (h : ∀ t, (f t).calls=t.calls++cs) :
    (n.grow f).calls=n.calls++cs := by
  rcases n with ⟨root,_|⟨s,opened⟩⟩
  · simp [grow,calls,h]
  · simp [grow,calls,h]

/-- Bytes behind those of the innermost tree are behind all. -/
theorem grow_bytes {f : CallTree → CallTree} {bs : List UInt8}
    (h : ∀ t, (f t).prune.eager narrow=t.prune.eager narrow++bs) :
    (n.grow f).bytes narrow (n.grow f).opened=n.bytes narrow n.opened++bs := by
  rcases n with ⟨root,_|⟨s,opened⟩⟩
  · simp [grow,bytes,h]
  · simp [grow,bytes,openBytes,h]

/-- What grows is as deep. -/
@[simp] theorem grow_depth (f : CallTree → CallTree) :
    (n.grow f).opened.length=n.opened.length := by
  rcases n with ⟨root,_|⟨s,opened⟩⟩
  · rfl
  · rfl

/-- When something is in the innermost sequence, all of them are framed. -/
theorem grow_framed {f : CallTree → CallTree} (h : ∀ t, ¬(f t).Vanishes) :
    (n.grow f).bare=[] ∧ (n.grow f).framed=(n.grow f).opened := by
  rcases n with ⟨root,_|⟨s,opened⟩⟩
  · exact ⟨rfl,rfl⟩
  · constructor
    · simp [grow,bare,h]
    · simp [grow,framed,h]

/-- What vanishes again frames nothing. -/
theorem grow_bare (narrow : BitVec 64 → Option (BitVec 32)) (n : Nest) {f : CallTree → CallTree}
    (h : ∀ t, (f t).prune=t.prune) :
    (n.grow f).bare.map Prod.fst=n.bare.map Prod.fst ∧
      (n.grow f).bytes narrow (n.grow f).framed=n.bytes narrow n.framed := by
  have hv : ∀ t, (f t).Vanishes ↔ t.Vanishes := by
    intro t
    rw [CallTree.Vanishes,CallTree.Vanishes,h]
  rcases n with ⟨root,_|⟨s,opened⟩⟩
  · constructor
    · rfl
    · simp [grow,bytes,framed,h]
  · by_cases hs : s.2.Vanishes
    · have hf := (hv s.2).mpr hs
      simp [grow,bare,framed,bytes,hs,hf]
    · have hf : ¬(f s.2).Vanishes := fun hf => hs ((hv s.2).mp hf)
      simp [grow,bare,framed,bytes,openBytes,hs,hf,h]

/-- Open sequences in which there is nothing are headers only. -/
theorem bare_openBytes {opened : List (ℕ × CallTree)} (h : ∀ s ∈ opened, s.2.Vanishes) :
    opened.reverse.flatMap (openBytes narrow)=startBytes (opened.map Prod.fst).reverse := by
  induction opened with
  | nil => rfl
  | cons s opened ih =>
    have hs : s.2.prune=.nil := h s List.mem_cons_self
    have ih := ih fun s hs => h s (List.mem_cons_of_mem _ hs)
    rw [startBytes] at ih ⊢
    simp [ih,openBytes,hs,CallTree.eager]

/-- The headers held back are what the framed sequences lack. -/
theorem bytes_opened (n : Nest) :
    n.bytes narrow n.opened=
      n.bytes narrow n.framed++startBytes (n.bare.map Prod.fst).reverse := by
  have hsplit : n.bare++n.framed=n.opened := List.takeWhile_append_dropWhile
  have hbare : ∀ s ∈ n.bare, s.2.Vanishes := by
    intro s hs
    simpa using List.mem_takeWhile_imp hs
  have hopen : n.bare.reverse.flatMap (openBytes narrow)=_ := bare_openBytes hbare
  rw [←hopen,bytes,bytes,←hsplit,List.reverse_append,List.flatMap_append,List.append_assoc]

/-- What is framed is what the calls come to so far, the rest is held back. -/
structure Shows (narrow : BitVec 64 → Option (BitVec 32)) (base : List UInt8) (n : Nest)
    (f : Framing) : Prop where
  /-- The pruned tree is out, with the headers of the framed sequences. -/
  out : f.out=base++n.bytes narrow n.framed
  /-- The ids of the bare ones are held back, outermost first. -/
  held : f.held=(n.bare.map Prod.fst).reverse
  /-- Sequences open. -/
  depth : f.depth=n.opened.length

end Nest

section Flat

theorem flat_scalarMove (fieldId : Given) (wtype : WireType) (value : Except Exn ℕ) :
    (scalarMove fieldId wtype value).Flat := by
  unfold scalarMove
  grind [Move.Flat]

theorem flat_fixlenMove (fieldId : Given) (subtype : FixlenSubtype)
    (payload : Except Exn (List UInt8)) : (fixlenMove fieldId subtype payload).Flat := by
  unfold fixlenMove
  grind [Move.Flat]

theorem flat_arrayMove (fieldId : Given) (wtype : WireType) (count : Except Exn ℕ)
    (body : List UInt8 × Option Exn) : (arrayMove fieldId wtype count body).Flat := by
  unfold arrayMove
  grind [Move.Flat]

theorem flat_sizedMove (w : Width) (fieldId value : Given) : (sizedMove w fieldId value).Flat := by
  unfold sizedMove
  split
  · exact flat_scalarMove _ _ _
  · exact flat_scalarMove _ _ _

/-- A call opens a sequence, closes one or is about a field. -/
theorem call_kinds (narrow : BitVec 64 → Option (BitVec 32)) (c : Call) :
    (∃ fieldId, c=.sequenceBeginLazy fieldId) ∨ (∃ keep, c=CallTree.closing keep) ∨
      ((∀ n : Nest, n.push c=n.grow (·.field c)) ∧ (c.move narrow).Flat) := by
  cases c with
  | sequenceBeginLazy fieldId => exact Or.inl ⟨fieldId,rfl⟩
  | sequenceEnd => exact Or.inr (Or.inl ⟨false,rfl⟩)
  | sequenceEndKeep => exact Or.inr (Or.inl ⟨true,rfl⟩)
  | sized w =>
    refine Or.inr (Or.inr ⟨fun _ => rfl,?_⟩)
    cases w with
    | u64 => exact flat_scalarMove _ _ _
    | i64 => exact flat_scalarMove _ _ _
    | _ => exact flat_sizedMove _ _ _
  | _ =>
    refine Or.inr (Or.inr ⟨fun _ => rfl,?_⟩)
    rw [Call.move]
    first
    | exact flat_scalarMove _ _ _
    | exact flat_fixlenMove _ _ _
    | exact flat_arrayMove _ _ _ _

/-- An id in range is an integer. -/
theorem checkedId_given {fieldId : Given} {id : ℕ} (h : checkedId fieldId=.ok id) :
    fieldId=.int id := by
  unfold checkedId at h
  cases fieldId with
  | other => cases h
  | int v =>
    rw [asInt] at h
    dsimp only at h
    split at h
    · cases h
    · next hv =>
      injection h with h
      have : (id : ℤ)=v := by omega
      rw [this]

/-- An id in range is taken. -/
theorem checkedId_int {id : ℕ} (h : id ≤ idMax) : checkedId (.int id)=.ok id := by
  have hv : ¬((id : ℤ) < 0 ∨ (id : ℤ) > idMax) := by omega
  rw [checkedId,asInt]
  exact (if_neg hv).trans rfl

end Flat

namespace Framing

variable {f g : Framing} {bs : List UInt8}

/-- Bytes that go out are behind those that did. -/
theorem emit_ok (h : f.emit bs=(g,none)) :
    g.out=f.out++bs ∧ g.held=f.held ∧ g.depth=f.depth := by
  rw [emit] at h
  cases hr : f.room with
  | none =>
    rw [hr] at h
    cases h
    exact ⟨rfl,rfl,rfl⟩
  | some n =>
    rw [hr] at h
    dsimp only at h
    split at h
    · cases h
      exact ⟨rfl,rfl,rfl⟩
    · cases h

/-- Bytes are put out behind the headers held back. -/
theorem commit_ok {next : Framing → Framing × Option Exn} (h : f.commit bs next=(g,none)) :
    ∃ m : Framing, m.out=f.out++(startBytes f.held++bs) ∧ m.held=[] ∧ m.depth=f.depth ∧
      next m=(g,none) := by
  rw [commit] at h
  rcases hm : ({f with held := []} : Framing).emit (startBytes f.held++bs) with ⟨m,_|why⟩
  · obtain ⟨hout,hheld,hdepth⟩ := emit_ok hm
    rw [hm] at h
    exact ⟨m,hout,hheld,hdepth,h⟩
  · rw [hm] at h
    cases h

end Framing

namespace Nest

variable {narrow : BitVec 64 → Option (BitVec 32)} {base : List UInt8} {n : Nest}
variable {f g : Framing}

/-- With the headers held back, all that is open is framed. -/
theorem Shows.all (h : n.Shows narrow base f) :
    f.out++startBytes f.held=base++n.bytes narrow n.opened := by
  rw [bytes_opened,h.out,h.held,List.append_assoc]

/-- When something is put in the innermost tree, all that is open is framed. -/
theorem shows_grow {t : CallTree → CallTree} (bs : List UInt8) (hv : ∀ s, ¬(t s).Vanishes)
    (hb : ∀ s, (t s).prune.eager narrow=s.prune.eager narrow++bs)
    (hout : g.out=base++n.bytes narrow n.opened++bs) (hheld : g.held=[])
    (hdepth : g.depth=n.opened.length) : (n.grow t).Shows narrow base g := by
  obtain ⟨hbare,hframed⟩ := n.grow_framed hv
  constructor
  · rw [hframed,grow_bytes hb,hout,List.append_assoc]
  · rw [hbare]
    exact hheld
  · rw [hdepth,grow_depth]

/-- A field. -/
theorem Shows.field (h : n.Shows narrow base f) {c : Call} {bs : List UInt8}
    (hm : c.move narrow=.field bs none) (hs : f.step (.field bs none)=(g,none)) :
    (n.grow (·.field c)).Shows narrow base g := by
  obtain ⟨m,hout,hheld,hdepth,hg⟩ := Framing.commit_ok hs
  cases hg
  refine shows_grow bs ?_ ?_ ?_ hheld (hdepth.trans h.depth)
  · intro s
    simp [CallTree.Vanishes,CallTree.prune]
  · intro s
    rw [CallTree.prune,CallTree.eager,hm,Move.bytes]
  · rw [hout,←List.append_assoc,h.all]

/-- A sequence opens. -/
theorem Shows.start (h : n.Shows narrow base f) {id : ℕ}
    (hs : f.step (.start (.ok id))=(g,none)) :
    ({n with opened := (id,.nil)::n.opened} : Nest).Shows narrow base g := by
  have hnil : CallTree.nil.Vanishes := rfl
  rw [Framing.step_start] at hs
  split at hs
  · cases hs
  · cases hs
    constructor
    · simpa [framed,bytes,hnil] using h.out
    · simp [bare,hnil,h.held]
    · simp [h.depth]

/-- A sequence closes. -/
theorem Shows.stop (h : n.Shows narrow base f) {keep : Bool}
    (hs : f.step (.stop keep)=(g,none)) : (n.close keep).Shows narrow base g := by
  rw [Framing.step_stop] at hs
  split at hs
  · cases hs
  · next hd =>
    rcases n with ⟨root,_|⟨⟨id,body⟩,opened⟩⟩
    · exact absurd h.depth.le hd
    · have hdepth : f.depth-1=opened.length := by
        rw [h.depth,List.length_cons,Nat.add_sub_cancel]
      have hclose : close ⟨root,(id,body)::opened⟩ keep=
          Nest.grow ⟨root,opened⟩ (·.sequence id body keep) := rfl
      rw [hclose]
      by_cases hv : body.Vanishes ∧ keep=false
      · have hframed : framed ⟨root,(id,body)::opened⟩=framed ⟨root,opened⟩ := by
          simp [framed,hv.1]
        have hbare : bare ⟨root,(id,body)::opened⟩=(id,body)::bare ⟨root,opened⟩ := by
          simp [bare,hv.1]
        have hheld : f.held=((bare ⟨root,opened⟩).map Prod.fst).reverse++[id] := by
          rw [h.held,hbare,List.map_cons,List.reverse_cons]
        obtain ⟨hb,hf⟩ := grow_bare narrow ⟨root,opened⟩
          (f:=(·.sequence id body keep)) fun t => if_pos hv
        rw [if_pos ⟨by simp [hheld],hv.2⟩] at hs
        cases hs
        constructor
        · rw [hf]
          rw [h.out,hframed]
          rfl
        · rw [hb]
          simp [hheld]
        · rw [grow_depth]
          exact hdepth
      · have hnot : ¬(f.held≠[] ∧ keep=false) := by
          rintro ⟨hne,hk⟩
          have hbody : ¬body.Vanishes := fun hb => hv ⟨hb,hk⟩
          rw [h.held] at hne
          simp [bare,hbody] at hne
        rw [if_neg hnot] at hs
        obtain ⟨m,hout,hheld,hmdepth,hg⟩ := Framing.commit_ok hs
        cases hg
        have hprune : ∀ s : CallTree, (s.sequence id body keep).prune=
            s.prune.sequence id body.prune keep := fun s => if_neg hv
        refine shows_grow (headerBytes id .sequenceStart++body.prune.eager narrow++stopBytes)
          ?_ ?_ ?_ hheld ?_
        · intro s
          simp [CallTree.Vanishes,hprune]
        · intro s
          rw [hprune,CallTree.eager]
        · have hall : m.out=base++Nest.bytes narrow ⟨root,(id,body)::opened⟩
              ((id,body)::opened)++stopBytes := by
            rw [hout,←List.append_assoc,h.all]
          exact hall.trans (by simp [bytes,openBytes])
        · exact (congrArg (·-1) hmdepth).trans hdepth

/-- A nest shows what was written after one more call. -/
theorem Shows.push (h : n.Shows narrow base f) {c : Call} (hc : f.call narrow c=(g,none)) :
    (n.push c).Shows narrow base g ∧ (n.push c).calls=n.calls++[c] := by
  have hs : f.step (c.move narrow)=(g,none) := by
    rw [Framing.call] at hc
    split at hc
    · exact hc
    · cases hc
  rcases call_kinds narrow c with ⟨fieldId,rfl⟩|⟨keep,rfl⟩|⟨hpush,hflat⟩
  · have hmove : Call.move narrow (.sequenceBeginLazy fieldId)=.start (checkedId fieldId) := rfl
    rw [hmove] at hs
    cases hid : checkedId fieldId with
    | error why =>
      rw [hid,Framing.step_start] at hs
      split at hs
      · cases hs
      · cases hs
    | ok id =>
      rw [hid] at hs
      rw [checkedId_given hid]
      refine ⟨h.start hs,?_⟩
      simp [Nest.push,calls,CallTree.calls]
  · have hmove : Call.move narrow (CallTree.closing keep)=.stop keep := by
      cases keep <;> rfl
    have hpush : n.push (CallTree.closing keep)=n.close keep := by
      cases keep <;> rfl
    rw [hmove] at hs
    rw [hpush]
    refine ⟨h.stop hs,?_⟩
    rcases n with ⟨root,_|⟨⟨id,body⟩,opened⟩⟩
    · have hd : f.depth=0 := h.depth
      rw [Framing.step_stop,if_pos hd.le] at hs
      cases hs
    · have hclose : close ⟨root,(id,body)::opened⟩ keep=
          Nest.grow ⟨root,opened⟩ (·.sequence id body keep) := rfl
      rw [hclose,grow_calls fun t => rfl]
      simp [calls]
  · rw [hpush]
    refine ⟨?_,grow_calls fun t => rfl⟩
    cases hm : c.move narrow with
    | refused why =>
      rw [hm] at hs
      cases hs
    | field bytes rejected =>
      rw [hm] at hs
      cases rejected with
      | none => exact h.field hm hs
      | some why =>
        obtain ⟨m,_,_,_,hg⟩ := Framing.commit_ok hs
        cases hg
    | start id => exact (hm ▸ hflat : (Move.start id).Flat).elim
    | stop keep => exact (hm ▸ hflat : (Move.stop keep).Flat).elim

/-- A nest shows what was written after calls in order. -/
theorem Shows.calls (h : n.Shows narrow base f) {cs : List Call} (hc : f.calls narrow cs=(g,none)) :
    (cs.foldl Nest.push n).Shows narrow base g ∧ (cs.foldl Nest.push n).calls=n.calls++cs := by
  induction cs generalizing n f with
  | nil =>
    cases hc
    exact ⟨h,(List.append_nil _).symm⟩
  | cons c cs ih =>
    rw [Framing.calls] at hc
    rcases hm : f.call narrow c with ⟨m,_|why⟩
    · rw [hm] at hc
      obtain ⟨hshow,hcalls⟩ := h.push hm
      obtain ⟨hall,hcalls'⟩ := ih hshow hc
      refine ⟨hall,?_⟩
      rw [List.foldl_cons,hcalls',hcalls,List.append_assoc]
      rfl
    · rw [hm] at hc
      cases hc

/-- A field is put in the innermost tree. -/
theorem push_flat {c : Call} (h : (c.move narrow).Flat) (n : Nest) :
    n.push c=n.grow (·.field c) := by
  rcases call_kinds narrow c with ⟨fieldId,rfl⟩|⟨keep,rfl⟩|⟨hpush,_⟩
  · exact h.elim
  · cases keep with
    | false => exact h.elim
    | true => exact h.elim
  · exact hpush n

/-- The calls of a tree put it behind the innermost one. -/
theorem push_tree {t : CallTree} (ht : t.Formed narrow) (n : Nest) :
    t.calls.foldl Nest.push n=n.grow (·.behind t) := by
  induction t generalizing n with
  | nil => rcases n with ⟨root,_|⟨s,opened⟩⟩ <;> rfl
  | field before c ih =>
    rw [CallTree.calls,List.foldl_append,ih ht.1]
    show ((n.grow _).push c)=_
    rw [push_flat ht.2]
    rcases n with ⟨root,_|⟨s,opened⟩⟩ <;> rfl
  | sequence before id body keep ih ihbody =>
    rw [CallTree.calls,List.foldl_append,ih ht.1,List.foldl_cons,List.foldl_append,
      ihbody ht.2]
    have hclose : ∀ m : Nest, [CallTree.closing keep].foldl Nest.push m=m.close keep := by
      intro m
      cases keep <;> rfl
    rw [hclose]
    rcases n with ⟨root,_|⟨s,opened⟩⟩
    · simp [Nest.grow,Nest.push,Nest.close,CallTree.behind]
    · simp [Nest.grow,Nest.push,Nest.close,CallTree.behind]

/-- After the calls of a tree as many sequences are open as before. -/
theorem Shows.tree (h : n.Shows narrow base f) {t : CallTree} (ht : t.Formed narrow)
    (hc : f.calls narrow t.calls=(g,none)) :
    (n.grow (·.behind t)).Shows narrow base g ∧ g.depth=f.depth := by
  have hg := (h.calls hc).1
  rw [push_tree ht] at hg
  refine ⟨hg,?_⟩
  rw [hg.depth,h.depth,grow_depth]

end Nest

namespace Framing

variable {narrow : BitVec 64 → Option (BitVec 32)} {base : List UInt8} {n : Nest}
variable {f g : Framing}

/-- Calls in order are taken one after the other. -/
theorem calls_cons_ok {c : Call} {cs : List Call} :
    f.calls narrow (c::cs)=(g,none) ↔
      ∃ m, f.call narrow c=(m,none) ∧ m.calls narrow cs=(g,none) := by
  rw [calls]
  rcases f.call narrow c with ⟨m,_|why⟩
  · simp
  · simp

/-- Calls in two runs are taken one run after the other. -/
theorem calls_append_ok {xs ys : List Call} :
    f.calls narrow (xs++ys)=(g,none) ↔
      ∃ m, f.calls narrow xs=(m,none) ∧ m.calls narrow ys=(g,none) := by
  induction xs generalizing f with
  | nil => simp [calls]
  | cons c xs ih =>
    rw [List.cons_append,calls_cons_ok]
    simp only [ih,calls_cons_ok]
    grind

/-- Where there is no end to the room bytes go out. -/
theorem commit_free (h : f.room=none) (bs : List UInt8)
    (next : Framing → Framing × Option Exn) :
    f.commit bs next=next {f with out := f.out++(startBytes f.held++bs), held := []} := by
  rw [commit,emit]
  dsimp only
  rw [h]

/-- There is no end to the room after a move. -/
theorem step_room (h : f.room=none) (m : Move) : (f.step m).1.room=none := by
  cases m with
  | refused why => exact h
  | field bytes rejected =>
    rw [step,commit_free h]
    exact h
  | start id =>
    rw [step_start]
    split
    · exact h
    · cases id with
      | error why => exact h
      | ok id => exact h
  | stop keep =>
    rw [step_stop]
    split
    · exact h
    · split
      · exact h
      · rw [commit_free h]
        exact h

/-- There is no end to the room after a call. -/
theorem call_room (h : f.room=none) {c : Call} (hc : f.call narrow c=(g,none)) :
    g.room=none := by
  have hroom : (f.call narrow c).1.room=none := by
    rw [call]
    split
    · exact step_room h _
    · exact h
  rw [hc] at hroom
  exact hroom

/-- There is no end to the room after calls in order. -/
theorem calls_room (h : f.room=none) {cs : List Call} (hc : f.calls narrow cs=(g,none)) :
    g.room=none := by
  induction cs generalizing f with
  | nil =>
    cases hc
    exact h
  | cons c cs ih =>
    obtain ⟨m,hm,hc⟩ := calls_cons_ok.mp hc
    exact ih (call_room h hm) hc

/-- A field is taken when its arguments are in order. -/
theorem call_flat (h : f.room=none) {c : Call} (hflat : (c.move narrow).Flat) :
    (∃ g, f.call narrow c=(g,none)) ↔ c.Sized ∧ ∃ bytes, c.move narrow=.field bytes none := by
  rw [call]
  by_cases hc : c.Sized
  · rw [if_pos hc]
    cases hm : c.move narrow with
    | refused why => simp [step]
    | field bytes rejected =>
      rw [step,commit_free h]
      simp [hc]
    | start id => exact (hm ▸ hflat : (Move.start id).Flat).elim
    | stop keep => exact (hm ▸ hflat : (Move.stop keep).Flat).elim
  · rw [if_neg hc]
    simp [hc]

/-- A sequence opens when its id is in range and it is not too deep. -/
theorem call_begin {id : ℕ} :
    f.call narrow (.sequenceBeginLazy (.int id))=(g,none) ↔
      id ≤ idMax ∧ f.depth < maxDepth ∧
        g={f with held := f.held++[id], depth := f.depth+1} := by
  have hgo : f.call narrow (.sequenceBeginLazy (.int id))=f.step (.start (checkedId (.int id))) :=
    if_pos trivial
  rw [hgo,step_start]
  by_cases hid : id ≤ idMax
  · rw [checkedId_int hid]
    by_cases hd : f.depth ≥ maxDepth
    · rw [if_pos hd]
      simp [Nat.not_lt.mpr hd]
    · rw [if_neg hd]
      simp [hid,Nat.lt_of_not_le hd,eq_comm]
  · cases hc : checkedId (.int id) with
    | error why =>
      split
      · simp [hid]
      · simp [hid]
    | ok i =>
      have hi := checkedId_le hc
      have he := checkedId_given hc
      injection he with he
      omega

/-- A sequence closes when one is open. -/
theorem call_closing (h : f.room=none) (keep : Bool) :
    (∃ g, f.call narrow (CallTree.closing keep)=(g,none)) ↔ 0 < f.depth := by
  have hgo : f.call narrow (CallTree.closing keep)=f.step (.stop keep) := by
    cases keep with
    | false => exact if_pos trivial
    | true => exact if_pos trivial
  rw [hgo,step_stop]
  by_cases hd : f.depth ≤ 0
  · rw [if_pos hd]
    simp [Nat.le_zero.mp hd]
  · rw [if_neg hd,commit_free h]
    split
    · simp [Nat.pos_of_ne_zero fun hz => hd hz.le]
    · simp [Nat.pos_of_ne_zero fun hz => hd hz.le]

/-- The calls of a tree are taken exactly when each of them is in order. -/
theorem tree_taken (h : n.Shows narrow base f) (hroom : f.room=none) {t : CallTree}
    (ht : t.Formed narrow) :
    (∃ g, f.calls narrow t.calls=(g,none)) ↔ t.Accepted narrow f.depth := by
  induction t generalizing n f with
  | nil => exact iff_of_true ⟨f,rfl⟩ trivial
  | field before c ih =>
    have hfirst := ih h hroom ht.1
    rw [CallTree.calls,CallTree.Accepted,←hfirst]
    constructor
    · rintro ⟨g,hg⟩
      obtain ⟨m,hm,hg⟩ := calls_append_ok.mp hg
      obtain ⟨k,hk,_⟩ := calls_cons_ok.mp hg
      exact ⟨⟨m,hm⟩,(call_flat (calls_room hroom hm) ht.2).mp ⟨k,hk⟩⟩
    · rintro ⟨⟨m,hm⟩,hc⟩
      obtain ⟨k,hk⟩ := (call_flat (calls_room hroom hm) ht.2).mpr hc
      exact ⟨k,calls_append_ok.mpr ⟨m,hm,calls_cons_ok.mpr ⟨k,hk,rfl⟩⟩⟩
  | sequence before id body keep ih ihbody =>
    have hfirst := ih h hroom ht.1
    rw [CallTree.calls,CallTree.Accepted,←hfirst]
    -- what the sequence is opened and closed in
    have hinner : ∀ m k, f.calls narrow before.calls=(m,none) →
        m.call narrow (.sequenceBeginLazy (.int id))=(k,none) →
        ((∃ g, k.calls narrow body.calls=(g,none)) ↔ body.Accepted narrow (f.depth+1)) ∧
          k.room=none ∧ ∀ g, k.calls narrow body.calls=(g,none) → g.depth=f.depth+1 := by
      intro m k hm hk
      obtain ⟨hshow,hdepth⟩ := h.tree ht.1 hm
      have hopen := (hshow.push hk).1
      have hkroom : k.room=none :=
        call_room (calls_room hroom hm) hk
      have hkdepth : k.depth=f.depth+1 := by
        rw [(call_begin.mp hk).2.2]
        exact congrArg (·+1) hdepth
      refine ⟨?_,hkroom,fun g hg => ?_⟩
      · rw [←hkdepth]
        exact ihbody hopen hkroom ht.2
      · rw [(hopen.tree ht.2 hg).2,hkdepth]
    constructor
    · rintro ⟨g,hg⟩
      obtain ⟨m,hm,hg⟩ := calls_append_ok.mp hg
      obtain ⟨k,hk,hg⟩ := calls_cons_ok.mp hg
      obtain ⟨j,hj,_⟩ := calls_append_ok.mp hg
      obtain ⟨hid,hlt,_⟩ := call_begin.mp hk
      rw [(h.tree ht.1 hm).2] at hlt
      exact ⟨⟨m,hm⟩,hid,hlt,(hinner m k hm hk).1.mp ⟨j,hj⟩⟩
    · rintro ⟨⟨m,hm⟩,hid,hlt,hbody⟩
      have hk : m.call narrow (.sequenceBeginLazy (.int id))=
          ({m with held := m.held++[id], depth := m.depth+1},none) :=
        call_begin.mpr ⟨hid,(h.tree ht.1 hm).2.trans_lt hlt,rfl⟩
      obtain ⟨hiff,hkroom,hdepth⟩ := hinner m _ hm hk
      obtain ⟨j,hj⟩ := hiff.mpr hbody
      obtain ⟨g,hg⟩ := (call_closing (calls_room hkroom hj) keep).mpr (by
        rw [hdepth j hj]
        omega)
      exact ⟨g,calls_append_ok.mpr ⟨m,hm,calls_cons_ok.mpr ⟨_,hk,calls_append_ok.mpr
        ⟨j,hj,calls_cons_ok.mpr ⟨g,hg,rfl⟩⟩⟩⟩⟩

end Framing

section Encoded

variable {narrow : BitVec 64 → Option (BitVec 32)} {calls : List Call} {e : Enc}

/-- Nothing was called and nothing is out. -/
theorem shows_empty (narrow : BitVec 64 → Option (BitVec 32)) : ({} : Nest).Shows narrow [] {} :=
  ⟨rfl,rfl,rfl⟩

/-- Calls that are taken at one go are what they come to without a buffer. -/
theorem scratch_calls (h : writeAll .result narrow calls (.scratch false)=.ok () e) :
    ({} : Framing).calls narrow calls=(Outlet.result.frame e,none) := by
  rw [←scratch_frame .result rfl false]
  exact calls_of_writeAll (o:=.result) trivial (scratch_ok .result false) rfl h

/-- The calls of a tree are taken at one go exactly when each of them is in order. -/
theorem tree_accepted {t : CallTree} (ht : t.Formed narrow) :
    (∃ e, writeAll .result narrow t.calls (.scratch false)=.ok () e) ↔ t.Accepted narrow 0 := by
  have htaken := Framing.tree_taken (shows_empty narrow) rfl ht
  constructor
  · rintro ⟨e,hrun⟩
    exact htaken.mp ⟨_,scratch_calls hrun⟩
  · intro h
    obtain ⟨g,hg⟩ := htaken.mpr h
    rw [←scratch_frame .result rfl false] at hg
    obtain ⟨e,hrun,_⟩ := writeAll_accepted (o:=.result) trivial (scratch_ok .result false) rfl
      narrow t.calls hg
    exact ⟨e,hrun⟩

/-- The message is then the serialization of the pruned tree. -/
theorem tree_message {t : CallTree} (ht : t.Formed narrow)
    (h : writeAll .result narrow t.calls (.scratch false)=.ok () e) :
    getvalue .result e=.ok (t.prune.eager narrow) e ∧ e.held=[] ∧ e.depth=0 := by
  obtain ⟨hshow,hdepth⟩ := (shows_empty narrow).tree ht (scratch_calls h)
  have hout := hshow.out
  have hheld := hshow.held
  have hgrown : ({} : Nest).grow (·.behind t)={root := t} := by
    simp [Nest.grow]
  rw [hgrown] at hout hheld
  refine ⟨?_,hheld,hdepth⟩
  rw [getvalue_run]
  have hall : Outlet.result.output e=t.prune.eager narrow := by
    have hlist : (Outlet.result.frame e).out=t.prune.eager narrow := by
      simpa [Nest.bytes,Nest.framed] using hout
    exact hlist
  rw [hall]

end Encoded

/-- Lazy framing prunes the tree. The calls of a tree whose fields are fields are taken
exactly when every argument is in order and no sequence is nested deeper than can be; the
message is then the eager serialization of the pruned tree, with nothing held back and
nothing open. At every moment on the way, and of any calls that are taken, the open
sequences are some whose headers are out, around those in which nothing survives, whose
ids are the ones held back. -/
theorem lazy_framing (narrow : BitVec 64 → Option (BitVec 32)) :
    (∀ t : CallTree, t.Formed narrow →
      ((∃ e, writeAll .result narrow t.calls (.scratch false)=.ok () e) ↔
        t.Accepted narrow 0) ∧
      ∀ e, writeAll .result narrow t.calls (.scratch false)=.ok () e →
        getvalue .result e=.ok (t.prune.eager narrow) e ∧ e.held=[] ∧ e.depth=0) ∧
    (∀ calls e, writeAll .result narrow calls (.scratch false)=.ok () e →
      ∃ n : Nest, n.calls=calls ∧ n.opened.length=e.depth ∧
        ∃ bare framed, n.opened=bare++framed ∧ (∀ s ∈ bare, s.2.Vanishes) ∧
          e.held=(bare.map Prod.fst).reverse ∧
          getvalue .result e=.ok (n.bytes narrow framed) e) := by
  refine ⟨fun t ht => ⟨tree_accepted ht,fun e hrun => tree_message ht hrun⟩,
    fun calls e hrun => ?_⟩
  obtain ⟨hshow,hcalls⟩ := (shows_empty narrow).calls (scratch_calls hrun)
  refine ⟨_,hcalls,hshow.depth.symm,_,_,List.takeWhile_append_dropWhile.symm,?_,
    hshow.held,?_⟩
  · intro s hs
    simpa using List.mem_takeWhile_imp hs
  · rw [getvalue_run]
    exact congrArg (EStateM.Result.ok · e) hshow.out

/-- A kept sequence, a sequence in it that vanishes, and a field behind both. -/
theorem lazy_framing_nested :
    ∃ e, writeAll .result (fun _ => none) [.sequenceBeginLazy (.int 1),
        .sequenceBeginLazy (.int 2),.sequenceEnd,.sequenceEndKeep,.bool (.int 3) true]
        (.scratch false)=.ok () e ∧
      getvalue .result e=.ok [0x0E,0x07,0x18,0x01] e ∧ e.held=[] := by
  have h := (lazy_framing fun _ => none).1
    (.field (.sequence .nil 1 (.sequence .nil 2 .nil false) true) (.bool (.int 3) true))
    ⟨⟨trivial,trivial,trivial⟩,trivial⟩
  obtain ⟨e,hrun⟩ := h.1.mpr ⟨⟨trivial,by decide,by decide,trivial,by decide,by decide,trivial⟩,
    trivial,_,rfl⟩
  have hout := h.2 e hrun
  exact ⟨e,hrun,hout.1,hout.2.1⟩

end SofaBuffers
