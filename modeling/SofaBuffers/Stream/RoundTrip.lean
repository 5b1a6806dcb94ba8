import SofaBuffers.Encoder.Written

/-!
# What is written is read

The calls of a tree come to the bytes of fields, and these say what the calls
were given. Whatever is encoded is therefore decoded as what was written, in the
sequences that survive.
-/

set_option autoImplicit false

namespace SofaBuffers

variable {narrow : BitVec 64 → Option (BitVec 32)}

/-- What a visitor is told of fields behind others. -/
theorem log_append (raw : Bool) (t u : Tree) : (t.append u).log raw=t.log raw++u.log raw := by
  induction t with
  | nil => rfl
  | value id x rest ih => rw [Tree.append,Tree.log,ih,Tree.log,List.cons_append]
  | sequence id inner rest _ ih =>
    rw [Tree.append,Tree.log,ih,Tree.log,List.cons_append,List.append_assoc,List.cons_append]

/-- A tree that is taken is so without the sequences that vanish. -/
theorem CallTree.Accepted.prune {t : CallTree} {depth : ℕ} (h : t.Accepted narrow depth) :
    t.prune.Accepted narrow depth := by
  induction t generalizing depth with
  | nil => trivial
  | field before c ih => exact ⟨ih h.1,h.2⟩
  | sequence before id body keep ih ihbody =>
    obtain ⟨hbefore,hid,hdepth,hbody⟩ := h
    rw [CallTree.prune]
    split
    · exact ih hbefore
    · exact ⟨ih hbefore,hid,hdepth,ihbody hbody⟩

/-- The header of a sequence of an id in range opens it. -/
theorem start_announces {id : ℕ} (h : id ≤ idMax) :
    Announces (headerBytes id .sequenceStart) (.start id) := by
  have hmax : idMax=0x7FFFFFFF := rfl
  have ht := WireType.sequenceStart.toNat_lt
  exact .start ⟨word_of_lt (by omega),h⟩

/-- The bytes of a tree of calls are fields, of which a visitor is told what was called. -/
theorem tree_fields (raw : Bool) {t : CallTree} {depth room : ℕ} (h : t.Accepted narrow depth)
    (hroom : depth+room=maxDepth) :
    ∃ u : Tree, Fields room u (t.eager narrow) ∧ u.log raw=t.told raw narrow := by
  induction t generalizing depth room with
  | nil => exact ⟨.nil,.nil room,rfl⟩
  | field before c ih =>
    obtain ⟨hbefore,-,bytes,hmove⟩ := h
    obtain ⟨u,hu,hlog⟩ := ih hbefore hroom
    obtain ⟨fieldId,v,hwritten,x,⟨id,hd,bs,rfl,rfl,ha,hb,ht⟩,rfl⟩ := call_tells raw narrow hmove
    refine ⟨u.append (.value id x .nil),?_,?_⟩
    · have hfield := hu.append (.value ha hb ht (.nil room))
      rw [List.append_nil] at hfield
      rw [CallTree.eager,hmove]
      exact hfield
    · rw [log_append,hlog,CallTree.told,Call.told,hwritten]
      rfl
  | sequence before id body keep ih ihbody =>
    obtain ⟨hbefore,hid,hdepth,hbody⟩ := h
    obtain ⟨u,hu,hlog⟩ := ih hbefore hroom
    obtain ⟨inner,hinner,hinnerLog⟩ :=
      ihbody hbody (show depth+1+(room-1)=maxDepth by omega)
    have hpos : room-1+1=room := by omega
    refine ⟨u.append (.sequence id inner .nil),?_,?_⟩
    · have hseq := Fields.sequence (start_announces hid) stop_encode hinner
        (.nil (room-1+1))
      rw [hpos,List.append_nil] at hseq
      rw [CallTree.eager,List.append_assoc (headerBytes id .sequenceStart)]
      exact hu.append hseq
    · rw [log_append,hlog,CallTree.told,Tree.log,hinnerLog]
      rfl

/-- The trees of calls in a nest have fields that are fields. -/
def Nest.Formed (narrow : BitVec 64 → Option (BitVec 32)) (n : Nest) : Prop :=
  n.root.Formed narrow ∧ ∀ s ∈ n.opened, s.2.Formed narrow

/-- The innermost tree of them may be changed to such a tree. -/
theorem Nest.Formed.grow {n : Nest} (h : n.Formed narrow) {f : CallTree → CallTree}
    (hf : ∀ t : CallTree, t.Formed narrow → (f t).Formed narrow) : (n.grow f).Formed narrow := by
  obtain ⟨root,opened⟩ := n
  cases opened with
  | nil => exact ⟨hf root h.1,h.2⟩
  | cons s opened =>
    refine ⟨h.1,fun u hu => ?_⟩
    rcases List.mem_cons.mp hu with rfl | hu
    · exact hf s.2 (h.2 s List.mem_cons_self)
    · exact h.2 u (List.mem_cons_of_mem s hu)

/-- One more call that is taken. -/
theorem Nest.Formed.push {n : Nest} (h : n.Formed narrow) {f g : Framing} {c : Call}
    (hc : f.call narrow c=(g,none)) : (n.push c).Formed narrow := by
  rcases call_kinds narrow c with ⟨fieldId,rfl⟩|⟨keep,rfl⟩|⟨hpush,hflat⟩
  · cases fieldId with
    | int id =>
      refine ⟨h.1,fun u hu => ?_⟩
      rcases List.mem_cons.mp hu with rfl | hu
      · trivial
      · exact h.2 u hu
    | other typeName =>
      have hstep : f.step (.start (checkedId (.other typeName)))=(g,none) := hc
      rw [Framing.step_start] at hstep
      split at hstep
      · cases hstep
      · cases hstep
  · have hclose : n.push (CallTree.closing keep)=n.close keep := by
      cases keep <;> rfl
    rw [hclose]
    obtain ⟨root,opened⟩ := n
    cases opened with
    | nil => exact h
    | cons s opened =>
      have hs := h.2 s List.mem_cons_self
      exact Nest.Formed.grow (n:=⟨root,opened⟩)
        ⟨h.1,fun u hu => h.2 u (List.mem_cons_of_mem s hu)⟩ fun t ht => ⟨ht,hs⟩
  · rw [hpush]
    exact h.grow fun t ht => ⟨ht,hflat⟩

/-- Calls in order that are taken. -/
theorem Nest.Formed.calls {n : Nest} (h : n.Formed narrow) {f g : Framing} {cs : List Call}
    (hc : f.calls narrow cs=(g,none)) : (cs.foldl Nest.push n).Formed narrow := by
  induction cs generalizing n f with
  | nil => exact h
  | cons c cs ih =>
    obtain ⟨m,hm,hc⟩ := Framing.calls_cons_ok.mp hc
    exact ih (h.push hm) hc

/-- Calls that are taken and leave no sequence open are those of a tree. -/
theorem balanced_tree {calls : List Call} {e : Enc}
    (h : writeAll .result narrow calls (.scratch false)=.ok () e) (hd : e.depth=0) :
    ∃ t : CallTree, t.Formed narrow ∧ t.calls=calls := by
  have hmoves := scratch_calls h
  obtain ⟨hshow,hcalls⟩ := (shows_empty narrow).calls hmoves
  have hempty : ({} : Nest).Formed narrow := ⟨trivial,by simp⟩
  have hformed := hempty.calls hmoves
  generalize calls.foldl Nest.push {}=n at hshow hcalls hformed
  obtain ⟨root,opened⟩ := n
  have hlen : e.depth=opened.length := hshow.depth
  have hnil : opened=[] := List.length_eq_zero_iff.mp (hlen.symm.trans hd)
  subst hnil
  refine ⟨root,hformed.1,?_⟩
  simpa [Nest.calls,CallTree.calls] using hcalls

/-- What is encoded is decoded as what was written. Calls that are taken and leave no sequence
open are those of a tree of calls; and the message the calls of any tree come to is complete to
a decoder with a recording visitor, which is told exactly the fields written, in order, each
with the value it was given, in exactly the sequences that something survives in or that were
kept. -/
theorem round_trip (narrow : BitVec 64 → Option (BitVec 32)) (raw : Bool) :
    (∀ calls e, writeAll .result narrow calls (.scratch false)=.ok () e → e.depth=0 →
      ∃ t : CallTree, t.Formed narrow ∧ t.calls=calls) ∧
    ∀ t : CallTree, t.Formed narrow →
      ∀ e, writeAll .result narrow t.calls (.scratch false)=.ok () e →
        ∃ message, getvalue .result e=.ok message e ∧
          ∀ r store d, Dec.init (recorder raw) r store=.ok d →
            ∃ d', feed (recorder raw) message d=.ok .complete d' ∧
              d'.store={store with log := store.log++t.prune.told raw narrow} := by
  refine ⟨fun calls e => balanced_tree,fun t ht e hrun => ?_⟩
  have haccepted := (tree_accepted ht).mp ⟨e,hrun⟩
  obtain ⟨u,hu,hlog⟩ := tree_fields raw haccepted.prune (Nat.zero_add maxDepth)
  refine ⟨_,(tree_message ht hrun).1,fun r store d hinit => ?_⟩
  have hfeed := feed_recorder hinit hu
  rw [hlog] at hfeed
  exact hfeed

/-- A kept sequence, in it a sequence that vanishes, and a negative number behind both. -/
def keptTree : CallTree :=
  .field (.sequence .nil 1 (.sequence .nil 2 .nil false) true) (.signed (.int 3) (.int (-5)))

/-- A visitor is told of a kept sequence and of the number behind it, and of no sequence that
vanished. -/
theorem round_trip_kept :
    ∃ e message d', writeAll .result (fun _ => none) keptTree.calls (.scratch false)=.ok () e ∧
      getvalue .result e=.ok message e ∧
      feed (recorder true) message (Dec.fresh (recorder true) (List.replicate 16 0) blank)=
        .ok .complete d' ∧
      d'.store.log=[.sequenceBegin () 1,.sequenceEnd (),.value () 3 (.signed (-5))] := by
  have hformed : keptTree.Formed fun _ => none := ⟨⟨trivial,trivial,trivial⟩,trivial⟩
  have haccepted : keptTree.Accepted (fun _ => none) 0 :=
    ⟨⟨trivial,by decide,by decide,trivial,by decide,by decide,trivial⟩,trivial,_,rfl⟩
  obtain ⟨e,hrun⟩ := (tree_accepted hformed).mpr haccepted
  obtain ⟨message,hmessage,hdecode⟩ := (round_trip (fun _ => none) true).2 keptTree hformed e hrun
  obtain ⟨d',hfeed,hstore⟩ := hdecode (.size 16) blank
    (Dec.fresh (recorder true) (List.replicate 16 0) blank) rfl
  refine ⟨e,message,d',hrun,hmessage,hfeed,?_⟩
  rw [hstore]
  rfl

end SofaBuffers
