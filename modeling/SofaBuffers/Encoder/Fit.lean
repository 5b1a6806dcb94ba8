import SofaBuffers.Encoder.Courses

/-!
# A buffer without a sink holds what fits

Whatever calls are made over a caller's buffer that nobody takes, they put out
what encoding at one go does, up to the end of the buffer: the first call that
raises is the first one whose last byte has no room.
-/

set_option autoImplicit false

namespace SofaBuffers

/-- What the calls are encoded as at one go, if they are taken. -/
def oneShot (narrow : BitVec 64 → Option (BitVec 32)) (calls : List Call) : Option (List UInt8) :=
  match writeAll .result narrow calls (.scratch false) with
  | .ok _ e => some (Outlet.result.output e)
  | .error .. => none

namespace Framing

variable {narrow : BitVec 64 → Option (BitVec 32)} {f g : Framing} {n : ℕ}

/-- The message with an end to the room for it. -/
def within (f : Framing) (n : ℕ) : Framing := {f with room := some n}

/-- What goes out where there is no end to the room goes out as far as there is room. -/
structure Cut (n : ℕ) (f g : Framing) (r : Framing × Option Exn) (bs : List UInt8) : Prop where
  /-- The bytes are out. -/
  out : g.out=f.out++bs
  /-- There is no end to the room. -/
  free : g.room=none
  /-- They go out where there is room for them. -/
  fits : bs.length ≤ n → r=(g.within (n-bs.length),none)
  /-- As many of them go out as there is room for. -/
  full : n < bs.length → ∃ k : Framing, r=(k,some bufferFull) ∧ k.out=f.out++bs.take n

/-- A commit whose bytes go out goes on. -/
theorem commit_emitted {f g : Framing} {bs : List UInt8} {next : Framing → Framing × Option Exn}
    (h : ({f with held := []} : Framing).emit (startBytes f.held++bs)=(g,none)) :
    f.commit bs next=next g := by
  rw [commit,h]

/-- A commit whose bytes are refused stops there. -/
theorem commit_refused {f g : Framing} {bs : List UInt8} {why : Exn}
    {next : Framing → Framing × Option Exn}
    (h : ({f with held := []} : Framing).emit (startBytes f.held++bs)=(g,some why)) :
    f.commit bs next=(g,some why) := by
  rw [commit,h]

/-- Bytes behind what is held back. -/
theorem commit_cut (hf : f.room=none) {bs : List UInt8} {next : Framing → Framing × Option Exn}
    (h : f.commit bs next=(g,none)) (hnext : ∀ k m : Framing, next k=(m,none) →
      m.out=k.out ∧ m.room=k.room ∧ ∀ n, next (k.within n)=(m.within n,none)) (n : ℕ) :
    Cut n f g ((f.within n).commit bs next) (startBytes f.held++bs) := by
  rw [commit_free hf] at h
  obtain ⟨hout,hroom,hwithin⟩ := hnext _ _ h
  have hemit : ∀ n, ({f.within n with held := []} : Framing).emit (startBytes f.held++bs)=
      if (startBytes f.held++bs).length ≤ n then
        (({f with out := f.out++(startBytes f.held++bs), held := []} : Framing).within
          (n-(startBytes f.held++bs).length),none)
      else ({f.within n with
        out := f.out++(startBytes f.held++bs).take n, held := [], room := some 0},
          some bufferFull) := fun n => rfl
  refine ⟨hout,hroom.trans hf,?_,?_⟩
  · intro hle
    rw [commit_emitted ((hemit n).trans (if_pos hle))]
    exact hwithin _
  · intro hlt
    rw [commit_refused ((hemit n).trans (if_neg (by omega)))]
    exact ⟨_,rfl,rfl⟩

/-- A move that puts nothing out. -/
theorem Cut.silent (hout : g.out=f.out) (hroom : g.room=none) {r : Framing × Option Exn}
    (h : r=(g.within n,none)) : Cut n f g r [] :=
  ⟨by rw [hout,List.append_nil],hroom,fun _ => h,fun hlt => by simp at hlt⟩

/-- A move. -/
theorem step_cut (hf : f.room=none) {m : Move} (h : f.step m=(g,none)) (n : ℕ) :
    ∃ bs, Cut n f g ((f.within n).step m) bs := by
  cases m with
  | refused why => cases h
  | field bytes rejected =>
    cases rejected with
    | none =>
      refine ⟨_,commit_cut hf h ?_ n⟩
      intro k m hm
      cases hm
      exact ⟨rfl,rfl,fun _ => rfl⟩
    | some why =>
      rw [step,commit_free hf] at h
      cases h
  | start id =>
    rw [step_start] at h
    by_cases hd : f.depth ≥ maxDepth
    · rw [if_pos hd] at h
      cases h
    · rw [if_neg hd] at h
      cases id with
      | error why => cases h
      | ok id =>
        cases h
        refine ⟨[],Cut.silent ?_ ?_ ?_⟩
        · rfl
        · exact hf
        · rw [step_start]
          exact if_neg hd
  | stop keep =>
    rw [step_stop] at h
    by_cases hd : f.depth ≤ 0
    · rw [if_pos hd] at h
      cases h
    · rw [if_neg hd] at h
      by_cases hv : f.held≠[] ∧ keep=false
      · rw [if_pos hv] at h
        cases h
        refine ⟨[],Cut.silent ?_ ?_ ?_⟩
        · rfl
        · exact hf
        · rw [step_stop]
          exact (if_neg hd).trans (if_pos hv)
      · rw [if_neg hv] at h
        have hstep : (f.within n).step (.stop keep)=
            (f.within n).commit stopBytes fun f => ({f with depth := f.depth-1},none) := by
          rw [step_stop]
          exact (if_neg hd).trans (if_neg hv)
        refine ⟨_,hstep ▸ commit_cut hf h ?_ n⟩
        intro k m hm
        cases hm
        exact ⟨rfl,rfl,fun _ => rfl⟩

/-- A call. -/
theorem call_cut (hf : f.room=none) {c : Call} (h : f.call narrow c=(g,none)) (n : ℕ) :
    ∃ bs, Cut n f g ((f.within n).call narrow c) bs := by
  rw [call] at h ⊢
  by_cases hc : c.Sized
  · rw [if_pos hc] at h ⊢
    exact step_cut hf h n
  · rw [if_neg hc] at h
    cases h

/-- Calls in order go out as far as there is room. -/
inductive Cuts (narrow : BitVec 64 → Option (BitVec 32)) (n : ℕ) (f g : Framing)
    (cs : List Call) : Prop
  /-- All of them have room. -/
  | fits (hfit : g.out.length ≤ f.out.length+n)
      (h : (f.within n).calls narrow cs=(g.within (f.out.length+n-g.out.length),none))
  /-- One of them is the first that has not. -/
  | full {done rest : List Call} {c : Call} {mid m k : Framing} (hlong : f.out.length+n < g.out.length)
      (hcs : cs=done++c::rest) (hmid : f.calls narrow done=(mid,none))
      (hfit : mid.out.length ≤ f.out.length+n)
      (hdone : (f.within n).calls narrow done=(mid.within (f.out.length+n-mid.out.length),none))
      (hm : mid.call narrow c=(m,none)) (hexceeds : f.out.length+n < m.out.length)
      (hcall : (mid.within (f.out.length+n-mid.out.length)).call narrow c=(k,some bufferFull))
      (hk : k.out=g.out.take (f.out.length+n))

/-- What calls put out begins with what was out. -/
theorem calls_out (hf : f.room=none) {cs : List Call} (h : f.calls narrow cs=(g,none)) :
    ∃ bs, g.out=f.out++bs := by
  induction cs generalizing f with
  | nil =>
    cases h
    exact ⟨[],(List.append_nil _).symm⟩
  | cons c cs ih =>
    obtain ⟨m,hc,hcs⟩ := calls_cons_ok.mp h
    obtain ⟨bs,hcut⟩ := call_cut hf hc 0
    obtain ⟨bs',hout⟩ := ih hcut.free hcs
    exact ⟨bs++bs',by rw [hout,hcut.out,List.append_assoc]⟩

/-- What calls in order put out begins with what was out. -/
theorem calls_cuts (hf : f.room=none) {cs : List Call} (h : f.calls narrow cs=(g,none)) (n : ℕ) :
    Cuts narrow n f g cs := by
  induction cs generalizing f n with
  | nil =>
    cases h
    refine .fits (Nat.le_add_right _ _) ?_
    rw [Nat.add_sub_cancel_left]
    rfl
  | cons c cs ih =>
    obtain ⟨m,hc,hcs⟩ := calls_cons_ok.mp h
    obtain ⟨bs,hcut⟩ := call_cut hf hc n
    obtain ⟨bs',hout⟩ := calls_out hcut.free hcs
    have hm : m.out.length=f.out.length+bs.length := by rw [hcut.out,List.length_append]
    have hg : g.out.length=m.out.length+bs'.length := by rw [hout,List.length_append]
    by_cases hle : bs.length ≤ n
    · have hfits := hcut.fits hle
      have hleft : m.out.length+(n-bs.length)=f.out.length+n := by omega
      have hroom : f.out.length+n-m.out.length=n-bs.length := by omega
      have hrest := ih hcut.free hcs (n-bs.length)
      cases hrest with
      | fits hfit hgo =>
        rw [hleft] at hfit hgo
        refine .fits hfit ?_
        rw [calls,hfits]
        exact hgo
      | @full done rest c' mid m' k hlong hcs' hmid hfit hdone hm' hexceeds hcall hk =>
        rw [hleft] at hlong hfit hdone hexceeds hcall hk
        have hcons : c::cs=(c::done)++c'::rest := congrArg (c::·) hcs'
        refine .full hlong hcons ?_ hfit ?_ hm' hexceeds hcall hk
        · exact calls_cons_ok.mpr ⟨m,hc,hmid⟩
        · rw [calls,hfits]
          exact hdone
    · obtain ⟨k,hk,hkout⟩ := hcut.full (by omega)
      have hself : f.out.length+n-f.out.length=n := Nat.add_sub_cancel_left _ _
      have hfirst : c::cs=[]++c::cs := rfl
      refine .full (by omega) hfirst rfl (Nat.le_add_right _ _) ?_ hc (by omega)
        (by rw [hself]; exact hk) ?_
      · rw [hself]
        rfl
      · rw [hkout,hout,hcut.out,List.append_assoc,List.take_length_add_append,
          List.take_append_of_le_length (by omega)]

end Framing

/-- Nothing passed between the encoder and its sink, and its mode is as it was. -/
structure Silent (e : Enc) (_ : Option Exn) (e' : Enc) : Prop where
  /-- What passed. -/
  transfers : e'.transfers=e.transfers
  /-- It latches errors or raises them. -/
  sticky : e'.sticky=e.sticky

section Closed

variable {narrow : BitVec 64 → Option (BitVec 32)} {e e' e'' : Enc} {w w' : Option Exn}

/-- Where nothing passes on either of two courses, nothing passes on both. -/
theorem Silent.trans (h : Silent e w e') (h' : Silent e' w' e'') : Silent e w' e'' :=
  ⟨h'.transfers.trans h.transfers,h'.sticky.trans h.sticky⟩

/-- Nothing passes where there is no sink. -/
theorem silent_writing : Writing .closed Silent where
  refl _ := ⟨rfl,rfl⟩
  raise _ _ := ⟨rfl,rfl⟩
  trans h h' := h.trans h'
  write _ _ _ _ := ⟨rfl,rfl⟩
  drain _ := .error ⟨rfl,rfl⟩

/-- A commit hands nothing over. -/
theorem committed_silent (e : Enc) : Silent e none e.committed := by
  rw [Enc.committed]
  split <;> exact ⟨rfl,rfl⟩

/-- How a call ends that hands nothing over. -/
theorem Settles.silent {B : Enc → Option Exn → Enc → Prop} {r : EStateM.Result Exn Enc Unit}
    (h : Settles B e r) (hB : ∀ w e', B e w e' → Silent e w e') : Silent e none (left r) := by
  cases h with
  | skipped _ => exact ⟨rfl,rfl⟩
  | done h => exact hB _ _ h
  | @caught e' why h =>
    have hs := hB (some why) e' h
    exact ⟨hs.transfers,hs.sticky⟩
  | @raised e' why h =>
    have hs := hB (some why) e' h
    exact ⟨hs.transfers,hs.sticky⟩

/-- A call hands nothing over where there is no sink. -/
theorem call_silent (narrow : BitVec 64 → Option (BitVec 32)) (c : Call) (e : Enc) :
    Silent e none (e.next (c.run .closed narrow)) := by
  have hc := committed_silent e
  rcases call_kinds narrow c with ⟨fieldId,rfl⟩ | ⟨keep,rfl⟩ | ⟨_,hflat⟩
  · refine (begin_settles fieldId e).silent fun w e' h => ?_
    rcases h with ⟨_,rfl⟩ | ⟨id,_,_,rfl⟩ <;> exact ⟨rfl,rfl⟩
  · refine (closing_settles silent_writing narrow keep e).silent fun w e' h => ?_
    rcases h with ⟨_,rfl⟩ | ⟨_,_,_,rfl⟩ | ⟨_,⟨_,h⟩ | ⟨m,h,_,rfl⟩⟩
    · exact ⟨rfl,rfl⟩
    · exact ⟨rfl,rfl⟩
    · exact hc.trans h
    · have hm := hc.trans h
      exact ⟨hm.transfers,hm.sticky⟩
  · refine (field_settles silent_writing narrow hflat e).silent fun w e' h => ?_
    rcases h with ⟨_,rfl⟩ | h
    · exact ⟨rfl,rfl⟩
    · exact hc.trans h

/-- Calls hand nothing over where there is no sink. -/
theorem after_silent (narrow : BitVec 64 → Option (BitVec 32)) (calls : List Call) (e : Enc) :
    Silent e none (e.after .closed narrow calls) := by
  induction calls generalizing e with
  | nil => exact ⟨rfl,rfl⟩
  | cons c calls ih => exact (call_silent narrow c e).trans (ih _)

/-- Calls up to the first that raises hand nothing over where there is no sink. -/
theorem writeAll_silent (narrow : BitVec 64 → Option (BitVec 32)) (calls : List Call) (e : Enc) :
    Silent e none (left (writeAll .closed narrow calls e)) := by
  induction calls generalizing e with
  | nil => exact ⟨rfl,rfl⟩
  | cons c calls ih =>
    have hc := call_silent narrow c e
    rw [Enc.next] at hc
    rw [writeAll,run_bind]
    cases hr : c.run .closed narrow e with
    | ok a e' =>
      rw [hr] at hc
      exact hc.trans (ih e')
    | error why e' =>
      rw [hr] at hc
      exact hc

/-- Calls in two runs, the first of which goes well. -/
theorem writeAll_append {o : Outlet} {done rest : List Call} {e' : Enc}
    (h : writeAll o narrow done e=.ok () e') :
    writeAll o narrow (done++rest) e=writeAll o narrow rest e' := by
  induction done generalizing e with
  | nil =>
    cases h
    rfl
  | cons c done ih =>
    rw [writeAll,run_bind] at h
    rw [List.cons_append,writeAll,run_bind]
    cases hc : c.run o narrow e with
    | ok a e₁ =>
      rw [hc] at h
      exact ih h
    | error why e₁ =>
      rw [hc] at h
      cases h

end Closed

/-- The bytes stand in the caller's buffer behind what the offset reserves, and nothing of the
buffer in front of them or behind it was written. -/
structure Fills (buffer : List UInt8) (offset : ℕ) (bs : List UInt8) (e : Enc) : Prop where
  /-- The reserved bytes are as they were. -/
  front : e.fixed.take offset=buffer.take offset
  /-- The bytes follow. -/
  written : (e.fixed.take e.cursor).drop offset=bs
  /-- They are all that is used. -/
  used : e.cursor=offset+bs.length
  /-- The buffer is as long as it was. -/
  size : e.fixed.length=buffer.length

section Fills

variable {narrow : BitVec 64 → Option (BitVec 32)} {buffer : List UInt8} {offset : ℕ} {e : Enc}

/-- What an encoder has put out stands in the buffer that was installed once. -/
theorem fills_output (h : e.Ok .closed) (ht : e.transfers=[.installed buffer offset]) :
    Fills buffer offset (Outlet.closed.output e) e := by
  have hfront := h.front rfl
  have hsize := h.size rfl
  have hreserved := h.reserved rfl
  have hcursor := h.cursor
  rw [h.cap] at hcursor
  rw [ht] at hfront hsize hreserved
  have hout : Outlet.closed.output e=(e.fixed.take e.cursor).drop offset := by
    rw [Outlet.output,ht]
    rfl
  refine ⟨hfront,hout.symm,?_,hsize⟩
  have hle : offset ≤ e.cursor := hreserved
  rw [hout,List.length_drop,List.length_take]
  omega

/-- An encoder over a buffer nobody takes. -/
theorem overBuffer_closed (narrow : BitVec 64 → Option (BitVec 32)) (h : offset ≤ buffer.length)
    (sticky : Bool) :
    ∃ e, overBuffer .closed buffer offset sticky=.ok e ∧ Reached .closed narrow e ∧
      e.sticky=sticky ∧ e.error=none ∧ e.transfers=[.installed buffer offset] ∧
      Outlet.closed.frame e=({} : Framing).within (buffer.length-offset) := by
  have hset := bufferSet_run (o:=.closed) (e:={
    fixed := [], cap := 0, cursor := 0, installs := 0, transfers := [], sticky := sticky})
    h (fun h => by cases h)
  have hover : overBuffer .closed buffer offset sticky=.ok {
      fixed := buffer, cap := buffer.length, cursor := offset, installs := 1
      transfers := [.installed buffer offset], sticky := sticky} := by
    simp only [overBuffer,hset]
    rfl
  refine ⟨_,hover,.buffered rfl hover,rfl,rfl,rfl,?_⟩
  simp [Outlet.frame,Outlet.output,Outlet.inMemory,Outlet.hasSink,payloadFrom,reservedFrom,
    Enc.held,Framing.within]

/-- What calls are encoded as at one go is what they come to without a buffer. -/
theorem oneShot_iff {calls : List Call} {message : List UInt8} :
    oneShot narrow calls=some message ↔
      ∃ g, ({} : Framing).calls narrow calls=(g,none) ∧ g.out=message := by
  have hframe := scratch_frame .result rfl false
  constructor
  · intro h
    rw [oneShot] at h
    cases hr : writeAll .result narrow calls (.scratch false) with
    | ok a e =>
      rw [hr] at h
      injection h with h
      have hc := calls_of_writeAll (o:=.result) trivial (scratch_ok .result false) rfl hr
      rw [hframe] at hc
      exact ⟨_,hc,h⟩
    | error why e =>
      rw [hr] at h
      cases h
  · rintro ⟨g,hg,rfl⟩
    rw [←hframe] at hg
    obtain ⟨e,hr,_,_,hout⟩ := writeAll_accepted (o:=.result) trivial (scratch_ok .result false) rfl
      narrow calls hg
    rw [oneShot,hr]
    exact congrArg (fun f : Framing => some f.out) hout

end Fills

/-- How calls end over a buffer with so much room. -/
inductive Fit (narrow : BitVec 64 → Option (BitVec 32)) (buffer : List UInt8) (offset : ℕ)
    (calls : List Call) (message : List UInt8) (e₀ : Enc) : EStateM.Result Exn Enc Unit → Prop
  /-- The message fits, and stands in the buffer. -/
  | whole {e : Enc} (hfit : message.length ≤ buffer.length-offset)
      (h : Fills buffer offset message e) : Fit narrow buffer offset calls message e₀ (.ok () e)
  /-- The message does not fit. The first call that raises is the first one up to which the encoding
  has no room, and the buffer is full with the beginning of the message. -/
  | full {done rest : List Call} {c : Call} {before upTo : List UInt8} {e₁ e : Enc}
      (hlong : buffer.length-offset < message.length) (hcalls : calls=done++c::rest)
      (hdone : writeAll .closed narrow done e₀=.ok () e₁)
      (hcall : c.run .closed narrow e₁=.error bufferFull e)
      (hbefore : oneShot narrow done=some before) (hfits : before.length ≤ buffer.length-offset)
      (hupTo : oneShot narrow (done++[c])=some upTo)
      (hexceeds : buffer.length-offset < upTo.length)
      (h : Fills buffer offset (message.take (buffer.length-offset)) e) :
      Fit narrow buffer offset calls message e₀ (.error bufferFull e)

/-- What is left of calls over such a buffer that latch their first error. -/
inductive FitLatching (buffer : List UInt8) (offset : ℕ) (message : List UInt8) (e : Enc) : Prop
  /-- The message fits, and stands in the buffer. -/
  | whole (hfit : message.length ≤ buffer.length-offset) (he : e.error=none)
      (h : Fills buffer offset message e)
  /-- The message does not fit, and the buffer is full with its beginning. -/
  | full (hlong : buffer.length-offset < message.length) (he : e.error=some bufferFull)
      (h : Fills buffer offset (message.take (buffer.length-offset)) e)

section Fit

variable {narrow : BitVec 64 → Option (BitVec 32)} {buffer : List UInt8} {offset : ℕ} {e₀ : Enc}

/-- Calls that are taken have caps that are C integers. -/
theorem calls_sized {f g : Framing} {cs : List Call} (h : f.calls narrow cs=(g,none)) :
    ∀ c ∈ cs, c.Sized := by
  induction cs generalizing f with
  | nil => simp
  | cons c cs ih =>
    obtain ⟨m,hc,hcs⟩ := Framing.calls_cons_ok.mp h
    intro c' hc'
    rcases List.mem_cons.mp hc' with rfl | hc'
    · by_contra hnot
      rw [Framing.call,if_neg hnot] at hc
      cases hc
    · exact ih hcs c' hc'

/-- A latched error makes every call nothing. -/
theorem writeAll_latched (o : Outlet) (narrow : BitVec 64 → Option (BitVec 32)) {e : Enc}
    (hl : e.latched=true) {cs : List Call} (h : ∀ c ∈ cs, c.Sized) :
    writeAll o narrow cs e=.ok () e := by
  induction cs with
  | nil => rfl
  | cons c cs ih =>
    obtain ⟨body,hbody,_⟩ := call_frames o narrow (h c (List.mem_cons_self ..))
    have hrun : c.run o narrow e=.ok () e := by
      rw [hbody]
      exact if_pos hl
    rw [writeAll,run_bind_ok hrun]
    exact ih fun c' hc' => h c' (List.mem_cons_of_mem _ hc')

/-- An offset behind the buffer is refused. -/
theorem overBuffer_outside (h : buffer.length < offset) (sticky : Bool) :
    overBuffer .closed buffer offset sticky=
      .error (.argument "offset must be within the buffer") := by
  simp [overBuffer,bufferSet,h]

/-- Calls keep the encoder in order. -/
theorem after_ok (narrow : BitVec 64 → Option (BitVec 32)) (calls : List Call) {e : Enc}
    (h : e.Ok .closed) : (e.after .closed narrow calls).Ok .closed := by
  induction calls generalizing e with
  | nil => exact h
  | cons c calls ih => exact ih (h.call (o:=.closed) trivial narrow c)

/-- An encoder over a buffer nobody takes is in order, and nothing of a message is out. -/
theorem overBuffer_stands (narrow : BitVec 64 → Option (BitVec 32)) {sticky : Bool} (h : overBuffer .closed buffer offset sticky=.ok e₀) :
    Reached .closed narrow e₀ ∧ e₀.sticky=sticky ∧ e₀.error=none ∧
      e₀.transfers=[.installed buffer offset] ∧
      Outlet.closed.frame e₀=({} : Framing).within (buffer.length-offset) := by
  by_cases ho : offset ≤ buffer.length
  · obtain ⟨e,he,hrest⟩ := overBuffer_closed narrow ho sticky
    rw [he] at h
    cases h
    exact hrest
  · rw [overBuffer_outside (by omega)] at h
    cases h

/-- What is out of an encoder over a buffer nobody takes stands in that buffer. -/
theorem fills_of_frame {e : Enc} (h : e.Ok .closed) (ht : e.transfers=[.installed buffer offset])
    {f : Framing} (hf : Outlet.closed.frame e=f) : Fills buffer offset f.out e := by
  rw [←hf]
  exact fills_output h ht

/-- A call with no room for its bytes raises, or latches the error. -/
theorem run_cut {e : Enc} (h : e.Ok .closed) (he : e.error=none) {c : Call} {k : Framing}
    {why : Exn} (hw : why.isSofa=true)
    (hm : (Outlet.closed.frame e).call narrow c=(k,some why)) :
    ∃ e', e'.Ok .closed ∧ Outlet.closed.frame e'=k ∧ e'.sticky=e.sticky ∧ e'.error=none ∧
      c.run .closed narrow e=
        if e.sticky then .ok () {e' with error := some why} else .error why e' := by
  have hl : e.latched=false := by rw [Enc.latched,he,Option.isSome_none,Bool.and_false]
  by_cases hc : c.Sized
  · obtain ⟨r,hr,hrun⟩ := call_refines (o:=.closed) trivial h narrow hc hl
    rw [Framing.call,if_pos hc] at hm
    rw [hm] at hr
    cases hr with
    | @error e' _ hok hs herr =>
      have hgo : settle (.error why e')=if why.isSofa=true then fail why e' else .error why e' :=
        rfl
      refine ⟨e',hok,rfl,hs,herr.trans he,?_⟩
      rw [hrun,hgo,if_pos hw,fail_run,hs,herr,he]
      rfl
  · rw [Framing.call,if_neg hc] at hm
    cases hm
    cases hw

/-- Calls over such a buffer put out what they come to without one, as far as there is room. -/
theorem closed_cuts {sticky : Bool} (h : overBuffer .closed buffer offset sticky=.ok e₀)
    {calls : List Call} {message : List UInt8} (hm : oneShot narrow calls=some message) :
    (message.length ≤ buffer.length-offset ∧
      ∃ e, writeAll .closed narrow calls e₀=.ok () e ∧ e.error=none ∧
        Fills buffer offset message e) ∨
    (buffer.length-offset < message.length ∧
      ∃ done c rest before upTo e₁ e, calls=done++c::rest ∧ (∀ c ∈ rest, c.Sized) ∧
        oneShot narrow done=some before ∧ before.length ≤ buffer.length-offset ∧
        oneShot narrow (done++[c])=some upTo ∧ buffer.length-offset < upTo.length ∧
        writeAll .closed narrow done e₀=.ok () e₁ ∧
        Fills buffer offset (message.take (buffer.length-offset)) e ∧
        e.sticky=sticky ∧ c.run .closed narrow e₁=
          if sticky then .ok () {e with error := some bufferFull} else .error bufferFull e) := by
  obtain ⟨hreach,hs,he,ht,hframe⟩ := overBuffer_stands narrow h
  have hok := hreach.ok (o:=.closed) trivial
  obtain ⟨g,hg,rfl⟩ := oneShot_iff.mp hm
  have hzero : ({} : Framing).out.length+(buffer.length-offset)=buffer.length-offset :=
    Nat.zero_add _
  have hpassed : ∀ cs e, writeAll .closed narrow cs e₀=.ok () e → Silent e₀ none e := by
    intro cs e hrun
    have hsilent := writeAll_silent narrow cs e₀
    rw [hrun] at hsilent
    exact hsilent
  cases Framing.calls_cuts (f:={}) rfl hg (buffer.length-offset) with
  | fits hfit hgo =>
    rw [hzero] at hfit hgo
    rw [←hframe] at hgo
    obtain ⟨e,hrun,hok',herr,hout⟩ := writeAll_accepted (o:=.closed) trivial hok he narrow calls hgo
    refine Or.inl ⟨hfit,e,hrun,herr,?_⟩
    have hpass := (hpassed calls e hrun).transfers.trans ht
    have hfills := fills_of_frame hok' hpass hout
    exact hfills
  | @full done rest c mid m k hlong hcs hmid hfit hdone hm hexceeds hcall hk =>
    rw [hzero] at hlong hfit hdone hexceeds hcall hk
    rw [←hframe] at hdone
    obtain ⟨e₁,hrun,hok₁,herr₁,hout₁⟩ :=
      writeAll_accepted (o:=.closed) trivial hok he narrow done hdone
    rw [←hout₁] at hcall
    obtain ⟨e,hok',hout,hsame,_,hstop⟩ := run_cut hok₁ herr₁ rfl hcall
    have hsized : ∀ c ∈ rest, c.Sized := by
      intro c' hc'
      refine calls_sized hg c' ?_
      rw [hcs]
      exact List.mem_append_right _ (List.mem_cons_of_mem _ hc')
    have hupTo : ({} : Framing).calls narrow (done++[c])=(m,none) :=
      Framing.calls_append_ok.mpr ⟨mid,hmid,Framing.calls_cons_ok.mpr ⟨m,hm,rfl⟩⟩
    have hpass : e.transfers=[.installed buffer offset] := by
      have hsilent := ((hpassed done e₁ hrun).trans (call_silent narrow c e₁)).transfers
      rw [Enc.next,hstop,ht] at hsilent
      rw [←hsilent]
      split <;> rfl
    have hsticky := (hpassed done e₁ hrun).sticky.trans hs
    rw [hsticky] at hstop
    refine Or.inr ⟨hlong,done,c,rest,mid.out,m.out,e₁,e,hcs,hsized,oneShot_iff.mpr ⟨mid,hmid,rfl⟩,
      hfit,oneShot_iff.mpr ⟨m,hupTo,rfl⟩,hexceeds,hrun,?_,hsame.trans hsticky,hstop⟩
    rw [←hk]
    exact fills_of_frame hok' hpass hout

/-- A buffer nobody takes holds exactly what fits. Calls over it that encoding at one go
takes are taken if and only if the encoding has room behind the offset, and then it stands
there; else the first call that raises is the first one up to which the encoding has no room,
and what is behind the offset is the beginning of it. An encoder that latches its errors takes
the same bytes. Whatever the calls, the bytes in front of the offset are never written, nor is
anything behind the buffer. -/
theorem closed_fit (narrow : BitVec 64 → Option (BitVec 32)) (buffer : List UInt8)
    (offset : ℕ) :
    (offset ≤ buffer.length ↔ ∃ e₀, overBuffer .closed buffer offset false=.ok e₀) ∧
    (∀ e₀, overBuffer .closed buffer offset false=.ok e₀ → ∀ calls message,
      oneShot narrow calls=some message →
        Fit narrow buffer offset calls message e₀ (writeAll .closed narrow calls e₀)) ∧
    (∀ e₀, overBuffer .closed buffer offset true=.ok e₀ → ∀ calls message,
      oneShot narrow calls=some message →
        ∃ e, writeAll .closed narrow calls e₀=.ok () e ∧
          FitLatching buffer offset message e) ∧
    ∀ e₀ sticky, overBuffer .closed buffer offset sticky=.ok e₀ → ∀ calls,
      (e₀.after .closed narrow calls).fixed.length=buffer.length ∧
      (e₀.after .closed narrow calls).fixed.take offset=buffer.take offset := by
  refine ⟨⟨?_,?_⟩,?_,?_,?_⟩
  · intro ho
    obtain ⟨e₀,h,_⟩ := overBuffer_closed narrow ho false
    exact ⟨e₀,h⟩
  · rintro ⟨e₀,h⟩
    by_contra hlt
    rw [overBuffer_outside (by omega)] at h
    cases h
  · intro e₀ h calls message hm
    rcases closed_cuts h hm with ⟨hfit,e,hrun,_,hfills⟩ |
      ⟨hlong,done,c,rest,before,upTo,e₁,e,hcs,_,hbefore,hfits,hupTo,hexceeds,hrun,hfills,_,hstop⟩
    · rw [hrun]
      exact .whole hfit hfills
    · have hall : writeAll .closed narrow calls e₀=.error bufferFull e := by
        rw [hcs,writeAll_append hrun,writeAll,run_bind,hstop]
        rfl
      rw [hall]
      exact .full hlong hcs hrun hstop hbefore hfits hupTo hexceeds hfills
  · intro e₀ h calls message hm
    rcases closed_cuts h hm with ⟨hfit,e,hrun,herr,hfills⟩ |
      ⟨hlong,done,c,rest,_,_,e₁,e,hcs,hsized,_,_,_,_,hrun,hfills,hsticky,hstop⟩
    · exact ⟨e,hrun,.whole hfit herr hfills⟩
    · have hlatched : ({e with error := some bufferFull} : Enc).latched=true := by
        rw [Enc.latched,hsticky]
        rfl
      refine ⟨{e with error := some bufferFull},?_,.full hlong rfl
        ⟨hfills.front,hfills.written,hfills.used,hfills.size⟩⟩
      rw [hcs,writeAll_append hrun,writeAll,run_bind,hstop]
      exact writeAll_latched .closed narrow hlatched hsized
  · intro e₀ sticky h calls
    obtain ⟨hreach,_,_,ht,_⟩ := overBuffer_stands narrow h
    have hok := after_ok narrow calls (hreach.ok (o:=.closed) trivial)
    have hfills := fills_output hok ((after_silent narrow calls e₀).transfers.trans ht)
    exact ⟨hfills.size,hfills.front⟩

/-- Two fields over five bytes, the first of which is reserved: the second field has no room
for its last byte. -/
theorem closed_fit_five :
    ∃ e₀, overBuffer .closed [0xAA,0,0,0,0] 1 false=.ok e₀ ∧
      Fit (fun _ => none) [0xAA,0,0,0,0] 1 [.unsigned (.int 1) (.int 300),.bool (.int 2) true]
        [0x08,0xAC,0x02,0x10,0x01] e₀
        (writeAll .closed (fun _ => none) [.unsigned (.int 1) (.int 300),.bool (.int 2) true]
          e₀) := by
  have hfit := closed_fit (fun _ => none) [0xAA,0,0,0,0] 1
  have hcalls : ({} : Framing).calls (fun _ => none)
      [.unsigned (.int 1) (.int 300),.bool (.int 2) true]=
      ({out := [0x08,0xAC,0x02,0x10,0x01]},none) := by decide
  obtain ⟨e₀,h⟩ := hfit.1.mp (by decide)
  exact ⟨e₀,h,hfit.2.1 e₀ h _ _ (oneShot_iff.mpr ⟨_,hcalls,rfl⟩)⟩

end Fit

end SofaBuffers
