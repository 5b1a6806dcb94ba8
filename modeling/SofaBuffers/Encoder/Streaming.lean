import SofaBuffers.Encoder.Refusal

/-!
# Streaming is encoding at one go

Whatever buffers an encoder writes through, what it hands over is the message
an encoder that keeps everything ends up with.
-/

set_option autoImplicit false

namespace SofaBuffers

instance (c : Call) : Decidable c.Sized := by
  cases c <;> unfold Call.Sized <;> infer_instance

/-- Make calls one after the other, up to the first that raises. -/
def writeAll (o : Outlet) (narrow : BitVec 64 → Option (BitVec 32)) : List Call → EncM Unit
  | [] => pure ()
  | c::calls => do
    c.run o narrow
    writeAll o narrow calls

namespace Framing

/-- What a call does to the message; a cap past the C integers is none. -/
def call (narrow : BitVec 64 → Option (BitVec 32)) (f : Framing) (c : Call) :
    Framing × Option Exn :=
  if c.Sized then f.step (c.move narrow) else (f,some .overflow)

/-- What calls do to the message, up to the first that raises. -/
def calls (narrow : BitVec 64 → Option (BitVec 32)) (f : Framing) :
    List Call → Framing × Option Exn
  | [] => (f,none)
  | c::cs =>
    match f.call narrow c with
    | (f,none) => f.calls narrow cs
    | r => r

end Framing

section Calls

variable {o : Outlet} {narrow : BitVec 64 → Option (BitVec 32)} {e : Enc}

/-- A call of a writer that raises its errors does what it does to the message. -/
theorem run_refines (hf : o.Fair) (h : e.Ok o) (hs : e.sticky=false)
    (narrow : BitVec 64 → Option (BitVec 32)) (c : Call) :
    Refines o e ((o.frame e).call narrow c) (c.run o narrow e) := by
  have hl : e.latched=false := by rw [Enc.latched,hs]; rfl
  by_cases hc : c.Sized
  · obtain ⟨r,hr,hrun⟩ := call_refines hf h narrow hc hl
    rw [Framing.call,if_pos hc,hrun,hr.raising hs]
    exact hr
  · rw [Framing.call,if_neg hc,call_unsized o hc]
    exact .error h rfl rfl

/-- Calls in order that raise their errors do what they do to the message. -/
theorem writeAll_refines (hf : o.Fair) (h : e.Ok o) (hs : e.sticky=false)
    (narrow : BitVec 64 → Option (BitVec 32)) (cs : List Call) :
    Refines o e ((o.frame e).calls narrow cs) (writeAll o narrow cs e) := by
  induction cs generalizing e with
  | nil => exact .ok h rfl rfl
  | cons c cs ih =>
    have hc := run_refines hf h hs narrow c
    rw [Framing.calls,writeAll,run_bind]
    generalize (o.frame e).call narrow c=out at hc
    generalize c.run o narrow e=r at hc
    cases hc with
    | ok hok h1 h2 =>
      exact (ih hok (h1.trans hs)).since h1 h2
    | error hok h1 h2 => exact .error hok h1 h2

/-- An encoder over a buffer with room is in order, and nothing of a message is out. -/
theorem overBuffer_run (o : Outlet) (narrow : BitVec 64 → Option (BitVec 32)) (hm : o.inMemory=false) (hs : o.hasSink=true)
    {buffer : List UInt8} {offset : ℕ} (h : offset < buffer.length) (sticky : Bool) :
    ∃ e, overBuffer o buffer offset sticky=.ok e ∧ Reached o narrow e ∧ e.sticky=sticky ∧
      e.error=none ∧ o.frame e={} := by
  have hset := bufferSet_run (o:=o) (e:={
    fixed := [], cap := 0, cursor := 0, installs := 0, transfers := [], sticky := sticky})
    (Nat.le_of_lt h) fun _ => h
  have hover : overBuffer o buffer offset sticky=.ok {
      fixed := buffer, cap := buffer.length, cursor := offset, installs := 1
      transfers := [.installed buffer offset], sticky := sticky} := by
    simp only [overBuffer,hset]
    rfl
  refine ⟨_,hover,.buffered hm hover,rfl,rfl,?_⟩
  simp [Outlet.frame,Outlet.output,hm,hs,payloadFrom,reservedFrom,Enc.held]

/-- Nothing of a message is out of an encoder over its scratch buffer. -/
theorem scratch_frame (o : Outlet) (hs : o.hasSink=true) (sticky : Bool) :
    o.frame (.scratch sticky)={} := by
  simp [Outlet.frame,Outlet.output,hs,payloadFrom,reservedFrom,Enc.held,Enc.scratch,Enc.over]

/-- After a flush everything that was put out has been handed over. -/
theorem flush_handed (hf : o.Fair) (hs : o.hasSink=true) (hm : o.inMemory=false) (h : e.Ok o) :
    ∃ e', flush o e=.ok e.cursor e' ∧ e'.Ok o ∧ payloadFrom 0 e'.transfers=o.output e := by
  unfold flush
  rw [run_get_bind]
  by_cases hd : e.cursor≠0 ∧ o.hasSink=true
  · obtain ⟨e',hdrain,ha,_,hall⟩ := drain_run h hf hs
    rw [if_pos hd,run_bind_ok hdrain]
    exact ⟨e',rfl,ha.ok,hall hm⟩
  · have hz : e.cursor=0 := by
      by_contra hz
      exact hd ⟨hz,hs⟩
    rw [if_neg hd]
    refine ⟨e,rfl,h,?_⟩
    simp [Outlet.output,hm,hz]

/-- A call that the message takes is taken by the encoder, latching or raising. -/
theorem run_accepted (hf : o.Fair) (h : e.Ok o) (he : e.error=none) {c : Call} {f : Framing}
    (hm : (o.frame e).call narrow c=(f,none)) :
    ∃ e', c.run o narrow e=.ok () e' ∧ e'.Ok o ∧ e'.error=none ∧ o.frame e'=f := by
  have hl : e.latched=false := by rw [Enc.latched,he,Option.isSome_none,Bool.and_false]
  by_cases hc : c.Sized
  · obtain ⟨r,hr,hrun⟩ := call_refines hf h narrow hc hl
    rw [Framing.call,if_pos hc] at hm
    rw [hm] at hr
    cases hr with
    | ok hok _ herr => exact ⟨_,hrun,hok,herr.trans he,rfl⟩
  · rw [Framing.call,if_neg hc] at hm
    cases hm

/-- Calls in order that the message takes are taken by the encoder. -/
theorem writeAll_accepted (hf : o.Fair) (h : e.Ok o) (he : e.error=none)
    (narrow : BitVec 64 → Option (BitVec 32)) (cs : List Call) {f : Framing} (hm : (o.frame e).calls narrow cs=(f,none)) :
    ∃ e', writeAll o narrow cs e=.ok () e' ∧ e'.Ok o ∧ e'.error=none ∧ o.frame e'=f := by
  induction cs generalizing e with
  | nil =>
    rw [Framing.calls] at hm
    cases hm
    exact ⟨e,rfl,h,he,rfl⟩
  | cons c cs ih =>
    rw [Framing.calls] at hm
    rcases hc : (o.frame e).call narrow c with ⟨g,_|why⟩
    · rw [hc] at hm
      obtain ⟨e₁,hrun,hok,herr,hframe⟩ := run_accepted hf h he hc
      rw [writeAll,run_bind_ok hrun]
      exact ih hok herr (by rw [hframe]; exact hm)
    · rw [hc] at hm
      cases hm

/-- Calls that an encoder takes are taken by the message. -/
theorem calls_of_writeAll (hf : o.Fair) (h : e.Ok o) (hs : e.sticky=false) {cs : List Call}
    {e' : Enc} (hw : writeAll o narrow cs e=.ok () e') :
    (o.frame e).calls narrow cs=(o.frame e',none) := by
  have hr := writeAll_refines hf h hs narrow cs
  rw [hw] at hr
  generalize (o.frame e).calls narrow cs=out at hr
  cases hr with
  | ok _ _ _ => rfl

/-- The result of an encoder is all it was told to write. -/
theorem getvalue_run (e : Enc) : getvalue .result e=.ok (Outlet.result.output e) e := by
  rw [getvalue,run_get_bind,if_neg (by decide),Outlet.output]
  cases e.result with
  | none => rfl
  | some chunks => rfl

end Calls

/-- The calls are taken, what the installed buffer reserves is as it was as long as it was
not handed over, and after a flush the views that were, each lying in its buffer, are the
message behind what the installations reserve. -/
def Streams (o : Outlet) (narrow : BitVec 64 → Option (BitVec 32)) (calls : List Call) (e : Enc)
    (message : List UInt8) : Prop :=
  ∃ e₁ e₂, writeAll o narrow calls e=.ok () e₁ ∧ e₁.error=none ∧
    e₁.fixed.take (reservedFrom 0 e₁.transfers)=
      (installedFrom [] e₁.transfers).take (reservedFrom 0 e₁.transfers) ∧
    flush o e₁=.ok e₁.cursor e₂ ∧ payloadFrom 0 e₂.transfers=message ∧ Orderly true e₂.transfers

section Streaming

variable {o : Outlet} {narrow : BitVec 64 → Option (BitVec 32)} {e : Enc} {calls : List Call}

/-- Calls that the message takes are streamed by an encoder nothing is out of. -/
theorem streams_of_calls (hf : o.Fair) (hs : o.hasSink=true) (hm : o.inMemory=false) (h : e.Ok o)
    (he : e.error=none) {f g : Framing} (hframe : o.frame e=f) (hc : f.calls narrow calls=(g,none)) :
    Streams o narrow calls e g.out := by
  rw [←hframe] at hc
  obtain ⟨e₁,hrun,hok,herr,hout⟩ := writeAll_accepted hf h he narrow calls hc
  obtain ⟨e₂,hflush,hok₂,hall⟩ := flush_handed hf hs hm hok
  have horder := hok₂.orderly
  rw [hs] at horder
  refine ⟨e₁,e₂,hrun,herr,hok.front hm,hflush,?_,horder⟩
  rw [hall,←hout]
  rfl

end Streaming

/-- Streaming is encoding at one go. What an encoder that keeps everything takes, any other
takes, through a writer or through a sink that copies what it is handed or installs another
buffer with room, over whatever buffer; after a flush it has handed over the same message.
Neither takes more, and a drain leaves a free byte wherever it happens. -/
theorem streaming_oneshot (narrow : BitVec 64 → Option (BitVec 32)) (calls : List Call) :
    (∀ e, writeAll .result narrow calls (.scratch false)=.ok () e →
      ∃ message, getvalue .result e=.ok message e ∧
        (∀ sticky, Streams .writer narrow calls (.scratch sticky) message) ∧
        ∀ react buffer offset sticky, (Outlet.sink react).Fair → offset < buffer.length →
          ∃ e₀, overBuffer (.sink react) buffer offset sticky=.ok e₀ ∧
            Streams (.sink react) narrow calls e₀ message) ∧
    (∀ react buffer offset e₀ e, (Outlet.sink react).Fair → offset < buffer.length →
      overBuffer (.sink react) buffer offset false=.ok e₀ →
      writeAll (.sink react) narrow calls e₀=.ok () e →
      ∃ e', writeAll .result narrow calls (.scratch false)=.ok () e') ∧
    (∀ o e, o.Fair → o.hasSink=true → e.Ok o →
      ∃ e', drain o e=.ok () e' ∧ e'.Ok o ∧ e'.cursor < e'.cap) := by
  refine ⟨?_,?_,?_⟩
  · intro e hrun
    have hc := calls_of_writeAll (o:=.result) trivial (scratch_ok .result false) rfl hrun
    rw [scratch_frame .result rfl] at hc
    refine ⟨_,getvalue_run e,?_,?_⟩
    · intro sticky
      exact streams_of_calls (o:=.writer) trivial rfl rfl (scratch_ok .writer sticky) rfl
        (scratch_frame .writer rfl sticky) hc
    · intro react buffer offset sticky hf ho
      obtain ⟨e₀,hover,hreach,_,herr,hframe⟩ :=
        overBuffer_run (.sink react) narrow rfl rfl ho sticky
      exact ⟨e₀,hover,streams_of_calls hf rfl rfl (hreach.ok hf) herr hframe hc⟩
  · intro react buffer offset e₀ e hf ho hover hrun
    obtain ⟨e₁,hover',hreach,hs,_,hframe⟩ :=
      overBuffer_run (.sink react) narrow rfl rfl ho false
    rw [hover] at hover'
    injection hover' with hover'
    subst hover'
    have hc := calls_of_writeAll hf (hreach.ok hf) hs hrun
    rw [hframe,←scratch_frame .result rfl false] at hc
    obtain ⟨e',hrun',_⟩ := writeAll_accepted (o:=.result) trivial (scratch_ok .result false) rfl narrow
      calls hc
    exact ⟨e',hrun'⟩
  · intro o e hf hs h
    obtain ⟨e',hdrain,ha,hroom,_⟩ := drain_run h hf hs
    exact ⟨e',hdrain,ha.ok,hroom⟩

/-- Three calls through buffers of two bytes, the first of them reserved. -/
theorem streaming_oneshot_reserving :
    ∃ e₀, overBuffer (.sink (bufferSet .writer [0xAA,0] 1)) [0xBB,0] 1 true=.ok e₀ ∧
      Streams (.sink (bufferSet .writer [0xAA,0] 1)) (fun _ => none)
        [.sequenceBeginLazy (.int 1),.unsigned (.int 2) (.int 300),.sequenceEnd] e₀
        [0x0E,0x10,0xAC,0x02,0x07] := by
  have hcalls : ({} : Framing).calls (fun _ => none)
      [.sequenceBeginLazy (.int 1),.unsigned (.int 2) (.int 300),.sequenceEnd]=
      ({out := [0x0E,0x10,0xAC,0x02,0x07]},none) := by decide
  rw [←scratch_frame .result rfl false] at hcalls
  obtain ⟨e,hrun,_,_,hframe⟩ := writeAll_accepted (o:=.result) trivial
    (scratch_ok .result false) rfl _ _ hcalls
  obtain ⟨message,hget,_,hall⟩ := (streaming_oneshot _ _).1 e hrun
  have hmessage : message=[0x0E,0x10,0xAC,0x02,0x07] := by
    have hout := (EStateM.Result.ok.inj (hget.symm.trans (getvalue_run e))).1
    exact hout.trans (congrArg Framing.out hframe)
  rw [←hmessage]
  exact hall _ _ _ true (fun e => Or.inr ⟨[0xAA,0],1,by decide,rfl⟩) (by decide)

end SofaBuffers
