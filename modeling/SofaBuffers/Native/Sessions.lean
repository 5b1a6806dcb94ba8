import SofaBuffers.Native.Parity

/-!
# Sessions with either engine

A caller may write, flush and install buffers in any order, and go on whatever is
raised. Over a writer, a flush sink or a buffer of its own it is told the same by
both engines and the same is handed over; with the in-memory model it gets the same
message.
-/

set_option autoImplicit false

namespace SofaBuffers

/-- What a caller does with an encoder. -/
inductive Act
  /-- Call a writer. -/
  | call (c : Call)
  /-- Call `flush`. -/
  | flush
  /-- Call `buffer_set`. -/
  | install (buffer : List UInt8) (offset : ℕ)
  deriving DecidableEq, Repr

/-- Do it with the interpreted engine; what `flush` returns, or zero. -/
def Act.run (o : Outlet) (narrow : BitVec 64 → Option (BitVec 32)) : Act → EncM ℕ
  | .call c => do
    c.run o narrow
    pure 0
  | .flush => SofaBuffers.flush o
  | .install buffer offset => do
    bufferSet o buffer offset
    pure 0

/-- Do it with the compiled engine. -/
def Native.enact (b : Native.Build) (o : Native.Outlet)
    (narrow : BitVec 64 → Option (BitVec 32)) : Act → Native.EncM ℕ
  | .call c => do
    Native.run b o narrow c
    pure 0
  | .flush => Native.flush o
  | .install buffer offset => do
    Native.bufferSet o buffer offset
    pure 0

/-- What is counted is a C `ssize_t`, and an offset is a C `int`. -/
def Act.Fits : Act → Prop
  | .call c => c.Counted
  | .flush => True
  | .install _ offset => offset ≤ Native.intMax

section Steps

variable {t : Taker} {e : Enc} {n : Native.Enc}

/-- Nothing is returned but zero behind a method that does the same. -/
theorem Tandem.zero {R : Enc → Native.Enc → Prop} {m : EncM Unit} {m' : Native.EncM Unit}
    (h : Tandem R (m e) (m' n)) :
    Tandem R ((m >>= fun _ => pure 0 : EncM ℕ) e) ((m' >>= fun _ => pure 0 : Native.EncM ℕ) n) :=
  h.bind fun _ _ _ h => .ok h

/-- What is buffered is drained, as much by either engine. -/
theorem Twin.flush (ht : t.Fits) (hs : t.Streams) (h : Twin t e n) :
    Tandem (Twin t) (flush t.outlet e) (Native.flush t.native n) := by
  have hbooks := h.books
  cases h.alike with
  | pooled _ => exact absurd rfl hs
  | streams _ hl =>
    have hdrain : Tandem (Twin t) (drain t.outlet e) (Native.drain t.native n) :=
      (hl.drain ht).imp fun _ _ hd => .of_alike hbooks (.streams hs hd)
    rw [SofaBuffers.flush,Native.flush,run_get_bind,run_get_bind,hl.cursor,t.outlet_sink]
    split
    · exact hdrain.bind fun _ _ _ h => .ok h
    · exact .ok h

/-- A buffer is installed, or refused by both. -/
theorem Twin.install (hs : t.Streams) (h : Twin t e n) (buffer : List UInt8) {offset : ℕ}
    (hfit : offset ≤ Native.intMax) :
    Tandem (Twin t) (bufferSet t.outlet buffer offset e)
      (Native.bufferSet t.native buffer offset n) := by
  have hbooks := h.books
  cases h.alike with
  | pooled _ => exact absurd rfl hs
  | streams _ hl =>
    exact (hl.bufferSet t.outlet_sink buffer hfit).imp fun _ _ hd =>
      .of_alike hbooks (.streams hs hd)

/-- Whatever a caller does, both engines do. -/
theorem Twin.act (ht : t.Fits) (hs : t.Streams) (b : Native.Build)
    (narrow : BitVec 64 → Option (BitVec 32)) (a : Act) (e : Enc) (n : Native.Enc) (ha : a.Fits)
    (h : Twin t e n) :
    Tandem (Twin t) (a.run t.outlet narrow e) (Native.enact b t.native narrow a n) := by
  cases a with
  | call c => exact (h.call ht b narrow ha).zero
  | flush => exact h.flush ht hs
  | install buffer offset => exact (h.install hs buffer ha).zero

end Steps

/-- What a caller can see of two encoders is the same. -/
structure Agrees (e : Enc) (n : Native.Enc) : Prop where
  /-- What was installed and what was handed over, in order and with its contents. -/
  transfers : n.transfers=e.transfers
  /-- What stands in the buffer (`bytes_used`). -/
  used : n.cursor=e.cursor
  /-- The bytes of it. -/
  written : n.fixed.take n.cursor=e.fixed.take e.cursor
  /-- The class of the error that was latched. -/
  error : n.error.map Exn.cls=e.error.map Exn.cls
  /-- As many sequences are open. -/
  depth : n.depth=e.depth
  /-- The ids held back, outermost first. -/
  held : (n.pending.take n.npending).map BitVec.toNat=e.held

/-- Encoders over a buffer are refused by both engines, or a caller is told the same by both. -/
inductive Session (t : Taker) (b : Native.Build) (narrow : BitVec 64 → Option (BitVec 32))
    (acts : List Act) : Except Exn Enc → Except Exn Native.Enc → Prop
  /-- There is no encoder. -/
  | refused {why why' : Exn} (hw : why.cls=why'.cls) :
      Session t b narrow acts (.error why) (.error why')
  /-- There is an encoder on both sides. -/
  | ran {e : Enc} {n : Native.Enc} {told : List (Except ExnClass ℕ)} {d : Enc} {m : Native.Enc}
      (hd : replies (Act.run t.outlet narrow) acts e=(told,d))
      (hm : replies (Native.enact b t.native narrow) acts n=(told,m)) (h : Agrees d m) :
      Session t b narrow acts (.ok e) (.ok n)

/-- Both engines make an encoder of a buffer, or refuse to. -/
theorem overBuffer_twins {t : Taker} (hs : t.Streams) (buffer : List UInt8) {offset : ℕ}
    (hfit : offset ≤ Native.intMax) (sticky : Bool) :
    (∃ e n, overBuffer t.outlet buffer offset sticky=.ok e ∧
      Native.overBuffer t.native buffer offset sticky=.ok n ∧ Twin t e n) ∨
    ∃ why why', overBuffer t.outlet buffer offset sticky=.error why ∧
      Native.overBuffer t.native buffer offset sticky=.error why' ∧ why.cls=why'.cls := by
  unfold overBuffer Native.overBuffer
  have hblank : Books
      ({fixed := [], cap := 0, cursor := 0, installs := 0, transfers := [], sticky := sticky} : Enc)
      {fixed := [], cap := 0, cursor := 0, installs := 0, transfers := [], sticky := sticky} :=
    ⟨rfl,rfl,rfl,rfl,rfl,fun _ => List.length_replicate,List.length_replicate,Nat.zero_le _,
      Nat.zero_le _⟩
  have hset := Level.bufferSet t.outlet_sink
    (⟨.refl _,.refl _,rfl,rfl,rfl,rfl,Nat.zero_le _,rfl,rfl,rfl,rfl⟩ : Level
      ({fixed := [], cap := 0, cursor := 0, installs := 0, transfers := [], sticky := sticky} : Enc)
      {fixed := [], cap := 0, cursor := 0, installs := 0, transfers := [], sticky := sticky}
      {fixed := [], cap := 0, cursor := 0, installs := 0, transfers := [], sticky := sticky}
      {fixed := [], cap := 0, cursor := 0, installs := 0, transfers := [], sticky := sticky})
    buffer hfit
  dsimp only
  generalize bufferSet t.outlet buffer offset _=r,Native.bufferSet t.native buffer offset _=r'
    at hset
  cases hset with
  | ok h => exact .inl ⟨_,_,rfl,rfl,.of_alike hblank (.streams hs h)⟩
  | error hw h => exact .inr ⟨_,_,rfl,rfl,hw⟩

/-- A session over a buffer, a writer or a flush sink is the same with either engine. Whatever
buffer and offset an encoder is made of, and whatever a caller does then (fields, sequences and
flushes, buffers installed by it or by the sink, errors caught or latched), the compiled engine
refuses what the interpreted one refuses, with an error of the same class, hands over the same
views with the same contents and leaves the same bytes in the buffer. -/
theorem stream_parity (b : Native.Build) (narrow : BitVec 64 → Option (BitVec 32)) {t : Taker}
    (ht : t.Fits) (hs : t.Streams) (buffer : List UInt8) {offset : ℕ}
    (hfit : offset ≤ Native.intMax) (sticky : Bool) {acts : List Act} (ha : ∀ a ∈ acts, a.Fits) :
    Session t b narrow acts (overBuffer t.outlet buffer offset sticky)
      (Native.overBuffer t.native buffer offset sticky) := by
  rcases overBuffer_twins hs buffer hfit sticky with ⟨e,n,he,hn,h⟩ | ⟨why,why',he,hn,hw⟩
  · rw [he,hn]
    obtain ⟨htold,hleft⟩ := Tandem.replies (Twin.act ht hs b narrow) ha h
    refine .ran rfl (Prod.ext htold.symm rfl) ?_
    have hbooks := hleft.books
    cases hleft.alike with
    | pooled _ => exact absurd rfl hs
    | streams _ hl =>
      refine ⟨hl.transfers,hl.cursor,?_,hbooks.error,hbooks.depth,hbooks.held⟩
      rw [hl.cursor,hl.front]
  · rw [he,hn]
    exact .refused hw

/-- A sink that takes every buffer and installs another one of twelve bytes: a sequence that is held
back, a varint that is stored as a word, an array whose third element is refused, singles that
have no room to be packed in one go, and a buffer installed by the caller. -/
theorem stream_parity_installing :
    let t : Taker := .sink fun ts =>
      if ts.getLast?.any (fun t => t matches .handed _) then some (List.replicate 12 0,1) else none
    Session t ⟨true,.thirty⟩ (fun _ => some 0x3F800000)
      [.call (.sequenceBeginLazy (.int 1)),.call (.unsigned (.int 1) (.int 300)),
        .call (.sizedArray .u8 (.int 2) [.int 7,.int 200,.int 256] (-1)),
        .call (.float32Array (.int 3) [0,0x3FF0000000000000,0]),.call .sequenceEnd,.flush,
        .install [0,0,0] 1,.call (.bool (.int 3) true)]
      (overBuffer t.outlet [0xAA,0,0,0] 1 false) (Native.overBuffer t.native [0xAA,0,0,0] 1 false) := by
  intro t
  refine stream_parity ⟨true,.thirty⟩ _ ?_ ?_ [0xAA,0,0,0] (by decide) false ?_
  · intro ts buffer offset h
    dsimp only at h
    split at h
    · cases h
      decide
    · cases h
  · simp [Taker.Streams,t]
  · intro a ha
    simp only [List.mem_cons,List.not_mem_nil,or_false] at ha
    rcases ha with rfl | rfl | rfl | rfl | rfl | rfl | rfl | rfl <;> first
      | trivial
      | exact (by decide : 1 ≤ Native.intMax)

/-- The message of the in-memory model. -/
structure SameMessage (e : Enc) (n : Native.Enc) : Prop where
  /-- `getvalue` returns it. -/
  message : ∃ data, getvalue .result e=.ok data e ∧ Native.getvalue .result n=.ok data n
  /-- The class of the error that was latched. -/
  error : n.error.map Exn.cls=e.error.map Exn.cls
  /-- As many sequences are open. -/
  depth : n.depth=e.depth
  /-- The ids held back, outermost first. -/
  held : (n.pending.take n.npending).map BitVec.toNat=e.held

/-- Two new encoders of the in-memory model. -/
theorem scratch_twins (sticky : Bool) : Twin .result (.scratch sticky) (.scratch sticky) := by
  refine ⟨.pooled ⟨.refl _,.refl _,⟨?_,Nat.zero_le _,?_⟩,⟨?_,Nat.zero_le _,?_⟩,rfl⟩,?_⟩
  · exact rfl
  · show 0 < (List.replicate scratchSize (0 : UInt8)).length
    rw [List.length_replicate]
    decide
  · exact rfl
  · show 0 < (List.replicate scratchSize (0 : UInt8)).length
    rw [List.length_replicate]
    decide
  · exact ⟨rfl,rfl,rfl,rfl,rfl,fun _ => List.length_replicate,List.length_replicate,Nat.zero_le _,
      Nat.zero_le _⟩

/-- Two encoders of the in-memory model that did the same return the same message. -/
theorem Twin.message {e : Enc} {n : Native.Enc} (h : Twin .result e n) : SameMessage e n := by
  refine ⟨?_,h.books.error,h.books.depth,h.books.held⟩
  cases h.alike with
  | streams hs _ => exact absurd rfl hs
  | pooled hp =>
    refine ⟨Outlet.result.output e,?_,?_⟩
    · rw [getvalue,run_get_bind]
      cases hr : e.result with
      | none =>
        simp [Outlet.inMemory,Outlet.output,hr]
      | some chunks =>
        simp [Outlet.inMemory,Outlet.output,hr]
    · rw [←hp.output,Native.getvalue,run_get_bind,Native.Enc.message]
      cases hr : n.result with
      | none =>
        simp [Native.Outlet.inMemory]
      | some chunks =>
        by_cases hz : n.cursor=0
        · simp [Native.Outlet.inMemory,hz]
        · simp [Native.Outlet.inMemory,hz]

/-- A message of the in-memory model is the same with either engine. Whatever calls are made, in
range or not, caught or latched, the compiled engine raises an error of the same class at the
same call and `getvalue` returns the same bytes, though it need not cut them into the same
chunks. -/
theorem message_parity (b : Native.Build) (narrow : BitVec 64 → Option (BitVec 32)) (sticky : Bool)
    {calls : List Call} (hc : ∀ c ∈ calls, c.Counted) :
    ∃ told e n, replies (Call.run .result narrow) calls (.scratch sticky)=(told,e) ∧
      replies (Native.run b .result narrow) calls (.scratch sticky)=(told,n) ∧
      SameMessage e n := by
  have hstep : ∀ (c : Call) (e : Enc) (n : Native.Enc), c.Counted → Twin .result e n →
      Tandem (Twin .result) (c.run .result narrow e) (Native.run b .result narrow c n) :=
    fun c e n hc h => h.call (t:=.result) trivial b narrow hc
  obtain ⟨htold,hleft⟩ := Tandem.replies hstep hc (scratch_twins sticky)
  exact ⟨_,_,_,rfl,Prod.ext htold.symm rfl,hleft.message⟩

/-- Two hundred doubles, which the one engine keeps as a chunk of their own and the other writes
through its buffer, an id out of range, and singles behind them. -/
theorem message_parity_chunks :
    let calls : List Call := [.float64Array (.int 1) (List.replicate 200 0),
      .unsigned (.int (-1)) (.int 5),.float32ArrayBits (.int 2) [0,0,0x80,0x3F] (some 1)]
    ∃ told e n, replies (Call.run .result fun _ => none) calls (.scratch true)=(told,e) ∧
      replies (Native.run ⟨false,.hidden⟩ .result fun _ => none) calls (.scratch true)=(told,n) ∧
      SameMessage e n := by
  intro calls
  refine message_parity ⟨false,.hidden⟩ (fun _ => none) true fun c hc => ?_
  simp only [calls,List.mem_cons,List.not_mem_nil,or_false] at hc
  rcases hc with rfl | rfl | rfl
  · trivial
  · trivial
  · exact ⟨by decide,by decide⟩

end SofaBuffers
