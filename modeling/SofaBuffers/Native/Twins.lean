import SofaBuffers.Encoder.Bytes
import SofaBuffers.Native.Writers
import SofaBuffers.Tandem

/-!
# Two buffers side by side

The compiled encoder and the interpreted one are driven side by side. Over a
writer, a flush sink or nobody they agree on what they hand over and on what
stands in the buffer in front of the cursor; the bytes behind it are the
engine's own, for a varint may be stored as a word of eight bytes. The
in-memory model is free to cut its result into chunks, and agrees on the whole.
-/

set_option autoImplicit false

namespace SofaBuffers

namespace Native

/-- A sink that copies what it is handed, or installs a buffer or is refused one, by what has
passed so far. -/
def deciding (policy : List Transfer → Option (List UInt8 × ℕ)) : EncM Unit := do
  match policy (← get).transfers with
  | none => pure ()
  | some (buffer,offset) => bufferSet (.sink (pure ())) buffer offset

/-- The encoder's bookkeeping is as it was; only its buffer may differ. -/
structure Enc.Kept (n n' : Enc) : Prop where
  /-- It latches errors or raises them. -/
  sticky : n'.sticky=n.sticky
  /-- The error it latched. -/
  error : n'.error=n.error
  /-- Sequences open. -/
  depth : n'.depth=n.depth
  /-- The block of held-back ids. -/
  pending : n'.pending=n.pending
  /-- As many entries of the block are in use. -/
  npending : n'.npending=n.npending

/-- Nothing is as it was not. -/
theorem Enc.Kept.refl (n : Enc) : n.Kept n := ⟨rfl,rfl,rfl,rfl,rfl⟩

/-- What is kept twice is kept. -/
theorem Enc.Kept.trans {n n' n'' : Enc} (h : n.Kept n') (h' : n'.Kept n'') : n.Kept n'' :=
  ⟨h'.sticky.trans h.sticky,h'.error.trans h.error,h'.depth.trans h.depth,
    h'.pending.trans h.pending,h'.npending.trans h.npending⟩

/-- A value is put as its shortest encoding, whatever the engine was built for. -/
theorem varintPut_puts (swar : Bool) {out : List UInt8} (hout : 10 ≤ out.length) {v : ℕ}
    (hv : v < 2^64) : PutsVarint out v (varintPut swar out (BitVec.ofNat 64 v)) := by
  have hword : (BitVec.ofNat 64 v).toNat=v := by
    rw [BitVec.toNat_ofNat,Nat.mod_eq_of_lt hv]
  cases swar with
  | true =>
    have hput := put_swar (v := BitVec.ofNat 64 v) hout
    rwa [hword] at hput
  | false =>
    have hput := put_serial (v := BitVec.ofNat 64 v) hout
    rwa [hword] at hput

/-- A varint that is made outside of the buffer is the shortest encoding. -/
theorem varintBytes_eq (b : Build) {v : ℕ} (hv : v < 2^64) :
    varintBytes b (BitVec.ofNat 64 v)=Varint.encode v :=
  (varintPut_puts b.swar (by decide) hv).bytes

/-- The length of packed values. -/
theorem packed_length {pack : BitVec 64 → List UInt8} {elemSize : ℕ}
    (hp : ∀ v, (pack v).length=elemSize) (values : List (BitVec 64)) :
    (values.flatMap pack).length=values.length*elemSize := by
  induction values with
  | nil => rw [List.flatMap_nil,List.length_nil,List.length_nil,Nat.zero_mul]
  | cons v vs ih => rw [List.flatMap_cons,List.length_append,hp,ih,List.length_cons]; ring

/-- Values packed into a region one behind the other are a slice of it. -/
theorem packRegion_eq {pack : BitVec 64 → List UInt8} {values : List (BitVec 64)}
    {fixed : List UInt8} {cursor : ℕ}
    (h : cursor+(values.flatMap pack).length ≤ fixed.length) :
    packRegion pack values fixed cursor=splice fixed cursor (values.flatMap pack) := by
  induction values generalizing fixed cursor with
  | nil => simp [packRegion,splice]
  | cons v vs ih =>
    rw [List.flatMap_cons,List.length_append] at h
    have hone : cursor+(pack v).length ≤ fixed.length := by omega
    rw [packRegion,List.flatMap_cons,ih (by rw [splice_length hone]; omega),splice_splice hone]

end Native

/-- Who takes the bytes of both encoders. -/
inductive Taker
  /-- The result of the in-memory model. -/
  | result
  /-- A writer, which copies. -/
  | writer
  /-- A sink that copies, or installs a buffer, by what has passed so far. -/
  | sink (policy : List Transfer → Option (List UInt8 × ℕ))
  /-- Nobody takes the bytes of the buffer. -/
  | closed

namespace Taker

/-- The interpreted encoder's outlet. -/
def outlet : Taker → Outlet
  | .result => .result
  | .writer => .writer
  | .sink policy => .sink (deciding policy)
  | .closed => .closed

/-- The compiled encoder's outlet. -/
def native : Taker → Native.Outlet
  | .result => .result
  | .writer => .writer
  | .sink policy => .sink (Native.deciding policy)
  | .closed => .closed

/-- Every offset a sink asks for is a C `int`. -/
def Fits : Taker → Prop
  | .sink policy => ∀ ts buffer offset, policy ts=some (buffer,offset) → offset ≤ Native.intMax
  | _ => True

/-- Bytes leave through a view of the buffer. -/
def Streams (t : Taker) : Prop := t≠.result

variable {t : Taker}

theorem outlet_sink : t.native.hasSink=t.outlet.hasSink := by
  cases t <;> rfl

theorem outlet_streams (h : t.Streams) : t.outlet.inMemory=false := by
  cases t with
  | result => exact absurd rfl h
  | writer => rfl
  | sink policy => rfl
  | closed => rfl

theorem native_inMemory (t : Taker) : t.native.inMemory=t.outlet.inMemory := by
  cases t <;> rfl

/-- What a sink installs is of known length. -/
theorem outlet_sizing (t : Taker) : t.outlet.Sizing := by
  cases t with
  | result => exact trivial
  | writer => exact trivial
  | closed => exact trivial
  | sink policy =>
    intro e e' h hr
    unfold deciding at hr
    rw [run_get_bind] at hr
    cases hp : policy e.transfers with
    | none =>
      rw [hp] at hr
      cases hr
      exact h
    | some bo =>
      cases bo with
      | mk buffer offset =>
        rw [hp] at hr
        have hset : bufferSet (.sink (pure ())) buffer offset e=.ok () e' := hr
        rw [bufferSet,run_get_bind] at hset
        split at hset
        · cases hset
        · split at hset
          · cases hset
          · cases hset
            rfl

end Taker

/-- What two encoders that are given have become, whose buffers are filled and drained alike: what
passed is the same, and so are the buffers in front of the cursor. -/
structure Level (e₀ : Enc) (n₀ : Native.Enc) (e : Enc) (n : Native.Enc) : Prop where
  /-- The bookkeeping of the interpreted encoder is as it was. -/
  kept : e₀.Kept e
  /-- The bookkeeping of the compiled encoder is as it was. -/
  kept' : n₀.Kept n
  /-- The length of the buffer is known. -/
  sized : e.cap=e.fixed.length
  /-- Both buffers are taken to have the same length. -/
  cap : n.cap=e.cap
  /-- The memory of both buffers is as long. -/
  length : n.fixed.length=e.fixed.length
  /-- The next byte goes to the same place. -/
  cursor : n.cursor=e.cursor
  /-- It is in the buffer, or right behind it. -/
  inside : e.cursor ≤ e.cap
  /-- What is written so far is the same. -/
  front : n.fixed.take e.cursor=e.fixed.take e.cursor
  /-- As many buffers were installed. -/
  installs : n.installs=e.installs
  /-- The same has passed. -/
  transfers : n.transfers=e.transfers
  /-- The same chunks are in the result. -/
  result : n.result=e.result

section Level

variable {t : Taker} {e₀ e : Enc} {n₀ n : Native.Enc}

/-- The bytes are handed over. -/
theorem Level.hand (h : Level e₀ n₀ e n) : Tandem (Level e₀ n₀) (hand e) (Native.hand n) := by
  refine .ok ⟨h.kept.trans ⟨rfl,rfl,rfl,rfl,rfl,rfl⟩,h.kept'.trans ⟨rfl,rfl,rfl,rfl,rfl⟩,
    h.sized,h.cap,h.length,h.cursor,h.inside,h.front,h.installs,?_,h.result⟩
  show n.transfers++[.handed (n.fixed.take n.cursor)]=e.transfers++[.handed (e.fixed.take e.cursor)]
  rw [h.transfers,h.cursor,h.front]

/-- The buffers are written from the front. -/
theorem Level.rewind (h : Level e₀ n₀ e n) :
    Tandem (Level e₀ n₀) (rewind e) (Native.rewind n) :=
  .ok ⟨h.kept.trans ⟨rfl,rfl,rfl,rfl,rfl,rfl⟩,h.kept'.trans ⟨rfl,rfl,rfl,rfl,rfl⟩,
    h.sized,h.cap,h.length,rfl,Nat.zero_le _,rfl,h.installs,h.transfers,h.result⟩

/-- A buffer is installed, or refused. -/
theorem Level.bufferSet {o : Outlet} {o' : Native.Outlet} (ho : o'.hasSink=o.hasSink)
    (h : Level e₀ n₀ e n) (buffer : List UInt8) {offset : ℕ} (hfit : offset ≤ Native.intMax) :
    Tandem (Level e₀ n₀) (bufferSet o buffer offset e) (Native.bufferSet o' buffer offset n) := by
  rw [SofaBuffers.bufferSet,Native.bufferSet,run_get_bind,run_get_bind,
    if_neg (show ¬Native.intMax < offset by omega),ho]
  refine .ite Iff.rfl (fun _ => .error rfl h) fun hin => ?_
  refine .ite Iff.rfl (fun _ => .error rfl h) fun _ => .ok ?_
  refine ⟨h.kept.trans ⟨rfl,rfl,rfl,rfl,rfl,rfl⟩,h.kept'.trans ⟨rfl,rfl,rfl,rfl,rfl⟩,
    rfl,rfl,rfl,rfl,?_,rfl,?_,?_,h.result⟩
  · exact Nat.not_lt.mp hin
  · show n.installs+1=e.installs+1
    rw [h.installs]
  · show n.transfers++_=e.transfers++_
    rw [h.transfers]

/-- A sink decides by what has passed, which is the same. -/
theorem Level.deciding {policy : List Transfer → Option (List UInt8 × ℕ)}
    (ht : (Taker.sink policy).Fits) (h : Level e₀ n₀ e n) :
    Tandem (Level e₀ n₀) (deciding policy e) (Native.deciding policy n) := by
  unfold SofaBuffers.deciding Native.deciding
  rw [run_get_bind,run_get_bind,h.transfers]
  cases hp : policy e.transfers with
  | none => exact .ok h
  | some bo => exact h.bufferSet rfl bo.1 (ht _ _ _ hp)

/-- The buffers are drained. -/
theorem Level.drain (ht : t.Fits) (h : Level e₀ n₀ e n) :
    Tandem (Level e₀ n₀) (drain t.outlet e) (Native.drain t.native n) := by
  unfold SofaBuffers.drain Native.drain
  rw [run_get_bind,run_get_bind]
  cases t with
  | result =>
    refine .ok ⟨h.kept.trans ⟨rfl,rfl,rfl,rfl,rfl,rfl⟩,h.kept'.trans ⟨rfl,rfl,rfl,rfl,rfl⟩,
      h.sized,h.cap,h.length,rfl,Nat.zero_le _,rfl,h.installs,h.transfers,?_⟩
    show some (n.result.getD []++[n.fixed.take n.cursor])=
      some (e.result.getD []++[e.fixed.take e.cursor])
    rw [h.result,h.cursor,h.front]
  | closed => exact .error rfl h
  | writer => exact h.hand.bind fun _ _ _ h => h.rewind
  | sink policy =>
    refine h.hand.bind fun _ d m hd => (hd.deciding ht).bind fun _ d' m' hd' => ?_
    rw [run_get_bind,run_get_bind]
    refine .ite ?_ (fun _ => hd'.rewind) fun _ => .ok hd'
    rw [hd'.installs,h.installs]

/-- Room is made in both, or in neither. -/
theorem Level.makeRoom (ht : t.Fits) (h : Level e₀ n₀ e n) :
    Tandem (Level e₀ n₀) (makeRoom t.outlet e) (Native.makeRoom t.native n) := by
  rw [SofaBuffers.makeRoom,Native.makeRoom,run_get_bind,run_get_bind]
  refine .ite (by rw [h.cap,h.cursor]) (fun _ => ?_) fun _ => .ok h
  refine (h.drain ht).bind fun _ d m hd => ?_
  rw [run_get_bind,run_get_bind]
  exact .ite (by rw [hd.cap,hd.cursor]) (fun _ => .error rfl hd) fun _ => .ok hd

/-- Level encoders that write the same bytes at the cursor stay level; what the compiled engine
leaves behind them is its own affair. -/
theorem Level.wrote (h : Level e₀ n₀ e n) {bs fixed : List UInt8}
    (hfit : e.cursor+bs.length ≤ e.cap) (hlen : fixed.length=n.fixed.length)
    (hw : fixed.take (n.cursor+bs.length)=n.fixed.take n.cursor++bs) :
    Level e₀ n₀
      {e with fixed := splice e.fixed e.cursor bs, cursor := e.cursor+bs.length}
      {n with fixed := fixed, cursor := n.cursor+bs.length} := by
  have hin : e.cursor+bs.length ≤ e.fixed.length := by
    rw [←h.sized]
    exact hfit
  refine ⟨h.kept.trans ⟨rfl,rfl,rfl,rfl,rfl,rfl⟩,h.kept'.trans ⟨rfl,rfl,rfl,rfl,rfl⟩,
    ?_,h.cap,?_,?_,hfit,?_,h.installs,h.transfers,h.result⟩
  · show e.cap=(splice e.fixed e.cursor bs).length
    rw [splice_length hin]
    exact h.sized
  · show fixed.length=(splice e.fixed e.cursor bs).length
    rw [hlen,splice_length hin]
    exact h.length
  · show n.cursor+bs.length=e.cursor+bs.length
    rw [h.cursor]
  · show fixed.take (e.cursor+bs.length)=(splice e.fixed e.cursor bs).take (e.cursor+bs.length)
    rw [splice_take hin,←h.front,←h.cursor]
    exact hw

/-- Bytes that fit are copied to the cursors. -/
theorem Level.poke (h : Level e₀ n₀ e n) {bs : List UInt8} (hfit : e.cursor+bs.length ≤ e.cap) :
    Tandem (Level e₀ n₀) (poke bs e) (Native.poke bs n) := by
  have hin : n.cursor+bs.length ≤ n.fixed.length := by
    rw [h.cursor,h.length,←h.sized]
    exact hfit
  exact .ok (h.wrote hfit (splice_length hin) (splice_take hin))

/-- Bytes go through the buffers, a bufferful at a time. -/
theorem Level.putLoop (ht : t.Fits) (data : List UInt8) {turns pos : ℕ}
    (h : Level e₀ n₀ e n) :
    Tandem (Level e₀ n₀) (putLoop t.outlet data turns pos e)
      (Native.putLoop t.native data turns pos n) := by
  induction turns generalizing pos e n with
  | zero => exact .error rfl h
  | succ turns ih =>
    rw [SofaBuffers.putLoop,Native.putLoop]
    refine .ite Iff.rfl (fun hlt => ?_) fun _ => .ok h
    rw [run_bind,run_bind]
    cases hm : SofaBuffers.makeRoom t.outlet e with
    | error why d =>
      have hroom := h.makeRoom ht
      rw [hm] at hroom
      generalize Native.makeRoom t.native n=r at hroom
      cases hroom with
      | error hw h => exact .error hw h
    | ok u d =>
      have hroom := h.makeRoom ht
      have hfree := makeRoom_room hm
      rw [hm] at hroom
      generalize Native.makeRoom t.native n=r at hroom
      cases hroom with
      | ok h =>
        dsimp only
        rw [run_get_bind,run_get_bind,h.cap,h.cursor]
        generalize hk : min (d.cap-d.cursor) (data.length-pos)=k
        refine (h.poke ?_).bind fun _ d m h => ih h
        rw [List.length_take]
        omega

/-- What is buffered is drained. -/
theorem Level.drainUsed (ht : t.Fits) (h : Level e₀ n₀ e n) :
    Tandem (Level e₀ n₀) (drainUsed t.outlet e) (Native.drainUsed t.native n) := by
  rw [SofaBuffers.drainUsed,Native.drainUsed,run_get_bind,run_get_bind]
  exact .ite (by rw [h.cursor]) (fun _ => h.drain ht) fun _ => .ok h

/-- A run of bytes is written. -/
theorem Level.put (ht : t.Fits) (h : Level e₀ n₀ e n) (data : List UInt8) :
    Tandem (Level e₀ n₀) (put t.outlet data e) (Native.put t.native data n) := by
  rw [SofaBuffers.put,Native.put,run_get_bind,run_get_bind,t.native_inMemory,h.cap]
  refine .ite Iff.rfl (fun _ => ?_) fun _ => h.putLoop ht data
  refine (h.drainUsed ht).bind fun _ d m h => .ok ?_
  refine ⟨h.kept.trans ⟨rfl,rfl,rfl,rfl,rfl,rfl⟩,h.kept'.trans ⟨rfl,rfl,rfl,rfl,rfl⟩,
    h.sized,h.cap,h.length,h.cursor,h.inside,h.front,h.installs,h.transfers,?_⟩
  show some (m.result.getD []++[data])=some (d.result.getD []++[data])
  rw [h.result]

/-- A varint is written: in place where ten bytes have room, through the buffers elsewhere. -/
theorem Level.emitVarint (ht : t.Fits) (h : Level e₀ n₀ e n) (b : Native.Build)
    {v : ℕ} (hv : v < 2^64) :
    Tandem (Level e₀ n₀) (emitVarint t.outlet v e)
      (Native.emitVarint b t.native (BitVec.ofNat 64 v) n) := by
  have hlen := (Varint.encode_length hv).2
  rw [SofaBuffers.emitVarint,Native.emitVarint,run_get_bind,run_get_bind]
  refine .ite (by rw [h.cap,h.cursor]) (fun hroom => ?_) fun _ => ?_
  · have hout : 10 ≤ (n.fixed.drop n.cursor).length := by
      have hsized := h.sized
      rw [List.length_drop,h.cursor,h.length]
      unfold varintMax at hroom
      omega
    have hputs := Native.varintPut_puts b.swar hout hv
    generalize Native.varintPut b.swar (n.fixed.drop n.cursor) (BitVec.ofNat 64 v)=r at hputs
    have hcursor : n.cursor ≤ n.fixed.length := by
      rw [h.cursor,h.length,←h.sized]
      exact h.inside
    rw [inlineVarint_eq]
    show Tandem (Level e₀ n₀) (.ok () _) (.ok () {n with
      fixed := n.fixed.take n.cursor++r.1, cursor := n.cursor+r.2})
    rw [hputs.length]
    refine .ok (h.wrote ?_ ?_ ?_)
    · unfold varintMax at hroom
      omega
    · rw [List.length_append,hputs.room,List.length_take,List.length_drop]
      omega
    · rw [←hputs.length,List.take_append,List.take_take,List.length_take,
        Nat.min_eq_left hcursor,Nat.add_sub_cancel_left,hputs.bytes,
        Nat.min_eq_right (Nat.le_add_right _ _)]
  · rw [Native.varintBytes_eq b hv]
    exact h.put ht _

/-- Packed values are written in one go, or one after the other. -/
theorem Level.putEach (ht : t.Fits) (hs : t.Streams) (h : Level e₀ n₀ e n)
    (pack : BitVec 64 → List UInt8) (values : List (BitVec 64)) :
    Tandem (Level e₀ n₀) (SofaBuffers.put t.outlet (values.flatMap pack) e)
      (Native.putEach t.native pack values n) := by
  have hm := Taker.outlet_streams hs
  induction values generalizing e n with
  | nil =>
    rw [List.flatMap_nil,put_bytes t.outlet_sizing hm _ h.sized]
    exact .ok h
  | cons v vs ih =>
    rw [List.flatMap_cons,put_append t.outlet_sizing hm _ _ h.sized,Native.putEach]
    exact (h.put ht (pack v)).bind fun _ d m h => ih h

/-- Packed values are packed straight into the buffer where all of them have room. -/
theorem Level.putFloats (ht : t.Fits) (hs : t.Streams) (h : Level e₀ n₀ e n)
    {pack : BitVec 64 → List UInt8} {elemSize : ℕ} (hp : ∀ v, (pack v).length=elemSize)
    (values : List (BitVec 64)) :
    Tandem (Level e₀ n₀) (SofaBuffers.put t.outlet (values.flatMap pack) e)
      (Native.putFloats t.native pack elemSize values n) := by
  have hlen := Native.packed_length hp values
  rw [Native.putFloats,run_get_bind]
  split
  · next hroom =>
    rw [h.cap,h.cursor] at hroom
    have hin : n.cursor+(values.flatMap pack).length ≤ n.fixed.length := by
      rw [h.cursor,h.length,←h.sized,hlen]
      exact hroom
    rw [put_bytes t.outlet_sizing (Taker.outlet_streams hs) _ h.sized,
      putBytes_fit h.sized (by rw [hlen]; exact hroom),Native.packRegion_eq hin,←hlen]
    exact h.poke (by rw [hlen]; exact hroom)
  · exact h.putEach ht hs pack values

end Level

/-- An encoder of the in-memory model, whose buffer has room once it is drained. -/
structure Enc.Pool (e : Enc) : Prop where
  /-- The length of the buffer is known. -/
  sized : e.cap=e.fixed.length
  /-- The cursor is in it. -/
  inside : e.cursor ≤ e.cap
  /-- It has a byte at least. -/
  room : 0 < e.cap

/-- Bytes were added to the message of the in-memory model. -/
structure Enc.Gains (e : Enc) (bs : List UInt8) (e' : Enc) : Prop where
  /-- There is room for more. -/
  pool : e'.Pool
  /-- Only the buffer differs. -/
  kept : e.Kept e'
  /-- They are behind what was there. -/
  output : Outlet.result.output e'=Outlet.result.output e++bs

/-- A method that adds bytes to the message of the in-memory model. -/
def Pours (bs : List UInt8) (m : EncM Unit) : Prop :=
  ∀ e : Enc, e.Pool → ∃ e', m e=.ok () e' ∧ e.Gains bs e'

section Pours

variable {e : Enc} {bs cs : List UInt8}

/-- A drain moves what is buffered to the result. -/
theorem drain_pours (h : e.Pool) :
    ∃ e', drain .result e=.ok () e' ∧ e.Gains [] e' ∧ e'.cursor=0 := by
  refine ⟨_,rfl,⟨⟨h.sized,Nat.zero_le _,h.room⟩,⟨rfl,rfl,rfl,rfl,rfl,rfl⟩,?_⟩,rfl⟩
  show (e.result.getD []++[e.fixed.take e.cursor]).flatten++e.fixed.take 0=
    (e.result.getD []).flatten++e.fixed.take e.cursor++[]
  rw [List.flatten_append,List.flatten_singleton,List.take_zero]

/-- There is room in the buffer, or a drain makes it. -/
theorem makeRoom_pours (h : e.Pool) :
    ∃ e', makeRoom .result e=.ok () e' ∧ e.Gains [] e' ∧ e'.cursor < e'.cap := by
  rw [makeRoom,run_get_bind]
  split
  · obtain ⟨d,hd,hg,hzero⟩ := drain_pours h
    have hroom := hg.pool.room
    rw [run_bind_ok hd,run_get_bind,if_neg (by omega)]
    exact ⟨d,rfl,hg,by omega⟩
  · exact ⟨e,rfl,⟨h,.refl e,(List.append_nil _).symm⟩,by omega⟩

/-- Bytes that fit are added. -/
theorem poke_pours (h : e.Pool) (hfit : e.cursor+bs.length ≤ e.cap) :
    ∃ e', poke bs e=.ok () e' ∧ e.Gains bs e' := by
  have hin : e.cursor+bs.length ≤ e.fixed.length := by
    rw [←h.sized]
    exact hfit
  refine ⟨_,rfl,⟨?_,hfit,h.room⟩,⟨rfl,rfl,rfl,rfl,rfl,rfl⟩,?_⟩
  · show e.cap=(splice e.fixed e.cursor bs).length
    rw [splice_length hin]
    exact h.sized
  · show (e.result.getD []).flatten++(splice e.fixed e.cursor bs).take (e.cursor+bs.length)=
      (e.result.getD []).flatten++e.fixed.take e.cursor++bs
    rw [splice_take hin,List.append_assoc]

/-- Bytes are added a bufferful at a time. -/
theorem putLoop_pours (data : List UInt8) {turns pos : ℕ} (ht : data.length-pos < turns) :
    Pours (data.drop pos) (putLoop .result data turns pos) := by
  induction turns generalizing pos with
  | zero => omega
  | succ turns ih =>
    intro e h
    rw [putLoop]
    split
    · obtain ⟨d,hd,hg,hroom⟩ := makeRoom_pours h
      rw [run_bind_ok hd,run_get_bind]
      generalize hk : min (d.cap-d.cursor) (data.length-pos)=k
      have hfit : d.cursor+((data.drop pos).take k).length ≤ d.cap := by
        rw [List.length_take]
        omega
      obtain ⟨d₁,hd₁,hg₁⟩ := poke_pours hg.pool hfit
      obtain ⟨d₂,hd₂,hg₂⟩ := ih (show data.length-(pos+k) < turns by omega) d₁ hg₁.pool
      refine ⟨d₂,by rw [run_bind_ok hd₁,hd₂],hg₂.pool,(hg.kept.trans hg₁.kept).trans hg₂.kept,?_⟩
      rw [hg₂.output,hg₁.output,hg.output,List.append_nil,List.append_assoc,←List.drop_drop,
        List.take_append_drop]
    · rw [List.drop_eq_nil_of_le (by omega)]
      exact ⟨e,rfl,h,.refl e,(List.append_nil _).symm⟩

/-- A run of bytes is added, as a chunk of its own where the buffer could not take it. -/
theorem put_pours (data : List UInt8) : Pours data (put .result data) := by
  intro e h
  rw [put,run_get_bind]
  split
  · have hused : ∃ e', drainUsed .result e=.ok () e' ∧ e.Gains [] e' ∧ e'.cursor=0 := by
      rw [drainUsed,run_get_bind]
      split
      · exact drain_pours h
      · exact ⟨e,rfl,⟨h,.refl e,(List.append_nil _).symm⟩,by omega⟩
    obtain ⟨d,hd,hg,hzero⟩ := hused
    rw [run_bind_ok hd]
    refine ⟨_,rfl,⟨hg.pool.sized,hg.pool.inside,hg.pool.room⟩,
      hg.kept.trans ⟨rfl,rfl,rfl,rfl,rfl,rfl⟩,?_⟩
    have hout := hg.output
    show (d.result.getD []++[data]).flatten++d.fixed.take d.cursor=_
    rw [List.append_nil] at hout
    rw [←hout,Outlet.output,hzero,List.take_zero,List.append_nil,List.flatten_append,
      List.flatten_singleton]
    simp [Outlet.inMemory]
  · exact putLoop_pours data (by omega) e h

/-- A varint is added. -/
theorem emitVarint_pours {v : ℕ} (hv : v < 2^64) :
    Pours (Varint.encode v) (emitVarint .result v) := by
  intro e h
  have hlen := (Varint.encode_length hv).2
  rw [emitVarint,run_get_bind]
  split
  · next hroom =>
    unfold varintMax at hroom
    rw [inlineVarint_eq]
    exact poke_pours h (by omega)
  · exact put_pours _ e h

/-- The bytes of booleans are added. -/
theorem boolLoop_pours (vs : List Bool) (cursor : ℕ) (e : Enc)
    (h : Enc.Pool {e with cursor := cursor}) :
    ∃ e', boolLoop .result vs e.installs e.cap cursor e=.ok () e' ∧
      Enc.Gains {e with cursor := cursor} (vs.map boolByte) e' := by
  induction vs generalizing cursor e with
  | nil => exact ⟨_,rfl,h,.refl _,(List.append_nil _).symm⟩
  | cons v vs ih =>
    have hmore : ∀ {d d' : Enc}, Enc.Gains {e with cursor := cursor} [boolByte v] d →
        d.Gains (vs.map boolByte) d' →
        Enc.Gains {e with cursor := cursor} ((v::vs).map boolByte) d' := by
      intro d d' hg hg'
      refine ⟨hg'.pool,hg.kept.trans hg'.kept,?_⟩
      rw [hg'.output,hg.output,List.append_assoc]
      rfl
    rw [boolLoop]
    split
    · obtain ⟨d,hd,hg⟩ := put_pours [boolByte v] _ h
      have hset : setCursor cursor e=.ok () {e with cursor := cursor} := rfl
      rw [run_bind_ok hset,run_bind_ok hd,run_get_bind]
      obtain ⟨d',hd',hg'⟩ := ih d.cursor d hg.pool
      exact ⟨d',hd',hmore hg hg'⟩
    · next hroom =>
      have hfit : cursor+[boolByte v].length ≤ e.cap := Nat.not_le.mp hroom
      obtain ⟨d,hd,hg⟩ := poke_pours h hfit
      cases hd
      show ∃ e', boolLoop .result vs e.installs e.cap (cursor+1)
        (if e.installs=e.installs then {e with fixed := splice e.fixed cursor [boolByte v]}
          else e)=.ok () e' ∧ _
      rw [if_pos rfl]
      obtain ⟨d',hd',hg'⟩ :=
        ih (cursor+1) {e with fixed := splice e.fixed cursor [boolByte v]} hg.pool
      exact ⟨d',hd',hmore hg hg'⟩

end Pours

namespace Native

/-- The message of the in-memory model, so far. -/
def Enc.message (n : Enc) : List UInt8 := (n.result.getD []).flatten++n.fixed.take n.cursor

/-- A compiled encoder of the in-memory model, whose buffer has room once it is drained. -/
structure Enc.Pool (n : Enc) : Prop where
  /-- The length of the buffer is known. -/
  sized : n.cap=n.fixed.length
  /-- The cursor is in it. -/
  inside : n.cursor ≤ n.cap
  /-- It has a byte at least. -/
  room : 0 < n.cap

/-- Bytes were added to the message of the in-memory model. -/
structure Enc.Gains (n : Enc) (bs : List UInt8) (n' : Enc) : Prop where
  /-- There is room for more. -/
  pool : n'.Pool
  /-- Only the buffer differs. -/
  kept : n.Kept n'
  /-- They are behind what was there. -/
  output : n'.message=n.message++bs

/-- A method that adds bytes to the message of the in-memory model. -/
def Pours (bs : List UInt8) (m : EncM Unit) : Prop :=
  ∀ n : Enc, n.Pool → ∃ n', m n=.ok () n' ∧ n.Gains bs n'

/-- An interpreted encoder with the same buffer. -/
def Enc.copied (n : Enc) : SofaBuffers.Enc :=
  {fixed := n.fixed, cap := n.cap, cursor := n.cursor, result := n.result, installs := n.installs
   transfers := n.transfers}

/-- Methods one after the other pour their bytes in that order. -/
theorem Pours.bind {bs cs : List UInt8} {m : EncM Unit} {f : Unit → EncM Unit} (hm : Pours bs m)
    (hf : Pours cs (f ())) : Pours (bs++cs) (m >>= f) := by
  intro n h
  obtain ⟨d,hd,hg⟩ := hm n h
  obtain ⟨d',hd',hg'⟩ := hf d hg.pool
  refine ⟨d',by rw [run_bind_ok hd,hd'],hg'.pool,hg.kept.trans hg'.kept,?_⟩
  rw [hg'.output,hg.output,List.append_assoc]

/-- What fills its buffer as the interpreted engine does adds what that one adds. -/
theorem Pours.of_level {bs : List UInt8} {m : SofaBuffers.EncM Unit} {m' : EncM Unit}
    (hm : SofaBuffers.Pours bs m)
    (hl : ∀ e₀ n₀ e n, Level e₀ n₀ e n → Tandem (Level e₀ n₀) (m e) (m' n)) : Pours bs m' := by
  intro n h
  obtain ⟨e',he',hg⟩ := hm n.copied ⟨h.sized,h.inside,h.room⟩
  have hstart : Level n.copied n n.copied n :=
    ⟨.refl _,.refl n,h.sized,rfl,rfl,rfl,h.inside,rfl,rfl,rfl,rfl⟩
  have htwo := hl _ _ _ _ hstart
  rw [he'] at htwo
  generalize m' n=r at htwo
  cases htwo with
  | @ok _ _ n' h' =>
    refine ⟨n',rfl,⟨?_,?_,?_⟩,h'.kept',?_⟩
    · rw [h'.cap,h'.sized,h'.length]
    · rw [h'.cap,h'.cursor]
      exact h'.inside
    · rw [h'.cap]
      exact hg.pool.room
    · have hout := hg.output
      rw [Enc.message,h'.result,h'.cursor,h'.front]
      exact hout

/-- A run of bytes is added. -/
theorem put_pours (data : List UInt8) : Pours data (put .result data) :=
  .of_level (SofaBuffers.put_pours data) fun _ _ _ _ h => h.put (t:=.result) trivial data

/-- A varint is added. -/
theorem emitVarint_pours (b : Build) {v : ℕ} (hv : v < 2^64) :
    Pours (Varint.encode v) (emitVarint b .result (BitVec.ofNat 64 v)) :=
  .of_level (SofaBuffers.emitVarint_pours hv) fun _ _ _ _ h =>
    h.emitVarint (t:=.result) trivial b hv

/-- Packed values are added one after the other. -/
theorem putEach_pours (pack : BitVec 64 → List UInt8) (values : List (BitVec 64)) :
    Pours (values.flatMap pack) (putEach .result pack values) := by
  induction values with
  | nil => exact fun n h => ⟨n,rfl,h,.refl n,(List.append_nil _).symm⟩
  | cons v vs ih => exact (put_pours (pack v)).bind ih

/-- Packed values are added, in one go where all of them have room. -/
theorem putFloats_pours {pack : BitVec 64 → List UInt8} {elemSize : ℕ}
    (hp : ∀ v, (pack v).length=elemSize) (values : List (BitVec 64)) :
    Pours (values.flatMap pack) (putFloats .result pack elemSize values) := by
  intro n h
  have hlen := packed_length hp values
  rw [putFloats,run_get_bind]
  split
  · next hroom =>
    have hin : n.cursor+(values.flatMap pack).length ≤ n.fixed.length := by
      rw [←h.sized,hlen]
      exact hroom
    rw [packRegion_eq hin,←hlen]
    refine ⟨_,rfl,⟨?_,?_,h.room⟩,⟨rfl,rfl,rfl,rfl,rfl⟩,?_⟩
    · show n.cap=(splice n.fixed n.cursor (values.flatMap pack)).length
      rw [splice_length hin]
      exact h.sized
    · show n.cursor+(values.flatMap pack).length ≤ n.cap
      rw [hlen]
      exact hroom
    · show (n.result.getD []).flatten++(splice n.fixed n.cursor (values.flatMap pack)).take
        (n.cursor+(values.flatMap pack).length)=
        (n.result.getD []).flatten++n.fixed.take n.cursor++values.flatMap pack
      rw [splice_take hin,List.append_assoc]
  · exact putEach_pours pack values n h

end Native

/-- What two encoders of the in-memory model, that are given, have become: they are free to
cut the message into chunks, and it is the same. -/
structure Pooled (e₀ : Enc) (n₀ : Native.Enc) (e : Enc) (n : Native.Enc) : Prop where
  /-- The bookkeeping of the interpreted encoder is as it was. -/
  kept : e₀.Kept e
  /-- The bookkeeping of the compiled encoder is as it was. -/
  kept' : n₀.Kept n
  /-- The interpreted encoder has room. -/
  pool : e.Pool
  /-- The compiled encoder has room. -/
  pool' : n.Pool
  /-- The message is the same. -/
  output : n.message=Outlet.result.output e

/-- What two encoders that are given have become, the same bytes having been put out. -/
inductive Alike (e₀ : Enc) (n₀ : Native.Enc) : Taker → Enc → Native.Enc → Prop
  /-- The bytes leave through views, which are the same. -/
  | streams {t : Taker} {e : Enc} {n : Native.Enc} (hs : t.Streams) (h : Level e₀ n₀ e n) :
      Alike e₀ n₀ t e n
  /-- They are gathered in the result, which is the same. -/
  | pooled {e : Enc} {n : Native.Enc} (h : Pooled e₀ n₀ e n) : Alike e₀ n₀ .result e n

section Alike

variable {t : Taker} {e₀ e : Enc} {n₀ n : Native.Enc}

/-- The bookkeeping of the interpreted encoder is as it was. -/
theorem Alike.kept (h : Alike e₀ n₀ t e n) : e₀.Kept e := by
  cases h with
  | streams hs h => exact h.kept
  | pooled h => exact h.kept

/-- The bookkeeping of the compiled encoder is as it was. -/
theorem Alike.kept' (h : Alike e₀ n₀ t e n) : n₀.Kept n := by
  cases h with
  | streams hs h => exact h.kept'
  | pooled h => exact h.kept'

/-- Both add the same bytes to the message. -/
theorem Pooled.pours (h : Pooled e₀ n₀ e n) {bs : List UInt8} {m : EncM Unit}
    {m' : Native.EncM Unit} (hm : ∃ e', m e=.ok () e' ∧ e.Gains bs e') (hm' : Native.Pours bs m') :
    Tandem (Alike e₀ n₀ .result) (m e) (m' n) := by
  obtain ⟨e',he',hg⟩ := hm
  obtain ⟨n',hn',hg'⟩ := hm' n h.pool'
  rw [he',hn']
  refine .ok (.pooled ⟨h.kept.trans hg.kept,h.kept'.trans hg'.kept,hg.pool,hg'.pool,?_⟩)
  rw [hg'.output,hg.output,h.output]

/-- A run of bytes is written. -/
theorem Alike.put (ht : t.Fits) (h : Alike e₀ n₀ t e n) (data : List UInt8) :
    Tandem (Alike e₀ n₀ t) (put t.outlet data e) (Native.put t.native data n) := by
  cases h with
  | streams hs h => exact (h.put ht data).imp fun _ _ => .streams hs
  | pooled h => exact h.pours (put_pours data e h.pool) (Native.put_pours data)

/-- A varint is written. -/
theorem Alike.emitVarint (ht : t.Fits) (h : Alike e₀ n₀ t e n) (b : Native.Build) {v : ℕ}
    (hv : v < 2^64) :
    Tandem (Alike e₀ n₀ t) (emitVarint t.outlet v e)
      (Native.emitVarint b t.native (BitVec.ofNat 64 v) n) := by
  cases h with
  | streams hs h => exact (h.emitVarint ht b hv).imp fun _ _ => .streams hs
  | pooled h =>
    exact h.pours (emitVarint_pours hv e h.pool) (Native.emitVarint_pours b hv)

/-- An array of packed values is written. -/
theorem Alike.putFloats (ht : t.Fits) (h : Alike e₀ n₀ t e n) {pack : BitVec 64 → List UInt8}
    {elemSize : ℕ} (hp : ∀ v, (pack v).length=elemSize) (values : List (BitVec 64)) :
    Tandem (Alike e₀ n₀ t) (SofaBuffers.put t.outlet (values.flatMap pack) e)
      (Native.putFloats t.native pack elemSize values n) := by
  cases h with
  | streams hs h => exact (h.putFloats ht hs hp values).imp fun _ _ => .streams hs
  | pooled h => exact h.pours (put_pours _ e h.pool) (Native.putFloats_pours hp values)

/-- The words of elements are written, up to the first that is refused. -/
theorem Alike.emitWords (ht : t.Fits) (h : Alike e₀ n₀ t e n) (b : Native.Build) {α : Type}
    {word : α → Except Exn ℕ} {element : α → Except Exn (BitVec 64)}
    (hw : ∀ v, element v=(word v).map (BitVec.ofNat 64)) (hlt : ∀ v u, word v=.ok u → u < 2^64)
    (vs : List α) :
    Tandem (Alike e₀ n₀ t) (emitWords t.outlet word vs e)
      (Native.emitElements b t.native element vs n) := by
  induction vs generalizing e n with
  | nil => exact .ok h
  | cons v vs ih =>
    rw [SofaBuffers.emitWords,Native.emitElements,hw v]
    cases hv : word v with
    | error why => exact .error rfl h
    | ok u => exact (h.emitVarint ht b (hlt v u hv)).bind fun _ _ _ h => ih h

/-- The elements of an array of integers are written. -/
theorem Alike.elementLoop (ht : t.Fits) (h : Alike e₀ n₀ t e n) (b : Native.Build)
    {word : Given → Except Exn ℕ} {element : Given → Except Exn (BitVec 64)}
    (hw : ∀ v, element v=(word v).map (BitVec.ofNat 64)) (hlt : ∀ v u, word v=.ok u → u < 2^64)
    (vs : List Given) :
    Tandem (Alike e₀ n₀ t) (elementLoop t.outlet word vs e.installs (varintLimit e) e.cursor e)
      (Native.emitElements b t.native element vs n) := by
  rw [elementLoop_words]
  exact h.emitWords ht b hw hlt vs

/-- The bytes of booleans are added by the compiled engine as the varints they are. -/
theorem Native.booleans_pours (b : Native.Build) {element : Bool → Except Exn (BitVec 64)}
    (hw : ∀ v, element v=(boolWord v).map (BitVec.ofNat 64)) (vs : List Bool) :
    Native.Pours (vs.map boolByte) (Native.emitElements b .result element vs) := by
  induction vs with
  | nil => exact fun n h => ⟨n,rfl,h,.refl n,(List.append_nil _).symm⟩
  | cons v vs ih =>
    intro n h
    have hlt : (if v then 1 else 0) < 2^64 := by cases v <;> decide
    have hone := Native.emitVarint_pours b hlt
    rw [encode_bool] at hone
    obtain ⟨m,hm,hg⟩ :=
      hone.bind (f:=fun _ => Native.emitElements b .result element vs) ih n h
    rw [Native.emitElements,hw v]
    exact ⟨m,hm,hg⟩

/-- The elements of an array of booleans are written. -/
theorem Alike.boolLoop (ht : t.Fits) (h : Alike e₀ n₀ t e n) (b : Native.Build)
    {element : Bool → Except Exn (BitVec 64)}
    (hw : ∀ v, element v=(boolWord v).map (BitVec.ofNat 64)) (vs : List Bool) :
    Tandem (Alike e₀ n₀ t) (boolLoop t.outlet vs e.installs e.cap e.cursor e)
      (Native.emitElements b t.native element vs n) := by
  cases h with
  | streams hs h =>
    have hm := Taker.outlet_streams hs
    rw [boolLoop_bytes t.outlet_sizing hm _ _ _ h.sized]
    show Tandem _ (putBytes t.outlet (vs.map boolByte) e) _
    rw [putBytes_words t.outlet_sizing hm _ h.sized]
    refine (Alike.streams hs h).emitWords ht b hw (fun v u hv => ?_) vs
    cases hv
    cases v <;> decide
  | pooled h =>
    exact h.pours (boolLoop_pours vs e.cursor e h.pool) (Native.booleans_pours b hw vs)

end Alike

end SofaBuffers
