import SofaBuffers.Encoder.State

/-!
# What an encoder has put out

The bytes an encoder was told to write are those its sink was handed, less what
an installation reserves, and those its buffer still holds. However small the
buffer and whatever buffers the sink installs, writing a run of bytes appends
exactly that run; without a sink as much of it as there is room for.
-/

set_option autoImplicit false

namespace SofaBuffers

/-- The bytes reserved at the front of the buffer, after some transfers. -/
def reservedFrom : ℕ → List Transfer → ℕ
  | r, [] => r
  | _, .installed _ offset::ts => reservedFrom offset ts
  | _, .handed _::ts => reservedFrom 0 ts

/-- The bytes handed over that are no reservation. -/
def payloadFrom : ℕ → List Transfer → List UInt8
  | _, [] => []
  | _, .installed _ offset::ts => payloadFrom offset ts
  | r, .handed view::ts => view.drop r++payloadFrom 0 ts

/-- The buffer that was installed last, as it was then. -/
def installedFrom : List UInt8 → List Transfer → List UInt8
  | b, [] => b
  | _, .installed buffer _::ts => installedFrom buffer ts
  | b, .handed _::ts => installedFrom b ts

section Transfers

variable (r : ℕ) (b : List UInt8) (ts : List Transfer)

@[simp] theorem reservedFrom_installed (buffer : List UInt8) (offset : ℕ) :
    reservedFrom r (ts++[.installed buffer offset])=offset := by
  induction ts generalizing r with
  | nil => rfl
  | cons t ts ih => cases t <;> exact ih _

@[simp] theorem reservedFrom_handed (view : List UInt8) :
    reservedFrom r (ts++[.handed view])=0 := by
  induction ts generalizing r with
  | nil => rfl
  | cons t ts ih => cases t <;> exact ih _

@[simp] theorem payloadFrom_installed (buffer : List UInt8) (offset : ℕ) :
    payloadFrom r (ts++[.installed buffer offset])=payloadFrom r ts := by
  induction ts generalizing r with
  | nil => rfl
  | cons t ts ih => cases t <;> simp [payloadFrom,ih]

@[simp] theorem payloadFrom_handed (view : List UInt8) :
    payloadFrom r (ts++[.handed view])=payloadFrom r ts++view.drop (reservedFrom r ts) := by
  induction ts generalizing r with
  | nil => simp [payloadFrom,reservedFrom]
  | cons t ts ih => cases t <;> simp [payloadFrom,reservedFrom,ih]

@[simp] theorem installedFrom_installed (buffer : List UInt8) (offset : ℕ) :
    installedFrom b (ts++[.installed buffer offset])=buffer := by
  induction ts generalizing b with
  | nil => rfl
  | cons t ts ih => cases t <;> exact ih _

@[simp] theorem installedFrom_handed (view : List UInt8) :
    installedFrom b (ts++[.handed view])=installedFrom b ts := by
  induction ts generalizing b with
  | nil => rfl
  | cons t ts ih => cases t <;> exact ih _

end Transfers

/-- Every view lies in the buffer installed before it, and the first view of an
installation shows its reserved bytes as they were; a buffer installed with a sink has
room. -/
inductive Orderly (sink : Bool) : List Transfer → Prop
  /-- Nothing has passed. -/
  | nil : Orderly sink []
  /-- A buffer is installed. -/
  | installed {ts : List Transfer} {buffer : List UInt8} {offset : ℕ} (h : Orderly sink ts)
      (ho : offset ≤ buffer.length) (hroom : sink=true → offset < buffer.length) :
      Orderly sink (ts++[.installed buffer offset])
  /-- The bytes at its front are handed over. -/
  | handed {ts : List Transfer} {view : List UInt8} (h : Orderly sink ts)
      (hl : view.length ≤ (installedFrom [] ts).length)
      (hr : view.take (reservedFrom 0 ts)=(installedFrom [] ts).take (reservedFrom 0 ts)) :
      Orderly sink (ts++[.handed view])

namespace Outlet

/-- What an encoder has been told to write so far. -/
def output (o : Outlet) (e : Enc) : List UInt8 :=
  if o.inMemory then (e.result.getD []).flatten++e.fixed.take e.cursor
  else payloadFrom 0 e.transfers++(e.fixed.take e.cursor).drop (reservedFrom 0 e.transfers)

/-- A sink copies what it is handed, or installs a buffer with room. -/
def Fair (o : Outlet) : Prop :=
  match o with
  | .sink react => ∀ e, react e=.ok () e ∨
      ∃ buffer offset, offset < buffer.length ∧ react e=bufferSet o buffer offset e
  | _ => True

end Outlet

/-- What holds of an encoder between two calls. -/
structure Enc.Ok (o : Outlet) (e : Enc) : Prop where
  /-- The length of the buffer is known. -/
  cap : e.cap=e.fixed.length
  /-- The cursor is in it. -/
  cursor : e.cursor ≤ e.cap
  /-- A buffer that is drained has room. -/
  room : o.hasSink=true → 0 < e.cap
  /-- The reserved bytes are behind the cursor. -/
  reserved : o.inMemory=false → reservedFrom 0 e.transfers ≤ e.cursor
  /-- The reserved bytes are as they were. -/
  front : o.inMemory=false → e.fixed.take (reservedFrom 0 e.transfers)=
    (installedFrom [] e.transfers).take (reservedFrom 0 e.transfers)
  /-- The buffer is of the size it was installed with. -/
  size : o.inMemory=false → e.fixed.length=(installedFrom [] e.transfers).length
  /-- What passed is in order. -/
  orderly : Orderly o.hasSink e.transfers
  /-- The slots for held-back ids are as many as sequences can be open. -/
  slots : ∀ side, (e.runs side).length=maxDepth
  /-- What is in them are ids. -/
  ids : ∀ side, ∀ id ∈ e.runs side, id ≤ idMax
  /-- Only open sequences are held back. -/
  pending : e.npending ≤ e.depth
  /-- No more sequences are open than can be. -/
  depth : e.depth ≤ maxDepth

/-- The encoder's bookkeeping is as it was; only its buffer may differ. -/
structure Enc.Kept (e e' : Enc) : Prop where
  /-- It latches errors or raises them. -/
  sticky : e'.sticky=e.sticky
  /-- The error it latched. -/
  error : e'.error=e.error
  /-- Sequences open. -/
  depth : e'.depth=e.depth
  /-- The two lists of slots. -/
  runs : e'.runs=e.runs
  /-- The same list is in use. -/
  active : e'.active=e.active
  /-- As many slots are in use. -/
  npending : e'.npending=e.npending

/-- An encoder keeps its own bookkeeping. -/
theorem Enc.Kept.refl (e : Enc) : e.Kept e := ⟨rfl,rfl,rfl,rfl,rfl,rfl⟩

/-- What is kept twice is kept. -/
theorem Enc.Kept.trans {e e' e'' : Enc} (h : e.Kept e') (h' : e'.Kept e'') : e.Kept e'' :=
  ⟨h'.sticky.trans h.sticky,h'.error.trans h.error,h'.depth.trans h.depth,h'.runs.trans h.runs,
    h'.active.trans h.active,h'.npending.trans h.npending⟩

/-- So many bytes were written. -/
structure After (o : Outlet) (e : Enc) (bs : List UInt8) (e' : Enc) : Prop where
  /-- The encoder is between two calls. -/
  ok : e'.Ok o
  /-- Only its buffer differs. -/
  kept : e.Kept e'
  /-- The bytes are what it put out. -/
  output : o.output e'=o.output e++bs
  /-- Without a sink they are in the buffer. -/
  closed : o.hasSink=false → e'.cap=e.cap ∧ e'.cursor=e.cursor+bs.length

section After

variable {o : Outlet} {e e' e'' : Enc} {bs cs : List UInt8}

/-- Writing nothing is no change. -/
theorem After.refl (h : e.Ok o) : After o e [] e :=
  ⟨h,.refl e,(List.append_nil _).symm,fun _ => ⟨rfl,rfl⟩⟩

/-- Bytes written one run after the other. -/
theorem After.trans (h : After o e bs e') (h' : After o e' cs e'') : After o e (bs++cs) e'' := by
  refine ⟨h'.ok,h.kept.trans h'.kept,?_,?_⟩
  · rw [h'.output,h.output,List.append_assoc]
  · intro hs
    have h1 := h.closed hs
    have h2 := h'.closed hs
    rw [List.length_append]
    constructor
    · exact h2.1.trans h1.1
    · omega

end After

/-- What writing bytes comes to, when the call goes on to raise or not. -/
inductive Wrote (o : Outlet) (e : Enc) (bs : List UInt8) (why : Option Exn) :
    EStateM.Result Exn Enc Unit → Prop
  /-- The bytes are written. -/
  | done {e' : Enc} (hw : why=none) (h : After o e bs e') : Wrote o e bs why (.ok () e')
  /-- The bytes are written, and the call raises. -/
  | raised {e' : Enc} {w : Exn} (hw : why=some w) (h : After o e bs e') :
      Wrote o e bs why (.error w e')
  /-- The buffer was full before, with nobody to take its bytes. -/
  | full {e' : Enc} (hs : o.hasSink=false) (hn : e.cap-e.cursor < bs.length)
      (h : After o e (bs.take (e.cap-e.cursor)) e') : Wrote o e bs why (.error bufferFull e')

section Wrote

variable {o : Outlet} {e : Enc} {bs cs : List UInt8} {why : Option Exn}

/-- Writing nothing goes well. -/
theorem Wrote.nil (h : e.Ok o) : Wrote o e [] none (.ok () e) := .done rfl (.refl h)

/-- More bytes are written behind bytes that were. -/
theorem Wrote.after {e' : Enc} {r : EStateM.Result Exn Enc Unit} (h : After o e bs e')
    (hw : Wrote o e' cs why r) : Wrote o e (bs++cs) why r := by
  cases hw with
  | done hw h' => exact .done hw (h.trans h')
  | raised hw h' => exact .raised hw (h.trans h')
  | full hs hn h' =>
    have hc := h.closed hs
    have hroom : e.cap-e.cursor=bs.length+(e'.cap-e'.cursor) := by
      have := h.ok.cursor
      omega
    refine .full hs (by rw [List.length_append]; omega) ?_
    have hall := h.trans h'
    rw [hroom,List.take_length_add_append]
    exact hall

/-- Two writers in sequence. -/
theorem Wrote.bind {m : EncM Unit} {f : Unit → EncM Unit} {e₁ : Enc}
    (h : Wrote o e bs none (m e₁)) (hf : ∀ e', After o e bs e' → Wrote o e' cs why (f () e')) :
    Wrote o e (bs++cs) why ((m >>= f) e₁) := by
  rw [run_bind]
  generalize m e₁=r at h
  cases h with
  | done hw h => exact .after h (hf _ h)
  | raised hw h => cases hw
  | full hs hn h =>
    refine .full hs (by rw [List.length_append]; omega) ?_
    rwa [List.take_append_of_le_length (by omega)]

end Wrote

section Buffer

variable {o : Outlet} {e : Enc}

/-- A buffer with room is installed. -/
theorem bufferSet_run {buffer : List UInt8} {offset : ℕ} (h : offset ≤ buffer.length)
    (hroom : o.hasSink=true → offset < buffer.length) :
    bufferSet o buffer offset e=.ok () {e with
      fixed := buffer, cap := buffer.length, cursor := offset, installs := e.installs+1
      transfers := e.transfers++[.installed buffer offset]} := by
  have hin : ¬buffer.length < offset := by omega
  have huse : ¬(buffer.length-offset < minOutputBuffer ∧ o.hasSink=true) := by
    rintro ⟨hlt,hs⟩
    have := hroom hs
    rw [minOutputBuffer] at hlt
    omega
  unfold bufferSet
  rw [run_get_bind,if_neg hin,if_neg huse]
  rfl

/-- An encoder whose buffer is replaced. -/
theorem Enc.Ok.installed (h : e.Ok o) {buffer : List UInt8} {offset : ℕ}
    (ho : offset ≤ buffer.length) (hroom : o.hasSink=true → offset < buffer.length) (n : ℕ) :
    ({e with
      fixed := buffer, cap := buffer.length, cursor := offset, installs := n
      transfers := e.transfers++[.installed buffer offset]} : Enc).Ok o where
  cap := rfl
  cursor := ho
  room hs := Nat.zero_lt_of_lt (hroom hs)
  reserved _ := by simp
  front _ := by simp
  size _ := by simp
  orderly := .installed h.orderly ho hroom
  slots := h.slots
  ids := h.ids
  pending := h.pending
  depth := h.depth

/-- Bytes that fit are written in place. -/
theorem poke_after (h : e.Ok o) (bs : List UInt8) (hfit : e.cursor+bs.length ≤ e.cap) :
    ∃ e', poke bs e=.ok () e' ∧ After o e bs e' := by
  have hin : e.cursor+bs.length ≤ e.fixed.length := by rw [←h.cap]; exact hfit
  have htake := splice_take hin
  refine ⟨_,rfl,?_,⟨rfl,rfl,rfl,rfl,rfl,rfl⟩,?_,fun _ => ⟨rfl,rfl⟩⟩
  · constructor
    · exact h.cap.trans (splice_length hin).symm
    · exact hfit
    · exact h.room
    · intro hm
      exact (h.reserved hm).trans (Nat.le_add_right _ _)
    · intro hm
      exact (splice_front hin (h.reserved hm)).trans (h.front hm)
    · intro hm
      exact (splice_length hin).trans (h.size hm)
    · exact h.orderly
    · exact h.slots
    · exact h.ids
    · exact h.pending
    · exact h.depth
  · rw [Outlet.output,Outlet.output]
    dsimp only
    rw [htake]
    split
    · exact (List.append_assoc _ _ _).symm
    · next hm =>
      have hr := h.reserved (by simpa using hm)
      rw [List.drop_append_of_le_length,List.append_assoc]
      rw [List.length_take,←h.cap]
      omega

/-- What is handed over lies in the buffer, its reservation as it was. -/
theorem Enc.Ok.handed (h : e.Ok o) (hm : o.inMemory=false) :
    Orderly o.hasSink (e.transfers++[.handed (e.fixed.take e.cursor)]) := by
  have hr := h.reserved hm
  refine .handed h.orderly ?_ ?_
  · rw [List.length_take,←h.size hm]
    omega
  · rw [List.take_take,Nat.min_eq_left hr]
    exact h.front hm

/-- A drain through a copy leaves the buffer empty. -/
theorem copied_after (h : e.Ok o) (hm : o.inMemory=false) (hs : o.hasSink=true) :
    After o e [] {e with
      transfers := e.transfers++[.handed (e.fixed.take e.cursor)], cursor := 0} := by
  constructor
  · constructor
    · exact h.cap
    · exact Nat.zero_le _
    · exact h.room
    · intro _
      simp
    · intro _
      simp
    · intro _
      simpa using h.size hm
    · exact h.handed hm
    · exact h.slots
    · exact h.ids
    · exact h.pending
    · exact h.depth
  · exact ⟨rfl,rfl,rfl,rfl,rfl,rfl⟩
  · simp [Outlet.output,hm]
  · intro hc
    rw [hs] at hc
    cases hc

/-- A drain whose sink installs a buffer leaves that one. -/
theorem replaced_after (h : e.Ok o) (hm : o.inMemory=false) (hs : o.hasSink=true)
    {buffer : List UInt8} {offset : ℕ} (ho : offset < buffer.length) (n : ℕ) :
    After o e [] {e with
      fixed := buffer, cap := buffer.length, cursor := offset, installs := n
      transfers := e.transfers++[.handed (e.fixed.take e.cursor)]++
        [.installed buffer offset]} := by
  constructor
  · have h' := (copied_after h hm hs).ok
    exact h'.installed (Nat.le_of_lt ho) (fun _ => ho) n
  · exact ⟨rfl,rfl,rfl,rfl,rfl,rfl⟩
  · simp only [Outlet.output,hm,payloadFrom_installed,payloadFrom_handed,reservedFrom_installed,
      List.drop_take,Nat.sub_self,List.take_zero,List.append_nil,if_false,Bool.false_eq_true]
  · intro hc
    rw [hs] at hc
    cases hc

/-- A drain into the result leaves the buffer empty. -/
theorem chunked_after (h : e.Ok .result) (chunks : List (List UInt8))
    (hc : chunks.flatten=e.fixed.take e.cursor) :
    After .result e [] {e with result := some (e.result.getD []++chunks), cursor := 0} := by
  constructor
  · constructor
    · exact h.cap
    · exact Nat.zero_le _
    · exact h.room
    · intro h; cases h
    · intro h; cases h
    · intro h; cases h
    · exact h.orderly
    · exact h.slots
    · exact h.ids
    · exact h.pending
    · exact h.depth
  · exact ⟨rfl,rfl,rfl,rfl,rfl,rfl⟩
  · simp [Outlet.output,Outlet.inMemory,hc]
  · intro h; cases h

/-- With a sink a drain puts nothing out that was not, and leaves a free byte; unless it
goes into the result, all of it is handed over. -/
theorem drain_run (h : e.Ok o) (hf : o.Fair) (hs : o.hasSink=true) :
    ∃ e', drain o e=.ok () e' ∧ After o e [] e' ∧ e'.cursor < e'.cap ∧
      (o.inMemory=false → payloadFrom 0 e'.transfers=o.output e) := by
  have hroom := h.room hs
  cases o with
  | closed => cases hs
  | result => exact ⟨_,rfl,chunked_after h [e.fixed.take e.cursor] (by simp),hroom,fun h => by cases h⟩
  | writer =>
    refine ⟨_,rfl,copied_after h rfl rfl,hroom,fun hm => ?_⟩
    simp [Outlet.output,hm]
  | sink react =>
    let e₁ : Enc := {e with transfers := e.transfers++[.handed (e.fixed.take e.cursor)]}
    have hgo : drain (.sink react) e=
        (react >>= fun _ => do
          if (← get).installs=e.installs then rewind else pure ()) e₁ := rfl
    rw [hgo]
    rcases hf e₁ with hcopy|⟨buffer,offset,ho,hset⟩
    · rw [run_bind_ok hcopy,run_get_bind,if_pos rfl]
      refine ⟨_,rfl,copied_after h rfl rfl,hroom,fun hm => ?_⟩
      simp [Outlet.output,hm,e₁]
    · rw [bufferSet_run (Nat.le_of_lt ho) fun _ => ho] at hset
      rw [run_bind_ok hset,run_get_bind,if_neg (Nat.succ_ne_self _)]
      refine ⟨_,rfl,replaced_after h rfl rfl ho _,ho,fun hm => ?_⟩
      simp only [e₁,payloadFrom_installed,payloadFrom_handed,Outlet.output,hm,if_false,
        Bool.false_eq_true]

/-- A full buffer is drained, unless nobody takes its bytes. -/
theorem makeRoom_run (h : e.Ok o) (hf : o.Fair) :
    (∃ e', makeRoom o e=.ok () e' ∧ After o e [] e' ∧ e'.cursor < e'.cap) ∨
      (o.hasSink=false ∧ e.cap ≤ e.cursor ∧ makeRoom o e=.error bufferFull e) := by
  have hgo : makeRoom o e=(if e.cap ≤ e.cursor then (do
      drain o
      let e ← get
      if e.cap ≤ e.cursor then throw bufferFull else pure ()) else pure ()) e := rfl
  rw [hgo]
  by_cases hfull : e.cap ≤ e.cursor
  · rw [if_pos hfull]
    cases hs : o.hasSink with
    | true =>
      obtain ⟨e',hd,ha,hroom,_⟩ := drain_run h hf hs
      have hnot : ¬e'.cap ≤ e'.cursor := by omega
      rw [run_bind_ok hd,run_get_bind,if_neg hnot]
      exact Or.inl ⟨e',rfl,ha,hroom⟩
    | false =>
      cases o with
      | closed => exact Or.inr ⟨rfl,hfull,rfl⟩
      | _ => cases hs
  · rw [if_neg hfull]
    exact Or.inl ⟨e,rfl,.refl h,by omega⟩

/-- Bytes are copied through the buffer, however often it is drained. -/
theorem putLoop_run (h : e.Ok o) (hf : o.Fair) (data : List UInt8) {turns : ℕ} (pos : ℕ)
    (ht : data.length-pos < turns) :
    Wrote o e (data.drop pos) none (putLoop o data turns pos e) := by
  induction turns generalizing e pos with
  | zero => omega
  | succ turns ih =>
    rw [putLoop]
    by_cases hend : pos < data.length
    · rw [if_pos hend]
      rcases makeRoom_run h hf with ⟨e₁,hm,ha,hroom⟩|⟨hs,hfull,hm⟩
      · have hok := ha.ok
        have hlen : ((data.drop pos).take (min (e₁.cap-e₁.cursor) (data.length-pos))).length=
            min (e₁.cap-e₁.cursor) (data.length-pos) := by
          rw [List.length_take,List.length_drop]
          omega
        obtain ⟨e₂,hp,ha₂⟩ := poke_after hok
          ((data.drop pos).take (min (e₁.cap-e₁.cursor) (data.length-pos))) (by omega)
        have hnext := ih ha₂.ok (pos+min (e₁.cap-e₁.cursor) (data.length-pos)) (by omega)
        rw [run_bind_ok hm,run_get_bind,run_bind_ok hp]
        have hall := Wrote.after (ha.trans ha₂) hnext
        rwa [List.nil_append,←List.drop_drop,List.take_append_drop] at hall
      · rw [run_bind_error hm]
        have hz : e.cap-e.cursor=0 := by omega
        refine .full hs ?_ ?_
        · rw [List.length_drop]
          omega
        · rw [hz]
          exact .refl h
    · rw [if_neg hend,List.drop_of_length_le (by omega)]
      exact .nil h

/-- A run of bytes is written. -/
theorem put_run (h : e.Ok o) (hf : o.Fair) (data : List UInt8) :
    Wrote o e data none (put o data e) := by
  have hgo : put o data e=(if o.inMemory && decide (e.cap ≤ data.length) then (do
      drainUsed o
      modify fun e => {e with result := some (e.result.getD []++[data])})
    else putLoop o data (data.length+1) 0) e := rfl
  rw [hgo]
  split
  · next hlong =>
    cases o with
    | result =>
      have hdrain : ∃ e', drainUsed .result e=.ok () e' ∧ After .result e [] e' ∧ e'.cursor=0 := by
        by_cases hz : e.cursor≠0
        · refine ⟨_,?_,chunked_after h [e.fixed.take e.cursor] (by simp),rfl⟩
          rw [drainUsed,run_get_bind,if_pos hz]
          rfl
        · refine ⟨e,?_,.refl h,by omega⟩
          rw [drainUsed,run_get_bind,if_neg hz]
          rfl
      obtain ⟨e₁,hd,ha,hz⟩ := hdrain
      rw [run_bind_ok hd]
      have hok := ha.ok
      refine Wrote.after ha (.done rfl ⟨?_,⟨rfl,rfl,rfl,rfl,rfl,rfl⟩,?_,fun h => by cases h⟩)
      · exact ⟨hok.cap,hok.cursor,hok.room,fun h => (by cases h),fun h => (by cases h),fun h => (by cases h),hok.orderly,hok.slots,hok.ids,
          hok.pending,hok.depth⟩
      · simp [Outlet.output,Outlet.inMemory,hz]
    | _ => cases hlong
  · exact putLoop_run h hf data 0 (by omega)

end Buffer

end SofaBuffers
