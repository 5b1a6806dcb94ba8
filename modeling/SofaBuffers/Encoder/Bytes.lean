import SofaBuffers.Encoder.Inline
import SofaBuffers.Encoder.Sticky

/-!
# Writing is writing byte by byte

A run of bytes goes through the buffer a bufferful at a time, and an array's
elements through a cursor of the loop's own. Both come to the same as writing one
byte, or one element, after the other.
-/

set_option autoImplicit false

namespace SofaBuffers

/-- Write a byte. -/
def putByte (o : Outlet) (b : UInt8) : EncM Unit := do
  makeRoom o
  poke [b]

/-- Write bytes, one after the other. -/
def putBytes (o : Outlet) : List UInt8 → EncM Unit
  | [] => pure ()
  | b::bs => do
    putByte o b
    putBytes o bs

/-- Write the words of elements, each being checked when its turn comes. -/
def emitWords (o : Outlet) {α : Type} (word : α → Except Exn ℕ) : List α → EncM Unit
  | [] => pure ()
  | v::vs => do
    let u ← checked (word v)
    emitVarint o u
    emitWords o word vs

/-- The length of the buffer is known. -/
def Enc.Sized (e : Enc) : Prop := e.cap=e.fixed.length

/-- A sink leaves an encoder that knows the length of its buffer. -/
def Outlet.Sizing (o : Outlet) : Prop :=
  match o with
  | .sink react => ∀ e e' : Enc, e.Sized → react e=.ok () e' → e'.Sized
  | _ => True

section Bytes

variable {o : Outlet} {e e' : Enc}

/-- A drain leaves a buffer of known length. -/
theorem drain_sized (ho : o.Sizing) (h : e.Sized) (hd : drain o e=.ok () e') : e'.Sized := by
  cases o with
  | result =>
    cases hd
    exact h
  | writer =>
    cases hd
    exact h
  | closed => cases hd
  | sink react =>
    rw [drain,run_get_bind] at hd
    dsimp only at hd
    rw [hand,run_modify_bind,run_bind] at hd
    cases hr : react {e with transfers := e.transfers++[.handed (e.fixed.take e.cursor)]} with
    | error why m =>
      rw [hr] at hd
      cases hd
    | ok u m =>
      have hs : m.Sized :=
        ho {e with transfers := e.transfers++[.handed (e.fixed.take e.cursor)]} m h hr
      rw [hr] at hd
      dsimp only at hd
      rw [run_get_bind] at hd
      split at hd
      · cases hd
        exact hs
      · cases hd
        exact hs

/-- Room is there, or a drain makes it. -/
theorem makeRoom_cases (h : makeRoom o e=.ok () e') :
    (e'=e ∨ drain o e=.ok () e') ∧ e'.cursor < e'.cap := by
  refine ⟨?_,makeRoom_room h⟩
  rw [makeRoom,run_get_bind] at h
  split at h
  · rw [run_bind] at h
    cases hd : drain o e with
    | ok a n =>
      rw [hd] at h
      dsimp only at h
      rw [run_get_bind] at h
      split at h
      · cases h
      · cases h
        exact .inr rfl
    | error why n =>
      rw [hd] at h
      cases h
  · cases h
    exact .inl rfl

/-- Room that was made is in a buffer of known length. -/
theorem makeRoom_sized (ho : o.Sizing) (h : e.Sized) (hm : makeRoom o e=.ok () e') :
    e'.Sized := by
  rcases (makeRoom_cases hm).1 with rfl | hd
  · exact h
  · exact drain_sized ho h hd

/-- Where there is room, none has to be made. -/
theorem makeRoom_here (h : e.cursor < e.cap) : makeRoom o e=.ok () e := by
  rw [makeRoom,run_get_bind,if_neg (by omega)]
  rfl

/-- Bytes that fit are written at once. -/
theorem putBytes_fit (h : e.Sized) {bs : List UInt8} (hfit : e.cursor+bs.length ≤ e.cap) :
    putBytes o bs e=poke bs e := by
  induction bs generalizing e with
  | nil =>
    have hsame : splice e.fixed e.cursor []=e.fixed := by simp [splice]
    show EStateM.Result.ok () e=.ok () {e with
      fixed := splice e.fixed e.cursor [], cursor := e.cursor+0}
    rw [hsame]
    rfl
  | cons b bs ih =>
    rw [List.length_cons] at hfit
    have hone : e.cursor+[b].length ≤ e.fixed.length := by
      rw [←h,List.length_singleton]
      omega
    rw [putBytes,putByte,run_bind,run_bind,makeRoom_here (by omega)]
    show putBytes o bs {e with
      fixed := splice e.fixed e.cursor [b], cursor := e.cursor+[b].length}=_
    have hroom : e.cursor+1+bs.length ≤ e.cap := by omega
    rw [ih (by rw [Enc.Sized,splice_length hone]; exact h) hroom]
    show EStateM.Result.ok () _=EStateM.Result.ok () _
    dsimp only
    rw [splice_splice hone,List.length_singleton,List.singleton_append,List.length_cons,
      Nat.add_assoc,Nat.add_comm 1]

/-- Bytes one run after the other. -/
theorem putBytes_append (bs cs : List UInt8) :
    putBytes o (bs++cs)=putBytes o bs >>= fun _ => putBytes o cs := by
  induction bs with
  | nil => rfl
  | cons b bs ih =>
    rw [List.cons_append,putBytes,ih,putBytes,bind_assoc]

/-- Room is made for the first of some bytes. -/
theorem putBytes_cons (b : UInt8) (bs : List UInt8) :
    putBytes o (b::bs)=makeRoom o >>= fun _ => poke [b] >>= fun _ => putBytes o bs := by
  rw [putBytes,putByte,bind_assoc]

/-- Where there is room the first byte is written. -/
theorem putBytes_room {b : UInt8} {bs : List UInt8} (h : e.cursor < e.cap) :
    (poke [b] >>= fun _ => putBytes o bs) e=putBytes o (b::bs) e := by
  rw [putBytes_cons,run_bind_ok (makeRoom_here h)]

/-- A bufferful at a time the bytes are written one after the other. -/
theorem putLoop_bytes (ho : o.Sizing) (data : List UInt8) {turns pos : ℕ}
    (ht : data.length-pos < turns) (h : e.Sized) :
    putLoop o data turns pos e=putBytes o (data.drop pos) e := by
  induction turns generalizing pos e with
  | zero => omega
  | succ turns ih =>
    rw [putLoop]
    split
    · next hlt =>
      obtain ⟨b,bs,hdrop⟩ : ∃ b bs, data.drop pos=b::bs := by
        cases hd : data.drop pos with
        | nil =>
          have hlen := congrArg List.length hd
          rw [List.length_drop,List.length_nil] at hlen
          omega
        | cons b bs => exact ⟨b,bs,rfl⟩
      rw [run_bind,hdrop,putBytes_cons,run_bind]
      cases hm : makeRoom o e with
      | error why m => rfl
      | ok u m =>
        have hs := makeRoom_sized ho h hm
        have hroom := makeRoom_room hm
        dsimp only
        -- the first byte of what is left finds the room that was made
        rw [putBytes_room hroom,←hdrop,run_get_bind]
        generalize hk : min (m.cap-m.cursor) (data.length-pos)=k
        have hlen : ((data.drop pos).take k).length=k := by
          rw [List.length_take,List.length_drop]
          omega
        have hfit : m.cursor+((data.drop pos).take k).length ≤ m.cap := by
          rw [hlen]
          omega
        have hwrote : Enc.Sized {m with
            fixed := splice m.fixed m.cursor ((data.drop pos).take k)
            cursor := m.cursor+((data.drop pos).take k).length} := by
          rw [Enc.Sized,splice_length (by rw [←hs]; exact hfit)]
          exact hs
        have hcut : putBytes o (data.drop pos)=
            putBytes o ((data.drop pos).take k) >>= fun _ => putBytes o ((data.drop pos).drop k) := by
          rw [←putBytes_append,List.take_append_drop]
        rw [hcut,run_bind,run_bind,putBytes_fit hs hfit]
        show putLoop o data turns (pos+k) _=putBytes o ((data.drop pos).drop k) _
        rw [ih (by omega) hwrote,List.drop_drop]
    · next hlt =>
      rw [List.drop_eq_nil_of_le (by omega)]
      rfl

/-- A run of bytes that is not handed over as a chunk is written byte by byte. -/
theorem put_bytes (ho : o.Sizing) (hm : o.inMemory=false) (data : List UInt8) (h : e.Sized) :
    put o data e=putBytes o data e := by
  rw [put,run_get_bind,hm]
  exact putLoop_bytes ho data (by omega) h

/-- What was written leaves a buffer of known length. -/
theorem putBytes_sized (ho : o.Sizing) (h : e.Sized) {bs : List UInt8}
    (hp : putBytes o bs e=.ok () e') : e'.Sized := by
  induction bs generalizing e with
  | nil =>
    cases hp
    exact h
  | cons b bs ih =>
    rw [putBytes,putByte,bind_assoc,run_bind] at hp
    cases hm : makeRoom o e with
    | error why m =>
      rw [hm] at hp
      cases hp
    | ok u m =>
      have hs := makeRoom_sized ho h hm
      have hroom := makeRoom_room hm
      rw [hm] at hp
      dsimp only at hp
      have hpoke : (poke [b] : EncM Unit) m=.ok () {m with
          fixed := splice m.fixed m.cursor [b], cursor := m.cursor+[b].length} := rfl
      rw [run_bind_ok hpoke] at hp
      refine ih ?_ hp
      have hone : m.cursor+[b].length ≤ m.fixed.length := by
        rw [←hs]
        exact hroom
      rw [Enc.Sized,splice_length hone]
      exact hs

/-- Two runs of bytes are written as one. -/
theorem put_append (ho : o.Sizing) (hm : o.inMemory=false) (bs cs : List UInt8) (h : e.Sized) :
    put o (bs++cs) e=(put o bs >>= fun _ => put o cs) e := by
  rw [put_bytes ho hm (bs++cs) h,putBytes_append,run_bind,run_bind,put_bytes ho hm bs h]
  cases hp : putBytes o bs e with
  | error why m => rfl
  | ok u m => exact (put_bytes ho hm cs (putBytes_sized ho h hp)).symm

/-- A varint is written as the bytes of its shortest encoding. -/
theorem emitVarint_bytes (ho : o.Sizing) (hm : o.inMemory=false) (h : e.Sized) {v : ℕ}
    (hv : v < 2^64) : emitVarint o v e=putBytes o (Varint.encode v) e := by
  have hlen := (Varint.encode_length hv).2
  rw [emitVarint,run_get_bind]
  split
  · next hroom =>
    unfold varintMax at hroom
    rw [inlineVarint_eq]
    exact (putBytes_fit h (by omega)).symm
  · exact put_bytes ho hm _ h

end Bytes

section Loops

variable {o : Outlet}

/-- The element loop writes one element after the other, wherever it keeps the cursor. -/
theorem elementLoop_words (word : Given → Except Exn ℕ) (vs : List Given) (cursor : ℕ) (e : Enc) :
    elementLoop o word vs e.installs (varintLimit e) cursor e=
      emitWords o word vs {e with cursor := cursor} := by
  induction vs generalizing cursor e with
  | nil => rfl
  | cons v vs ih =>
    rw [elementLoop,emitWords]
    cases hw : word v with
    | error why => rfl
    | ok u =>
      dsimp only
      have hput : (checked (.ok u) : EncM ℕ)=pure u := rfl
      rw [hput,pure_bind,run_bind,emitVarint,run_get_bind]
      have hlimit : (cursor : ℤ) > varintLimit e ↔ ¬cursor+varintMax ≤ e.cap := by
        unfold varintLimit
        omega
      by_cases hroom : cursor+varintMax ≤ e.cap
      · rw [if_neg fun h => hlimit.mp h hroom,if_pos hroom]
        show elementLoop o word vs e.installs (varintLimit e) (cursor+(inlineVarint u).length)
          (if e.installs=e.installs then {e with fixed := splice e.fixed cursor (inlineVarint u)}
            else e)=_
        rw [if_pos rfl]
        exact ih (cursor+(inlineVarint u).length)
          {e with fixed := splice e.fixed cursor (inlineVarint u)}
      · rw [if_pos (hlimit.mpr hroom),if_neg hroom]
        show (put o (encodeVarint u) >>= fun _ => get >>= fun m =>
          elementLoop o word vs m.installs (varintLimit m) m.cursor) {e with cursor := cursor}=_
        rw [run_bind]
        cases put o (encodeVarint u) {e with cursor := cursor} with
        | error why m => rfl
        | ok _ m => exact ih m.cursor m

/-- The boolean loop writes a byte for each element. -/
theorem boolLoop_bytes (ho : o.Sizing) (hm : o.inMemory=false) (vs : List Bool) (cursor : ℕ)
    (e : Enc) (h : e.Sized) :
    boolLoop o vs e.installs e.cap cursor e=
      putBytes o (vs.map boolByte) {e with cursor := cursor} := by
  induction vs generalizing cursor e with
  | nil => rfl
  | cons v vs ih =>
    rw [boolLoop,List.map_cons,putBytes_cons]
    by_cases hroom : cursor < e.cap
    · rw [if_neg (by omega),run_bind_ok (makeRoom_here hroom)]
      show boolLoop o vs e.installs e.cap (cursor+1)
        (if e.installs=e.installs then {e with fixed := splice e.fixed cursor [boolByte v]}
          else e)=_
      rw [if_pos rfl]
      refine ih (cursor+1) {e with fixed := splice e.fixed cursor [boolByte v]} ?_
      have hone : cursor+[boolByte v].length ≤ e.fixed.length := by
        rw [←h]
        exact hroom
      rw [Enc.Sized,splice_length hone]
      exact h
    · have hmoved : Enc.Sized {e with cursor := cursor} := h
      rw [if_pos (by omega)]
      show (put o [boolByte v] >>= fun _ => get >>= fun m =>
        boolLoop o vs m.installs m.cap m.cursor) {e with cursor := cursor}=
        (makeRoom o >>= fun _ => poke [boolByte v] >>= fun _ => putBytes o (vs.map boolByte))
          {e with cursor := cursor}
      have hcut : (makeRoom o >>= fun _ => poke [boolByte v] >>= fun _ =>
          putBytes o (vs.map boolByte))=
          putBytes o [boolByte v] >>= fun _ => putBytes o (vs.map boolByte) := by
        rw [←putBytes_cons,←putBytes_append]
        rfl
      rw [hcut,run_bind,run_bind,put_bytes ho hm _ hmoved]
      cases hp : putBytes o [boolByte v] {e with cursor := cursor} with
      | error why m => rfl
      | ok _ m => exact ih m.cursor m (putBytes_sized ho hmoved hp)

/-- The byte of a boolean is its shortest encoding. -/
theorem encode_bool (v : Bool) : Varint.encode (if v then 1 else 0)=[boolByte v] := by
  cases v <;> decide

/-- The number of a boolean. -/
def boolWord (v : Bool) : Except Exn ℕ := .ok (if v then 1 else 0)

/-- The byte of a boolean is the varint of a number. -/
theorem putBytes_words (ho : o.Sizing) (hm : o.inMemory=false) (vs : List Bool) {e : Enc}
    (h : e.Sized) : putBytes o (vs.map boolByte) e=emitWords o boolWord vs e := by
  induction vs generalizing e with
  | nil => rfl
  | cons v vs ih =>
    have hone : emitVarint o (if v then 1 else 0) e=putBytes o [boolByte v] e := by
      rw [emitVarint_bytes ho hm h (by cases v <;> decide),encode_bool]
    have hcut : putBytes o ((v::vs).map boolByte)=
        putBytes o [boolByte v] >>= fun _ => putBytes o (vs.map boolByte) := by
      rw [←putBytes_append]
      rfl
    have hput : (checked (boolWord v) : EncM ℕ)=pure (if v then 1 else 0) := rfl
    rw [hcut,emitWords,hput,pure_bind,run_bind,run_bind,hone]
    cases hp : putBytes o [boolByte v] e with
    | error why m => rfl
    | ok u m => exact ih (putBytes_sized ho h hp)

end Loops

end SofaBuffers
