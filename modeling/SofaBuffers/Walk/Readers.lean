import SofaBuffers.Decoder.Feed
import SofaBuffers.Walk.Header
import SofaBuffers.Walk.Whole

/-!
# The readers of a varint agree

The decoder reads a varint in five places: the inlined header word, the inlined length
word, the reader itself, the window loop of the arrays with its fallback, and the discard
that carries a byte count from chunk to chunk. All of them report the same thing of the
same bytes. An array is the plain loop over its elements: the width of an element is
judged where its own bytes end.
-/

set_option autoImplicit false

namespace SofaBuffers

open Resumable
open Dec

variable {V : Type}

/-- What a reader says of the bytes before it. -/
inductive Report (α : Type)
  /-- A value was there and took so many bytes. -/
  | value (a : α) (taken : ℕ)
  /-- The bytes end inside it. -/
  | truncated
  /-- The bytes are malformed. -/
  | refused (why : Exn)
  deriving DecidableEq

namespace Report

variable {α β : Type}

/-- The report of a reader that started at `start`, by the value and the cursor it left. -/
def of (f : α → Dec V → β × ℕ) (start : ℕ) : EStateM.Result Exn (Dec V) α → Report β
  | .ok a d => .value (f a d).1 ((f a d).2-start)
  | .error (.incomplete _) _ => .truncated
  | .error why _ => .refused why

/-- The report of a value made from another. -/
def map (f : α → β) : Report α → Report β
  | .value a n => .value (f a) n
  | .truncated => .truncated
  | .refused why => .refused why

/-- The report on a string of bytes by the reader of the format. -/
def spelled (xs : List UInt8) : Report ℕ :=
  match Varint.read overlong xs with
  | .done v rest => .value v (xs.length-rest.length)
  | .more => .truncated
  | .bad why => .refused why

/-- A value is reported exactly where one is spelled. -/
theorem spelled_value {xs : List UInt8} {v n : ℕ} :
    spelled xs=.value v n ↔ ∃ bs rest, Varint.Spells 0 bs v ∧ xs=bs++rest ∧ n=bs.length := by
  constructor
  · intro h
    rw [spelled] at h
    cases hr : Varint.read overlong xs with
    | more => simp [hr] at h
    | bad why => simp [hr] at h
    | done w rest =>
      obtain ⟨bs,hbs,rfl⟩ := Varint.read_done_iff.mp hr
      simp [hr] at h
      exact ⟨bs,rest,h.1 ▸ hbs,rfl,by omega⟩
  · rintro ⟨bs,rest,hbs,rfl,rfl⟩
    have hr : Varint.read overlong (bs++rest)=.done v rest :=
      Varint.read_done_iff.mpr ⟨bs,hbs,rfl⟩
    simp [spelled,hr]

/-- A truncation is reported exactly where the bytes end inside a varint. -/
theorem spelled_truncated {xs : List UInt8} : spelled xs=.truncated ↔ Varint.Cut 0 xs := by
  have hcut : Varint.read overlong xs=.more ↔ Varint.Cut 0 xs := Varint.read_more_iff
  rw [←hcut,spelled]
  cases hr : Varint.read overlong xs with
  | more => simp
  | bad why => simp
  | done v rest => simp

/-- A refusal is reported exactly where the bytes start with an overlong varint. -/
theorem spelled_refused {xs : List UInt8} {why : Exn} :
    spelled xs=.refused why ↔
      why=overlong ∧ ∃ bs rest, Varint.Overlong 0 bs ∧ xs=bs++rest := by
  have hbad : Varint.read overlong xs=.bad why ↔
      why=overlong ∧ ∃ bs rest, Varint.Overlong 0 bs ∧ xs=bs++rest := Varint.read_bad_iff
  rw [←hbad,spelled]
  cases hr : Varint.read overlong xs with
  | more => simp
  | bad w => simp
  | done v rest => simp

/-- A refusal is for the overlong varint alone, and it is not a truncation. -/
theorem read_refused {xs : List UInt8} {why : Exn} (h : Varint.read overlong xs=.bad why) :
    why=.decode "overlong varint" := (Varint.read_bad_iff.mp h).1

end Report

open Report

section Readers

variable {d : Dec V} {pos : ℕ}

/-- The reader at a cursor. -/
def varintAt (d : Dec V) (pos : ℕ) : Report ℕ :=
  .of (fun v d => (v,d.pos)) pos ((varint : DecM V ℕ) {d with pos := pos})

/-- How many bytes are taken up to a tail of the bytes left. -/
theorem taken_eq (hd : d.Filled) (rest : List UInt8) :
    d.seek rest-pos=(d.restFrom pos).length-rest.length := by
  have hl := restFrom_length hd pos
  rw [seek]
  omega

/-- The reader reports what is spelled at its cursor. -/
theorem varintAt_eq (hd : d.Filled) (pos : ℕ) : varintAt d pos=spelled (d.restFrom pos) := by
  have hd' : Dec.Filled {d with pos := pos} := hd
  have hrun := varint_run hd'
  have hrest : Dec.rest {d with pos := pos}=d.restFrom pos := rfl
  rw [hrest] at hrun
  rw [varintAt,hrun,spelled]
  cases hr : Varint.read overlong (d.restFrom pos) with
  | more => rfl
  | bad why =>
    have hwhy := read_refused hr
    simp [Report.of,hwhy]
  | done v rest =>
    have htaken : d.seek rest-pos=(d.restFrom pos).length-rest.length := taken_eq hd rest
    have hseek : Dec.seek {d with pos := pos} rest=d.seek rest := rfl
    simp [Report.of,hseek,htaken]

/-- An element of several bytes is reported as the reader at its first byte would, inside
the window and outside it. -/
theorem multiByte_report (hd : d.Filled) {b : UInt8} {t : List UInt8}
    (hx : d.restFrom pos=b::t) (hb : 128 ≤ b.toNat) :
    Report.of (fun r _ => r) pos ((multiByte b pos : DecM V (ℕ × ℕ)) d)=varintAt d pos := by
  obtain ⟨p,hm⟩ := multiByte_run hd hx (by omega)
  rw [varintAt_eq hd,spelled,hm]
  cases hr : Varint.read overlong (d.restFrom pos) with
  | more => rfl
  | bad why =>
    have hwhy := read_refused hr
    simp [Report.of,hwhy]
  | done v rest =>
    have htaken : d.seek rest-pos=(d.restFrom pos).length-rest.length := taken_eq hd rest
    simp [Report.of,htaken]

/-- The window loop reports what the reader would, wherever ten bytes are left. -/
theorem windowTail_report (hd : d.Filled) {b : UInt8} {t : List UInt8}
    (hx : d.restFrom pos=b::t) (hb : 128 ≤ b.toNat) (h9 : 9 ≤ d.n-(pos+1)) :
    Report.of (fun r _ => r) pos ((windowTail 8 (b.toNat%128) 7 (pos+1) : DecM V (ℕ × ℕ)) d)=
      varintAt d pos := by
  have hm := multiByte_report hd hx hb
  rw [multiByte,run_get_bind,if_pos h9] at hm
  exact hm

/-- The element loop reports of one element what the reader would. -/
theorem element_report (c : Config V) (hd : d.Filled) (hp : pos ≤ d.n) :
    Report.of (fun xs d => (xs,d.pos)) pos
      (readVarintsLoop c (.of none none false) false none 0 1 0 pos [] d)=
      (varintAt d pos).map fun v : ℕ => [(v : ℤ)] := by
  have hloop := readVarintsLoop_run c none none false none 0 hd 1 0 pos hp []
  rw [varintAt_eq hd,spelled]
  rw [scan] at hloop
  cases hr : Varint.read overlong (d.restFrom pos) with
  | more =>
    simp [hr,LoopEnds] at hloop
    simp [hloop,Report.of,Report.map]
  | bad why =>
    have hwhy := read_refused hr
    simp [hr,LoopEnds] at hloop
    obtain ⟨p,hloop⟩ := hloop
    simp [hloop,Report.of,Report.map,hwhy]
  | done v rest =>
    have htaken : d.seek rest-pos=(d.restFrom pos).length-rest.length := taken_eq hd rest
    have hin : (Bound.of none none false).outside (element false v)=false := rfl
    simp [hr,LoopEnds,scan,hin] at hloop
    simp [hloop,Report.of,Report.map,htaken,element]

end Readers

section Discards

variable {d : Dec V}

/-- The decoder when its buffer is a chunk. -/
def Dec.over (d : Dec V) (chunk : List UInt8) : Dec V :=
  {d with buf := chunk, n := chunk.length, pos := 0}

/-- The bytes of a discard that the chunks of a message hold, one chunk after the other, until
it is over: how many they are (`_drain_discard`). -/
def drainChunks : List (List UInt8) → ℕ → Dec V → Report Unit
  | [], _, _ => .truncated
  | chunk::chunks, gone, d =>
    match (skipPending : DecM V Unit) (d.over chunk) with
    | .ok _ d => .value () (gone+d.pos)
    | .error (.incomplete _) d => drainChunks chunks (gone+d.pos) d
    | .error why _ => .refused why

/-- What dropping off a string of bytes reports, so many bytes being gone already. -/
def Report.ofDrop (gone total : ℕ) : Drop → Report Unit
  | .gone rest => .value () (gone+(total-rest.length))
  | .left _ _ => .truncated
  | .bad why => .refused why

/-- Where the bytes end a discard is left with what it still has to drop, and it is refused
for an overlong varint only. -/
theorem dropVarints_ends (k v : ℕ) (xs : List UInt8) :
    (∀ q rest, dropVarints k v xs=.left q rest → rest=[] ∧ ∃ j w, q=.discard 0 j w) ∧
      ∀ why, dropVarints k v xs=.bad why → why=overlong := by
  fun_induction dropVarints k v xs with
  | case1 => simp
  | case2 n v => simp
  | case3 => simp
  | case4 _ _ _ _ _ _ ih => exact ih
  | case5 _ _ _ _ _ _ ih => exact ih
  | case6 _ _ _ _ _ _ ih => exact ih

/-- Dropping one varint more is reading it and throwing it away. -/
theorem dropVarints_read (k v acc : ℕ) (xs : List UInt8) (hv : v ≤ 9) :
    match Varint.readFrom overlong v acc xs with
    | .done _ rest => dropVarints (k+1) v xs=dropVarints k 0 rest
    | .more => ∃ q rest, dropVarints (k+1) v xs=.left q rest
    | .bad why => dropVarints (k+1) v xs=.bad why := by
  induction xs generalizing v acc with
  | nil => exact ⟨_,_,rfl⟩
  | cons b t ih =>
    rw [Varint.readFrom]
    by_cases h9 : v < 9
    · have hten : ¬v+1=10 := by omega
      by_cases hb : b.toNat < 128
      · simp [h9,hb,hten,dropVarints]
      · have hnext := ih (v+1) (acc+(b.toNat-128)*128^v) (by omega)
        simpa [h9,hb,hten,dropVarints] using hnext
    · have hten : v+1=10 := by omega
      by_cases hb : b.toNat ≤ 1
      · have hone : ¬1 < b.toNat := by omega
        simp [h9,hb,hten,hone,dropVarints]
      · have hone : 1 < b.toNat := by omega
        simp [h9,hb,hten,hone,dropVarints]

/-- Dropping varints is scanning them with no width. -/
theorem dropVarints_scan (k : ℕ) (xs : List UInt8) :
    match (scan (.of none none false) false k xs).2 with
    | .done rest => dropVarints k 0 xs=.gone rest
    | .more => ∃ q rest, dropVarints k 0 xs=.left q rest
    | .bad why => dropVarints k 0 xs=.bad why := by
  induction k generalizing xs with
  | zero => simp [scan,dropVarints]
  | succ k ih =>
    have hread := dropVarints_read k 0 0 xs (by omega)
    have hin : ∀ raw : ℕ, (Bound.of none none false).outside (element false raw)=false :=
      fun _ => rfl
    rw [scan,Varint.read]
    cases hr : Varint.readFrom overlong 0 0 xs with
    | more => simpa [hr] using hread
    | bad why => simpa [hr] using hread
    | done raw rest =>
      have hrest := ih rest
      rw [hr] at hread
      simpa [hin,hread] using hrest

/-- One chunk of a discard. -/
theorem over_drop (chunk : List UInt8) {k v : ℕ} (hk : d.pending=some (.discard 0 k v)) :
    DropEnds ((skipPending : DecM V Unit) (d.over chunk)) (d.over chunk)
      (dropVarints k v chunk) := by
  have hfilled : (d.over chunk).Filled := Nat.le_refl _
  have hdrain := drainDiscard_run hfilled (Nat.zero_le _) 0 k v
  have hrest : (d.over chunk).rest=chunk := by simp [Dec.rest,Dec.restFrom,Dec.over]
  have hrun : (skipPending : DecM V Unit) (d.over chunk)=drainDiscard 0 k v (d.over chunk) := by
    have hpend : (d.over chunk).pending=some (.discard 0 k v) := hk
    rw [skipPending,run_get_bind,hpend]
  rw [hrun]
  simpa [hrest,dropDiscard] using hdrain

/-- A discard goes over one chunk, and on to the next where that one ends. -/
theorem drainChunks_cons (chunk : List UInt8) (chunks : List (List UInt8)) (gone : ℕ) {k v : ℕ}
    (hk : d.pending=some (.discard 0 k v)) :
    drainChunks (chunk::chunks) gone d=match dropVarints k v chunk with
      | .gone rest => .value () (gone+(chunk.length-rest.length))
      | .left q _ => drainChunks chunks (gone+chunk.length)
          {d.over chunk with pos := chunk.length, pending := some q}
      | .bad why => .refused why := by
  have hone := over_drop chunk hk
  rw [drainChunks]
  cases hdrop : dropVarints k v chunk with
  | gone rest =>
    rw [hdrop] at hone
    have hrun : (skipPending : DecM V Unit) (d.over chunk)=
        .ok () {d.over chunk with pos := (d.over chunk).seek rest, pending := none} := hone
    rw [hrun]
    rfl
  | left q rest =>
    have hnil := ((dropVarints_ends k v chunk).1 q rest hdrop).1
    rw [hdrop,hnil] at hone
    obtain ⟨msg,hrun⟩ := hone
    rw [hrun]
    rfl
  | bad why =>
    rw [hdrop] at hone
    obtain ⟨p,q,hrun⟩ := hone
    have hwhy := (dropVarints_ends k v chunk).2 why hdrop
    rw [hrun,hwhy]
    rfl

/-- A discard over chunks drops what it would drop off all of them. -/
theorem drainChunks_drop (chunk : List UInt8) (chunks : List (List UInt8)) (gone k v : ℕ)
    (hk : d.pending=some (.discard 0 k v)) :
    drainChunks (chunk::chunks) gone d=
      .ofDrop gone (chunk::chunks).flatten.length (dropVarints k v (chunk::chunks).flatten) := by
  induction chunks generalizing chunk gone k v d with
  | nil =>
    rw [drainChunks_cons chunk [] gone hk,List.flatten_singleton]
    cases hdrop : dropVarints k v chunk with
    | gone rest => simp [ofDrop]
    | left q rest => simp [ofDrop,drainChunks]
    | bad why => simp [ofDrop]
  | cons next chunks ih =>
    have hnext := fun d' gone' k' v' => @ih d' next gone' k' v'
    rw [drainChunks_cons chunk (next::chunks) gone hk,List.flatten_cons]
    generalize (next::chunks).flatten=ys at hnext
    have hmore := dropVarints_extends k v chunk ys
    cases hdrop : dropVarints k v chunk with
    | gone rest =>
      have hlen := (dropVarints_suffix hdrop).length_le
      have hall : dropVarints k v (chunk++ys)=.gone (rest++ys) := by
        simpa [hdrop,Drop.Extends] using hmore
      simp [hall,ofDrop]
      omega
    | left q rest =>
      obtain ⟨hnil,j,w,hq⟩ := (dropVarints_ends k v chunk).1 q rest hdrop
      have hall : dropVarints j w ys=dropVarints k v (chunk++ys) := by
        simpa [hdrop,hnil,hq,Drop.Extends,Pending.drop,dropDiscard] using hmore
      have hpend : ({d.over chunk with pos := chunk.length, pending := some q} : Dec V).pending=
          some (.discard 0 j w) := congrArg some hq
      have hrest := hnext _ (gone+chunk.length) j w hpend
      refine hrest.trans ?_
      rw [hall]
      cases hlong : dropVarints k v (chunk++ys) with
      | gone rest =>
        have hlen := (dropVarints_suffix (hall.trans hlong)).length_le
        simp [ofDrop]
        omega
      | left q rest => simp [ofDrop]
      | bad why => simp [ofDrop]
    | bad why =>
      have hall : dropVarints k v (chunk++ys)=.bad why := by
        simpa [hdrop,Drop.Extends] using hmore
      simp [hall,ofDrop]

/-- So many varints read one after the other, and thrown away. -/
def readTimes : ℕ → DecM V Unit
  | 0 => pure ()
  | k+1 => do
    let _ ← varint
    readTimes k

/-- Reads thrown away take the bytes a scan takes. -/
theorem readTimes_run (hd : d.Filled) (hp : d.pos ≤ d.n) (k : ℕ) :
    match (scan (.of none none false) false k d.rest).2 with
    | .done rest => readTimes k d=.ok () {d with pos := d.seek rest}
    | .more => readTimes k d=.error (.incomplete "truncated varint") {d with pos := d.keep}
    | .bad why => ∃ p, readTimes k d=.error why {d with pos := p} := by
  induction k generalizing d with
  | zero =>
    have hseek : d.seek d.rest=d.pos := seek_restFrom hd hp
    simp only [scan,hseek]
    rfl
  | succ k ih =>
    have hin : ∀ raw : ℕ, (Bound.of none none false).outside (element false raw)=false :=
      fun _ => rfl
    rw [scan,readTimes]
    cases hr : Varint.read overlong d.rest with
    | more => exact run_bind_error (varint_more hd hr)
    | bad why => exact ⟨d.pos,run_bind_error (varint_bad hd hr)⟩
    | done raw rest =>
      have hsuffix := (Varint.stable_read overlong).suffix hr
      have hrest : Dec.rest {d with pos := d.seek rest}=rest := restFrom_seek hd hsuffix
      have hnext := @ih {d with pos := d.seek rest} hd (by simp [Dec.seek])
      have hrun : (varint >>= fun _ => readTimes k : DecM V Unit) d=
          readTimes k {d with pos := d.seek rest} := run_bind_ok (varint_done hd hr)
      rw [hrest] at hnext
      simp only [hin,hrun]
      exact hnext

/-- A discard over chunks takes the bytes that reading the varints would. -/
theorem drainChunks_reads (chunk : List UInt8) (chunks : List (List UInt8)) (k : ℕ)
    (hk : d.pending=some (.discard 0 k 0)) :
    drainChunks (chunk::chunks) 0 d=
      .of (fun _ d => ((),d.pos)) 0 (readTimes k (d.over (chunk::chunks).flatten)) := by
  rw [drainChunks_drop chunk chunks 0 k 0 hk]
  generalize (chunk::chunks).flatten=xs
  have hfilled : (d.over xs).Filled := Nat.le_refl _
  have hreads := readTimes_run hfilled (Nat.zero_le _) k
  have hrest : (d.over xs).rest=xs := by simp [Dec.rest,Dec.restFrom,Dec.over]
  have hdrop := dropVarints_scan k xs
  rw [hrest] at hreads
  cases hs : (scan (.of none none false) false k xs).2 with
  | done rest =>
    rw [hs] at hreads hdrop
    dsimp only at hreads hdrop
    rw [hreads,hdrop]
    simp [ofDrop,Report.of,Dec.seek,Dec.over]
  | more =>
    rw [hs] at hreads hdrop
    obtain ⟨q,rest,hdrop⟩ := hdrop
    dsimp only at hreads
    rw [hreads,hdrop]
    rfl
  | bad why =>
    rw [hs] at hreads hdrop
    obtain ⟨p,hreads⟩ := hreads
    dsimp only at hdrop
    have hwhy := (dropVarints_ends k 0 xs).2 why hdrop
    rw [hreads,hdrop,hwhy]
    rfl

end Discards

section Agreement

variable {d : Dec V} {pos : ℕ}

/-- The length word of a fixlen field, read inline when its first byte is there. -/
def lengthWord : DecM V ℕ := do
  let d ← get
  if d.pos < d.n then inlineWord else varint

/-- All readers say the same of the bytes at a cursor, and they accept the encodings of one
to ten bytes whose tenth is at most one. -/
structure ReadersAgree (c : Config V) (d : Dec V) (pos : ℕ) : Prop where
  /-- A value is reported exactly where one is spelled, with the bytes of its spelling. -/
  value : ∀ v n, varintAt d pos=.value v n ↔
    ∃ bs rest, Varint.Spells 0 bs v ∧ d.restFrom pos=bs++rest ∧ n=bs.length
  /-- A truncation is reported exactly where the bytes end inside a varint. -/
  truncated : varintAt d pos=.truncated ↔ Varint.Cut 0 (d.restFrom pos)
  /-- A refusal is reported exactly where the bytes start with an overlong varint. -/
  refused : ∀ why, varintAt d pos=.refused why ↔
    why=overlong ∧ ∃ bs rest, Varint.Overlong 0 bs ∧ d.restFrom pos=bs++rest
  /-- The inlined header word reports the same. -/
  header : pos < d.n →
    .of (fun v d => (v,d.pos)) pos ((inlineWord : DecM V ℕ) {d with pos := pos})=varintAt d pos
  /-- The inlined length word reports the same. -/
  length :
    .of (fun v d => (v,d.pos)) pos ((lengthWord : DecM V ℕ) {d with pos := pos})=varintAt d pos
  /-- The window loop, where it is used, reports the same. -/
  window : ∀ b t, d.restFrom pos=b::t → 128 ≤ b.toNat → 9 ≤ d.n-(pos+1) →
    .of (fun r _ => r) pos ((windowTail 8 (b.toNat%128) 7 (pos+1) : DecM V (ℕ × ℕ)) d)=
      varintAt d pos
  /-- An element of several bytes, in the window or by the fallback, is reported the same. -/
  fallback : ∀ b t, d.restFrom pos=b::t → 128 ≤ b.toNat →
    .of (fun r _ => r) pos ((multiByte b pos : DecM V (ℕ × ℕ)) d)=varintAt d pos
  /-- The element loop reports the same for any element. -/
  element : .of (fun xs d => (xs,d.pos)) pos
    (readVarintsLoop c (.of none none false) false none 0 1 0 pos [] d)=
      (varintAt d pos).map fun v : ℕ => [(v : ℤ)]
  /-- Dropping varints takes the bytes that reading them would, wherever the chunks are cut. -/
  discard : ∀ k chunk chunks, d.pending=some (.discard 0 k 0) →
    drainChunks (chunk::chunks) 0 d=
      .of (fun _ d => ((),d.pos)) 0 (readTimes k (d.over (chunk::chunks).flatten))

/-- The varint readers of the decoder agree, at every cursor of every buffer. -/
theorem readers_agree (c : Config V) (hd : d.Filled) (hp : pos ≤ d.n) : ReadersAgree c d pos := by
  have hspelled := varintAt_eq hd pos
  have hd' : Dec.Filled {d with pos := pos} := hd
  have hheader : pos < d.n → (inlineWord : DecM V ℕ) {d with pos := pos}=
      (varint : DecM V ℕ) {d with pos := pos} := fun h => inlineWord_run hd' h
  constructor
  · intro v n
    rw [hspelled]
    exact spelled_value
  · rw [hspelled]
    exact spelled_truncated
  · intro why
    rw [hspelled]
    exact spelled_refused
  · intro h
    rw [hheader h,varintAt]
  · rw [lengthWord,run_get_bind]
    by_cases h : pos < d.n
    · simp only [h,if_true]
      rw [hheader h,varintAt]
    · simp only [h,if_false]
      rw [varintAt]
  · intro b t hx hb h9
    exact windowTail_report hd hx hb h9
  · intro b t hx hb
    exact multiByte_report hd hx hb
  · exact element_report c hd hp
  · intro k chunk chunks hk
    exact drainChunks_reads chunk chunks k hk

/-- The varint readers agree on a padded varint of two bytes with another behind it. -/
theorem readers_agree_padded :
    ReadersAgree listener ((Dec.fresh listener [] blank).over [0x80,0x00,0x07]) 0 :=
  readers_agree listener (Nat.le_refl _) (Nat.zero_le _)

end Agreement

end SofaBuffers
