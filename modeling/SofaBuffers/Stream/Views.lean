import SofaBuffers.Stream.Span

/-!
# Chunks that are views

A chunk is any buffer of the caller's, and what `len` says of one is how many
items it has. Where bytes are held, the chunk is put behind them by that count;
feeding it is feeding its bytes exactly if the count does not matter or is that
of its bytes.
-/

set_option autoImplicit false

namespace SofaBuffers

open Resumable Dec

variable {V : Type}

/-- A contiguous buffer, in items of some bytes. -/
structure Chunk where
  /-- The content of the buffer. -/
  bytes : List UInt8
  /-- How many bytes an item has. -/
  itemSize : ℕ
  /-- An item has at least one byte. -/
  pos : 0 < itemSize
  /-- The items make up the content. -/
  whole : itemSize∣bytes.length

/-- `len` of a buffer. -/
def Chunk.len (chunk : Chunk) : ℕ := chunk.bytes.length/chunk.itemSize

/-- A `bytes` object. -/
def Chunk.ofBytes (data : List UInt8) : Chunk := ⟨data,1,Nat.one_pos,Nat.one_dvd _⟩

/-- `r[i:j] = data` of a `bytearray`: all of the data takes the place of the slice. -/
def assign (r : List UInt8) (i j : ℕ) (data : List UInt8) : List UInt8 :=
  r.take i++data++r.drop j

/-- Put the chunk behind what is held. -/
def appendChunk (chunk : Chunk) : DecM V Unit := do
  let d ← get
  let n := chunk.len
  if d.rend+n > d.rbuf.length then
    throw (tooLong d.rbuf.length (d.rend-d.rstart+n))
  else
    let r := assign d.rbuf d.rend (d.rend+n) chunk.bytes
    set {d with
      rbuf := r, rend := d.rend+n, buf := r, bufIsR := true, n := d.rend+n, pos := d.rstart}

/-- Put the chunk where the walk can reach it (`_reassemble`). -/
def reassembleChunk (chunk : Chunk) : DecM V Unit := do
  let d ← get
  let held := d.rend-d.rstart
  if held=0 then
    -- `bytes(data)` is the content, whatever the items are
    set {d with
      buf := chunk.bytes, bufIsR := false, n := chunk.bytes.length, rstart := 0, rend := 0
      pos := 0}
  else
    slide chunk.len
    appendChunk chunk

/-- Consume a chunk with a walk of the fed bytes (`feed`, in either engine). -/
def feedChunk (walk : DecM V Bool) (chunk : Chunk) : DecM V Status := do
  let d ← get
  match d.limit with
  | some e => throw e
  | none =>
    if d.status=.invalid then pure .invalid
    else
      reassembleChunk chunk
      arm
      conclude walk

/-- Feed chunks one after the other; `last` is the outcome so far. -/
def feedChunks (c : Config V) (last : Status) : List Chunk → DecM V Status
  | [] => pure last
  | chunk::chunks => do
    let last ← feedChunk (drivePush c) chunk
    feedChunks c last chunks

section Chunk

variable {walk : DecM V Bool} {chunk chunk' : Chunk}

/-- A `bytes` object has as many items as bytes. -/
@[simp] theorem len_ofBytes (data : List UInt8) : (Chunk.ofBytes data).len=data.length :=
  Nat.div_one data.length

/-- Chunks that are put alike are fed alike. -/
theorem feedChunk_congr {d : Dec V} (h : reassembleChunk chunk d=reassembleChunk chunk' d) :
    feedChunk walk chunk d=feedChunk walk chunk' d := by
  rw [feedChunk,feedChunk,run_get_bind,run_get_bind]
  cases d.limit with
  | some e => rfl
  | none =>
    dsimp only
    split
    · rfl
    · rw [run_bind,run_bind,h]

/-- Putting a `bytes` object behind what is held. -/
theorem reassembleChunk_ofBytes (data : List UInt8) :
    (reassembleChunk (.ofBytes data) : DecM V Unit)=reassemble data := by
  simp only [reassembleChunk,reassemble,appendChunk,append,len_ofBytes]
  rfl

/-- A chunk with as many items as bytes is put as they are. -/
theorem reassembleChunk_of_len (hlen : chunk.len=chunk.bytes.length) :
    (reassembleChunk chunk : DecM V Unit)=reassembleChunk (.ofBytes chunk.bytes) := by
  simp only [reassembleChunk,appendChunk,hlen,len_ofBytes]
  rfl

/-- Feeding a `bytes` object is feeding its bytes. -/
theorem feedChunk_ofBytes (c : Config V) (data : List UInt8) :
    feedChunk (drivePush c) (.ofBytes data)=feed c data := by
  funext d
  rw [feedChunk,feed,run_get_bind,run_get_bind]
  cases d.limit with
  | some e => rfl
  | none =>
    dsimp only
    rw [reassembleChunk_ofBytes]

/-- A chunk has no more items than bytes. -/
theorem Chunk.len_le (chunk : Chunk) : chunk.len ≤ chunk.bytes.length :=
  Nat.div_le_self _ _

/-- A chunk has fewer items than bytes, unless they are bytes or there are none. -/
theorem Chunk.len_lt (hsize : chunk.itemSize≠1) (hne : chunk.bytes≠[]) :
    chunk.len < chunk.bytes.length := by
  have hpos := chunk.pos
  have hlength := List.length_pos_iff.mpr hne
  exact Nat.div_lt_self hlength (by omega)

/-- A slice that is assigned more than it holds grows the buffer. -/
theorem assign_length {r : List UInt8} {i j : ℕ} (data : List UInt8) (hij : i ≤ j)
    (hj : j ≤ r.length) :
    (assign r i j data).length+(j-i)=r.length+data.length := by
  rw [assign,List.length_append,List.length_append,List.length_take,List.length_drop]
  omega

end Chunk

/-- Two feeds end in the same status or class of error, over the same decoder, so that all later
behaviour is the same. -/
inductive Same : EStateM.Result Exn (Dec V) Status → EStateM.Result Exn (Dec V) Status → Prop
  /-- Both answer. -/
  | answered {st : Status} {d : Dec V} : Same (.ok st d) (.ok st d)
  /-- Both raise. -/
  | raised {e e' : Exn} {d : Dec V} (h : e.cls=e'.cls) : Same (.error e d) (.error e' d)

/-- A chunk is fed as its bytes are. -/
structure AsBytes (walk : DecM V Bool) (d : Dec V) (chunk : Chunk) : Prop where
  /-- It comes to the same. -/
  same : Same (feedChunk walk chunk d) (feedChunk walk (.ofBytes chunk.bytes) d)
  /-- The reassembly buffer is not resized. -/
  size : (leftBy (feedChunk walk chunk d)).rbuf.length=d.rbuf.length
  /-- Every byte of it is walked. -/
  walked : d.Live → ∀ d', reassembleChunk chunk d=.ok () d' → d'.rest=d.held++chunk.bytes

/-- The count of a chunk does not matter, or is that of its bytes: its items are bytes, it is
empty, nothing is held, or not even that many bytes would fit. -/
def Chunk.Safe (chunk : Chunk) (d : Dec V) : Prop :=
  chunk.itemSize=1 ∨ chunk.bytes=[] ∨ d.held=[] ∨ d.rbuf.length < d.held.length+chunk.len

/-- A walk leaves the size of the reassembly buffer as it is. -/
def Sizing (walk : DecM V Bool) : Prop :=
  ∀ d : Dec V, d.Ok → (leftBy (walk d)).rbuf.length=d.rbuf.length

/-- The pure engine's does. -/
theorem drivePush_sizing (c : Config V) : Sizing (drivePush c) :=
  fun _ hok => congrArg (fun f => f.rbuf.length) (drivePush_frame c hok)

section Live

variable {walk : DecM V Bool} {d : Dec V} {chunk : Chunk}

/-- A feed goes on from where its chunk was put. -/
theorem feedChunk_live (hl : d.Live) {d' : Dec V} (h : reassembleChunk chunk d=.ok () d') :
    feedChunk walk chunk d=conclude walk {d' with keep := d'.pos} := by
  rw [feedChunk,run_get_bind,hl.limit]
  dsimp only
  rw [if_neg hl.status,run_bind_ok h,arm_bind]

/-- A feed is refused if its chunk is. -/
theorem feedChunk_refused (hl : d.Live) {e : Exn} {d' : Dec V}
    (h : reassembleChunk chunk d=.error e d') : feedChunk walk chunk d=.error e d' := by
  rw [feedChunk,run_get_bind,hl.limit]
  dsimp only
  rw [if_neg hl.status,run_bind_error h]

/-- A feed does not resize the buffer once its chunk was put. -/
theorem feedChunk_size (hw : Sizing walk) (hl : d.Live) {d' : Dec V} (hok : d'.Ok)
    (h : reassembleChunk chunk d=.ok () d') :
    (leftBy (feedChunk walk chunk d)).rbuf.length=d'.rbuf.length := by
  have hok' : Dec.Ok {d' with keep := d'.pos} := ⟨hok.filled,hok.pos,hok.skip,hok.up,hok.visit⟩
  rw [feedChunk_live hl h]
  exact (conclude_cleared (hw _ hok')).2

/-- A `bytes` object is refused for its size or walked, what is held before it. -/
theorem ofBytes_sizing (hw : Sizing walk) (hi : d.Idle) (hl : d.Live) (data : List UInt8) :
    (leftBy (feedChunk walk (.ofBytes data) d)).rbuf.length=d.rbuf.length ∧
      ∀ d', reassemble data d=.ok () d' → d'.rest=d.held++data := by
  have hre := reassemble_run hi hl data
  split at hre
  · obtain ⟨d',hr,-,-,-,-,hs⟩ := hre
    constructor
    · rw [←reassembleChunk_ofBytes] at hr
      rw [feedChunk_refused hl hr]
      exact hs
    · intro d₁ h₁
      rw [hr] at h₁
      cases h₁
  · obtain ⟨d',hr,hopen⟩ := hre
    constructor
    · rw [←reassembleChunk_ofBytes] at hr
      rw [feedChunk_size hw hl hopen.ok hr]
      exact hopen.size
    · intro d₁ h₁
      rw [hr] at h₁
      cases h₁
      exact hopen.rest

/-- Where not even so many bytes fit, how many more there are does not matter to the slide. -/
theorem slide_far {n m : ℕ} (hn : d.rbuf.length < d.rend+n) (hm : d.rbuf.length < d.rend+m) :
    slide n d=slide m d := by
  simp only [slide,run_modify,gt_iff_lt,hn,hm]

/-- A chunk whose count does not fit is refused, and left is what is left of its bytes. -/
theorem reassembleChunk_refused (hi : d.Idle) (hl : d.Live) (hheld : d.held≠[]) {n : ℕ}
    (hn : n ≤ chunk.len) (hover : d.rbuf.length < d.held.length+n) : ∃ d' need,
      slide n d=.ok () d' ∧ reassembleChunk chunk d=.error (tooLong d.rbuf.length need) d' ∧
        d'.rbuf.length=d.rbuf.length := by
  have hlen := held_length hi
  have hstart := hi.start
  obtain ⟨d',hslide,hi',-,-,hheld',hsize,-⟩ := slide_run hi hl n
  have hlen' := held_length hi'
  rw [hheld'] at hlen'
  have hsame : slide chunk.len d=.ok () d' := by
    rw [←hslide]
    exact slide_far (by omega) (by omega)
  have hne : d.rend-d.rstart≠0 := by
    intro hz
    exact hheld (List.length_eq_zero_iff.mp (hlen.trans hz))
  refine ⟨d',d'.rend-d'.rstart+chunk.len,hslide,?_,hsize⟩
  have hfar : d'.rend+chunk.len > d'.rbuf.length := by omega
  rw [reassembleChunk,run_get_bind,if_neg hne,run_bind_ok hsame,appendChunk,run_get_bind,
    if_pos hfar,run_throw,hsize]

/-- A chunk whose count fits is put behind what is held, and the buffer grows by the bytes its
count leaves out. -/
theorem reassembleChunk_grows (hi : d.Idle) (hl : d.Live) (hheld : d.held≠[])
    (hroom : d.held.length+chunk.len ≤ d.rbuf.length) : ∃ d',
      reassembleChunk chunk d=.ok () d' ∧ d'.Ok ∧
        d'.rbuf.length+chunk.len=d.rbuf.length+chunk.bytes.length := by
  have hlen := held_length hi
  obtain ⟨d₁,hslide,hi₁,hl₁,-,hheld₁,hsize,hfit⟩ := slide_run hi hl chunk.len
  have hlen₁ := held_length hi₁
  have hstart₁ := hi₁.start
  have hroom₁ := hi₁.room
  rw [hheld₁] at hlen₁
  have hne : d.rend-d.rstart≠0 := by
    intro hz
    exact hheld (List.length_eq_zero_iff.mp (hlen.trans hz))
  have hle : d₁.rend+chunk.len ≤ d₁.rbuf.length := by omega
  have hgrown := assign_length chunk.bytes (Nat.le_add_right d₁.rend chunk.len) hle
  have hcount := chunk.len_le
  rw [reassembleChunk,run_get_bind,if_neg hne,run_bind_ok hslide,appendChunk,run_get_bind,
    if_neg (Nat.not_lt.mpr hle)]
  refine ⟨_,rfl,hi₁.ok (by omega) (by omega),?_⟩
  show (assign d₁.rbuf d₁.rend (d₁.rend+chunk.len) chunk.bytes).length+chunk.len=_
  omega

/-- A feed under a verdict does not look at its chunk. -/
theorem feedChunk_over (hv : d.status=.invalid ∨ d.limit.isSome) (chunk : Chunk) :
    feedChunk walk chunk d=
      match d.limit with
      | some e => .error e d
      | none => .ok .invalid d := by
  rw [feedChunk,run_get_bind]
  cases hlim : d.limit with
  | some e => rfl
  | none =>
    have hs : d.status=.invalid := by
      rw [hlim] at hv
      exact hv.resolve_right (by simp)
    dsimp only
    rw [if_pos hs]
    rfl

end Live

section Exact

variable {walk : DecM V Bool} {d : Dec V} {chunk : Chunk} {room : ℕ} {fed : List UInt8}

/-- Every result is the same as itself. -/
theorem Same.refl (r : EStateM.Result Exn (Dec V) Status) : Same r r := by
  cases r with
  | ok st d => exact .answered
  | error e d => exact .raised rfl

/-- A chunk that is put as its bytes are is fed as they are. -/
theorem asBytes_of_put (hw : Sizing walk) (hi : d.Idle) (hl : d.Live)
    (hput : reassembleChunk chunk d=reassembleChunk (.ofBytes chunk.bytes) d) :
    AsBytes walk d chunk := by
  obtain ⟨hsize,hwalked⟩ := ofBytes_sizing hw hi hl chunk.bytes
  constructor
  · rw [feedChunk_congr hput]
    exact Same.refl _
  · rw [feedChunk_congr hput]
    exact hsize
  · rw [hput,reassembleChunk_ofBytes]
    exact fun _ => hwalked

/-- A chunk whose count does not matter is put as its bytes are. -/
theorem put_of_count (hi : d.Idle)
    (h : chunk.itemSize=1 ∨ chunk.bytes=[] ∨ d.held=[]) :
    reassembleChunk chunk d=reassembleChunk (.ofBytes chunk.bytes) d := by
  rcases h with hsize | hempty | hheld
  · have hlen : chunk.len=chunk.bytes.length := by
      rw [Chunk.len,hsize,Nat.div_one]
    rw [reassembleChunk_of_len hlen]
  · have hlen : chunk.len=chunk.bytes.length := by
      rw [Chunk.len,hempty,List.length_nil,Nat.zero_div]
    rw [reassembleChunk_of_len hlen]
  · have hz : d.rend-d.rstart=0 := by
      rw [←held_length hi,hheld,List.length_nil]
    rw [reassembleChunk,reassembleChunk,run_get_bind,run_get_bind,if_pos hz,if_pos hz]
    rfl

/-- A chunk whose count does not fit is refused as its bytes are. -/
theorem asBytes_of_over (hi : d.Idle) (hl : d.Live) (hheld : d.held≠[])
    (hover : d.rbuf.length < d.held.length+chunk.len) : AsBytes walk d chunk := by
  have hcount : chunk.len ≤ (Chunk.ofBytes chunk.bytes).len := by
    rw [len_ofBytes]
    exact chunk.len_le
  obtain ⟨d₁,need,hslide,hr,hsize⟩ := reassembleChunk_refused hi hl hheld (le_refl _) hover
  obtain ⟨d₂,need',hslide',hr',-⟩ := reassembleChunk_refused hi hl hheld hcount hover
  rw [hslide] at hslide'
  cases hslide'
  constructor
  · rw [feedChunk_refused hl hr,feedChunk_refused hl hr']
    exact .raised rfl
  · rw [feedChunk_refused hl hr]
    exact hsize
  · intro _ d' hput
    rw [hr] at hput
    cases hput

/-- A chunk whose count leaves bytes out resizes the buffer. -/
theorem not_asBytes (hw : Sizing walk) (hi : d.Idle) (hl : d.Live) (hheld : d.held≠[])
    (hroom : d.held.length+chunk.len ≤ d.rbuf.length) (hsize : chunk.itemSize≠1)
    (hne : chunk.bytes≠[]) : ¬AsBytes walk d chunk := by
  intro h
  obtain ⟨d',hput,hok,hgrows⟩ := reassembleChunk_grows hi hl hheld hroom
  have hkept := feedChunk_size hw hl hok hput
  have hless := Chunk.len_lt hsize hne
  have hsame := h.size
  omega

/-- A chunk is fed as its bytes are exactly if its count does not matter. -/
theorem asBytes_iff (hw : Sizing walk) (h : d.Rests room fed) (chunk : Chunk) :
    AsBytes walk d chunk ↔ chunk.Safe d := by
  cases h with
  | ended hv hstart hend hs =>
    have hheld : d.held=[] := held_nil (hstart.trans hend.symm) (hend ▸ Nat.zero_le _)
    refine ⟨fun _ => Or.inr (Or.inr (Or.inl hheld)),fun _ => ⟨?_,?_,?_⟩⟩
    · rw [feedChunk_over hv,feedChunk_over hv]
      exact Same.refl _
    · rw [feedChunk_over hv]
      cases d.limit <;> rfl
    · exact fun hl => absurd hv hl.undecided
  | live hi hl hs htail =>
    constructor
    · intro has
      by_contra hnot
      simp only [Chunk.Safe,not_or,Nat.not_lt] at hnot
      obtain ⟨hsize,hne,hheld,hroom⟩ := hnot
      exact not_asBytes hw hi hl hheld hroom hsize hne has
    · intro hsafe
      by_cases hheld : d.held=[]
      · exact asBytes_of_put hw hi hl (put_of_count hi (Or.inr (Or.inr hheld)))
      · rcases hsafe with hsize | hempty | hnil | hover
        · exact asBytes_of_put hw hi hl (put_of_count hi (Or.inl hsize))
        · exact asBytes_of_put hw hi hl (put_of_count hi (Or.inr (Or.inl hempty)))
        · exact absurd hnil hheld
        · exact asBytes_of_over hi hl hheld hover

/-- Every chunk is safe in the state it comes to. -/
def SafeAll (c : Config V) : List Chunk → Dec V → Prop
  | [],_ => True
  | chunk::chunks,d => chunk.Safe d ∧
      ∀ st d', feedChunk (drivePush c) chunk d=.ok st d' → SafeAll c chunks d'

/-- Chunks that are safe as they come are fed as their bytes are. -/
theorem feedChunks_same {c : Config V} {chunks : List Chunk} (h : d.Rests room fed)
    (hsafe : SafeAll c chunks d) (last : Status) :
    Same (feedChunks c last chunks d) (feedAll c last (chunks.map Chunk.bytes) d) := by
  induction chunks generalizing d fed last with
  | nil => exact Same.refl _
  | cons chunk chunks ih =>
    have hone := ((asBytes_iff (drivePush_sizing c) h chunk).mpr hsafe.1).same
    have hmore := hsafe.2
    rw [feedChunk_ofBytes] at hone
    rw [feedChunks,List.map_cons,feedAll,run_bind,run_bind]
    generalize feedChunk (drivePush c) chunk d=r at hone hmore
    cases hf : feed c chunk.bytes d with
    | error e d' =>
      rw [hf] at hone
      cases hone with
      | raised he => exact .raised he
    | ok st d' =>
      rw [hf] at hone
      cases hone with
      | answered => exact ih (answered_rests h hf) (hmore st d' rfl) st

/-- Only the bytes of a chunk matter where its count does not: whatever a decoder was fed, the
next chunk is fed as its bytes are exactly if its items are bytes, it is empty, nothing is held
or not even its count fits; and a run of such chunks is the run of their bytes. -/
theorem feed_asBytes {c : Config V} {d₀ : Dec V} {r : Reassembly} {store : Store V}
    (hi : Dec.init c r store=.ok d₀) (h : Fed c d₀ fed d) :
    (∀ walk, Sizing walk → ∀ chunk, AsBytes walk d chunk ↔ chunk.Safe d) ∧
      ∀ chunks, SafeAll c chunks d → ∀ last,
        Same (feedChunks c last chunks d) (feedAll c last (chunks.map Chunk.bytes) d) := by
  obtain ⟨⟨rbuf,-,rfl⟩,-⟩ := init_ok hi
  have hrests := h.rests ((fresh_at c rbuf store).rests List.suffix_rfl)
  exact ⟨fun walk hw chunk => asBytes_iff hw hrests chunk,
    fun chunks hsafe last => feedChunks_same hrests hsafe last⟩

end Exact

/-- Two bytes in one item. -/
def Chunk.pair : Chunk := ⟨[0x01,0x08],2,by decide,by decide⟩

/-- Behind a value that was cut, such an item is taken for one byte: the other is dropped, with
the header it is, and the buffer grows by one. -/
theorem feed_pair : ∃ d : Dec Unit,
    Fed listener (Dec.fresh listener (List.replicate 16 0) blank) [0x08,0x80] d ∧
      ¬AsBytes (drivePush listener) d .pair ∧
      (∃ d', feedChunk (drivePush listener) .pair d=.ok .complete d' ∧ d'.rbuf.length=17) ∧
      ∃ d', feed listener Chunk.pair.bytes d=.ok .incomplete d' ∧ d'.rbuf.length=16 := by
  have hf : feed listener [0x08,0x80] (Dec.fresh listener (List.replicate 16 0) blank)=
      .ok .incomplete
        (leftBy (feed listener [0x08,0x80] (Dec.fresh listener (List.replicate 16 0) blank))) :=
    rfl
  refine ⟨_,.answered hf .start,?_,⟨_,rfl,rfl⟩,⟨_,rfl,rfl⟩⟩
  intro h
  exact absurd h.size (by decide)

/-- Behind a value that was cut, bytes are taken as they are and such an item is not; behind the
bytes that complete the value it is, for nothing is held then. -/
theorem feed_asBytes_pair : ∃ d : Dec Unit,
    Fed listener (Dec.fresh listener (List.replicate 16 0) blank) [0x08,0x80] d ∧
      d.held=[0x80] ∧
      AsBytes (drivePush listener) d (.ofBytes [0x01,0x08]) ∧
      ¬AsBytes (drivePush listener) d .pair ∧
      Same (feedChunks listener .complete [.ofBytes [0x01],.pair] d)
        (feedAll listener .complete [[0x01],[0x01,0x08]] d) := by
  have hf : feed listener [0x08,0x80] (Dec.fresh listener (List.replicate 16 0) blank)=
      .ok .incomplete
        (leftBy (feed listener [0x08,0x80] (Dec.fresh listener (List.replicate 16 0) blank))) :=
    rfl
  generalize hd : leftBy (feed listener [0x08,0x80]
    (Dec.fresh listener (List.replicate 16 0) blank))=d at hf
  have hfed : Fed listener (Dec.fresh listener (List.replicate 16 0) blank) [0x08,0x80] d :=
    .answered hf .start
  have hheld : d.held=[0x80] := by rw [← hd]; rfl
  obtain ⟨hone,hrun⟩ := feed_asBytes init_listener hfed
  have hbytes : ∀ bs, (Chunk.ofBytes bs).Safe d := fun bs => Or.inl rfl
  have hpair : ¬Chunk.pair.Safe d := by
    rw [← hd]
    rintro (h | h | h | h) <;> revert h <;> decide
  have hnext : ∀ st d', feedChunk (drivePush listener) (.ofBytes [0x01]) d=.ok st d' →
      d'.held=[] := by
    intro st d' h
    rw [← hd] at h
    have hr : feedChunk (drivePush listener) (.ofBytes [0x01]) (leftBy (feed listener [0x08,0x80]
        (Dec.fresh listener (List.replicate 16 0) blank)))=.ok .complete
          (leftBy (feed listener [0x01] (leftBy (feed listener [0x08,0x80]
            (Dec.fresh listener (List.replicate 16 0) blank))))) := rfl
    rw [hr] at h
    cases h
    rfl
  refine ⟨d,hfed,hheld,(hone _ (drivePush_sizing listener) _).mpr (hbytes _),?_,?_⟩
  · exact fun h => hpair ((hone _ (drivePush_sizing listener) _).mp h)
  · refine hrun [.ofBytes [0x01],.pair] ⟨hbytes _,?_⟩ .complete
    intro st d' h
    exact ⟨Or.inr (Or.inr (Or.inl (hnext st d' h))),fun _ _ _ => trivial⟩

end SofaBuffers
