import SofaBuffers.Walk.Refine

/-!
# What a feed comes to

Between two feeds a decoder holds the bytes it could not use. A feed walks
those and the chunk behind them, and keeps what the walk leaves; it is refused
when the reassembly buffer has no room for either.
-/

set_option autoImplicit false

namespace SofaBuffers

open Resumable Dec

variable {V : Type}

namespace Dec

/-- The bytes held back by the last feed. -/
def held (d : Dec V) : List UInt8 := (d.rbuf.take d.rend).drop d.rstart

/-- What holds of a decoder between two feeds. -/
structure Idle (d : Dec V) : Prop where
  /-- The span in use is one. -/
  start : d.rstart ≤ d.rend
  /-- It lies in the buffer. -/
  room : d.rend ≤ d.rbuf.length
  /-- A skip knows where it is going. -/
  skip : d.skipDepth.isSome ↔ d.resumeKind=.skip
  /-- It is going up. -/
  up : ∀ t, d.skipDepth=some t → t < d.depth
  /-- A visit has its value. -/
  visit : d.resumeKind=.visit → ∃ p, d.pending=some p ∧ d.Fits p d.route

/-- No feed has come to a verdict yet. -/
structure Live (d : Dec V) : Prop where
  /-- No limit was reached. -/
  limit : d.limit=none
  /-- Nothing malformed was met. -/
  status : d.status≠.invalid

/-- The bytes held back are those of the span in use. -/
theorem held_length {d : Dec V} (h : d.Idle) : d.held.length=d.rend-d.rstart := by
  rw [held,List.length_drop,List.length_take,Nat.min_eq_left h.room]

end Dec

/-- The outcome of the walk does not depend on the buffer the bytes lie in. -/
theorem Dec.Idle.ok {d : Dec V} (h : d.Idle) {buf rbuf : List UInt8} {b : Bool}
    {n pos keep rstart rend : ℕ} (hn : n ≤ buf.length) (hp : pos ≤ n) :
    Dec.Ok {d with
      buf := buf, bufIsR := b, n := n, pos := pos, keep := keep, rbuf := rbuf
      rstart := rstart, rend := rend} :=
  ⟨hn,hp,h.skip,h.up,h.visit⟩

/-- No verdict has been reached while the decoder is fed. -/
theorem live_of_frame {d d' : Dec V} (h : d'.frame=d.frame) (hl : d.Live) : d'.Live :=
  ⟨(congrArg Frame.limit h).trans hl.limit,fun hs => hl.status ((congrArg Frame.status h).symm.trans hs)⟩

/-- A feed opens with the bytes held back and the chunk behind them. -/
structure Opened (d : Dec V) (data : List UInt8) (d' : Dec V) : Prop where
  /-- The walk can start. -/
  ok : d'.Ok
  /-- It starts where the last one ended. -/
  view : d'.view=d.view
  /-- It has all the bytes. -/
  rest : d'.rest=d.held++data
  /-- No verdict has been reached. -/
  live : d'.Live
  /-- The reassembly buffer has kept its size. -/
  size : d'.rbuf.length=d.rbuf.length
  /-- The chunk was adopted, or it lies in the reassembly buffer. -/
  buf : (d'.bufIsR=false ∧ d.held=[] ∧ d'.rstart=0 ∧ d'.rend=0 ∧ d'.pos=0 ∧ d'.n=data.length) ∨
    (d'.bufIsR=true ∧ d.held≠[] ∧ d'.buf=d'.rbuf ∧ d'.n=d'.rend ∧ d'.rend ≤ d'.rbuf.length)

/-- What is held fits behind the front once it slides there. -/
theorem slide_run {d : Dec V} (hi : d.Idle) (hl : d.Live) (n : ℕ) :
    ∃ d', slide n d=.ok () d' ∧ d'.Idle ∧ d'.Live ∧ d'.view=d.view ∧ d'.held=d.held ∧
      d'.rbuf.length=d.rbuf.length ∧ (d'.rend+n ≤ d'.rbuf.length ∨ d'.rstart=0) := by
  have hlen := held_length hi
  have hroom := hi.room
  rw [slide,run_modify]
  refine ⟨_,rfl,?_⟩
  split
  · have hs : (splice d.rbuf 0 d.held).length=d.rbuf.length := splice_length (by omega)
    refine ⟨⟨Nat.zero_le _,?_,hi.skip,hi.up,hi.visit⟩,⟨hl.limit,hl.status⟩,rfl,?_,hs,Or.inr rfl⟩
    · show d.rend-d.rstart ≤ (splice d.rbuf 0 d.held).length
      omega
    · show ((splice d.rbuf 0 d.held).take (d.rend-d.rstart)).drop 0=d.held
      have ht := splice_take (show 0+d.held.length ≤ d.rbuf.length by omega)
      rw [Nat.zero_add,hlen] at ht
      rw [List.drop_zero,ht]
      rfl
  · next h =>
    refine ⟨hi,hl,rfl,rfl,rfl,?_⟩
    by_cases hr : d.rstart=0
    · exact Or.inr hr
    · exact Or.inl (by omega)

/-- A chunk that fits beside what is held is taken, and one that does not is
refused before anything of it is walked. -/
theorem reassemble_run {d : Dec V} (hi : d.Idle) (hl : d.Live) (data : List UInt8) :
    if d.held≠[] ∧ d.rbuf.length < d.held.length+data.length then
      ∃ d', reassemble data d=.error (tooLong d.rbuf.length (d.held.length+data.length)) d' ∧
        d'.Idle ∧ d'.Live ∧ d'.view=d.view ∧ d'.held=d.held ∧ d'.rbuf.length=d.rbuf.length
    else ∃ d', reassemble data d=.ok () d' ∧ Opened d data d' := by
  have hlen := held_length hi
  have hstart := hi.start
  rw [reassemble,run_get_bind]
  by_cases hz : d.rend-d.rstart=0
  · have hnil : d.held=[] := List.length_eq_zero_iff.mp (hlen.trans hz)
    rw [if_neg (by rw [hnil]; simp),if_pos hz]
    refine ⟨_,rfl,hi.ok (Nat.le_refl _) (Nat.zero_le _),rfl,?_,⟨hl.limit,hl.status⟩,rfl,
      Or.inl ⟨rfl,hnil,rfl,rfl,rfl,rfl⟩⟩
    rw [hnil,List.nil_append,Dec.rest,restFrom,List.drop_zero,List.take_length]
  · have hne : d.held≠[] := by
      intro h
      rw [h,List.length_nil] at hlen
      omega
    obtain ⟨d₁,hslide,hi₁,hl₁,hview,hheld,hsize,hfit⟩ := slide_run hi hl data.length
    have hlen₁ := held_length hi₁
    have hstart₁ := hi₁.start
    have hroom₁ := hi₁.room
    rw [hheld] at hlen₁
    rw [if_neg hz,run_bind_ok hslide,append,run_get_bind]
    by_cases hover : d.rbuf.length < d.held.length+data.length
    · have hmore : d₁.rend+data.length > d₁.rbuf.length := by omega
      rw [if_pos ⟨hne,hover⟩,if_pos hmore]
      refine ⟨d₁,?_,hi₁,hl₁,hview,hheld,hsize⟩
      rw [run_throw,hsize,←hlen₁]
    · have hle : d₁.rend+data.length ≤ d₁.rbuf.length := by omega
      have hs : (splice d₁.rbuf d₁.rend data).length=d₁.rbuf.length := splice_length hle
      rw [if_neg (by simp [hover]),if_neg (by omega)]
      refine ⟨_,rfl,hi₁.ok (by rw [hs]; exact hle) (by omega),hview,?_,⟨hl₁.limit,hl₁.status⟩,
        hs.trans hsize,Or.inr ⟨rfl,hne,rfl,rfl,?_⟩⟩
      · show ((splice d₁.rbuf d₁.rend data).take (d₁.rend+data.length)).drop d₁.rstart=_
        rw [splice_take hle,List.drop_append_of_le_length (by
          rw [List.length_take]; omega),←hheld]
        rfl
      · show d₁.rend+data.length ≤ (splice d₁.rbuf d₁.rend data).length
        omega

/-- The decoder is between two feeds, in a state of the walk and holding bytes. -/
structure Dec.At (d : Dec V) (room : ℕ) (s : Walk V) (xs : List UInt8) : Prop where
  /-- It is between two feeds. -/
  idle : d.Idle
  /-- No verdict has been reached. -/
  live : d.Live
  /-- The walk is in that state. -/
  view : d.view=s
  /-- The bytes held back are those. -/
  held : d.held=xs
  /-- The reassembly buffer is of that size. -/
  size : d.rbuf.length=room

/-- What the buffer of a decoder is while it walks. -/
def Dec.Backed (d : Dec V) : Prop :=
  (d.bufIsR=false ∧ d.rstart=0 ∧ d.rend=0) ∨
    (d.bufIsR=true ∧ d.buf=d.rbuf ∧ d.n=d.rend ∧ d.rend ≤ d.rbuf.length)

/-- What the walk left is kept, unless the reassembly buffer cannot hold it. -/
theorem retain_run {d : Dec V} (hok : d.Ok) (hl : d.Live) (hb : d.Backed) :
    if d.bufIsR=false ∧ d.rbuf.length < d.rest.length then
      retain d=.error (tooLong d.rbuf.length d.rest.length) d ∧ d.At d.rbuf.length d.view []
    else ∃ d', retain d=.ok () d' ∧ d'.At d.rbuf.length d.view d.rest := by
  have hlen : d.rest.length=d.n-d.pos := restFrom_length hok.filled d.pos
  have hverdict : ¬(d.status=.invalid ∨ d.limit.isSome) := by
    rw [hl.limit]
    simpa using hl.status
  rw [retain,run_get_bind]
  rw [if_neg hverdict]
  by_cases hz : d.n-d.pos=0
  · have hnil : d.rest=[] := List.length_eq_zero_iff.mp (hlen.trans hz)
    rw [if_neg (by rw [hnil,List.length_nil]; omega),if_pos hz,hnil]
    exact ⟨_,rfl,⟨Nat.le_refl _,Nat.zero_le _,hok.skip,hok.up,hok.visit⟩,⟨hl.limit,hl.status⟩,
      rfl,rfl,rfl⟩
  · rw [if_neg hz]
    rcases hb with ⟨hr,hs,he⟩ | ⟨hr,hbuf,hn,hroom⟩
    · have hr' : ¬d.bufIsR=true := by rw [hr]; simp
      rw [if_neg hr']
      by_cases hover : d.rbuf.length < d.rest.length
      · rw [if_pos ⟨hr,hover⟩,if_pos (by omega),run_throw,hlen]
        refine ⟨rfl,⟨by omega,by omega,hok.skip,hok.up,hok.visit⟩,hl,rfl,?_,rfl⟩
        rw [Dec.held,he]
        simp
      · have hfit : 0+d.rest.length ≤ d.rbuf.length := by omega
        rw [if_neg (by simp [hover]),if_neg (by omega)]
        refine ⟨_,rfl,⟨Nat.zero_le _,?_,hok.skip,hok.up,hok.visit⟩,⟨hl.limit,hl.status⟩,rfl,?_,
          splice_length hfit⟩
        · show d.n-d.pos ≤ (splice d.rbuf 0 d.rest).length
          rw [splice_length hfit]
          omega
        · show ((splice d.rbuf 0 d.rest).take (d.n-d.pos)).drop 0=d.rest
          have ht := splice_take hfit
          rw [Nat.zero_add,hlen] at ht
          rw [ht]
          rfl
    · rw [if_neg (by rw [hr]; simp),if_pos hr]
      refine ⟨_,rfl,⟨?_,hroom,hok.skip,hok.up,hok.visit⟩,⟨hl.limit,hl.status⟩,rfl,?_,rfl⟩
      · show d.pos ≤ d.rend
        rw [←hn]
        exact hok.pos
      · show (d.rbuf.take d.rend).drop d.pos=d.rest
        rw [←hbuf,←hn]
        rfl

/-- Nothing is kept once there is a verdict. -/
theorem retain_verdict {d : Dec V} (h : d.status=.invalid ∨ d.limit.isSome) :
    ∃ d', retain d=.ok () d' ∧ d'.status=d.status ∧ d'.limit=d.limit ∧ d'.store=d.store := by
  rw [retain,run_get_bind,if_pos h]
  exact ⟨_,rfl,rfl,rfl,rfl⟩

/-- Whatever is kept, the storage is not touched. -/
theorem retain_store (d : Dec V) :
    (∃ d', retain d=.ok () d' ∧ d'.store=d.store) ∨
      (retain d=.error (tooLong d.rbuf.length (d.n-d.pos)) d ∧ d.bufIsR=false ∧
        d.rbuf.length < d.n-d.pos) := by
  rw [retain,run_get_bind]
  by_cases hv : d.status=.invalid ∨ d.limit.isSome
  · rw [if_pos hv]
    exact Or.inl ⟨_,rfl,rfl⟩
  · rw [if_neg hv]
    by_cases hz : d.n-d.pos=0
    · rw [if_pos hz]
      exact Or.inl ⟨_,rfl,rfl⟩
    · rw [if_neg hz]
      cases hr : d.bufIsR with
      | true => exact Or.inl ⟨_,rfl,rfl⟩
      | false =>
        by_cases hover : d.rbuf.length < d.n-d.pos
        · rw [if_neg (by simp),if_pos hover]
          exact Or.inr ⟨rfl,rfl,hover⟩
        · rw [if_neg (by simp),if_neg hover]
          exact Or.inl ⟨_,rfl,rfl⟩

/-- What a walk over adopted or held bytes comes to, with `room` for what it leaves
and `n` bytes at hand. -/
inductive Concluded (h : Halt (Walk V) UInt8 Exn) (room : ℕ) (adopted : Prop) (n : ℕ) :
    EStateM.Result Exn (Dec V) Status → Prop
  /-- Suspended inside a construct, the unused bytes being held. -/
  | suspended {s : Walk V} {rest : List UInt8} {d : Dec V} : h=.wait s rest →
      (adopted → rest.length ≤ room) → d.At room s rest → Concluded h room adopted n (.ok .incomplete d)
  /-- Refused after the walk, what it left being lost. -/
  | lost {s : Walk V} {rest : List UInt8} {d : Dec V} : h=.wait s rest → adopted →
      room < rest.length → d.At room s [] →
      Concluded h room adopted n (.error (tooLong room rest.length) d)
  /-- Everything was used and nothing is open. -/
  | complete {s : Walk V} {d : Dec V} : h=.stop s → d.At room s [] →
      Concluded h room adopted n (.ok .complete d)
  /-- Something malformed was met. -/
  | invalid {why : Exn} {s : Walk V} {rest : List UInt8} {d : Dec V} : h=.fail why s rest →
      why.cls=.decode → d.limit=none → d.status=.invalid → d.store=s.store →
      Concluded h room adopted n (.ok .invalid d)
  /-- A receiver limit was reached. -/
  | limited {why : Exn} {s : Walk V} {rest : List UInt8} {d : Dec V} : h=.fail why s rest →
      why.cls=.limit → d.limit=some why → d.store=s.store →
      Concluded h room adopted n (.error why d)
  /-- Something else was raised, unless the buffer could not hold what that left. -/
  | raised {why e : Exn} {s : Walk V} {rest : List UInt8} {d : Dec V} : h=.fail why s rest →
      why.cls≠.decode → why.cls≠.limit → d.store=s.store →
      (e=why ∨ (adopted ∧ room < n ∧ ∃ k, e=tooLong room k)) →
      (why.cls=.argument → ∃ xs, d.At room s xs) →
      Concluded h room adopted n (.error e d)

/-- What a feed comes to: it is refused before the walk when its chunk does not fit
beside what is held, and else walks both. -/
def FeedEnds (c : Config V) (d : Dec V) (data : List UInt8)
    (r : EStateM.Result Exn (Dec V) Status) : Prop :=
  if d.held≠[] ∧ d.rbuf.length < d.held.length+data.length then
    ∃ d', r=.error (tooLong d.rbuf.length (d.held.length+data.length)) d' ∧
      d'.At d.rbuf.length d.view d.held
  else Concluded (Walk.run c d.view (d.held++data)) d.rbuf.length (d.held=[]) data.length r

/-- The walk leaves the buffer it runs over as it was. -/
theorem backed_of_frame {d d' : Dec V} (h : d'.frame=d.frame) (hb : d.Backed) : d'.Backed := by
  rw [Dec.Backed,show d'.bufIsR=d.bufIsR from congrArg Frame.bufIsR h,
    show d'.rstart=d.rstart from congrArg Frame.rstart h,
    show d'.rend=d.rend from congrArg Frame.rend h,show d'.buf=d.buf from congrArg Frame.buf h,
    show d'.rbuf=d.rbuf from congrArg Frame.rbuf h,show d'.n=d.n from congrArg Frame.n h]
  exact hb

section Conclude

variable {h : Halt (Walk V) UInt8 Exn} {d d' : Dec V} {room n : ℕ}

/-- A walk that is suspended is left with what it could not use, if there is room. -/
theorem leave_suspended (hok : d.Ok) (hl : d.Live) (hb : d.Backed) (hs : d.rbuf.length=room)
    (hh : h=.wait d.view d.rest) :
    Concluded h room (d.bufIsR=false) n (leave (pure .incomplete) d) := by
  have hr := retain_run hok hl hb
  rw [leave]
  rw [hs] at hr
  by_cases hover : d.bufIsR=false ∧ room < d.rest.length
  · rw [if_pos hover] at hr
    rw [run_bind_error hr.1]
    exact .lost hh hover.1 hover.2 hr.2
  · rw [if_neg hover] at hr
    obtain ⟨d',hr,hat⟩ := hr
    rw [run_bind_ok hr]
    exact .suspended hh (fun ha => Nat.le_of_not_lt fun hn => hover ⟨ha,hn⟩) hat

/-- A walk that came to its end leaves nothing. -/
theorem leave_complete (hok : d.Ok) (hl : d.Live) (hb : d.Backed) (hs : d.rbuf.length=room)
    (hrest : d.rest=[]) (hh : h=.stop d.view) :
    Concluded h room (d.bufIsR=false) n
      (leave (do
        modify fun d => {d with status := .complete}
        pure .complete) d) := by
  have hr := retain_run hok hl hb
  rw [leave]
  rw [hrest,if_neg (by simp),hs] at hr
  obtain ⟨d',hr,hat⟩ := hr
  rw [run_bind_ok hr]
  exact .complete hh ⟨⟨hat.idle.start,hat.idle.room,hat.idle.skip,hat.idle.up,hat.idle.visit⟩,
    ⟨hat.live.limit,by simp⟩,hat.view,hat.held,hat.size⟩

/-- A walk that raised leaves a verdict, or what is to be raised. -/
theorem leave_raised {why : Exn} {s : Walk V} {rest : List UInt8} (hh : h=.fail why s rest)
    (h1 : why.cls≠.decode) (h2 : why.cls≠.limit) (hs : d.rbuf.length=room) (hstore : d.store=s.store)
    (hn : d.bufIsR=false → d.n=n) (hl : d.Live) (hb : d.Backed)
    (harg : why.cls=.argument → d.Ok ∧ d.view=s) :
    Concluded h room (d.bufIsR=false) n (leave (throw why) d) := by
  have hkept : ∀ d', (retain d=.ok () d' ∨ ∃ e, retain d=.error e d') → why.cls=.argument →
      ∃ xs, d'.At room s xs := by
    intro d' hd ha
    obtain ⟨hok,hview⟩ := harg ha
    have hr := retain_run hok hl hb
    rw [hs,hview] at hr
    split at hr
    · obtain ⟨hr,hat⟩ := hr
      rcases hd with hd | ⟨e,hd⟩ <;> rw [hr] at hd <;> cases hd
      exact ⟨_,hat⟩
    · obtain ⟨d₂,hr,hat⟩ := hr
      rcases hd with hd | ⟨e,hd⟩ <;> rw [hr] at hd <;> cases hd
      exact ⟨_,hat⟩
  rw [leave]
  rcases retain_store d with ⟨d',hr,hd⟩ | ⟨hr,hb,hover⟩
  · rw [run_bind_ok hr]
    exact .raised hh h1 h2 (hd.trans hstore) (Or.inl rfl) (hkept d' (Or.inl hr))
  · have hkept := hkept d (Or.inr ⟨_,hr⟩)
    rw [run_bind_error hr,hs]
    rw [hs,hn hb] at hover
    exact .raised hh h1 h2 hstore (Or.inr ⟨hb,by omega,_,rfl⟩) hkept

/-- The outcome of a feed is that of its walk. -/
theorem conclude_run {walk : DecM V Bool} (hok : d.Ok) (hl : d.Live) (hb : d.Backed)
    (hs : d.rbuf.length=room) (hn : d.bufIsR=false → d.n=n) (hw : DriveEnds h d (walk d)) :
    Concluded h room (d.bufIsR=false) n (conclude walk d) := by
  rw [conclude]
  generalize walk d=r at hw
  cases r with
  | ok short d' =>
    cases short with
    | true =>
      obtain ⟨rfl,hh⟩ := hw
      exact leave_suspended (d:={d' with status := .incomplete})
        ⟨hok.filled,hok.pos,hok.skip,hok.up,hok.visit⟩ ⟨hl.limit,by simp⟩ hb hs hh
    | false =>
      obtain ⟨hok',hf,hrest,hh⟩ := hw
      have hr : d'.bufIsR=d.bufIsR := congrArg Frame.bufIsR hf
      rw [←hr]
      exact leave_complete hok' (live_of_frame hf hl) (backed_of_frame hf hb)
        ((congrArg (fun f => f.rbuf.length) hf).trans hs) hrest hh
  | error e d' =>
    obtain ⟨hf,hfail⟩ := hw
    have hr : d'.bufIsR=d.bufIsR := congrArg Frame.bufIsR hf
    have hs' : d'.rbuf.length=room := (congrArg (fun f => f.rbuf.length) hf).trans hs
    have hl' := live_of_frame hf hl
    rw [Fails.eq_def] at hfail
    cases h with
    | stop s => exact absurd hfail id
    | wait s rest =>
      obtain ⟨⟨msg,rfl⟩,hok',rfl,rfl⟩ := hfail
      have hb' := backed_of_frame hf hb
      rw [←hr]
      exact leave_suspended (d:={d' with status := .incomplete})
        ⟨hok'.filled,hok'.pos,hok'.skip,hok'.up,hok'.visit⟩ ⟨hl'.limit,by simp⟩ hb' hs' rfl
    | fail why s rest =>
      obtain ⟨rfl,hinc,hstore,harg⟩ := hfail
      have hb' := backed_of_frame hf hb
      have hn' : d'.bufIsR=false → d'.n=n := fun hb =>
        (congrArg Frame.n hf).trans (hn (hr.symm.trans hb))
      rw [←hr]
      cases e with
      | decode msg =>
        obtain ⟨d₂,hret,h1,h2,h3⟩ := retain_verdict (d:={d' with
          status := .invalid, error := some (.decode msg)}) (Or.inl rfl)
        dsimp only
        rw [leave,run_bind_ok hret]
        exact .invalid rfl rfl (h2.trans hl'.limit) h1 (h3.trans hstore)
      | limit msg =>
        obtain ⟨d₂,hret,h1,h2,h3⟩ := retain_verdict (d:={d' with
          limit := some (.limit msg), error := some (.limit msg)}) (Or.inr rfl)
        dsimp only
        rw [leave,run_bind_ok hret]
        exact .limited rfl rfl h2 (h3.trans hstore)
      | incomplete msg => exact absurd rfl hinc
      | argument | buffer | index | value | overflow | assertion | turns =>
        exact leave_raised rfl (by intro h; cases h) (by intro h; cases h) hs' hstore hn' hl' hb' fun ha =>
          ⟨(harg ha).1,(harg ha).2.1⟩

end Conclude

/-- Opening the resume transaction leaves what was opened. -/
theorem Opened.arm {d d₁ : Dec V} {data : List UInt8} (h : Opened d data d₁) :
    Opened d data {d₁ with keep := d₁.pos} :=
  ⟨⟨h.ok.filled,h.ok.pos,h.ok.skip,h.ok.up,h.ok.visit⟩,h.view,h.rest,
    ⟨h.live.limit,h.live.status⟩,h.size,h.buf⟩

/-- A feed that has taken its chunk is about to walk it. -/
structure Walking (c : Config V) (d : Dec V) (data : List UInt8) (d' : Dec V) : Prop extends
    Opened d data d' where
  /-- The feed goes on from there. -/
  feeds : feed c data d=conclude (drivePush c) d'
  /-- The walk is over the bytes held back and the chunk. -/
  drives : DriveEnds (Walk.run c d.view (d.held++data)) d' (drivePush c d')
  /-- The chunk was adopted where nothing was held back. -/
  adopted : (d'.bufIsR=false)=(d.held=[])
  /-- There is nothing but the chunk then. -/
  chunk : d'.bufIsR=false → d'.n=data.length

/-- The buffer a walk runs over is the chunk or the reassembly buffer. -/
theorem Opened.backed {d d' : Dec V} {data : List UInt8} (h : Opened d data d') : d'.Backed := by
  rcases h.buf with ⟨h1,-,h2,h3,-⟩ | ⟨h1,-,h2,h3,h4⟩
  · exact Or.inl ⟨h1,h2,h3⟩
  · exact Or.inr ⟨h1,h2,h3,h4⟩

/-- A feed is refused before anything is walked, or walks. -/
theorem feed_walking (c : Config V) {d : Dec V} (hi : d.Idle) (hl : d.Live) (data : List UInt8) :
    if d.held≠[] ∧ d.rbuf.length < d.held.length+data.length then
      ∃ d', feed c data d=.error (tooLong d.rbuf.length (d.held.length+data.length)) d' ∧
        d'.At d.rbuf.length d.view d.held
    else ∃ d', Walking c d data d' := by
  have hre := reassemble_run hi hl data
  rw [feed,run_get_bind,hl.limit]
  dsimp only
  rw [if_neg hl.status]
  by_cases hover : d.held≠[] ∧ d.rbuf.length < d.held.length+data.length
  · rw [if_pos hover] at hre ⊢
    obtain ⟨d',hr,hi',hl',hv,hh,hs⟩ := hre
    exact ⟨d',run_bind_error hr,hi',hl',hv,hh,hs⟩
  · rw [if_neg hover] at hre ⊢
    obtain ⟨d₁,hr,hopen⟩ := hre
    have hopen := hopen.arm
    refine ⟨{d₁ with keep := d₁.pos},hopen,?_,?_,?_,?_⟩
    · rw [feed,run_get_bind,hl.limit]
      dsimp only
      rw [if_neg hl.status,run_bind_ok hr,arm_bind]
    · have hdrive := drivePush_ends c hopen.ok
      rw [hopen.view,hopen.rest] at hdrive
      exact hdrive
    · rcases hopen.buf with ⟨h1,h2,-⟩ | ⟨h1,h2,-⟩
      · exact propext ⟨fun _ => h2,fun _ => h1⟩
      · exact propext ⟨fun h => absurd (h.symm.trans h1) (by simp),fun h => absurd h h2⟩
    · intro h
      rcases hopen.buf with ⟨_,_,_,_,_,h1⟩ | ⟨h1,-⟩
      · exact h1
      · exact absurd (h.symm.trans h1) (by simp)

/-- A feed is a piece of a walk. -/
theorem feed_ends (c : Config V) {d : Dec V} (hi : d.Idle) (hl : d.Live) (data : List UInt8) :
    FeedEnds c d data (feed c data d) := by
  have hwalk := feed_walking c hi hl data
  rw [FeedEnds]
  by_cases hover : d.held≠[] ∧ d.rbuf.length < d.held.length+data.length
  · rw [if_pos hover] at hwalk ⊢
    exact hwalk
  · rw [if_neg hover] at hwalk ⊢
    obtain ⟨d',hw⟩ := hwalk
    rw [hw.feeds,←hw.adopted]
    exact conclude_run hw.ok hw.live hw.backed hw.size hw.chunk hw.drives

/-- A walk that is refused for a buffer of the handler's raises that, unless the reassembly
buffer cannot hold what it left. -/
theorem feed_argument {c : Config V} {d : Dec V} (hi : d.Idle) (hl : d.Live) {data : List UInt8}
    {why : Exn} {s : Walk V} {rest : List UInt8} (hcls : why.cls=.argument)
    (hrun : Walk.run c d.view (d.held++data)=.fail why s rest)
    (hroom : d.held≠[] → d.held.length+data.length ≤ d.rbuf.length) :
    if d.held=[] ∧ d.rbuf.length < rest.length then
      ∃ d', feed c data d=.error (tooLong d.rbuf.length rest.length) d' ∧
        d'.At d.rbuf.length s []
    else ∃ d', feed c data d=.error why d' ∧ d'.At d.rbuf.length s rest := by
  have hwalk := feed_walking c hi hl data
  rw [if_neg (by rintro ⟨h1,h2⟩; have := hroom h1; omega)] at hwalk
  obtain ⟨d₁,hw⟩ := hwalk
  have hdrive := hw.drives
  rw [hrun] at hdrive
  rw [hw.feeds,conclude]
  generalize drivePush c d₁=r at hdrive
  cases r with
  | ok short d₂ =>
    cases short with
    | true => exact absurd hdrive.2 (by simp)
    | false => exact absurd hdrive.2.2.2 (by simp)
  | error e d₂ =>
    obtain ⟨hf,rfl,-,-,harg⟩ := hdrive
    obtain ⟨hok,hview,hrest⟩ := harg hcls
    have hret := retain_run hok (live_of_frame hf hw.live) (backed_of_frame hf hw.backed)
    have hsize : d₂.rbuf.length=d.rbuf.length :=
      (congrArg (fun f => f.rbuf.length) hf).trans hw.size
    have hadopt : (d₂.bufIsR=false)=(d.held=[]) :=
      (congrArg (·=false) (congrArg Frame.bufIsR hf)).trans hw.adopted
    rw [hrest,hsize,hview] at hret
    simp only [hadopt] at hret
    cases e with
    | argument msg =>
      dsimp only
      rw [leave]
      by_cases hover : d.held=[] ∧ d.rbuf.length < rest.length
      · rw [if_pos hover] at hret ⊢
        exact ⟨d₂,run_bind_error hret.1,hret.2⟩
      · rw [if_neg hover] at hret ⊢
        obtain ⟨d₃,hret,hat⟩ := hret
        exact ⟨d₃,run_bind_ok hret,hat⟩
    | _ => cases hcls

/-- A fresh decoder holds nothing. -/
theorem fresh_at (c : Config V) (rbuf : List UInt8) (store : Store V) :
    (Dec.fresh c rbuf store).At rbuf.length (Dec.fresh c rbuf store).view [] :=
  ⟨⟨Nat.le_refl _,Nat.zero_le _,by simp [Dec.fresh],by simp [Dec.fresh],by intro h; cases h⟩,
    ⟨rfl,by intro h; cases h⟩,rfl,rfl,rfl⟩

end SofaBuffers
