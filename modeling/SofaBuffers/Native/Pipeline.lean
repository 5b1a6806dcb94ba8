import SofaBuffers.Native.Sessions
import SofaBuffers.Stream.Chunking
import SofaBuffers.Stream.RoundTrip

/-!
# From one engine to the other

What the compiled encoder streams through a sink, view by view, the interpreted
decoder is fed, view by view. It is told exactly what was written, however the
buffers cut the message.
-/

set_option autoImplicit false

namespace SofaBuffers

/-- The views handed over, less what an installation reserves at the front of the first of
its own. -/
def viewsFrom : ℕ → List Transfer → List (List UInt8)
  | _, [] => []
  | _, .installed _ offset::ts => viewsFrom offset ts
  | r, .handed view::ts => view.drop r::viewsFrom 0 ts

/-- Put together they are the bytes handed over. -/
theorem viewsFrom_flatten (r : ℕ) (ts : List Transfer) :
    (viewsFrom r ts).flatten=payloadFrom r ts := by
  induction ts generalizing r with
  | nil => rfl
  | cons t ts ih =>
    cases t with
    | installed buffer offset => exact ih offset
    | handed view => rw [viewsFrom,payloadFrom,List.flatten_cons,ih]

/-- Write fields in order with the compiled engine (`Encoder.write_*`). -/
def Native.writeAll (b : Native.Build) (o : Native.Outlet)
    (narrow : BitVec 64 → Option (BitVec 32)) : List Call → Native.EncM Unit
  | [] => pure ()
  | c::calls => do
    Native.run b o narrow c
    Native.writeAll b o narrow calls

section Writing

variable {t : Taker} {e : Enc} {n : Native.Enc}
variable (b : Native.Build) (narrow : BitVec 64 → Option (BitVec 32))

/-- Calls in order, up to the first that raises, do the same on both engines. -/
theorem Twin.writeAll (ht : t.Fits) (h : Twin t e n) {calls : List Call}
    (hc : ∀ c ∈ calls, c.Counted) :
    Tandem (Twin t) (writeAll t.outlet narrow calls e)
      (Native.writeAll b t.native narrow calls n) := by
  induction calls generalizing e n with
  | nil => exact .ok h
  | cons c calls ih =>
    rw [SofaBuffers.writeAll,Native.writeAll]
    exact (h.call ht b narrow (hc c List.mem_cons_self)).bind fun _ _ _ h =>
      ih h fun c' hc' => hc c' (List.mem_cons_of_mem c hc')

/-- Where the interpreted engine goes on, the compiled one does, and they stay twins. -/
theorem Tandem.followed {α : Type} {R : Enc → Native.Enc → Prop} {a : α} {d : Enc}
    {r : EStateM.Result Exn Native.Enc α} (h : Tandem R (.ok a d) r) : ∃ m, r=.ok a m ∧ R d m := by
  cases h with
  | ok h => exact ⟨_,rfl,h⟩

/-- A sink that leaves room in what it installs is fair. -/
theorem deciding_fair {policy : List Transfer → Option (List UInt8 × ℕ)}
    (hp : ∀ ts buffer offset, policy ts=some (buffer,offset) → offset < buffer.length) :
    (Outlet.sink (deciding policy)).Fair := by
  intro e
  cases hd : policy e.transfers with
  | none =>
    refine .inl ?_
    rw [deciding,run_get_bind,hd]
    rfl
  | some bo =>
    refine .inr ⟨bo.1,bo.2,hp _ _ _ hd,?_⟩
    rw [deciding,run_get_bind,hd]
    rfl

end Writing

/-- Nothing a recording visitor is told is the offer of a destination. -/
theorem log_observed (raw : Bool) (t : Tree) :
    (t.log raw).filter Event.observed=t.log raw := by
  induction t with
  | nil => rfl
  | value id x rest ih =>
    rw [Tree.log,List.filter_cons_of_pos rfl,ih]
  | sequence id inner rest ihinner ih =>
    rw [Tree.log,List.filter_cons_of_pos rfl,List.filter_append,List.filter_cons_of_pos rfl,
      ihinner,ih]

/-- Fields fed in chunks are told to a recording visitor. -/
theorem feedAll_recorder {raw : Bool} {r : Reassembly} {store : Store Unit} {d : Dec Unit}
    (h : Dec.init (recorder raw) r store=.ok d) {t : Tree} {chunks : List (List UInt8)}
    (hs : Fields maxDepth t chunks.flatten) (hfit : chunks.flatten.length ≤ d.rbuf.length) :
    ∃ d', feedAll (recorder raw) .complete chunks d=.ok .complete d' ∧
      d'.store.log.filter Event.observed=store.log.filter Event.observed++t.log raw := by
  have hanswers := fresh_answers h chunks hfit
  have hcame := fields_run h hs
  have heffect : t.effect (recorder raw) (recorder raw).scope store=
      ({store with log := store.log++t.log raw},none) := record_fields raw hs store
  rw [heffect] at hcame
  obtain ⟨u,hu,hstore⟩ := hcame
  rw [hu] at hanswers
  generalize feedAll (recorder raw) .complete chunks d=res at hanswers
  cases res with
  | error why d' => exact hanswers.elim
  | ok st d' =>
    obtain ⟨rfl,hagree⟩ := hanswers
    have hlog := hagree.log
    rw [hstore,List.filter_append,log_observed] at hlog
    exact ⟨d',rfl,hlog.symm⟩

/-- The compiled encoder's stream, and how the interpreted decoder ends that is fed it. -/
structure Piped (b : Native.Build) (narrow : BitVec 64 → Option (BitVec 32)) (raw : Bool)
    (policy : List Transfer → Option (List UInt8 × ℕ)) (t : CallTree) (n : Native.Enc) : Prop where
  /-- Every call is taken, a flush lets go of the rest, and the views are told as what was
  written, in exactly the sequences that survive. -/
  told : ∃ n₁ n₂ used, Native.writeAll b (Taker.sink policy).native narrow t.calls n=.ok () n₁ ∧
    Native.flush (Taker.sink policy).native n₁=.ok used n₂ ∧
    ∀ r store d, Dec.init (recorder raw) r store=.ok d →
      (viewsFrom 0 n₂.transfers).flatten.length ≤ d.rbuf.length →
        ∃ d', feedAll (recorder raw) .complete (viewsFrom 0 n₂.transfers) d=.ok .complete d' ∧
          d'.store.log.filter Event.observed=
            store.log.filter Event.observed++t.prune.told raw narrow

/-- What the compiled encoder streams the interpreted decoder reads. Whatever tree of calls is
taken, and whatever buffers the sink installs, the compiled encoder takes every call; and when
the interpreted decoder is fed the views one by one, less what the installations reserve, it is
complete and was told exactly the fields that were written, in the sequences that survive. -/
theorem compiled_stream_read (b : Native.Build) (narrow : BitVec 64 → Option (BitVec 32))
    (raw : Bool) {policy : List Transfer → Option (List UInt8 × ℕ)}
    (hp : ∀ ts buffer offset, policy ts=some (buffer,offset) →
      offset < buffer.length ∧ offset ≤ Native.intMax)
    {buffer : List UInt8} {offset : ℕ} (hoff : offset < buffer.length)
    (hfit : offset ≤ Native.intMax) {t : CallTree} (ht : t.Formed narrow)
    (ha : t.Accepted narrow 0) (hc : ∀ c ∈ t.calls, c.Counted) :
    ∃ n, Native.overBuffer (Taker.sink policy).native buffer offset false=.ok n ∧
      Piped b narrow raw policy t n := by
  have hfits : (Taker.sink policy).Fits := fun ts buf off h => (hp ts buf off h).2
  have hstreams : (Taker.sink policy).Streams := by simp [Taker.Streams]
  have hfair : (Taker.sink policy).outlet.Fair :=
    deciding_fair fun ts buf off h => (hp ts buf off h).1
  -- the interpreted engine's run over the same buffers, and its message
  obtain ⟨e,he,hreach,hsticky,herr,hframe⟩ :=
    overBuffer_run (Taker.sink policy).outlet narrow rfl rfl hoff false
  obtain ⟨e',hresult⟩ := (tree_accepted ht).mpr ha
  have hcalls := scratch_calls hresult
  obtain ⟨e₁,e₂,hwrite,herr₁,_,hflush,hpayload,_⟩ :=
    streams_of_calls hfair rfl rfl (hreach.ok hfair) herr hframe hcalls
  have hmessage : Outlet.result.output e'=t.prune.eager narrow := by
    have hget := (tree_message ht hresult).1
    rw [getvalue_run] at hget
    exact (EStateM.Result.ok.inj hget).1
  rcases overBuffer_twins hstreams buffer hfit false with ⟨d,n,hd,hn,htwin⟩ | ⟨why,_,hd,_,_⟩
  · rw [he] at hd
    cases hd
    refine ⟨n,hn,?_⟩
    have hall := htwin.writeAll b narrow hfits hc
    rw [hwrite] at hall
    obtain ⟨n₁,hn₁,htwin₁⟩ := hall.followed
    have hlast := htwin₁.flush hfits hstreams
    rw [hflush] at hlast
    obtain ⟨n₂,hn₂,htwin₂⟩ := hlast.followed
    refine ⟨n₁,n₂,_,hn₁,hn₂,fun r store dec hinit hroom => ?_⟩
    obtain ⟨u,hu,hlog⟩ := tree_fields raw ha.prune (Nat.zero_add maxDepth)
    have hpassed : n₂.transfers=e₂.transfers := by
      cases htwin₂.alike with
      | streams _ h => exact h.transfers
    have hbytes : (viewsFrom 0 n₂.transfers).flatten=t.prune.eager narrow := by
      rw [viewsFrom_flatten,hpassed,hpayload]
      exact hmessage
    rw [←hlog]
    exact feedAll_recorder hinit (hbytes ▸ hu) hroom
  · rw [he] at hd
    cases hd

/-- A kept sequence, in it one that vanishes, and a negative number behind both, through buffers
of two bytes, the first of them reserved. -/
theorem compiled_stream_read_reserving :
    let policy : List Transfer → Option (List UInt8 × ℕ) := fun _ => some ([0xAA,0],1)
    ∃ n, Native.overBuffer (Taker.sink policy).native [0xBB,0] 1 false=.ok n ∧
      Piped ⟨true,.thirty⟩ (fun _ => none) true policy keptTree n := by
  intro policy
  refine compiled_stream_read ⟨true,.thirty⟩ (fun _ => none) true ?_ (by decide) (by decide)
    ⟨⟨trivial,trivial,trivial⟩,trivial⟩ ?_ ?_
  · intro ts buffer offset h
    cases h
    decide
  · exact ⟨⟨trivial,by decide,by decide,trivial,by decide,by decide,trivial⟩,trivial,_,rfl⟩
  · intro c hc
    have hcalls : c ∈ [Call.sequenceBeginLazy (.int 1),.sequenceBeginLazy (.int 2),.sequenceEnd,
        .sequenceEndKeep,.signed (.int 3) (.int (-5))] := hc
    simp only [List.mem_cons,List.not_mem_nil,or_false] at hcalls
    rcases hcalls with rfl | rfl | rfl | rfl | rfl <;> trivial

end SofaBuffers
