import SofaBuffers.Stream.Room

/-!
# Going on after a refusal

A chunk that is refused before the walk leaves the decoder as it was, so a
caller may feed it again in smaller pieces. One that is refused after the walk
has lost the bytes the walk left.
-/

set_option autoImplicit false

namespace SofaBuffers

open Resumable Dec

variable {V : Type}

/-- Two decodes are twins: they came to the same over the same storage, and go on alike. -/
inductive Twins (room : ℕ) :
    EStateM.Result Exn (Dec V) Status → EStateM.Result Exn (Dec V) Status → Prop
  /-- Both answered. -/
  | answered {st : Status} {d d' : Dec V} {s : Walk V} {xs : List UInt8} (h : d.At room s xs)
      (h' : d'.At room s xs) : Twins room (.ok st d) (.ok st d')
  /-- Both found the message malformed. -/
  | invalid {d d' : Dec V} (h : d.limit=none ∧ d.status=.invalid)
      (h' : d'.limit=none ∧ d'.status=.invalid) (hs : d.store=d'.store) :
      Twins room (.ok .invalid d) (.ok .invalid d')
  /-- Both were refused for a buffer. -/
  | refused {e : Exn} {d d' : Dec V} {s : Walk V} {xs : List UInt8} (h : d.At room s xs)
      (h' : d'.At room s xs) : Twins room (.error e d) (.error e d')
  /-- Both reached a limit. -/
  | limited {e : Exn} {d d' : Dec V} (h : d.limit=some e) (h' : d'.limit=some e)
      (hs : d.store=d'.store) : Twins room (.error e d) (.error e d')
  /-- Both failed internally. -/
  | failed {why e e' : Exn} {d d' : Dec V} (h1 : why.cls≠.decode) (h2 : why.cls≠.limit)
      (h3 : why.cls≠.argument) (he : e=why ∨ ∃ k, e=tooLong room k)
      (he' : e'=why ∨ ∃ k, e'=tooLong room k) (hs : d.store=d'.store) :
      Twins room (.error e d) (.error e' d')

section Twins

variable {c : Config V} {d d' : Dec V} {room : ℕ} {s w : Walk V} {xs rest data : List UInt8}

/-- A feed whose walk is suspended keeps what is left, if it can. -/
theorem feed_wait (h : d.At room s xs) (hfit : xs≠[] → xs.length+data.length ≤ room)
    (hrun : Walk.run c s (xs++data)=.wait w rest) :
    if xs=[] ∧ room < rest.length then
      ∃ d', feed c data d=.error (tooLong room rest.length) d' ∧ d'.At room w []
    else ∃ d', feed c data d=.ok .incomplete d' ∧ d'.At room w rest := by
  have hends := feed_ends c h.idle h.live data
  rw [FeedEnds,h.held,h.view,h.size,if_neg (by rintro ⟨h1,h2⟩; have := hfit h1; omega),hrun]
    at hends
  generalize feed c data d=r at hends ⊢
  cases hends with
  | @suspended _ _ d' hh hle hat =>
    cases hh
    rw [if_neg (by rintro ⟨h1,h2⟩; have := hle h1; omega)]
    exact ⟨d',rfl,hat⟩
  | @lost _ _ d' hh hadopt hover hat =>
    cases hh
    rw [if_pos ⟨hadopt,hover⟩]
    exact ⟨d',rfl,hat⟩
  | complete hh | invalid hh | limited hh | raised hh => cases hh

/-- Feeding twins the same makes twins of what they come to. -/
theorem feed_twins (h : d.At room s xs) (h' : d'.At room s xs) (data : List UInt8) :
    Twins room (feed c data d) (feed c data d') := by
  have hends := feed_ends c h.idle h.live data
  have hends' := feed_ends c h'.idle h'.live data
  rw [FeedEnds,h.held,h.view,h.size] at hends
  rw [FeedEnds,h'.held,h'.view,h'.size] at hends'
  by_cases hover : xs≠[] ∧ room < xs.length+data.length
  · rw [if_pos hover] at hends hends'
    obtain ⟨d₁,hr,hat⟩ := hends
    obtain ⟨d₁',hr',hat'⟩ := hends'
    rw [hr,hr']
    exact .refused hat hat'
  · rw [if_neg hover] at hends hends'
    have hfit : xs≠[] → xs.length+data.length ≤ room :=
      fun hne => Nat.le_of_not_lt fun hlt => hover ⟨hne,hlt⟩
    cases hrun : Walk.run c s (xs++data) with
    | wait w rest =>
      have hw := feed_wait h hfit hrun
      have hw' := feed_wait h' hfit hrun
      by_cases hlost : xs=[] ∧ room < rest.length
      · rw [if_pos hlost] at hw hw'
        obtain ⟨d₁,hr,hat⟩ := hw
        obtain ⟨d₁',hr',hat'⟩ := hw'
        rw [hr,hr']
        exact .refused hat hat'
      · rw [if_neg hlost] at hw hw'
        obtain ⟨d₁,hr,hat⟩ := hw
        obtain ⟨d₁',hr',hat'⟩ := hw'
        rw [hr,hr']
        exact .answered hat hat'
    | stop w =>
      rw [hrun] at hends hends'
      generalize feed c data d=r at hends ⊢
      generalize feed c data d'=r' at hends' ⊢
      cases hends with
      | complete hh hat =>
        cases hh
        cases hends' with
        | complete hh' hat' =>
          cases hh'
          exact .answered hat hat'
        | suspended hh' | lost hh' | invalid hh' | limited hh' | raised hh' => cases hh'
      | suspended hh | lost hh | invalid hh | limited hh | raised hh => cases hh
    | fail why w rest =>
      by_cases harg : why.cls=.argument
      · have hone := feed_argument (c:=c) h.idle h.live harg
          (by rw [h.held,h.view]; exact hrun) (by rw [h.held,h.size]; exact hfit)
        have hone' := feed_argument (c:=c) h'.idle h'.live harg
          (by rw [h'.held,h'.view]; exact hrun) (by rw [h'.held,h'.size]; exact hfit)
        rw [h.held,h.size] at hone
        rw [h'.held,h'.size] at hone'
        by_cases hlost : xs=[] ∧ room < rest.length
        · rw [if_pos hlost] at hone hone'
          obtain ⟨d₁,hr,hat⟩ := hone
          obtain ⟨d₁',hr',hat'⟩ := hone'
          rw [hr,hr']
          exact .refused hat hat'
        · rw [if_neg hlost] at hone hone'
          obtain ⟨d₁,hr,hat⟩ := hone
          obtain ⟨d₁',hr',hat'⟩ := hone'
          rw [hr,hr']
          exact .refused hat hat'
      · rw [hrun] at hends hends'
        generalize feed c data d=r at hends ⊢
        generalize feed c data d'=r' at hends' ⊢
        cases hends with
        | suspended hh | lost hh | complete hh => cases hh
        | invalid hh hcls hlim hst hstore =>
          cases hh
          cases hends' with
          | suspended hh' | lost hh' | complete hh' => cases hh'
          | invalid hh' _ hlim' hst' hstore' =>
            cases hh'
            exact .invalid ⟨hlim,hst⟩ ⟨hlim',hst'⟩ (hstore.trans hstore'.symm)
          | limited hh' hcls' => cases hh'; rw [hcls] at hcls'; cases hcls'
          | raised hh' h1 => cases hh'; exact absurd hcls h1
        | limited hh hcls hlim hstore =>
          cases hh
          cases hends' with
          | suspended hh' | lost hh' | complete hh' => cases hh'
          | invalid hh' hcls' => cases hh'; rw [hcls] at hcls'; cases hcls'
          | limited hh' _ hlim' hstore' =>
            cases hh'
            exact .limited hlim hlim' (hstore.trans hstore'.symm)
          | raised hh' _ h2 => cases hh'; exact absurd hcls h2
        | raised hh h1 h2 hstore he =>
          cases hh
          cases hends' with
          | suspended hh' | lost hh' | complete hh' => cases hh'
          | invalid hh' hcls' => cases hh'; exact absurd hcls' h1
          | limited hh' hcls' => cases hh'; exact absurd hcls' h2
          | raised hh' _ _ hstore' he' =>
            cases hh'
            exact .failed h1 h2 harg (he.imp_right fun h => h.2.2) (he'.imp_right fun h => h.2.2)
              (hstore.trans hstore'.symm)

/-- Feeding chunks to twins makes twins of what they come to. -/
theorem feedAll_twins {last : Status}
    (h : Twins room (.ok last d) (.ok last d')) (chunks : List (List UInt8)) :
    Twins room (feedAll c last chunks d) (feedAll c last chunks d') := by
  induction chunks generalizing last d d' with
  | nil => exact h
  | cons chunk chunks ih =>
    rw [feedAll,run_bind,run_bind]
    have hone : Twins room (feed c chunk d) (feed c chunk d') := by
      cases h with
      | answered hat hat' => exact feed_twins hat hat' chunk
      | invalid hd hd' hs =>
        rw [feed_invalid hd.1 hd.2,feed_invalid hd'.1 hd'.2]
        exact .invalid hd hd' hs
    generalize feed c chunk d=r at hone ⊢
    generalize feed c chunk d'=r' at hone ⊢
    cases hone with
    | answered hat hat' => exact ih (.answered hat hat')
    | invalid hd hd' hs => exact ih (.invalid hd hd' hs)
    | refused hat hat' => exact .refused hat hat'
    | limited hd hd' hs => exact .limited hd hd' hs
    | failed h1 h2 h3 he he' hs => exact .failed h1 h2 h3 he he' hs

/-- Chunks that were answered answer the walk over all of them. -/
theorem feedAll_answered (hc : bindWords c=.ok ()) (hat : d.At room s xs) (hs : s.Sound c)
    {chunks : List (List UInt8)} (hne : chunks≠[]) {last st : Status}
    (hf : feedAll c last chunks d=.ok st d') :
    Answers (Walk.run c s (xs++chunks.flatten)) (.ok st d') := by
  induction chunks generalizing d s xs last with
  | nil => exact absurd rfl hne
  | cons chunk chunks ih =>
    have hends := feed_ends c hat.idle hat.live chunk
    rw [FeedEnds,hat.view,hat.held,hat.size] at hends
    rw [feedAll,run_bind] at hf
    rw [List.flatten_cons,←List.append_assoc]
    have hchunk := Walk.chunkable hc
    cases hr : feed c chunk d with
    | error e d₁ => rw [hr] at hf; cases hf
    | ok st₁ d₁ =>
      rw [hr] at hf hends
      have hf : feedAll c st₁ chunks d₁=.ok st d' := hf
      split at hends
      · obtain ⟨d₂,hd₂,-⟩ := hends
        cases hd₂
      by_cases hmore : chunks=[]
      · subst hmore
        cases hf
        rw [List.flatten_nil,List.append_nil]
        cases hends with
        | suspended hh _ hat' => rw [hh,←hat'.view]; exact ⟨rfl,rfl⟩
        | complete hh hat' => rw [hh,←hat'.view]; exact ⟨rfl,Agree.refl _ _ _⟩
        | invalid hh hcls _ _ hstore =>
          rw [hh]
          exact ⟨rfl,hcls,congrArg (fun σ : Store V => σ.log.filter Event.observed) hstore.symm⟩
      · cases hends with
        | suspended hh _ hat' =>
          exact (ih hat' (inv_of_wait hchunk hs hh) hmore hf).congr
            (run_wait hchunk hs hh chunks.flatten) fun _ hstop => Walk.run_stop_mode hstop
        | complete hh hat' =>
          exact (ih hat' (inv_of_stop hchunk hs hh) hmore hf).congr
            (run_stop hchunk hs hh chunks.flatten) fun _ hstop => Walk.run_stop_mode hstop
        | invalid hh hcls hlim hst hstore =>
          rw [feedAll_invalid hlim hst] at hf
          cases hf
          rw [show Walk.run c s ((xs++chunk)++chunks.flatten)=_ from
            run_fail hchunk hh chunks.flatten]
          exact ⟨rfl,hcls,congrArg (fun σ : Store V => σ.log.filter Event.observed) hstore.symm⟩

/-- What answers a run is told by the storage. -/
theorem Answers.of_store {h : Halt (Walk V) UInt8 Exn} {st : Status}
    (ha : Answers h (.ok st d')) (hs : d.store=d'.store) : Answers h (.ok st d) := by
  cases h with
  | wait s rest => exact ⟨ha.1,hs ▸ ha.2⟩
  | stop s => exact ⟨ha.1,hs ▸ ha.2⟩
  | fail why s rest => exact ⟨ha.1,ha.2.1,hs ▸ ha.2.2⟩

/-- Feeding two lists of chunks one after the other is feeding both. -/
theorem feedAll_append {last st : Status} {chunks : List (List UInt8)}
    (hf : feedAll c last chunks d=.ok st d') (more : List (List UInt8)) :
    feedAll c last (chunks++more) d=feedAll c st more d' := by
  induction chunks generalizing d last with
  | nil =>
    cases hf
    rfl
  | cons chunk chunks ih =>
    rw [feedAll,run_bind] at hf
    rw [List.cons_append,feedAll,run_bind]
    cases hr : feed c chunk d with
    | error e d₁ => rw [hr] at hf; cases hf
    | ok st₁ d₁ =>
      rw [hr] at hf
      exact ih hf

end Twins

/-- The states of a decoder that is fed chunks and goes on after it refused one before it
walked anything of it; `taken` are the chunks it did not refuse. -/
inductive Retried (c : Config V) (d₀ : Dec V) : List (List UInt8) → Dec V → Prop
  /-- Nothing was fed yet. -/
  | start : Retried c d₀ [] d₀
  /-- A chunk was answered. -/
  | answered {taken : List (List UInt8)} {d d' : Dec V} {data : List UInt8} {st : Status}
      (h : feed c data d=.ok st d') : Retried c d₀ taken d → Retried c d₀ (taken++[data]) d'
  /-- A chunk was refused that does not fit behind the bytes held back. -/
  | refused {taken : List (List UInt8)} {d d' : Dec V} {data : List UInt8} {e : Exn}
      (h : feed c data d=.error e d') (hheld : d.held≠[])
      (hover : d.rbuf.length < d.held.length+data.length) :
      Retried c d₀ taken d → Retried c d₀ taken d'

section Retried

variable {c : Config V} {d₀ d : Dec V} {taken : List (List UInt8)}

/-- A decoder that refused chunks is the twin of one that was never fed them. -/
theorem Retried.twins {rbuf : List UInt8} {store : Store V}
    (h : Retried c (Dec.fresh c rbuf store) taken d) :
    ∃ st d', feedAll c .complete taken (Dec.fresh c rbuf store)=.ok st d' ∧
      Twins rbuf.length (.ok st d) (.ok st d') := by
  have hat := fresh_at c rbuf store
  induction h with
  | start => exact ⟨_,_,rfl,.answered hat hat⟩
  | @answered taken d d₁ data st hf _ ih =>
    obtain ⟨st₀,d',hall,htwins⟩ := ih
    have hone := feedAll_twins (c:=c) htwins [data]
    rw [feedAll_one,feedAll_one,hf] at hone
    have hmore := feedAll_append hall [data]
    rw [feedAll_one] at hmore
    generalize feed c data d'=r at hone hmore
    cases hone with
    | answered hd hd' => exact ⟨st,_,hmore,.answered hd hd'⟩
    | invalid hd hd' hs => exact ⟨.invalid,_,hmore,.invalid hd hd' hs⟩
  | @refused taken d d₁ data e hf hheld hover _ ih =>
    obtain ⟨st₀,d',hall,htwins⟩ := ih
    cases htwins with
    | answered hd hd' =>
      have hends := feed_ends c hd.idle hd.live data
      rw [hf,FeedEnds,if_pos ⟨hheld,hover⟩] at hends
      obtain ⟨d₂,hr,hat₂⟩ := hends
      cases hr
      rw [hd.size,hd.view,hd.held] at hat₂
      exact ⟨st₀,d',hall,.answered hat₂ hd'⟩
    | invalid hd hd' hs =>
      rw [feed_invalid hd.1 hd.2] at hf
      cases hf

/-- A reassembly refusal never fabricates fields, where it comes before the walk: a decoder that
refused chunks so answers, stores and goes on as if it had never been fed them, and has heard
what the walk over the chunks it took says. -/
theorem retried_stream {r : Reassembly} {store : Store V} (hi : Dec.init c r store=.ok d₀)
    (h : Retried c d₀ taken d) :
    ∃ st d', feedAll c .complete taken d₀=.ok st d' ∧
      (∀ pieces, Twins d₀.rbuf.length (feedAll c st pieces d) (feedAll c st pieces d')) ∧
      Answers (Walk.run c d₀.view taken.flatten) (.ok st d) := by
  obtain ⟨⟨rbuf,-,rfl⟩,hc⟩ := init_ok hi
  obtain ⟨st,d',hall,htwins⟩ := h.twins
  refine ⟨st,d',hall,feedAll_twins htwins,?_⟩
  have hanswers : Answers (Walk.run c (Dec.fresh c rbuf store).view taken.flatten)
      (.ok st d') := by
    by_cases hne : taken=[]
    · subst hne
      cases hall
      rw [List.flatten_nil,fresh_nil]
      exact ⟨rfl,Agree.refl _ _ _⟩
    · exact feedAll_answered hc (fresh_at c rbuf store) trivial hne hall
  have hstore : d.store=d'.store := by
    cases htwins with
    | answered hd hd' => exact congrArg Walk.store (hd.view.trans hd'.view.symm)
    | invalid hd hd' hs => exact hs
  exact hanswers.of_store hstore

end Retried

/-- A decoder that has refused a chunk behind a header it holds is as if it had not been fed it. -/
theorem retried_stream_skipping : ∃ d₁ d₂,
    feed decliner [0x3A] (Dec.fresh decliner (List.replicate 16 0) blank)=.ok .incomplete d₁ ∧
    feed decliner (0xA3::0x01::List.replicate 14 0) d₁=.error (tooLong 16 17) d₂ ∧
    ∃ st d', feedAll decliner .complete [[0x3A]]
        (Dec.fresh decliner (List.replicate 16 0) blank)=.ok st d' ∧
      ∀ pieces, Twins 16 (feedAll decliner st pieces d₂) (feedAll decliner st pieces d') := by
  refine ⟨_,_,rfl,rfl,?_⟩
  have hone := @Retried.answered Unit decliner
    (Dec.fresh decliner (List.replicate 16 0) blank) [] _ _ [0x3A] .incomplete rfl .start
  have htwo := @Retried.refused Unit decliner _ _ _ _ (0xA3::0x01::List.replicate 14 0)
    (tooLong 16 17) rfl (by decide) (by decide) hone
  obtain ⟨st,d',hall,htwins,-⟩ := retried_stream init_decliner htwo
  exact ⟨st,d',hall,htwins⟩

/-- Most of a blob of twenty bytes, with its header. -/
def cutBlob : List UInt8 := 0x0A::0xA3::0x01::List.replicate 17 0xEE

/-- The rest of it, and nine integers. -/
def blobRest : List UInt8 := List.replicate 3 0xEE++(List.replicate 9 [0x10,0x05]).flatten

/-- The status a feed answered, and the calls made so far. -/
def ended : EStateM.Result Exn (Dec Unit) Status → Option (Status × List (Event Unit))
  | .ok st d => some (st,d.store.log)
  | .error .. => none

/-- The outcome of the feed that follows a refusal. -/
def afterRefusal (data : List UInt8) :
    EStateM.Result Exn (Dec Unit) Status → Option (Status × List (Event Unit))
  | .ok .. => none
  | .error _ d => ended (feed listener data d)

/-- What an outcome says of a feed. -/
theorem of_ended {r : EStateM.Result Exn (Dec Unit) Status} {st : Status}
    {log : List (Event Unit)} (h : ended r=some (st,log)) : ∃ d, r=.ok st d ∧ d.store.log=log := by
  cases r with
  | error e d => cases h
  | ok st' d =>
    cases h
    exact ⟨d,rfl,rfl⟩

/-- What it says of a feed that follows a refusal. -/
theorem of_afterRefusal {data : List UInt8} {r : EStateM.Result Exn (Dec Unit) Status}
    {st : Status} {log : List (Event Unit)} (h : afterRefusal data r=some (st,log)) :
    ∃ e d₁ d₂, r=.error e d₁ ∧ feed listener data d₁=.ok st d₂ ∧ d₂.store.log=log := by
  cases r with
  | ok st' d => cases h
  | error e d =>
    obtain ⟨d₂,h1,h2⟩ := of_ended h
    exact ⟨e,d,d₂,rfl,h1,h2⟩

/-- A blob whose bytes were lost with a chunk is read from those that follow in the stream,
and the blob of the stream is another. -/
theorem refused_after_walk : ∃ d₀, Dec.init listener (.size 16) blank=.ok d₀ ∧
    (∃ d₁ d₂, feed listener cutBlob d₀=.error (tooLong 16 17) d₁ ∧
      feed listener blobRest d₁=.ok .incomplete d₂ ∧
      d₂.store.log=[.value () 1 (.bytes (List.replicate 3 0xEE++
        (List.replicate 8 [0x10,0x05]).flatten++[0x10]))]) ∧
    ∃ d, feed listener (cutBlob++blobRest) d₀=.ok .complete d ∧
      d.store.log=.value () 1 (.bytes (List.replicate 20 0xEE))::
        List.replicate 9 (.value () 2 (.unsigned 5)) := by
  refine ⟨_,init_listener,?_,of_ended (by decide +kernel)⟩
  have hraised : ∃ d, feed listener cutBlob (Dec.fresh listener (List.replicate 16 0) blank)=
      .error (tooLong 16 17) d := ⟨_,rfl⟩
  have hafter : afterRefusal blobRest
      (feed listener cutBlob (Dec.fresh listener (List.replicate 16 0) blank))=
      some (.incomplete,[.value () 1 (.bytes (List.replicate 3 0xEE++
        (List.replicate 8 [0x10,0x05]).flatten++[0x10]))]) := by decide +kernel
  obtain ⟨d,hd⟩ := hraised
  obtain ⟨e,d₁,d₂,h1,h2,h3⟩ := of_afterRefusal hafter
  have hsame := h1.symm.trans hd
  cases hsame
  exact ⟨d,d₂,hd,h2,h3⟩

end SofaBuffers
