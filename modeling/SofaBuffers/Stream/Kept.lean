import SofaBuffers.Stream.Chunking

/-!
# What every feed keeps

What every walk keeps, a decoder keeps from feed to feed: it is told once what
holds of the walk between two feeds, and what of the one in which a verdict is
reached.
-/

set_option autoImplicit false

namespace SofaBuffers

open Resumable Dec

variable {V : Type}

/-- The decoder is between two feeds and its walk is in a state of a kind. -/
structure Dec.Going (P : Walk V → Prop) (d : Dec V) : Prop where
  /-- It is between two feeds. -/
  idle : d.Idle
  /-- No verdict has been reached. -/
  live : d.Live
  /-- The walk is in such a state. -/
  kept : P d.view

/-- A feed left the walk in a state of a kind, or in one that tells why it was refused. -/
def Kept (P : Walk V → Prop) (Q : Exn → Walk V → Prop) :
    EStateM.Result Exn (Dec V) Status → Prop
  | .ok .complete d => d.Going P ∧ d.depth=0 ∧ ∃ skip, d.view.mode=.header none skip
  | .ok .incomplete d => d.Going P
  | .ok .invalid d => d.limit=none ∧ d.status=.invalid ∧
      ∃ why s, why.cls=.decode ∧ Q why s ∧ d.store=s.store
  | .error e d => (∃ room need, e=tooLong room need ∧ d.Going P) ∨
      ∃ why s, why.cls≠.decode ∧ Q why s ∧ d.store=s.store ∧
        (e=why ∨ ∃ room need, e=tooLong room need) ∧
        (why.cls=.limit → e=why ∧ d.limit=some why)

section Kept

variable {c : Config V} {P : Walk V → Prop} {Q : Exn → Walk V → Prop}

/-- A decoder at a state of a kind is going. -/
theorem Dec.At.going {d : Dec V} {room : ℕ} {s : Walk V} {xs : List UInt8} (h : d.At room s xs)
    (hs : P s) : d.Going P := by
  have hview := h.view
  subst hview
  exact ⟨h.idle,h.live,hs⟩

/-- What every walk keeps, a feed keeps. -/
theorem feed_kept (hrun : ∀ s xs, P s → (Walk.run c s xs).Holds P Q) {d : Dec V}
    (h : d.Going P) (data : List UInt8) : Kept P Q (feed c data d) := by
  have hends := feed_ends c h.idle h.live data
  rw [FeedEnds] at hends
  generalize feed c data d=r at hends
  split at hends
  · obtain ⟨d',rfl,hat⟩ := hends
    exact Or.inl ⟨_,_,rfl,hat.going h.kept⟩
  · have hkeep := hrun d.view (d.held++data) h.kept
    cases hends with
    | suspended hh _ hat =>
      rw [hh] at hkeep
      exact hat.going hkeep
    | lost hh _ _ hat =>
      rw [hh] at hkeep
      exact Or.inl ⟨_,_,rfl,hat.going hkeep⟩
    | complete hh hat =>
      rw [hh] at hkeep
      obtain ⟨skip,hmode,hdepth⟩ := Walk.run_stop_mode hh
      have hview := hat.view
      subst hview
      exact ⟨hat.going hkeep,hdepth,skip,hmode⟩
    | invalid hh hcls hlim hstatus hstore =>
      rw [hh] at hkeep
      exact ⟨hlim,hstatus,_,_,hcls,hkeep,hstore⟩
    | limited hh hcls hlim hstore =>
      rw [hh] at hkeep
      have hother : ∀ {why : Exn}, why.cls=.limit → why.cls≠.decode := by
        intro why hw
        rw [hw]
        decide
      exact Or.inr ⟨_,_,hother hcls,hkeep,hstore,Or.inl rfl,fun _ => ⟨rfl,hlim⟩⟩
    | raised hh h1 h2 hstore he _ =>
      rw [hh] at hkeep
      exact Or.inr ⟨_,_,h1,hkeep,hstore,he.imp_right fun h => ⟨_,h.2.2⟩,fun hl => absurd hl h2⟩

end Kept

/-- A feed that is refused for the reassembly buffer alone leaves the decoder going. -/
theorem refused_going {c : Config V} {P : Walk V → Prop} {Q : Exn → Walk V → Prop}
    (hrun : ∀ s xs, P s → (Walk.run c s xs).Holds P Q) {d d' : Dec V} (h : d.Going P)
    {data : List UInt8} {e : Exn} (hf : feed c data d=.error e d')
    (hw : ∀ why s rest, Walk.run c d.view (d.held++data)≠.fail why s rest) : d'.Going P := by
  have hends := feed_ends c h.idle h.live data
  have hkeep := hrun d.view (d.held++data) h.kept
  rw [FeedEnds,hf] at hends
  split at hends
  · obtain ⟨d₁,hr,hat⟩ := hends
    cases hr
    exact hat.going h.kept
  · cases hends with
    | lost hh _ _ hat =>
      rw [hh] at hkeep
      exact hat.going hkeep
    | limited hh => exact absurd hh (hw _ _ _)
    | raised hh => exact absurd hh (hw _ _ _)

/-- The states of a decoder that is fed, whatever its feeds come to, up to the first one that
raises over a storage of a kind. -/
inductive Dec.Reached (c : Config V) (X : Store V → Prop) (d₀ : Dec V) : Dec V → Prop
  /-- Nothing was fed yet. -/
  | start : Dec.Reached c X d₀ d₀
  /-- A feed answered. -/
  | answered {d d' : Dec V} {data : List UInt8} {st : Status} (h : feed c data d=.ok st d') :
      Dec.Reached c X d₀ d → Dec.Reached c X d₀ d'
  /-- A feed raised, and the caller goes on all the same. -/
  | raised {d d' : Dec V} {data : List UInt8} {e : Exn} (h : feed c data d=.error e d')
      (hx : ¬X d'.store) : Dec.Reached c X d₀ d → Dec.Reached c X d₀ d'

/-- The states of a decoder that is fed until it raises, a limit or a reassembly buffer
too small not counting. -/
inductive Streamed (c : Config V) (d₀ : Dec V) : Dec V → Prop
  /-- Nothing was fed yet. -/
  | start : Streamed c d₀ d₀
  /-- A feed answered. -/
  | answered {d d' : Dec V} {data : List UInt8} {st : Status} (h : feed c data d=.ok st d') :
      Streamed c d₀ d → Streamed c d₀ d'
  /-- A feed reached a limit. -/
  | limited {d d' : Dec V} {data : List UInt8} {e : Exn} (h : feed c data d=.error e d')
      (he : e.cls=.limit) : Streamed c d₀ d → Streamed c d₀ d'
  /-- A feed was refused though its walk raised nothing. -/
  | refused {d d' : Dec V} {data : List UInt8} {e : Exn} (h : feed c data d=.error e d')
      (hw : ∀ why s rest, Walk.run c d.view (d.held++data)≠.fail why s rest) :
      Streamed c d₀ d → Streamed c d₀ d'

/-- The decoder is going, or has come to a verdict that stands. -/
inductive Dec.Standing (P : Walk V → Prop) (Q : Exn → Walk V → Prop) (d : Dec V) : Prop
  /-- The walk is in a state of a kind. -/
  | going (h : d.Going P)
  /-- Something malformed was met. -/
  | invalid (hl : d.limit=none) (hs : d.status=.invalid) {why : Exn} {s : Walk V} (hq : Q why s)
      (hstore : d.store=s.store)
  /-- A limit was reached. -/
  | limited {why : Exn} (hw : why.cls=.limit) (hl : d.limit=some why) {s : Walk V} (hq : Q why s)
      (hstore : d.store=s.store)

section Standing

variable {c : Config V} {P : Walk V → Prop} {Q : Exn → Walk V → Prop} {d₀ d : Dec V}

/-- A feed of a decoder in good standing that answers leaves one in good standing. -/
theorem answered_standing (hrun : ∀ s xs, P s → (Walk.run c s xs).Holds P Q)
    (h : d.Standing P Q) {data : List UInt8} {st : Status} {d' : Dec V}
    (hf : feed c data d=.ok st d') : d'.Standing P Q := by
  cases h with
  | invalid hl hs hq hstore =>
    rw [feed_invalid hl hs data] at hf
    cases hf
    exact .invalid hl hs hq hstore
  | limited hw hl =>
    rw [feed_limited hl data] at hf
    cases hf
  | going hg =>
    have hkept := feed_kept hrun hg data
    rw [hf] at hkept
    cases st with
    | complete => exact .going hkept.1
    | incomplete => exact .going hkept
    | invalid =>
      obtain ⟨hl,hs,why,s,-,hq,hstore⟩ := hkept
      exact .invalid hl hs hq hstore

/-- A feed of a decoder in good standing that reaches a limit leaves one in good standing. -/
theorem limited_standing (hrun : ∀ s xs, P s → (Walk.run c s xs).Holds P Q)
    (h : d.Standing P Q) {data : List UInt8} {e : Exn} {d' : Dec V}
    (hf : feed c data d=.error e d') (he : e.cls=.limit) : d'.Standing P Q := by
  cases h with
  | invalid hl hs =>
    rw [feed_invalid hl hs data] at hf
    cases hf
  | limited hw hl hq hstore =>
    rw [feed_limited hl data] at hf
    cases hf
    exact .limited hw hl hq hstore
  | going hg =>
    have hkept := feed_kept hrun hg data
    rw [hf] at hkept
    rcases hkept with ⟨room,need,rfl,hg'⟩ | ⟨why,s,-,hq,hstore,hsame,hlim⟩
    · exact .going hg'
    · rcases hsame with rfl | ⟨room,need,rfl⟩
      · exact .limited he (hlim he).2 hq hstore
      · cases he

/-- What a feed of a decoder in good standing comes to, where a walk fails with a verdict
or over a storage of a kind. -/
theorem feed_standing (hrun : ∀ s xs, P s → (Walk.run c s xs).Holds P Q) {X : Store V → Prop}
    (hfail : ∀ why s, Q why s → why.cls=.decode ∨ why.cls=.limit ∨ X s.store)
    (h : d.Standing P Q) (data : List UInt8) :
    (∃ st d', feed c data d=.ok st d' ∧ d'.Standing P Q) ∨
      ∃ e d', feed c data d=.error e d' ∧
        ((d'.Standing P Q ∧ (e.cls=.limit ∨ ∃ room need, e=tooLong room need)) ∨
          (X d'.store ∧ ∃ why s, Q why s ∧ d'.store=s.store)) := by
  cases hr : feed c data d with
  | ok st d' => exact Or.inl ⟨st,d',rfl,answered_standing hrun h hr⟩
  | error e d' =>
    refine Or.inr ⟨e,d',rfl,?_⟩
    by_cases he : e.cls=.limit
    · exact Or.inl ⟨limited_standing hrun h hr he,Or.inl he⟩
    · cases h with
      | invalid hl hs =>
        rw [feed_invalid hl hs data] at hr
        cases hr
      | limited hw hl =>
        rw [feed_limited hl data] at hr
        cases hr
        exact absurd hw he
      | going hg =>
        have hkept := feed_kept hrun hg data
        rw [hr] at hkept
        rcases hkept with ⟨room,need,rfl,hg'⟩ | ⟨why,s,hdec,hq,hstore,-,hlim⟩
        · exact Or.inl ⟨.going hg',Or.inr ⟨room,need,rfl⟩⟩
        · rcases (hfail why s hq).resolve_left hdec with hcls | hx
          · rw [(hlim hcls).1] at he
            exact absurd hcls he
          · exact Or.inr ⟨hstore ▸ hx,why,s,hq,hstore⟩

/-- A decoder stays in good standing whatever it is fed. -/
theorem Dec.Reached.standing (hrun : ∀ s xs, P s → (Walk.run c s xs).Holds P Q) {X : Store V → Prop}
    (hfail : ∀ why s, Q why s → why.cls=.decode ∨ why.cls=.limit ∨ X s.store)
    (h₀ : d₀.Standing P Q) (h : Dec.Reached c X d₀ d) : d.Standing P Q := by
  induction h with
  | start => exact h₀
  | answered hf _ ih => exact answered_standing hrun ih hf
  | @raised d d' data e hf hx _ ih =>
    rcases feed_standing hrun hfail ih data with ⟨_,_,hr,_⟩ | ⟨_,_,hr,hs⟩ <;> rw [hf] at hr <;>
      cases hr
    exact (hs.resolve_right fun h => hx h.1).1

/-- A decoder that is fed a stream stays in good standing. -/
theorem Streamed.standing (hrun : ∀ s xs, P s → (Walk.run c s xs).Holds P Q)
    (h₀ : d₀.Standing P Q) (h : Streamed c d₀ d) : d.Standing P Q := by
  induction h with
  | start => exact h₀
  | answered hf _ ih => exact answered_standing hrun ih hf
  | limited hf he _ ih => exact limited_standing hrun ih hf he
  | @refused d d' data e hf hw _ ih =>
    cases ih with
    | invalid hl hs =>
      rw [feed_invalid hl hs data] at hf
      cases hf
    | limited hw hl hq hstore =>
      rw [feed_limited hl data] at hf
      cases hf
      exact .limited hw hl hq hstore
    | going hg => exact .going (refused_going hrun hg hf hw)

end Standing

/-- The decoder a call leaves, however it ends. -/
def leftBy {α : Type} : EStateM.Result Exn (Dec V) α → Dec V
  | .ok _ d | .error _ d => d

/-- The answer of a feed, or what it raised. -/
def outcomeOf : EStateM.Result Exn (Dec V) Status → Status ⊕ Exn
  | .ok st _ => .inl st
  | .error e _ => .inr e

/-- A feed that answered left what it left. -/
theorem answered_left {r : EStateM.Result Exn (Dec V) Status} {st : Status}
    (h : outcomeOf r=.inl st) : r=.ok st (leftBy r) := by
  cases r with
  | ok st' d =>
    cases h
    rfl
  | error e d => cases h

/-- A feed that raised left what it left. -/
theorem raised_left {r : EStateM.Result Exn (Dec V) Status} {e : Exn}
    (h : outcomeOf r=.inr e) : r=.error e (leftBy r) := by
  cases r with
  | ok st d => cases h
  | error e' d =>
    cases h
    rfl

end SofaBuffers
