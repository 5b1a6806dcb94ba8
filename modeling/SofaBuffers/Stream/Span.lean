import SofaBuffers.Stream.Kept
import SofaBuffers.Walk.Short

/-!
# What the reassembly buffer holds

Between two feeds the span in use of the reassembly buffer is the tail of what
was fed that is not consumed yet: it starts where the header or the value in
flight does. Nothing is held of a value that is dropped by a count, and nothing
once there is a verdict.
-/

set_option autoImplicit false

namespace SofaBuffers

open Resumable Dec

variable {V : Type}

/-- Dropping a value keeps all its bytes or counts down those it has and keeps none. -/
theorem Pending.drop_keeps {p q : Pending} {xs rest : List UInt8} (h : p.drop xs=.left q rest) :
    (rest=xs ∧ ∀ a n v, q≠.discard a n v) ∨ (rest=[] ∧ ∃ a n v, q=.discard a n v) := by
  have hcount : ∀ {a n v : ℕ}, dropDiscard a n v xs=.left q rest →
      rest=[] ∧ ∃ a n v, q=.discard a n v := by
    intro a n v h
    refine ⟨dropDiscard_left h,?_⟩
    rw [dropDiscard] at h
    split at h
    · cases h
      exact ⟨_,_,_,rfl⟩
    · exact dropVarints_discard h
  have hreal : ∀ r : Pending, dropReal r xs=.left q rest →
      (rest=xs ∧ ∀ a n v, q≠.discard a n v) ∨ (rest=[] ∧ ∃ a n v, q=.discard a n v) := by
    intro r h
    cases r with
    | scalar signed =>
      rw [dropReal] at h
      cases hv : Varint.read overlong xs with
      | more => rw [hv] at h; cases h; exact Or.inl ⟨rfl,by simp⟩
      | done | bad => rw [hv] at h; cases h
    | fixlen | varray => exact Or.inr (hcount h)
    | farray st count size =>
      rw [dropReal] at h
      split at h
      · cases h
        exact Or.inl ⟨rfl,by simp⟩
      · exact Or.inr (hcount h)
    | limit | discard => cases h
  cases p with
  | discard => exact Or.inr (hcount h)
  | limit msg r => exact hreal r h
  | scalar signed => exact hreal (.scalar signed) h
  | fixlen st length => exact hreal (.fixlen st length) h
  | varray signed count => exact hreal (.varray signed count) h
  | farray st count size => exact hreal (.farray st count size) h

namespace Walk

variable {c : Config V} {s s' t : Walk V} {xs ys rest : List UInt8}

/-- A step that is suspended keeps all its bytes, unless it only counts down what it drops. -/
theorem wait_keeps (h : step c t ys=.wait s rest) :
    (rest=ys ∧ ∀ a n v skip, s.mode=.header (some (.discard a n v)) skip → rest=[]) ∨
      (rest=[] ∧ ∃ a n v skip, s.mode=.header (some (.discard a n v)) skip) := by
  rw [step.eq_def] at h
  split at h
  · next skip hm =>
    have hmode : ∀ a n v skip, t.mode=.header (some (.discard a n v)) skip → rest=[] := by
      intro a n v skip' hd
      rw [hm] at hd
      cases hd
    rw [headerStep] at h
    split at h
    · next hnil =>
      split at h <;> cases h
      exact Or.inl ⟨hnil.symm,hmode⟩
    · split at h
      · cases h
        exact Or.inl ⟨rfl,hmode⟩
      · cases h
      · next tok mid _ =>
        have hset := meet_settled c t skip tok mid
        rw [h] at hset
        exact hset.elim
  · next p skip hm =>
    rw [dropStep] at h
    split at h
    · cases h
    · next q mid hd =>
      cases h
      rcases Pending.drop_keeps hd with ⟨rfl,hq⟩ | ⟨rfl,a,n,v,rfl⟩
      · exact Or.inl ⟨rfl,fun a n v skip h => by cases h; exact absurd rfl (hq a n v)⟩
      · exact Or.inr ⟨rfl,a,n,v,skip,rfl⟩
    · cases h
  · next id r p resumed hm =>
    split at h
    · cases h
      refine Or.inl ⟨rfl,fun a n v skip hd => ?_⟩
      rw [hm] at hd
      cases hd
    · rw [valueStep] at h
      split at h <;> cases h
      exact Or.inl ⟨rfl,fun a n v skip hd => by cases hd⟩

/-- What a walk holds that is suspended. -/
inductive Midway (c : Config V) (s₀ : Walk V) (xs : List UInt8) (s : Walk V) : List UInt8 → Prop
  /-- It came to a construct and ran out of bytes there: what arrived of the header or the value
  in flight is held, from its first byte on. -/
  | flight {t : Walk V} {rest : List UInt8} (hp : Passes (step c) s₀ xs t rest)
      (hw : step c t rest=.wait s rest) : Midway c s₀ xs s rest
  /-- It was dropping a value by a count, of which nothing is held. -/
  | discard {t : Walk V} {ys : List UInt8} {a n v : ℕ} {skip : Option ℕ}
      (hp : Passes (step c) s₀ xs t ys) (hw : step c t ys=.wait s [])
      (hm : s.mode=.header (some (.discard a n v)) skip) : Midway c s₀ xs s []

/-- A walk that is suspended is midway, and holds nothing if it only drops a value. -/
theorem run_midway (h : run c s xs=.wait s' rest) :
    Midway c s xs s' rest ∧
      ∀ a n v skip, s'.mode=.header (some (.discard a n v)) skip → rest=[] := by
  obtain ⟨t,ys,hpass,hlast⟩ := run_last (progress c) s xs
  rw [show Resumable.run (step c) size s xs=.wait s' rest from h] at hlast
  have hlast : step c t ys=.wait s' rest := hlast
  rcases wait_keeps hlast with ⟨rfl,hdrop⟩ | ⟨rfl,a,n,v,skip,hm⟩
  · exact ⟨.flight hpass hlast,hdrop⟩
  · exact ⟨.discard hpass hlast hm,fun _ _ _ _ _ => rfl⟩

end Walk

/-- The verdict of a decoder is in and its span empty, or there is no verdict. -/
def Dec.Cleared (d : Dec V) : Prop :=
  d.status=.invalid ∨ d.limit.isSome → d.rstart=0 ∧ d.rend=0

/-- A decoder without a verdict. -/
theorem Dec.Live.undecided {d : Dec V} (h : d.Live) : ¬(d.status=.invalid ∨ d.limit.isSome) := by
  rw [h.limit]
  simpa using h.status

section Cleared

variable {d : Dec V} {c : Config V}

/-- Keeping what the walk left does not resize the buffer, and keeps nothing under a verdict. -/
theorem retain_cleared (d : Dec V) :
    (leftBy (retain d)).Cleared ∧ (leftBy (retain d)).rbuf.length=d.rbuf.length := by
  rw [retain,run_get_bind]
  by_cases hv : d.status=.invalid ∨ d.limit.isSome
  · rw [if_pos hv]
    exact ⟨fun _ => ⟨rfl,rfl⟩,rfl⟩
  · rw [if_neg hv]
    split
    · exact ⟨fun _ => ⟨rfl,rfl⟩,rfl⟩
    · split
      · exact ⟨fun h => absurd h hv,rfl⟩
      · split
        · exact ⟨fun h => absurd h hv,rfl⟩
        · refine ⟨fun h => absurd h hv,splice_length ?_⟩
          rw [List.length_drop,List.length_take]
          omega

/-- The rest of a feed that only answers or raises does not resize the buffer, and keeps nothing
under a verdict. -/
theorem leave_cleared {out : DecM V Status}
    (hout : ∀ d : Dec V, d.Cleared →
      (leftBy (out d)).Cleared ∧ (leftBy (out d)).rbuf.length=d.rbuf.length) (d : Dec V) :
    (leftBy (leave out d)).Cleared ∧ (leftBy (leave out d)).rbuf.length=d.rbuf.length := by
  have hkept := retain_cleared d
  rw [leave,run_bind]
  cases hr : retain d with
  | error e d' =>
    rw [hr] at hkept
    exact hkept
  | ok a d' =>
    rw [hr] at hkept
    have hrest := hout d' hkept.1
    exact ⟨hrest.1,hrest.2.trans hkept.2⟩

/-- However a walk ends, the outcome clears the span of a verdict. -/
theorem conclude_cleared {walk : DecM V Bool}
    (hwalk : (leftBy (walk d)).rbuf.length=d.rbuf.length) :
    (leftBy (conclude walk d)).Cleared ∧
      (leftBy (conclude walk d)).rbuf.length=d.rbuf.length := by
  have hpure : ∀ (st : Status) (d : Dec V), d.Cleared →
      (leftBy ((pure st : DecM V Status) d)).Cleared ∧
        (leftBy ((pure st : DecM V Status) d)).rbuf.length=d.rbuf.length :=
    fun st d h => ⟨h,rfl⟩
  have hthrow : ∀ (e : Exn) (d : Dec V), d.Cleared →
      (leftBy ((throw e : DecM V Status) d)).Cleared ∧
        (leftBy ((throw e : DecM V Status) d)).rbuf.length=d.rbuf.length :=
    fun e d h => ⟨h,rfl⟩
  rw [conclude]
  cases hr : walk d with
  | ok short d' =>
    rw [hr] at hwalk
    cases short with
    | true =>
      obtain ⟨hc,hs⟩ := leave_cleared (hpure .incomplete) {d' with status := .incomplete}
      exact ⟨hc,hs.trans hwalk⟩
    | false =>
      have hout : ∀ d : Dec V, d.Cleared →
          (leftBy ((do
            modify fun d => {d with status := .complete}
            pure .complete : DecM V Status) d)).Cleared ∧
          (leftBy ((do
            modify fun d => {d with status := .complete}
            pure .complete : DecM V Status) d)).rbuf.length=d.rbuf.length := by
        refine fun d h => ⟨fun hv => h (Or.inr ?_),rfl⟩
        exact hv.resolve_left (by intro h; cases h)
      obtain ⟨hc,hs⟩ := leave_cleared hout d'
      exact ⟨hc,hs.trans hwalk⟩
  | error e d' =>
    rw [hr] at hwalk
    have hend : ∀ (out : DecM V Status) (d'' : Dec V), (∀ d : Dec V, d.Cleared →
        (leftBy (out d)).Cleared ∧ (leftBy (out d)).rbuf.length=d.rbuf.length) →
        d''.rbuf=d'.rbuf → (leftBy (leave out d'')).Cleared ∧
          (leftBy (leave out d'')).rbuf.length=d.rbuf.length := by
      intro out d'' hout hb
      obtain ⟨hc,hs⟩ := leave_cleared hout d''
      exact ⟨hc,hs.trans ((congrArg List.length hb).trans hwalk)⟩
    cases e with
    | incomplete => exact hend _ _ (hpure _) rfl
    | decode => exact hend _ _ (hpure _) rfl
    | limit => exact hend _ _ (hthrow _) rfl
    | _ => exact hend _ _ (hthrow _) rfl

/-- A walk leaves the bytes it runs over, and the buffer, as they are. -/
theorem drivePush_frame (c : Config V) (hok : d.Ok) :
    (leftBy (drivePush c d)).frame=d.frame := by
  have hdrive := drivePush_ends c hok
  cases hr : drivePush c d with
  | ok short d' =>
    rw [hr] at hdrive
    cases short with
    | true => exact congrArg Dec.frame hdrive.1
    | false => exact hdrive.2.1
  | error e d' =>
    rw [hr] at hdrive
    exact hdrive.1

/-- A feed does not resize the buffer, and leaves nothing in it under a verdict. -/
theorem feed_cleared (c : Config V) (hi : d.Idle) (hl : d.Live) (data : List UInt8) :
    (leftBy (feed c data d)).Cleared ∧ (leftBy (feed c data d)).rbuf.length=d.rbuf.length := by
  have hwalk := feed_walking c hi hl data
  by_cases hover : d.held≠[] ∧ d.rbuf.length < d.held.length+data.length
  · rw [if_pos hover] at hwalk
    obtain ⟨d',hr,hat⟩ := hwalk
    rw [hr]
    exact ⟨fun h => absurd h hat.live.undecided,hat.size⟩
  · rw [if_neg hover] at hwalk
    obtain ⟨d',hw⟩ := hwalk
    have hframe := drivePush_frame c hw.ok
    obtain ⟨hc,hs⟩ := conclude_cleared (congrArg (fun f => f.rbuf.length) hframe)
    rw [hw.feeds]
    exact ⟨hc,hs.trans hw.size⟩

end Cleared

/-- What a decoder holds between two feeds, of the bytes it took. -/
inductive Dec.Rests (room : ℕ) (fed : List UInt8) (d : Dec V) : Prop
  /-- It goes on, with a tail of them. -/
  | live (hi : d.Idle) (hl : d.Live) (hs : d.rbuf.length=room) (htail : d.held<:+fed)
  /-- There is a verdict, and nothing is held. -/
  | ended (hv : d.status=.invalid ∨ d.limit.isSome) (hstart : d.rstart=0) (hend : d.rend=0)
      (hs : d.rbuf.length=room)

/-- The states of a decoder that is fed and reset at will, with the bytes it took since it was
last reset. -/
inductive Fed (c : Config V) (d₀ : Dec V) : List UInt8 → Dec V → Prop
  /-- Nothing was fed yet. -/
  | start : Fed c d₀ [] d₀
  /-- A chunk was answered. -/
  | answered {fed data : List UInt8} {d d' : Dec V} {st : Status} (h : feed c data d=.ok st d') :
      Fed c d₀ fed d → Fed c d₀ (fed++data) d'
  /-- A chunk was refused that does not fit behind the bytes held. -/
  | refused {fed data : List UInt8} {d d' : Dec V} {e : Exn} (h : feed c data d=.error e d')
      (hheld : d.held≠[]) (hover : d.rbuf.length < d.held.length+data.length) :
      Fed c d₀ fed d → Fed c d₀ fed d'
  /-- A chunk was taken and an error of the library raised after it. -/
  | raised {fed data : List UInt8} {d d' : Dec V} {e : Exn} (h : feed c data d=.error e d')
      (hroom : d.held≠[] → d.held.length+data.length ≤ d.rbuf.length)
      (hown : e.cls=.limit ∨ ∀ why s rest, Walk.run c d.view (d.held++data)=.fail why s rest →
        why.cls=.argument) :
      Fed c d₀ fed d → Fed c d₀ (fed++data) d'
  /-- The decoder was reset. -/
  | reset {fed : List UInt8} {d : Dec V} : Fed c d₀ fed d → Fed c d₀ [] (reset d)
  /-- It was reset after a feed that raised anything at all. -/
  | renewed {fed data : List UInt8} {d d' : Dec V} {e : Exn} (h : feed c data d=.error e d') :
      Fed c d₀ fed d → Fed c d₀ [] (SofaBuffers.reset d')

section Rests

variable {c : Config V} {d d' : Dec V} {room : ℕ} {fed data : List UInt8} {st : Status} {e : Exn}

/-- Nothing is held of an empty span. -/
theorem held_nil (h : d.rstart=d.rend) (hroom : d.rend ≤ d.rbuf.length) : d.held=[] := by
  rw [Dec.held,h]
  refine List.drop_eq_nil_of_le ?_
  rw [List.length_take]
  omega

/-- What is at a state of the walk rests. -/
theorem Dec.At.rests {s : Walk V} {xs : List UInt8} (h : d.At room s xs) (htail : xs<:+fed) :
    d.Rests room fed := by
  refine .live h.idle h.live h.size ?_
  rw [h.held]
  exact htail

/-- Nothing rests of a decoder with a verdict. -/
theorem Dec.Cleared.rests (h : d.Cleared) (hv : d.status=.invalid ∨ d.limit.isSome)
    (hs : d.rbuf.length=room) : d.Rests room fed :=
  .ended hv (h hv).1 (h hv).2 hs

/-- A reset decoder starts over. -/
theorem reset_rests (hs : d.rbuf.length=room) : (reset d).Rests room [] := by
  have hnil : (reset d).held=[] := held_nil rfl (Nat.zero_le _)
  refine .live ⟨Nat.le_refl _,Nat.zero_le _,?_,fun _ h => (by cases h),fun h => (by cases h)⟩
    ⟨rfl,fun h => by cases h⟩ hs ?_
  · simp [reset]
  · exact hnil ▸ List.suffix_rfl

/-- A tail of what is held and the chunk is a tail of what was fed. -/
theorem tail_fed {rest : List UInt8} (h : rest<:+d.held++data) (htail : d.held<:+fed) :
    rest<:+fed++data := by
  obtain ⟨pre,rfl⟩ := htail
  rw [List.append_assoc]
  exact h.trans (List.suffix_append ..)

/-- A decoder with a verdict is left as it is. -/
theorem feed_over (c : Config V) (hv : d.status=.invalid ∨ d.limit.isSome) (data : List UInt8) :
    leftBy (feed c data d)=d := by
  cases hlim : d.limit with
  | some why => rw [feed_limited hlim]; rfl
  | none =>
    have hs : d.status=.invalid := by
      rw [hlim] at hv
      exact hv.resolve_right (by simp)
    rw [feed_invalid hlim hs]
    rfl

/-- A feed that answers leaves a tail of what was fed. -/
theorem answered_rests (h : d.Rests room fed) (hf : feed c data d=.ok st d') :
    d'.Rests room (fed++data) := by
  cases h with
  | ended hv hstart hend hs =>
    have hsame := feed_over c hv data
    rw [hf] at hsame
    have hsame : d'=d := hsame
    rw [hsame]
    exact .ended hv hstart hend hs
  | live hi hl hs htail =>
    have hends := feed_ends c hi hl data
    have hcleared := feed_cleared c hi hl data
    have htails := Walk.run_tails c d.view (d.held++data)
    rw [FeedEnds] at hends
    rw [hf] at hends hcleared
    rw [hs] at hends
    split at hends
    · obtain ⟨d₁,hr,-⟩ := hends
      cases hr
    · cases hends with
      | suspended hh _ hat =>
        rw [hh] at htails
        exact hat.rests (tail_fed htails htail)
      | complete hh hat => exact hat.rests List.nil_suffix
      | invalid hh hcls hlim hstatus =>
        exact hcleared.1.rests (Or.inl hstatus) (hcleared.2.trans hs)

/-- A feed that raises an error of the library once it has taken its chunk leaves a tail of what was
fed. -/
theorem raised_rests (h : d.Rests room fed) (hf : feed c data d=.error e d')
    (hroom : d.held≠[] → d.held.length+data.length ≤ d.rbuf.length)
    (hown : e.cls=.limit ∨ ∀ why s rest, Walk.run c d.view (d.held++data)=.fail why s rest →
      why.cls=.argument) : d'.Rests room (fed++data) := by
  cases h with
  | ended hv hstart hend hs =>
    have hsame := feed_over c hv data
    rw [hf] at hsame
    have hsame : d'=d := hsame
    rw [hsame]
    exact .ended hv hstart hend hs
  | live hi hl hs htail =>
    have hends := feed_ends c hi hl data
    have hcleared := feed_cleared c hi hl data
    have htails := Walk.run_tails c d.view (d.held++data)
    have hfit : ¬(d.held≠[] ∧ d.rbuf.length < d.held.length+data.length) := by
      rintro ⟨hheld,hover⟩
      have hle := hroom hheld
      omega
    rw [FeedEnds,if_neg hfit] at hends
    rw [hf] at hends hcleared
    cases hends with
    | lost hh _ _ hat => exact (hs ▸ hat).rests List.nil_suffix
    | limited hh hcls hlim =>
      have hsome : d'.limit.isSome := by rw [hlim]; rfl
      exact hcleared.1.rests (Or.inr hsome) (hcleared.2.trans hs)
    | raised hh h1 h2 hstore he _ =>
      have harg := hown.resolve_left (by
        rcases he with rfl | ⟨-,-,k,rfl⟩
        · exact h2
        · intro h; cases h)
      have hone := feed_argument hi hl (harg _ _ _ hh) hh hroom
      rw [hh] at htails
      rw [hs] at hone
      split at hone
      · obtain ⟨d₁,hr,hat⟩ := hone
        rw [hf] at hr
        cases hr
        exact hat.rests List.nil_suffix
      · obtain ⟨d₁,hr,hat⟩ := hone
        rw [hf] at hr
        cases hr
        exact hat.rests (tail_fed htails htail)

/-- A feed that refuses its chunk leaves what was held. -/
theorem refused_rests (h : d.Rests room fed) (hf : feed c data d=.error e d')
    (hheld : d.held≠[]) (hover : d.rbuf.length < d.held.length+data.length) :
    d'.Rests room fed := by
  cases h with
  | ended hv hstart hend hs =>
    exact absurd (held_nil (hstart.trans hend.symm) (hend ▸ Nat.zero_le _)) hheld
  | live hi hl hs htail =>
    have hends := feed_ends c hi hl data
    rw [FeedEnds,if_pos ⟨hheld,hover⟩] at hends
    obtain ⟨d₁,hr,hat⟩ := hends
    rw [hf] at hr
    cases hr
    exact (hs ▸ hat).rests htail

/-- Whatever a feed raises, the buffer keeps its size. -/
theorem raised_size (h : d.Rests room fed) (hf : feed c data d=.error e d') :
    d'.rbuf.length=room := by
  cases h with
  | ended hv hstart hend hs =>
    have hsame := feed_over c hv data
    rw [hf] at hsame
    have hsame : d'=d := hsame
    rw [hsame]
    exact hs
  | live hi hl hs =>
    have hcleared := feed_cleared c hi hl data
    rw [hf] at hcleared
    exact hcleared.2.trans hs

/-- The buffer keeps its size, whatever rests in it. -/
theorem Dec.Rests.size (h : d.Rests room fed) : d.rbuf.length=room := by
  cases h with
  | live _ _ hs => exact hs
  | ended _ _ _ hs => exact hs

/-- A tail of what was fed rests in every state of a decoder that is fed. -/
theorem Fed.rests {d₀ : Dec V} (h₀ : d₀.Rests room []) (h : Fed c d₀ fed d) :
    d.Rests room fed := by
  induction h with
  | start => exact h₀
  | answered hf _ ih => exact answered_rests ih hf
  | refused hf hheld hover _ ih => exact refused_rests ih hf hheld hover
  | raised hf hroom hown _ ih => exact raised_rests ih hf hroom hown
  | reset _ ih => exact reset_rests ih.size
  | renewed hf _ ih => exact reset_rests (raised_size ih hf)

end Rests

/-- What the span in use of the reassembly buffer is, of the bytes taken since the last reset. -/
structure Dec.Spans (room : ℕ) (fed : List UInt8) (d : Dec V) : Prop where
  /-- It is a span. -/
  start : d.rstart ≤ d.rend
  /-- It lies in the buffer. -/
  stop : d.rend ≤ d.rbuf.length
  /-- The buffer has the size it was given. -/
  size : d.rbuf.length=room
  /-- It holds a tail of those bytes. -/
  tail : d.held<:+fed
  /-- Under a verdict it holds none. -/
  cleared : d.status=.invalid ∨ d.limit.isSome → d.held=[]
  /-- Sliding it to the front, it holds the same. -/
  slides : ∀ n, ∃ d', slide n d=.ok () d' ∧ d'.held=d.held ∧ d'.rstart ≤ d'.rend ∧
    d'.rend ≤ d'.rbuf.length ∧ d'.rbuf.length=room

/-- What a feed that answered holds of the bytes it walked. -/
def Dec.Holds (c : Config V) (d : Dec V) (data : List UInt8) (d' : Dec V) : Status → Prop
  | .incomplete => Walk.Midway c d.view (d.held++data) d'.view d'.held ∧
      ((∃ a n v, d'.pending=some (.discard a n v)) → d'.held=[])
  | .complete | .invalid => d'.held=[]

section Claim

variable {c : Config V} {d₀ d d' : Dec V} {room : ℕ} {fed data : List UInt8} {st : Status}

/-- What rests in the buffer is a span of it. -/
theorem Dec.Rests.spans (h : d.Rests room fed) : d.Spans room fed := by
  cases h with
  | live hi hl hs htail =>
    refine ⟨hi.start,hi.room,hs,htail,fun hv => absurd hv hl.undecided,fun n => ?_⟩
    obtain ⟨d',hr,hi',-,-,hheld,hsize,-⟩ := slide_run hi hl n
    exact ⟨d',hr,hheld,hi'.start,hi'.room,hsize.trans hs⟩
  | ended hv hstart hend hs =>
    have hroom : d.rend ≤ d.rbuf.length := hend ▸ Nat.zero_le _
    have hspan : d.rstart=d.rend := hstart.trans hend.symm
    have hnil := held_nil hspan hroom
    refine ⟨hspan.le,hroom,hs,hnil ▸ List.nil_suffix,fun _ => hnil,fun n => ⟨d,?_,rfl,hspan.le,
      hroom,hs⟩⟩
    have hstay : ¬(d.rend+n > d.rbuf.length ∧ d.rstart≠0) := fun h => h.2 hstart
    rw [slide,run_modify,if_neg hstay]

/-- A decoder that drops a value by a count is seen to. -/
theorem discard_mode (hi : d.Idle) {a n v : ℕ} (hp : d.pending=some (.discard a n v)) :
    ∃ skip, d.view.mode=.header (some (.discard a n v)) skip := by
  have hmode : d.view.mode=d.mode := rfl
  rw [hmode,Dec.mode.eq_def,hp]
  cases hk : d.resumeKind with
  | none => exact ⟨none,rfl⟩
  | skip => exact ⟨d.skipDepth,rfl⟩
  | visit =>
    obtain ⟨p,hp',hfits⟩ := hi.visit hk
    rw [hp] at hp'
    cases hp'
    cases hr : d.route with
    | visit t =>
      rw [hr] at hfits
      exact hfits.1.elim
    | mapped e =>
      rw [hr] at hfits
      exact hfits.2.elim

/-- A feed that answers holds what its walk left. -/
theorem answered_holds (h : d.Rests room fed) (hf : feed c data d=.ok st d') :
    d.Holds c data d' st := by
  have hrests := answered_rests h hf
  cases h with
  | ended hv hstart hend hs =>
    have hsame := feed_over c hv data
    rw [hf] at hsame
    have hsame : d'=d := hsame
    subst hsame
    have hnil : d'.held=[] := held_nil (hstart.trans hend.symm) (hend ▸ Nat.zero_le _)
    cases hlim : d'.limit with
    | some why =>
      rw [feed_limited hlim] at hf
      cases hf
    | none =>
      rw [hlim] at hv
      rw [feed_invalid hlim (hv.resolve_right (by simp))] at hf
      cases hf
      exact hnil
  | live hi hl hs htail =>
    have hends := feed_ends c hi hl data
    rw [FeedEnds,hf] at hends
    split at hends
    · obtain ⟨d₁,hr,-⟩ := hends
      cases hr
    · cases hends with
      | suspended hh _ hat =>
        obtain ⟨hmid,hdrop⟩ := Walk.run_midway hh
        have hview := hat.view
        have hheld := hat.held
        subst hview
        subst hheld
        refine ⟨hmid,?_⟩
        rintro ⟨a,n,v,hp⟩
        obtain ⟨skip,hm⟩ := discard_mode hat.idle hp
        exact hdrop a n v skip hm
      | complete hh hat => exact hat.held
      | invalid hh hcls hlim hstatus => exact hrests.spans.cleared (Or.inl hstatus)

/-- The reassembly buffer holds what is not consumed: whatever a decoder was fed since its last
reset, the span in use lies in a buffer of the size it was given and holds a tail of what was
fed, none of it under a verdict; and after a feed that answers, that tail starts where the
header or the value in flight does. -/
theorem fed_spans {r : Reassembly} {store : Store V} (hi : Dec.init c r store=.ok d₀)
    (h : Fed c d₀ fed d) : d.Spans d₀.rbuf.length fed ∧ ∀ data st d',
      feed c data d=.ok st d' → d'.Spans d₀.rbuf.length (fed++data) ∧ d.Holds c data d' st := by
  obtain ⟨⟨rbuf,-,rfl⟩,-⟩ := init_ok hi
  have hrests := h.rests ((fresh_at c rbuf store).rests List.suffix_rfl)
  exact ⟨hrests.spans,fun data st d' hf => ⟨(answered_rests hrests hf).spans,
    answered_holds hrests hf⟩⟩

end Claim

/-- A number whose header lacks its first byte, a blob of ten bytes, and the first byte of the
header of a third field. -/
def twoFields : List UInt8 := [0x01,0x05,0x0A,0x53,1,2,3,4,5,6,7,8,9,10,0x80]

/-- What a decoder leaves when it is fed the first byte of a header. -/
def halfHeader : Dec Unit :=
  leftBy (feed listener [0x80] (Dec.fresh listener (List.replicate 16 0) blank))

/-- What that decoder leaves behind the two fields. -/
def fullBuffer : Dec Unit := leftBy (feed listener twoFields halfHeader)

/-- A listener that was fed a header in two pieces and whole fields behind it holds the start of
the next header, a proper tail that fills the buffer to its end; one byte more slides it to the
front, and what is held is the longer tail. -/
theorem fed_spans_listener :
    feed listener [0x80] (Dec.fresh listener (List.replicate 16 0) blank)=
      .ok .incomplete halfHeader ∧
    feed listener twoFields halfHeader=.ok .incomplete fullBuffer ∧
    (fullBuffer.held=[0x80] ∧ fullBuffer.rstart=15 ∧
      fullBuffer.Spans 16 (([]++[0x80])++twoFields)) ∧
    ∃ d', feed listener [0x80] fullBuffer=.ok .incomplete d' ∧ d'.held=[0x80,0x80] ∧
      d'.rstart=0 ∧ d'.Spans 16 ((([]++[0x80])++twoFields)++[0x80]) := by
  have hhalf : feed listener [0x80] (Dec.fresh listener (List.replicate 16 0) blank)=
      .ok .incomplete halfHeader := answered_left (by decide +kernel)
  have hfull : feed listener twoFields halfHeader=.ok .incomplete fullBuffer :=
    answered_left (by decide +kernel)
  have hmore : feed listener [0x80] fullBuffer=.ok .incomplete
      (leftBy (feed listener [0x80] fullBuffer)) := answered_left (by decide +kernel)
  have hspans := fed_spans init_listener (.answered hfull (.answered hhalf .start))
  refine ⟨hhalf,hfull,⟨?_,?_,hspans.1⟩,_,hmore,?_,?_,(hspans.2 _ _ _ hmore).1⟩ <;>
    decide +kernel

end SofaBuffers
