import SofaBuffers.Stream.Kept
import SofaBuffers.Stream.Verdict
import SofaBuffers.Walk.Short

/-!
# What the reassembly buffer has to hold

The buffer is there for the value that is read across two feeds and for the
words that lead a field in. It is asked to hold more: the whole of the chunk
that is fed behind bytes held back, and words padded beyond its size.
-/

set_option autoImplicit false

namespace SofaBuffers

open Resumable Dec

variable {V : Type}

/-- A feed comes to a state of the walk, with so many bytes left. -/
def Comes (c : Config V) (d : Dec V) (data : List UInt8) (s : Walk V) (ys : List UInt8) : Prop :=
  Passes (Walk.step c) d.view (d.held++data) s ys

/-- What is there of a value that somebody reads fits in the reassembly buffer. -/
def ValuesFit (c : Config V) (d : Dec V) (data : List UInt8) : Prop :=
  ∀ s ys w id r p b, Comes c d data s ys → s.mode=.value id r p b →
    Walk.step c s ys=.wait w ys → ys.length ≤ d.rbuf.length

/-- What the reassembly buffer is asked to hold fits in it. -/
structure Ample (c : Config V) (d : Dec V) (data : List UInt8) : Prop where
  /-- The whole chunk, behind the bytes held back. -/
  carried : d.held≠[] → d.held.length+data.length ≤ d.rbuf.length
  /-- The words that lead a field in, whoever reads it. -/
  leading : ∀ s skip ys, Comes c d data s ys → s.mode=.header none skip → CutLead ys →
    ys.length ≤ d.rbuf.length
  /-- What is left where something but a verdict is raised. -/
  raising : ∀ s ys why t rest, Comes c d data s ys → Walk.step c s ys=.fail why t rest →
    why.cls≠.decode → why.cls≠.limit → d.held=[] →
    (why.cls=.argument ∧ rest.length ≤ d.rbuf.length) ∨ data.length ≤ d.rbuf.length

/-- Nothing is raised for the reassembly buffer: whatever is raised is a limit, or was raised
by the walk. -/
def Spared (c : Config V) (d : Dec V) (data : List UInt8) : Prop :=
  ∀ e d', feed c data d=.error e d' →
    e.cls=.limit ∨ ∃ s rest, Walk.run c d.view (d.held++data)=.fail e s rest

section Room

variable {c : Config V} {d₀ d : Dec V} {data : List UInt8}

/-- A fresh decoder has nothing in hand. -/
theorem fresh_compact (c : Config V) (rbuf : List UInt8) (store : Store V) :
    (Dec.fresh c rbuf store).view.Compact c :=
  Walk.compact_none (show (Dec.fresh c rbuf store).view.mode=.header none none from rfl)

/-- A message found malformed asks the buffer to hold nothing. -/
theorem spared_verdict (h : d.limit=none ∧ d.status=.invalid) : Spared c d data := by
  intro e d' hf
  rw [feed_invalid h.1 h.2] at hf
  cases hf

/-- Where what the buffer is asked to hold fits in it, nothing is raised for it. -/
theorem spared_of_ample (hi : d.Idle) (hl : d.Live) (hc : d.view.Compact c)
    (hmin : minReassembly ≤ d.rbuf.length) (hread : ValuesFit c d data) (h : Ample c d data) :
    Spared c d data := by
  intro e d' hf
  have hends := feed_ends c hi hl data
  rw [minReassembly] at hmin
  rw [FeedEnds,if_neg (by rintro ⟨h1,h2⟩; have := h.carried h1; omega)] at hends
  generalize hh : Walk.run c d.view (d.held++data)=halt at hends
  rw [hf] at hends
  cases hends with
  | @lost s rest _ hw hadopt hover hat =>
    subst hw
    exfalso
    cases Walk.run_short hc hh with
    | lead hp hm hcut =>
      rcases hcut with rfl | hcut
      · rw [List.length_nil] at hover
        omega
      · have hle := h.leading _ _ _ hp hm hcut
        omega
    | value hp hm hw =>
      have hle := hread _ _ _ _ _ _ _ hp hm hw
      omega
    | dropped hlen => omega
  | limited hw hcls => exact Or.inl hcls
  | @raised why _ s rest _ hw h1 h2 hstore he hat =>
    subst hw
    refine Or.inr ⟨s,rest,?_⟩
    rcases he with rfl | ⟨hadopt,hover,k,rfl⟩
    · rfl
    · obtain ⟨t,ys,hpass,hlast⟩ := Resumable.run_last (Walk.progress c) d.view (d.held++data)
      have hlast : Walk.step c t ys=.fail why s rest := by
        rw [hlast]
        exact congrArg Halt.last hh
      rcases h.raising _ _ _ _ _ hpass hlast h1 h2 hadopt with ⟨hcls,hle⟩ | hle
      · have harg := feed_argument hi hl hcls hh h.carried
        rw [if_neg (by rintro ⟨-,h⟩; omega)] at harg
        obtain ⟨d₂,hr,-⟩ := harg
        rw [hf] at hr
        cases hr
        rfl
      · omega

/-- Where nothing is raised for the buffer, what it is asked to hold fits in it. -/
theorem ample_of_spared (hi : d.Idle) (hl : d.Live) (h : Spared c d data)
    (hraise : ∀ why s rest, Walk.run c d.view (d.held++data)=.fail why s rest →
      why.cls=.decode ∨ why.cls=.limit) : Ample c d data := by
  have hends := feed_ends c hi hl data
  have hnever : ∀ k d', feed c data d≠.error (tooLong d.rbuf.length k) d' := by
    intro k d' hf
    rcases h _ _ hf with hlim | ⟨s,rest,hrun⟩
    · cases hlim
    · rcases hraise _ _ _ hrun with hcls | hcls <;> cases hcls
  have hcarried : d.held≠[] → d.held.length+data.length ≤ d.rbuf.length := by
    intro hne
    by_contra hover
    rw [FeedEnds,if_pos ⟨hne,by omega⟩] at hends
    obtain ⟨d',hr,-⟩ := hends
    exact hnever _ _ hr
  rw [FeedEnds,if_neg (by rintro ⟨h1,h2⟩; have := hcarried h1; omega)] at hends
  constructor
  · exact hcarried
  · intro s skip ys hcomes hm hcut
    by_cases hnil : ys=[]
    · rw [hnil]
      exact Nat.zero_le _
    have hstep : Walk.step c s ys=.wait s ys := by
      rw [Walk.step.eq_def,hm]
      dsimp only
      rw [Walk.headerStep,if_neg hnil,hcut.read]
    have hrun := (Walk.run_passes hcomes).trans (Walk.run_wait hstep)
    have hlen := Walk.run_wait_length hrun
    rw [List.length_append] at hlen
    rw [hrun] at hends
    by_contra hover
    by_cases hne : d.held=[]
    · generalize hf : feed c data d=r at hends
      cases hends with
      | suspended hw hfit hat =>
        cases hw
        exact hover (hfit hne)
      | lost hw hadopt hover hat => exact hnever _ _ hf
      | complete hw | invalid hw | limited hw | raised hw => cases hw
    · have := hcarried hne
      omega
  · intro s ys why t rest hcomes hstep h1 h2
    have hrun := (Walk.run_passes hcomes).trans (Walk.run_fail hstep)
    rcases hraise _ _ _ hrun with hcls | hcls
    · exact absurd hcls h1
    · exact absurd hcls h2

/-- A walk only ever uses bytes up. -/
theorem comes_length {s : Walk V} {ys : List UInt8} (h : Comes c d data s ys) :
    ys.length ≤ d.held.length+data.length := by
  have hsize : ∀ {s t : Walk V} {xs ys : List UInt8}, Passes (Walk.step c) s xs t ys →
      Walk.size t ys ≤ Walk.size s xs := by
    intro s t xs ys h
    induction h with
    | here => exact Nat.le_refl _
    | next hone hpass ih => exact ih.trans (Walk.progress c _ _ _ _ hone).le
  have hle := hsize h
  have hmost := Walk.size_le d.view (d.held++data)
  have hleast : 2*ys.length ≤ Walk.size s ys := Nat.le_add_right _ _
  rw [List.length_append] at hmost
  omega

/-- A chunk that fits behind the bytes held back asks for no more room. -/
theorem ample_of_fits (h : d.held.length+data.length ≤ d.rbuf.length) : Ample c d data where
  carried _ := h
  leading s skip ys hcomes _ _ := (comes_length hcomes).trans h
  raising _ _ _ _ _ _ _ _ _ _ := Or.inr (by omega)

/-- The decoder is between two feeds, its walk in a state of a kind, or the message was found
malformed. -/
def Dec.Steady (P : Walk V → Prop) (room : ℕ) (d : Dec V) : Prop :=
  (∃ s xs, d.At room s xs ∧ P s) ∨ (d.limit=none ∧ d.status=.invalid)

/-- A feed that answers leaves the decoder so. -/
theorem feed_steady {P : Walk V → Prop}
    (hrun : ∀ s xs, P s → (Walk.run c s xs).Holds P fun _ _ => True) {room : ℕ}
    (h : d.Steady P room) {st : Status} {d' : Dec V} (hf : feed c data d=.ok st d') :
    d'.Steady P room := by
  rcases h with ⟨s,xs,hat,hs⟩ | ⟨hlim,hst⟩
  · have hends := feed_ends c hat.idle hat.live data
    rw [hf,FeedEnds,hat.view,hat.held,hat.size] at hends
    split at hends
    · obtain ⟨d₁,hr,-⟩ := hends
      cases hr
    · have hkeep := hrun s (xs++data) hs
      cases hends with
      | suspended hw hfit hat' =>
        rw [hw] at hkeep
        exact Or.inl ⟨_,_,hat',hkeep⟩
      | complete hw hat' =>
        rw [hw] at hkeep
        exact Or.inl ⟨_,_,hat',hkeep⟩
      | invalid hw hcls hlim hstatus => exact Or.inr ⟨hlim,hstatus⟩
  · rw [feed_invalid hlim hst] at hf
    cases hf
    exact Or.inr ⟨hlim,hst⟩

/-- Feeds one after the other leave a decoder steady. -/
theorem feedAll_steady {P : Walk V → Prop}
    (hrun : ∀ s xs, P s → (Walk.run c s xs).Holds P fun _ _ => True) {room : ℕ}
    (h : d.Steady P room) {last st : Status} {chunks : List (List UInt8)} {d' : Dec V}
    (hf : feedAll c last chunks d=.ok st d') : d'.Steady P room := by
  induction chunks generalizing d last with
  | nil =>
    cases hf
    exact h
  | cons chunk chunks ih =>
    rw [feedAll,run_bind] at hf
    cases hr : feed c chunk d with
    | error e d₁ => rw [hr] at hf; cases hf
    | ok st₁ d₁ =>
      rw [hr] at hf
      exact ih (feed_steady hrun h hr) hf

/-- Every feed of a run is of a kind, in the state in which it is made. -/
def EachFeed (c : Config V) (d₀ : Dec V) (chunks : List (List UInt8))
    (P : Dec V → List UInt8 → Prop) : Prop :=
  ∀ before chunk after, chunks=before++chunk::after →
    ∀ st d, feedAll c .complete before d₀=.ok st d → P d chunk

/-- The reassembly buffer bounds what is read, where it is asked to hold no more: in a run of
feeds of which none asks it for more than it holds, none is refused for it. And where the walk
raises verdicts only, a run of which none is refused for it asks it for no more. -/
theorem feedAll_spared {r : Reassembly} {store : Store V} (hi : Dec.init c r store=.ok d₀)
    (hmin : minReassembly ≤ d₀.rbuf.length) {chunks : List (List UInt8)}
    (hread : EachFeed c d₀ chunks fun d chunk => d.Live → ValuesFit c d chunk) :
    (EachFeed c d₀ chunks (fun d chunk => d.Live → Ample c d chunk) →
      EachFeed c d₀ chunks (Spared c)) ∧
    (EachFeed c d₀ chunks (fun d chunk => ∀ why s rest,
        Walk.run c d.view (d.held++chunk)=.fail why s rest → why.cls=.decode ∨ why.cls=.limit) →
      EachFeed c d₀ chunks (Spared c) →
      EachFeed c d₀ chunks fun d chunk => d.Live → Ample c d chunk) := by
  obtain ⟨⟨rbuf,-,rfl⟩,-⟩ := init_ok hi
  have hmin : minReassembly ≤ rbuf.length := hmin
  have hfresh : (Dec.fresh c rbuf store).Steady (Walk.Compact c) rbuf.length :=
    Or.inl ⟨_,_,fresh_at c rbuf store,fresh_compact c rbuf store⟩
  have hrun : ∀ s xs, Walk.Compact c s → (Walk.run c s xs).Holds (Walk.Compact c) fun _ _ => True :=
    fun s xs hs => Walk.run_compact hs xs
  refine ⟨fun hample before chunk after hsplit st d hd => ?_,
    fun hraise hspared before chunk after hsplit st d hd hl => ?_⟩
  · have hread := hread before chunk after hsplit st d hd
    have hample := hample before chunk after hsplit st d hd
    rcases feedAll_steady hrun hfresh hd with ⟨s,xs,hat,hc⟩ | hverdict
    · rw [←hat.view] at hc
      rw [←hat.size] at hmin
      exact spared_of_ample hat.idle hat.live hc hmin (hread hat.live) (hample hat.live)
    · exact spared_verdict hverdict
  · have hraise := hraise before chunk after hsplit st d hd
    have hspared := hspared before chunk after hsplit st d hd
    rcases feedAll_steady hrun hfresh hd with ⟨s,xs,hat,hc⟩ | hverdict
    · exact ample_of_spared hat.idle hat.live hspared hraise
    · exact absurd hverdict.2 hl.status

end Room

/-- A handler that declines every field and every sequence. -/
def decliner : Config Unit := {listener with
  hooks := fun _ => {onField := some fun _ => false, onSequenceBegin := some fun _ => .skip}}

/-- Two feeds are of a kind where the first is, and the second from where it leaves. -/
theorem eachFeed_pair {c : Config V} {d₀ : Dec V} {a b : List UInt8}
    {P : Dec V → List UInt8 → Prop} (ha : P d₀ a)
    (hb : ∀ st d, feed c a d₀=.ok st d → P d b) : EachFeed c d₀ [a,b] P := by
  intro before chunk after hsplit st d hd
  cases before with
  | nil =>
    cases hsplit
    cases hd
    exact ha
  | cons x before =>
    rw [List.cons_append,List.cons.injEq] at hsplit
    obtain ⟨rfl,hsplit⟩ := hsplit
    cases before with
    | nil =>
      cases hsplit
      rw [feedAll_one] at hd
      exact hb st d hd
    | cons y before => simp at hsplit

/-- Nobody reads a field: there is no table, and every handler declines it. -/
structure Config.Declining (c : Config V) : Prop where
  /-- There is no table. -/
  table : c.forest=none
  /-- Every handler declines every field. -/
  field : ∀ v, ∃ accept, (c.hooks v).onField=some accept ∧ ∀ f, accept f=false

/-- No table is open. -/
def Walk.Tableless (s : Walk V) : Prop := s.bmap=none ∧ ∀ b ∈ s.bstack, b=none

/-- No table is open and no value is being read. -/
structure Walk.Unread (s : Walk V) : Prop where
  /-- No table is open. -/
  tables : s.Tableless
  /-- No value is being read. -/
  mode : ∀ id r p b, s.mode≠.value id r p b

section Declining

variable {c : Config V} {s : Walk V} {rest : List UInt8}

/-- Going back to a handler opens no table. -/
theorem Walk.Tableless.popVisitor (h : s.Tableless) : (Walk.popVisitor s).Tableless := by
  rw [Walk.popVisitor]
  split
  · split <;> exact h
  · exact h

/-- A scope that closes leaves no table open. -/
theorem Walk.Tableless.endSequence (h : s.Tableless) : (Walk.endSequence s).Tableless := by
  have hclose : ∀ t : Walk V, t.Tableless → (Walk.closeScope t).Tableless := by
    intro t ht
    rw [Walk.closeScope]
    split
    · exact ht.popVisitor
    · exact Walk.Tableless.popVisitor (s:=t.call _) ht
  have hbmap := h.1
  rw [Walk.endSequence]
  split
  · next outer below hstack =>
    have houter : outer=none := h.2 outer (by rw [hstack]; exact List.mem_cons_self)
    have hbelow : ∀ b ∈ below, b=none := fun b hb =>
      h.2 b (by rw [hstack]; exact List.mem_cons_of_mem _ hb)
    split
    · exact ⟨houter,hbelow⟩
    · exact hclose _ ⟨houter,hbelow⟩
  · exact hclose s h

/-- Where there is no table, none names a field. -/
theorem matched_tableless (c : Config V) (id : ℕ) (t : WireType) (st : Option FixlenSubtype) :
    Walk.matched c none id t st=none := rfl

/-- Between two constructs no value is being read. -/
theorem unread_header (h : s.Tableless) {drop : Option Pending} {skip : Option ℕ}
    (hm : s.mode=.header drop skip) : s.Unread := by
  refine ⟨h,fun id r p b hv => ?_⟩
  rw [hm] at hv
  cases hv

/-- A sequence a handler is asked about opens no table. -/
theorem unread_startVisited (hc : c.Declining) (h : s.Tableless) (v : V) (id : ℕ) :
    (Walk.startVisited c s v id rest).Holds Walk.Unread fun _ _ => True := by
  rw [Walk.startVisited]
  have hhide : ∀ t : Walk V, Walk.hideMap c t=some t := by
    intro t
    rw [Walk.hideMap,hc.table]
    rfl
  split
  · exact unread_header h rfl
  · rw [hhide]
    exact unread_header h rfl
  · rw [hhide]
    simp only [Walk.pushVisitor]
    split
    · trivial
    · next t ht =>
      split at ht <;> cases ht
      exact unread_header h rfl

/-- A sequence that starts leads to no value that is read. -/
theorem unread_startSequence (hc : c.Declining) (h : s.Tableless) (id : ℕ) :
    (Walk.startSequence c s id rest).Holds Walk.Unread fun _ _ => True := by
  rw [Walk.startSequence,h.1,matched_tableless]
  cases hv : s.visitor with
  | none => exact unread_header h rfl
  | some v => exact unread_startVisited hc h v id

/-- A header leads to no value that is read. -/
theorem unread_meet (hc : c.Declining) (h : s.Tableless) (skip : Option ℕ) (tok : Token) :
    (Walk.meet c s skip tok rest).Holds Walk.Unread fun _ _ => True := by
  cases skip with
  | some target =>
    rw [Walk.meet]
    cases tok with
    | value id p => exact unread_header h rfl
    | start id | stop =>
      rw [Walk.onTokenSkipping]
      split
      · trivial
      · exact unread_header h rfl
  | none =>
    rw [Walk.meet]
    cases tok with
    | value id p =>
      rw [Walk.onToken,Walk.startValue,h.1,matched_tableless]
      cases hv : s.visitor with
      | none => exact unread_header h rfl
      | some v =>
        obtain ⟨accept,haccept,hno⟩ := hc.field v
        simp only [Walk.offerField,Walk.fieldOffer,haccept,hno]
        exact unread_header h rfl
    | start id =>
      rw [Walk.onToken]
      split
      · trivial
      · exact unread_startSequence hc (s:={s with depth := s.depth+1}) h id
    | stop =>
      rw [Walk.onToken]
      split
      · trivial
      · exact unread_header (Walk.Tableless.endSequence (s:={s with depth := _}) h) rfl

/-- No step leads to a value that is read. -/
theorem unread_step (hc : c.Declining) (h : s.Unread) (xs : List UInt8) :
    (Walk.step c s xs).Holds Walk.Unread fun _ _ => True := by
  rw [Walk.step.eq_def]
  cases hm : s.mode with
  | header drop skip =>
    cases drop with
    | none =>
      dsimp only
      rw [Walk.headerStep]
      split
      · split <;> exact h
      · split
        · exact h
        · trivial
        · exact unread_meet hc h.tables skip _
    | some p =>
      dsimp only
      rw [Walk.dropStep]
      split
      · exact unread_header h.tables rfl
      · exact unread_header h.tables rfl
      · trivial
  | value id r p b => exact absurd hm (h.mode id r p b)

end Declining

/-- Where nobody reads a field, no value has to fit in the reassembly buffer. -/
theorem declining_valuesFit {c : Config V} (hc : c.Declining) {r : Reassembly} {store : Store V}
    {d₀ : Dec V} (hi : Dec.init c r store=.ok d₀) (chunks : List (List UInt8)) :
    EachFeed c d₀ chunks fun d chunk => d.Live → ValuesFit c d chunk := by
  obtain ⟨⟨rbuf,-,rfl⟩,-⟩ := init_ok hi
  have hfresh : (Dec.fresh c rbuf store).view.Unread := by
    refine unread_header ⟨?_,fun _ h => by cases h⟩ rfl
    show (c.forest.map fun _ => 0)=none
    rw [hc.table]
    rfl
  have hrun : ∀ s xs, Walk.Unread s → (Walk.run c s xs).Holds Walk.Unread fun _ _ => True :=
    fun s xs hs => runFor_holds (fun t ys ht => unread_step hc ht ys) _ hs xs
  intro before chunk after hsplit st d hd hl s ys w id r p b hcomes hm hstep
  rcases feedAll_steady hrun (Or.inl ⟨_,_,fresh_at c rbuf store,hfresh⟩) hd with
    ⟨t,xs,hat,ht⟩ | hverdict
  · rw [←hat.view] at ht
    have hs := hcomes.holds (fun t ys ht => unread_step hc ht ys) ht
    exact absurd hm (hs.mode id r p b)
  · exact absurd hverdict.2 hl.status

/-- A decoder under the decliner can be built. -/
theorem init_decliner : Dec.init decliner (.size 16) blank=
    .ok (Dec.fresh decliner (List.replicate 16 0) blank) :=
  rfl

/-- The decliner declines every field. -/
theorem decliner_declining : decliner.Declining where
  table := rfl
  field _ := ⟨_,rfl,fun _ => rfl⟩

/-- The length word of a blob nobody reads and a few bytes of it do not fit behind its
header, and leading words that are padded do not fit at all. -/
theorem feedAll_spared_skipping :
    ∃ d₀, Dec.init decliner (.size 16) blank=.ok d₀ ∧ minReassembly ≤ d₀.rbuf.length ∧
      ∀ chunks, chunks=[[0x3A],0xA3::0x01::List.replicate 14 0] ∨
          chunks=[0x85::List.replicate 8 0x80++0x00::List.replicate 9 0x80++
            0x00::List.replicate 9 0x80] →
        EachFeed decliner d₀ chunks (fun d chunk => d.Live → ValuesFit decliner d chunk) ∧
          ¬EachFeed decliner d₀ chunks (Spared decliner) := by
  refine ⟨_,init_decliner,by decide,?_⟩
  have hnever : ∀ (d : Dec Unit) data k d', Spared decliner d data →
      feed decliner data d=.error (tooLong 16 k) d' →
      (∃ w rest, Walk.run decliner d.view (d.held++data)=.wait w rest) → False := by
    intro d data k d' hs hf ⟨w,rest,hw⟩
    rcases hs _ _ hf with hlim | ⟨s,rest',hfail⟩
    · cases hlim
    · rw [hw] at hfail
      cases hfail
  rintro chunks (rfl | rfl)
  · refine ⟨declining_valuesFit decliner_declining init_decliner _,fun h => ?_⟩
    have hspared := h [[0x3A]] _ [] rfl _ _ rfl
    exact hnever _ _ _ _ hspared rfl ⟨_,_,rfl⟩
  · refine ⟨declining_valuesFit decliner_declining init_decliner _,fun h => ?_⟩
    have hspared := h [] _ [] rfl _ _ rfl
    exact hnever _ _ _ _ hspared rfl ⟨_,_,rfl⟩

/-- Fed one byte at a time, the header and the length are not refused. -/
theorem feedAll_spared_bytes :
    EachFeed decliner (Dec.fresh decliner (List.replicate 16 0) blank) [[0x3A],[0xA3]]
      (Spared decliner) := by
  have hread := declining_valuesFit decliner_declining init_decliner [[0x3A],[0xA3]]
  refine (feedAll_spared init_decliner (by decide) hread).1 (eachFeed_pair ?_ ?_)
  · exact fun _ => ample_of_fits (by decide)
  · intro st d hd _
    cases hd
    exact ample_of_fits (by decide)

end SofaBuffers
