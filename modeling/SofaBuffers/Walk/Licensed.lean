import SofaBuffers.Walk.Told

/-!
# A walk keeps to a licence

Where every row of every table and every handler keeps to a licence, so does
every step of a walk: what it writes, calls and raises is allowed. The scopes
it is in leave room for the table and the handler a step suspends.
-/

set_option autoImplicit false

namespace SofaBuffers

open Resumable

variable {V : Type}

/-- A value that can be dropped: one a header announced, or part of one. -/
def Pending.Droppable (p : Pending) : Prop := p.Announced ∨ ∃ a n v, p=.discard a n v

/-- A header announces no more than the format allows. -/
theorem readToken_sized {xs rest : List UInt8} {id : ℕ} {p : Pending}
    (h : readToken xs=.done (.value id p) rest) : p.length ≤ fixlenMax := by
  have hcount : ∀ {n m : ℕ}, countWord n=.ok m → m ≤ fixlenMax := by
    intro n m hc
    rw [countWord] at hc
    split at hc <;> cases hc
    rw [arrayMax] at *
    rw [fixlenMax]
    omega
  obtain ⟨header,_,_,h⟩ := of_bind_done h
  obtain ⟨_,_,_,h⟩ := of_bind_done h
  rw [readBehind] at h
  generalize WireType.ofHeader header=t at h
  cases t with
  | unsigned | signed => cases h; exact Nat.zero_le _
  | sequenceStart | sequenceEnd => cases h
  | fixlen =>
    obtain ⟨word,_,_,h⟩ := of_bind_done h
    obtain ⟨⟨st,length⟩,_,hc,h⟩ := of_bind_done h
    have hword := (of_ofCheck hc).1
    cases h
    show length ≤ fixlenMax
    have hsmall : 8 ≤ fixlenMax := by rw [fixlenMax]; omega
    rw [fixlenWord] at hword
    split at hword
    · split at hword <;> cases hword
      omega
    · split at hword <;> cases hword
      omega
    · split at hword <;> cases hword
      omega
    · split at hword <;> cases hword
      omega
    · cases hword
  | arrayUnsigned | arraySigned =>
    obtain ⟨_,_,_,h⟩ := of_bind_done h
    obtain ⟨count,_,hc,h⟩ := of_bind_done h
    cases h
    exact hcount (of_ofCheck hc).1
  | arrayFixlen =>
    obtain ⟨_,_,_,h⟩ := of_bind_done h
    obtain ⟨count,_,hc,h⟩ := of_bind_done h
    obtain ⟨_,_,_,h⟩ := of_bind_done h
    obtain ⟨⟨st,size⟩,_,_,h⟩ := of_bind_done h
    cases h
    exact hcount (of_ofCheck hc).1

/-- Parking a value leaves its length. -/
theorem park_length (c : Config V) {p : Pending} (hr : p.real=p) : (park c p).length=p.length := by
  rw [Pending.length,park_real hr,Pending.length,hr]

/-- Dropping varints leaves varints to drop, or none. -/
theorem dropVarints_sound (n v : ℕ) (xs : List UInt8) :
    (∀ q rest, dropVarints n v xs=.left q rest → q.Droppable) ∧
      ∀ why, dropVarints n v xs=.bad why → why.cls=.decode := by
  fun_induction dropVarints n v xs with
  | case1 => exact ⟨by simp,by simp⟩
  | case2 => exact ⟨fun q rest h => by cases h; exact .inr ⟨_,_,_,rfl⟩,by simp⟩
  | case3 => exact ⟨by simp,fun why h => by cases h; rfl⟩
  | case4 _ _ _ _ _ _ ih | case5 _ _ _ _ _ _ ih | case6 _ _ _ _ _ _ ih => exact ih

/-- Dropping bytes and varints leaves bytes and varints to drop, or none. -/
theorem dropDiscard_sound (a n v : ℕ) (xs : List UInt8) :
    (∀ q rest, dropDiscard a n v xs=.left q rest → q.Droppable) ∧
      ∀ why, dropDiscard a n v xs=.bad why → why.cls=.decode := by
  rw [dropDiscard]
  split
  · exact ⟨fun q rest h => by cases h; exact .inr ⟨_,_,_,rfl⟩,by simp⟩
  · exact dropVarints_sound n v _

/-- What is left of a value that can be dropped can be, and it is refused for the
message's sake only. -/
theorem Pending.Droppable.drop {p : Pending} (h : p.Droppable) (xs : List UInt8) :
    (∀ q rest, p.drop xs=.left q rest → q.Droppable) ∧
      ∀ why, p.drop xs=.bad why → why.cls=.decode := by
  have hreal : ∀ q : Pending, q.Announced → q.real=q →
      (∀ q' rest, dropReal q xs=.left q' rest → q'.Droppable) ∧
        ∀ why, dropReal q xs=.bad why → why.cls=.decode := by
    intro q hq hr
    cases q with
    | scalar signed =>
      rw [dropReal]
      cases hv : Varint.read overlong xs with
      | done v rest => exact ⟨by simp,by simp⟩
      | more => exact ⟨fun q' rest h => by cases h; exact .inl hq,by simp⟩
      | bad e => exact ⟨by simp,fun why h => by cases h; exact varint_cls _ _ hv⟩
    | fixlen st length => exact dropDiscard_sound _ _ _ xs
    | varray signed count => exact dropDiscard_sound _ _ _ xs
    | farray st count size =>
      rw [dropReal]
      split
      · exact ⟨fun q' rest h => by cases h; exact .inl hq,by simp⟩
      · exact dropDiscard_sound _ _ _ xs
    | limit msg q => exact absurd hq (by rw [Announced,hr]; exact id)
    | discard => exact hq.elim
  rcases h with h | ⟨a,n,v,rfl⟩
  · cases p with
    | limit msg q => exact hreal q h.real h.real_real
    | discard => exact h.elim
    | scalar | fixlen | varray | farray => exact hreal _ h rfl
  · exact dropDiscard_sound a n v xs

/-- What a whole walk needs of a licence: every row and every handler keeps to it. -/
structure Licence.Covers (A : Licence V) (c : Config V) : Prop where
  /-- The verdicts on a message may be raised. -/
  verdicts : A.Verdicts
  /-- Every call may be made. -/
  call : ∀ e, A.call e
  /-- Every row of every table keeps to it. -/
  row : ∀ r id e, c.lookup r id=some e → A.Row c e
  /-- A count of occurrences may be full. -/
  full : ∀ r id e i (s : Store V), c.lookup r id=some e → e.kind=.sequence → e.countAt=some i →
    (s.word i).toNat+1=2^64 → A.raise .value s
  /-- Every handler keeps to it. -/
  handler : ∀ v, A.Handler c v

namespace Walk

variable {A : Licence V} {c : Config V} {fs : List (Enclosure V)} {k : ℕ} {s : Walk V}

/-- A bound a handler was asked for is refused for the message's sake. -/
theorem boundOffer_settled {v : V} {id : ℕ} {p : Pending} {why : Exn}
    (h : settled (boundOffer c v id p).2 p=.error why) : why.cls=.decode := by
  rw [boundOffer.eq_def] at h
  split at h
  · next bound n wt st _ hq =>
    rw [boundQuestion.eq_def] at hq
    rw [settled.eq_def] at h
    dsimp only at h
    generalize p.real=q at hq h
    split at h
    · cases h
    · cases q with
      | fixlen | varray | farray =>
        dsimp only at h
        split at h <;> cases h
        rfl
      | scalar | limit | discard => cases hq
  · cases h

/-- What the walk has in hand can be dropped, or is no longer than a header may announce. -/
structure InHand (s : Walk V) : Prop where
  /-- A value to be dropped can be. -/
  drop : ∀ p skip, s.mode=.header (some p) skip → p.Droppable
  /-- A value to be read is no longer than that. -/
  sized : ∀ id r p b, s.mode=.value id r p b → p.length ≤ fixlenMax

/-- A step keeps to the licence, and what it leaves in hand may be. -/
def Keeps (A : Licence V) (s : Walk V) (r : WalkStep V) : Prop :=
  r.Holds (fun s' => A.Allows s.store (s'.store,none) ∧ s'.InHand)
    (fun why s' => A.Allows s.store (s'.store,some why))

/-- Nothing is in hand. -/
theorem inHand_none {skip : Option ℕ} (hm : s.mode=.header none skip) : s.InHand where
  drop p skip' h := by
    rw [hm] at h
    cases h
  sized id r p b h := by
    rw [hm] at h
    cases h

/-- A value to be read is in hand. -/
theorem inHand_value {id : ℕ} {r : Route} {p : Pending} {b : Bool} (hp : p.length ≤ fixlenMax)
    (hm : s.mode=.value id r p b) : s.InHand where
  drop q skip h := by
    rw [hm] at h
    cases h
  sized id' r' q b' h := by
    rw [hm] at h
    cases h
    exact hp

/-- A value to be dropped is in hand. -/
theorem inHand_some {p : Pending} {skip : Option ℕ} (hp : p.Droppable)
    (hm : s.mode=.header (some p) skip) : s.InHand where
  drop q skip' h := by
    rw [hm] at h
    cases h
    exact hp
  sized id r q b h := by
    rw [hm] at h
    cases h

/-- A verdict on the message is allowed where nothing was changed. -/
theorem Keeps.verdict (hA : A.Covers c) {why : Exn} (hw : why.cls=.decode) (s' : Walk V)
    (hs : A.Allows s.store (s'.store,none)) (rest : List UInt8) :
    Keeps A s (.fail why s' rest) :=
  hs.trans (A.allows_raise (hA.verdicts why _ (.inl hw)))

/-- There is room to suspend a table for a scope inside the innermost. -/
theorem Nests.room (h : Nests c fs k s) (hd : s.depth < maxDepth) :
    s.bstack.length < maxDepth := by
  have hlevel := h.level
  rw [h.tables]
  split
  · rw [Config.tables_length]
    omega
  · rw [maxDepth]
    exact Nat.succ_pos _

/-- The sequence of a row opens within the licence. -/
theorem startMapped_licensed (hA : A.Covers c) (h : Nests c fs k s)
    (hd : s.depth < maxDepth) (hg : A.given s.store.obj) {id : ℕ} {e : Entry} (he : matched c s.bmap id .sequenceStart none=some e) (rest : List UInt8) :
    Keeps A s (startMapped c {s with depth := s.depth+1} e rest) := by
  obtain ⟨f,r,hf,-,hl,hmis⟩ := matched_lookup he
  have hlook : c.lookup r id=some e := by rw [Config.lookup,hf]; exact hl
  have hkind : e.kind=.sequence := Entry.sequence_of_match hmis
  have hrow := hA.row r id e hlook
  have harr := within_arrive hrow.toArrival s.store hg
  have hroom := h.room hd
  rw [startMapped]
  obtain ⟨child,hc⟩ := Option.isSome_iff_exists.mp ((Forest.lookup_child hl).mp hkind)
  rw [hc]
  dsimp only
  rcases hr : arrive c e s.store with ⟨σ,_|why⟩
  · rw [hr] at harr
    dsimp only
    rw [pushMap,if_pos hroom]
    have hcount := within_countOccurrence (c:=c) (e:=e) hrow.count
      (fun s i hi hfull => hA.full r id e i s hlook hkind hi hfull) σ (harr.given hg)
    dsimp only
    rcases hs : countOccurrence c e σ with ⟨τ,_|why⟩
    · rw [hs] at hcount
      exact ⟨harr.trans hcount,inHand_none rfl⟩
    · rw [hs] at hcount
      exact harr.trans hcount
  · rw [hr] at harr
    exact harr

/-- A handler is offered a sequence within the licence. -/
theorem startVisited_licensed (hA : A.Covers c) (h : Nests c fs 0 s)
    (hbare : c.forest=none → (c.within fs).table=none) (hd : s.depth < maxDepth) (v : V) (id : ℕ)
    (rest : List UInt8) : Keeps A s (startVisited c {s with depth := s.depth+1} v id rest) := by
  have hcalls := @Licence.allows_calls _ A (sequenceOffer c v id).1 (fun e _ => hA.call e)
    s.store
  have hlen := (c.waiting_stacked fs).length_le
  have hlevel := h.level
  rw [startVisited]
  dsimp only
  cases (sequenceOffer c v id).2 with
  | skip => exact ⟨hcalls,inHand_none rfl⟩
  | stay =>
    dsimp only
    rw [h.hideMap hbare hd]
    exact ⟨hcalls,inHand_none rfl⟩
  | descend w =>
    dsimp only
    rw [h.hideMap hbare hd]
    dsimp only
    rw [pushVisitor,if_pos (by dsimp only; rw [h.waiting]; omega)]
    exact ⟨hcalls,inHand_none rfl⟩

/-- A sequence opens within the licence, or is skipped. -/
theorem startSequence_licensed (hA : A.Covers c) (h : Nests c fs 0 s)
    (hbare : c.forest=none → (c.within fs).table=none) (hd : s.depth < maxDepth)
    (hg : A.given s.store.obj) (id : ℕ) (rest : List UInt8) : Keeps A s (startSequence c {s with depth := s.depth+1} id rest) := by
  have hskip : Keeps A s (skip {s with depth := s.depth+1} rest) :=
    ⟨A.allows_done s.store,inHand_none rfl⟩
  rw [startSequence]
  dsimp only
  cases he : matched c s.bmap id .sequenceStart none with
  | some e => exact startMapped_licensed hA h hd hg he rest
  | none =>
    dsimp only
    split
    · exact hskip
    · split
      · exact hskip
      · next v _ => exact startVisited_licensed hA h hbare hd v id rest

/-- Closing a scope calls its handler at most. -/
theorem endSequence_store (s : Walk V) :
    ∃ es : List (Event V), (endSequence s).store=es.foldl Store.call s.store ∧
      (endSequence s).mode=s.mode := by
  have hpop : ∀ u : Walk V, (popVisitor u).store=u.store ∧ (popVisitor u).mode=u.mode := by
    intro u
    rw [popVisitor.eq_def]
    split
    · split <;> exact ⟨rfl,rfl⟩
    · exact ⟨rfl,rfl⟩
  have hclose : ∀ u : Walk V, ∃ es : List (Event V),
      (closeScope u).store=es.foldl Store.call u.store ∧ (closeScope u).mode=u.mode := by
    intro u
    rw [closeScope]
    split
    · exact ⟨[],hpop u⟩
    · next v _ => exact ⟨[.sequenceEnd v],hpop _⟩
  rw [endSequence.eq_def]
  split
  · split
    · exact ⟨[],rfl,rfl⟩
    · exact hclose _
  · exact hclose s

/-- A value is met within the licence. -/
theorem startValue_licensed (hA : A.Covers c) (id : ℕ) {p : Pending} (hp : p.Announced)
    (hn : p.length ≤ fixlenMax) (rest : List UInt8) : Keeps A s (startValue c s id p rest) := by
  have hdecline : Keeps A s (decline s p rest) :=
    ⟨A.allows_done s.store,inHand_some (.inl hp) rfl⟩
  have hcalls : ∀ (es : List (Event V)) (σ : Store V), A.Allows σ (es.foldl Store.call σ,none) :=
    fun es σ => A.allows_calls (fun e _ => hA.call e) σ
  rw [startValue]
  cases matched c s.bmap id p.tag.1 p.tag.2 with
  | some e => exact ⟨A.allows_done s.store,inHand_value hn rfl⟩
  | none =>
    dsimp only
    split
    · exact hdecline
    · split
      · exact hdecline
      · next v _ =>
        have hasked := hcalls (fieldOffer c v id p).1 s.store
        rw [offerField]
        dsimp only
        split
        · have hbound := hasked.trans (hcalls (boundOffer c v id p).1 _)
          split
          · next why hwhy => exact Keeps.verdict hA (boundOffer_settled hwhy) _ hbound rest
          · next q hq =>
            refine ⟨hbound,inHand_value ?_ rfl⟩
            rcases settled_eq hq with rfl | rfl
            · exact hn
            · rw [hp.real_length]
              exact hn
        · exact ⟨hasked,inHand_some (.inl hp) rfl⟩

/-- A header is met within the licence, inside a skip or not. -/
theorem meet_licensed (hA : A.Covers c) (h : Nests c fs k s)
    (hbare : c.forest=none → (c.within fs).table=none) (hg : A.given s.store.obj)
    {skip : Option ℕ} (hm : s.mode=.header none skip) {tok : Token}
    (ht : ∀ id p, tok=.value id p → (p.Announced ∧ p.real=p) ∧ p.length ≤ fixlenMax)
    (rest : List UInt8) :
    Keeps A s (meet c s skip tok rest) := by
  have hstay : A.Allows s.store (s.store,none) := A.allows_done s.store
  cases skip with
  | none =>
    have hk := h.flat (by rw [skipping,hm])
    subst hk
    cases tok with
    | value id p =>
      obtain ⟨⟨hann,hreal⟩,hn⟩ := ht id p rfl
      exact startValue_licensed hA id (hann.park hreal) ((park_length c hreal).trans_le hn) rest
    | start id =>
      rw [meet,onToken]
      split
      · exact Keeps.verdict hA rfl s hstay rest
      · exact startSequence_licensed hA h hbare (by omega) hg id rest
    | stop =>
      rw [meet,onToken]
      split
      · exact Keeps.verdict hA rfl s hstay rest
      · obtain ⟨es,hes,hmode⟩ := endSequence_store ({s with depth := s.depth-1} : Walk V)
        have hcalls := @Licence.allows_calls _ A es (fun e _ => hA.call e) s.store
        refine ⟨?_,inHand_none rfl⟩
        show A.Allows s.store ((endSequence {s with depth := s.depth-1}).store,none)
        rw [hes]
        exact hcalls
  | some target =>
    cases tok with
    | value id p =>
      obtain ⟨⟨hann,hreal⟩,-⟩ := ht id p rfl
      exact ⟨hstay,inHand_some (.inl (hann.park hreal)) rfl⟩
    | start id =>
      rw [meet,onTokenSkipping]
      split
      · exact Keeps.verdict hA rfl s hstay rest
      · exact ⟨hstay,inHand_none rfl⟩
    | stop =>
      rw [meet,onTokenSkipping]
      split
      · exact Keeps.verdict hA rfl s hstay rest
      · exact ⟨hstay,inHand_none rfl⟩

/-- A value is read within the licence. -/
theorem valueStep_licensed (hA : A.Covers c) (hh : s.Handled) (hs : s.Sound c)
    (hg : A.given s.store.obj) {id : ℕ} {r : Route} {p : Pending} {b : Bool}
    (hm : s.mode=.value id r p b) (hn : p.length ≤ fixlenMax) (xs : List UInt8) :
    Keeps A s (valueStep c s id r p xs) := by
  have hacc : r.Accepts c p := by
    rw [Sound,hm] at hs
    exact hs
  have hroute : A.Route c s.visitor r := by
    cases r with
    | mapped e =>
      obtain ⟨-,t,fid,hl⟩ := hacc
      exact hA.row t fid e hl
    | visit t =>
      obtain ⟨v,hv⟩ := Option.isSome_iff_exists.mp (hh id t p b hm)
      exact ⟨v,hv,hA.handler v⟩
  obtain ⟨hready,hplan⟩ := @prepare_within _ _ _ _ id _ _ _ hroute hA.verdicts hacc (.inl hn) hg
  have hread := hplan.read hA.verdicts (hready.given hg) xs
  rw [valueStep]
  cases hpl : (prepare c s.visitor id r p s.store).2.2.read c
    (prepare c s.visitor id r p s.store).1 xs with
  | done σ rest =>
    rw [hpl] at hread
    exact ⟨hready.trans hread,inHand_none rfl⟩
  | more σ =>
    rw [hpl] at hread
    exact ⟨hready.trans hread,inHand_value ((prepare_length hacc).trans_le hn) rfl⟩
  | bad why σ =>
    rw [hpl] at hread
    exact hready.trans hread

/-- Every step keeps to the licence. -/
theorem step_licence (hA : A.Covers c) (h : Scoping c s) (hd : s.InHand) (hg : A.given s.store.obj) (xs : List UInt8) :
    Keeps A s (step c s xs) := by
  have hstay : A.Allows s.store (s.store,none) := A.allows_done s.store
  obtain ⟨ms,fs,k,es,hold,hn⟩ := h.nests
  rw [step]
  cases hm : s.mode with
  | value id r p resumed =>
    dsimp only
    split
    · exact ⟨hstay,hd⟩
    · exact valueStep_licensed hA h.handled h.sound hg hm (hd.sized id r p resumed hm) xs
  | header drop skip =>
    cases drop with
    | some p =>
      have hdrop := (hd.drop p skip hm).drop xs
      dsimp only
      rw [dropStep]
      cases hp : p.drop xs with
      | gone rest => exact ⟨hstay,inHand_none rfl⟩
      | left q rest => exact ⟨hstay,inHand_some (hdrop.1 q rest hp) rfl⟩
      | bad why => exact Keeps.verdict hA (hdrop.2 why hp) s hstay xs
    | none =>
      dsimp only
      rw [headerStep]
      split
      · split
        · exact ⟨hstay,hd⟩
        · exact ⟨hstay,hd⟩
      · cases ht : readToken xs with
        | more => exact ⟨hstay,hd⟩
        | bad why => exact Keeps.verdict hA (readToken_cls ht) s hstay xs
        | done tok rest =>
          refine meet_licensed hA hn hold.bare hg hm ?_ rest
          rintro id p rfl
          exact ⟨readToken_announced ht,readToken_sized ht⟩

/-- The walk is in scopes of a stream, what it has in hand may be, and whatever it
has done since is allowed. -/
structure Licensed (A : Licence V) (c : Config V) (start : Store V) (s : Walk V) : Prop where
  /-- It is in scopes. -/
  scoping : Scoping c s
  /-- What it has in hand may be. -/
  inHand : s.InHand
  /-- What it has done is allowed. -/
  allows : A.Allows start (s.store,none)

/-- What the walk has done up to a refusal is allowed, and so is the refusal. -/
def Refused (A : Licence V) (start : Store V) (why : Exn) (s : Walk V) : Prop :=
  A.Allows start (s.store,some why)

/-- Every step of a licensed walk is. -/
theorem licensed_step (hA : A.Covers c) {start : Store V} (hg : A.given start.obj)
    (h : Licensed A c start s) (xs : List UInt8) :
    (step c s xs).Holds (Licensed A c start) (Refused A start) := by
  have hscope := scoping_step h.scoping xs
  have hkeep := step_licence hA h.scoping h.inHand (h.allows.given hg) xs
  cases hr : step c s xs with
  | next s' rest =>
    rw [hr] at hscope hkeep
    exact ⟨hscope,hkeep.2,h.allows.trans hkeep.1⟩
  | wait s' rest =>
    rw [hr] at hscope hkeep
    exact ⟨hscope,hkeep.2,h.allows.trans hkeep.1⟩
  | stop s' =>
    rw [hr] at hscope hkeep
    exact ⟨hscope,hkeep.2,h.allows.trans hkeep.1⟩
  | fail why s' rest =>
    rw [hr] at hkeep
    exact h.allows.trans hkeep

/-- A walk over any bytes keeps to the licence. -/
theorem run_licensed (hA : A.Covers c) {start : Store V} (hg : A.given start.obj)
    (h : Licensed A c start s) (xs : List UInt8) :
    (run c s xs).Holds (Licensed A c start) (Refused A start) :=
  runFor_holds (fun _ xs hs => licensed_step hA hg hs xs) _ h xs

end Walk

end SofaBuffers
