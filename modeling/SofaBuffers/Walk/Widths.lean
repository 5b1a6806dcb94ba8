import SofaBuffers.Walk.Readers

/-!
# The width of an element

An integer array with a declared width is the plain loop: read one varint, undo ZigZag, refuse
the element if it is outside the width, else store it. The verdict on an element is
reached where its own bytes end, so that it is the same whether the array arrives whole or is
truncated behind it.
-/

set_option autoImplicit false

namespace SofaBuffers

open Dec

variable {V : Type}

/-- A value inside a declared width, an omitted side of which leaves it open. -/
def Admits (lo hi : Option ℤ) (x : ℤ) : Prop := (∀ l, lo=some l → l ≤ x) ∧ ∀ h, hi=some h → x ≤ h

/-- The bytes start with these elements, all of them inside the declared width. -/
structure Elements (lo hi : Option ℤ) (zigzag : Bool) (xs : List UInt8) (raws : List ℕ)
    (tail : List UInt8) : Prop where
  /-- One varint behind the other. -/
  spelled : ∃ bs, Varint.SpellsAll bs raws ∧ xs=bs++tail
  /-- No element is outside. -/
  inside : ∀ raw ∈ raws, Admits lo hi (element zigzag raw)

/-- The bytes start with what no array has for an element. -/
inductive Halts (lo hi : Option ℤ) (zigzag : Bool) (xs : List UInt8) : Exn → Prop
  /-- An overlong varint. -/
  | overlong {bs rest : List UInt8} (h : Varint.Overlong 0 bs) (hx : xs=bs++rest) :
      Halts lo hi zigzag xs overlong
  /-- A value outside the width, its own bytes being there. -/
  | outside {bs rest : List UInt8} {raw : ℕ} (h : Varint.Spells 0 bs raw) (hx : xs=bs++rest)
      (hout : ¬Admits lo hi (element zigzag raw)) : Halts lo hi zigzag xs outsideWidth

section Scan

variable {lo hi : Option ℤ} {zigzag : Bool} {xs tail : List UInt8} {raws : List ℕ} {n : ℕ}

/-- Where a side is omitted it is the widest value of its domain that stands for it. -/
theorem outside_iff {raw : ℕ} (h : raw < 2^64) :
    (Bound.of lo hi zigzag).outside (element zigzag raw)=false ↔
      Admits lo hi (element zigzag raw) := by
  have hrange : -2^63 ≤ element zigzag raw ∧ element zigzag raw ≤ 2^64-1 := by
    cases zigzag with
    | true =>
      have hz := Zigzag.decode_range h
      simp only [element,if_true]
      omega
    | false =>
      simp only [element,Bool.false_eq_true,if_false]
      omega
  generalize element zigzag raw=x at hrange ⊢
  cases lo with
  | none =>
    cases hi with
    | none => simp [Bound.outside,Bound.of,Admits]
    | some h =>
      simp [Bound.outside,Bound.of,Admits,signedMin]
      omega
  | some l =>
    cases hi with
    | none =>
      simp [Bound.outside,Bound.of,Admits,unsignedMax]
      omega
    | some h => simp [Bound.outside,Bound.of,Admits]

/-- A scan takes elements until it is done, or short of bytes, or finds one that is none. -/
theorem scan_elements (lo hi : Option ℤ) (zigzag : Bool) (n : ℕ) (xs : List UInt8) :
    ∃ raws tail, Elements lo hi zigzag xs raws tail ∧
      (scan (.of lo hi zigzag) zigzag n xs).1=raws.map (element zigzag) ∧
      match (scan (.of lo hi zigzag) zigzag n xs).2 with
      | .done rest => rest=tail ∧ raws.length=n
      | .more => raws.length < n ∧ Varint.Cut 0 tail
      | .bad why => raws.length < n ∧ Halts lo hi zigzag tail why := by
  induction n generalizing xs with
  | zero => exact ⟨[],xs,⟨⟨[],.nil,rfl⟩,by simp⟩,rfl,rfl,rfl⟩
  | succ n ih =>
    rw [scan]
    cases hr : Varint.read overlong xs with
    | more =>
      have hcut := Varint.read_more_iff.mp hr
      exact ⟨[],xs,⟨⟨[],.nil,rfl⟩,by simp⟩,rfl,by simp,hcut⟩
    | bad why =>
      obtain ⟨rfl,bs,rest,hbs,hx⟩ := Varint.read_bad_iff.mp hr
      exact ⟨[],xs,⟨⟨[],.nil,rfl⟩,by simp⟩,rfl,by simp,.overlong hbs hx⟩
    | done raw rest =>
      obtain ⟨bs,hbs,hx⟩ := Varint.read_done_iff.mp hr
      have hout : (Bound.of lo hi zigzag).outside (element zigzag raw)=false ↔
        Admits lo hi (element zigzag raw) := outside_iff hbs.lt
      cases ho : (Bound.of lo hi zigzag).outside (element zigzag raw) with
      | true =>
        have hno : ¬Admits lo hi (element zigzag raw) := by simp [←hout,ho]
        have hhalts : Halts lo hi zigzag xs outsideWidth := .outside hbs hx hno
        exact ⟨[],xs,⟨⟨[],.nil,rfl⟩,by simp⟩,by simp [ho],by simp [ho,hhalts]⟩
      | false =>
        obtain ⟨raws,tail,⟨⟨cs,hcs,hrest⟩,hin⟩,helems,htail⟩ := ih rest
        have hyes := hout.mp ho
        refine ⟨raw::raws,tail,⟨⟨bs++cs,.cons hbs hcs,by simp [hx,hrest]⟩,?_⟩,?_,?_⟩
        · simpa using ⟨hyes,hin⟩
        · simp [ho,helems]
        · simp only [ho]
          cases hs : (scan (.of lo hi zigzag) zigzag n rest).2 with
          | done rest' => simpa [hs] using htail
          | more => simpa [hs] using htail
          | bad why => simpa [hs] using htail

/-- Elements inside the width are scanned, and the scan goes on behind them. -/
theorem Elements.scan (h : Elements lo hi zigzag xs raws tail) (m : ℕ) :
    scan (.of lo hi zigzag) zigzag (raws.length+m) xs=
      (raws.map (element zigzag)++(SofaBuffers.scan (.of lo hi zigzag) zigzag m tail).1,
        (SofaBuffers.scan (.of lo hi zigzag) zigzag m tail).2) := by
  obtain ⟨bs,hbs,rfl⟩ := h.spelled
  refine scan_spelled hbs _ zigzag m tail fun raw hraw => ?_
  have hlt := hbs.lt raw hraw
  exact (outside_iff hlt).mpr (h.inside raw hraw)

/-- A scan of just so many elements is done with them. -/
theorem Elements.scan_done (h : Elements lo hi zigzag xs raws tail) (hn : raws.length=n) :
    SofaBuffers.scan (.of lo hi zigzag) zigzag n xs=(raws.map (element zigzag),.done tail) := by
  have hscan := h.scan 0
  rw [Nat.add_zero,hn] at hscan
  simp [hscan,SofaBuffers.scan]

/-- A scan of more elements wants more where the bytes end. -/
theorem Elements.scan_more (h : Elements lo hi zigzag xs raws tail) (hn : raws.length < n)
    (hcut : Varint.Cut 0 tail) :
    SofaBuffers.scan (.of lo hi zigzag) zigzag n xs=(raws.map (element zigzag),.more) := by
  obtain ⟨m,rfl⟩ : ∃ m, n=raws.length+(m+1) := ⟨n-raws.length-1,by omega⟩
  have hread : Varint.read overlong tail=.more := Varint.read_more_iff.mpr hcut
  rw [h.scan (m+1),SofaBuffers.scan]
  simp [hread]

/-- A scan of more elements stops at what is none. -/
theorem Elements.scan_bad {why : Exn} (h : Elements lo hi zigzag xs raws tail)
    (hn : raws.length < n) (hhalt : Halts lo hi zigzag tail why) :
    SofaBuffers.scan (.of lo hi zigzag) zigzag n xs=(raws.map (element zigzag),.bad why) := by
  obtain ⟨m,rfl⟩ : ∃ m, n=raws.length+(m+1) := ⟨n-raws.length-1,by omega⟩
  rw [h.scan (m+1),SofaBuffers.scan]
  cases hhalt with
  | @overlong bs rest hbs hx =>
    have hread : Varint.read overlong tail=.bad SofaBuffers.overlong :=
      Varint.read_bad_iff.mpr ⟨rfl,bs,rest,hbs,hx⟩
    simp [hread]
  | @outside bs rest raw hbs hx hout =>
    have hread : Varint.read SofaBuffers.overlong tail=.done raw rest :=
      Varint.read_done_iff.mpr ⟨bs,hbs,hx⟩
    have ho : (Bound.of lo hi zigzag).outside (element zigzag raw)=true := by
      have hiff : (Bound.of lo hi zigzag).outside (element zigzag raw)=false ↔ _ :=
        outside_iff hbs.lt
      simpa [←hiff] using hout
    simp [hread,ho]

end Scan

section Stores

variable {c : Config V} {into : Option (Sink × ℕ)}

/-- Assigning an item fails for its index or its value only. -/
theorem put_error {sink : Sink} {i : ℕ} {x : ℤ} {s s' : Store V} {e : Exn}
    (h : sink.put c i x s=(s',some e)) : e=.index ∨ e=.value := by
  have hif : ∀ {p : Prop} [Decidable p] {f g : Effect V}, (if p then f else g) s=(s',some e) →
      f s=(s',some e) ∨ g s=(s',some e) := by
    intro p _ f g hf
    split at hf
    · exact .inl hf
    · exact .inr hf
  have hupdate : ∀ {f : Store V → Store V}, (Effect.update f : Effect V) s≠(s',some e) := by
    simp [Effect.update]
  have hraise : ∀ {e' : Exn}, (Effect.raise e' : Effect V) s=(s',some e) → e=e' := by
    intro e' he
    simp [Effect.raise] at he
    exact he.2.symm
  cases sink with
  | unsignedWords =>
    rcases hif h with h | h
    · rcases hif h with h | h
      · exact absurd h hupdate
      · exact .inr (hraise h)
    · exact .inl (hraise h)
  | signedWords =>
    rcases hif h with h | h
    · rcases hif h with h | h
      · exact absurd h hupdate
      · exact .inr (hraise h)
    · exact .inl (hraise h)
  | buffer dst =>
    rcases hif h with h | h
    · rcases hif h with h | h
      · exact absurd h hupdate
      · exact .inr (hraise h)
    · exact .inl (hraise h)

/-- Storing elements fails for their index or their value only. -/
theorem fillFrom_error {i : ℕ} {xs : List ℤ} {s s' : Store V} {e : Exn}
    (h : fillFrom c into i xs s=(s',some e)) : e=.index ∨ e=.value := by
  induction xs generalizing i s with
  | nil => simp [fillFrom,Effect.done] at h
  | cons x xs ih =>
    cases into with
    | none => simp [fillFrom,Effect.done] at h
    | some place =>
      obtain ⟨sink,base⟩ := place
      rw [fillFrom] at h
      dsimp only [Effect.andThen] at h
      cases hput : sink.put c (base+i) x s with
      | mk t why =>
        rw [hput] at h
        cases why with
        | none => exact ih h
        | some why =>
          cases h
          exact put_error hput

end Stores

section Reads

variable {c : Config V} {d : Dec V}

/-- An array is read as the plain loop over its elements reads it: a list of them, or their
assignment to the items of a destination from a base on. -/
structure ReadsElements (c : Config V) (count : ℕ) (lo hi : Option ℤ) (zigzag : Bool)
    (into : Option Sink) (base : ℕ) (d : Dec V) : Prop where
  /-- It yields the elements exactly where all of them are there, inside the width and stored. -/
  yields : ∀ out d', readVarints c count lo hi zigzag into base d=.ok out d' ↔
    ∃ raws tail σ, Elements lo hi zigzag d.rest raws tail ∧ raws.length=count ∧
      fillFrom c (into.map (·,base)) 0 (raws.map (element zigzag)) d.store=(σ,none) ∧
      out=(if into.isSome then [] else raws.map (element zigzag)) ∧
      d'={d with pos := d.seek tail, store := σ}
  /-- It is malformed exactly where the first problem is an overlong varint or an element
  outside the width whose bytes are there. -/
  refuses : ∀ why, why.cls=.decode →
    ((∃ d', readVarints c count lo hi zigzag into base d=.error why d') ↔
      ∃ raws tail σ, Elements lo hi zigzag d.rest raws tail ∧ raws.length < count ∧
        fillFrom c (into.map (·,base)) 0 (raws.map (element zigzag)) d.store=(σ,none) ∧
        Halts lo hi zigzag tail why)
  /-- It suspends, the cursor where it was armed, exactly where the bytes end inside an element
  before any problem. -/
  suspends : ∀ msg d', readVarints c count lo hi zigzag into base d=.error (.incomplete msg) d' ↔
    ∃ raws tail σ, Elements lo hi zigzag d.rest raws tail ∧ raws.length < count ∧
      fillFrom c (into.map (·,base)) 0 (raws.map (element zigzag)) d.store=(σ,none) ∧
      Varint.Cut 0 tail ∧ msg="truncated varint" ∧ d'={d with pos := d.keep, store := σ}

variable {count base : ℕ} {lo hi : Option ℤ} {zigzag : Bool} {into : Option Sink}
variable {raws : List ℕ} {tail : List UInt8} {σ : Store V}

/-- Elements that are all there, inside the width and stored are read. -/
theorem readVarints_done (hd : d.Filled) (hp : d.pos ≤ d.n)
    (hel : Elements lo hi zigzag d.rest raws tail) (hn : raws.length=count)
    (hfill : fillFrom c (into.map (·,base)) 0 (raws.map (element zigzag)) d.store=(σ,none)) :
    readVarints c count lo hi zigzag into base d=
      .ok (if into.isSome then [] else raws.map (element zigzag))
        {d with pos := d.seek tail, store := σ} := by
  have hloop := readVarints_run c count lo hi zigzag into base hd hp
  rw [hel.scan_done hn] at hloop
  simpa [hfill,LoopEnds] using hloop

/-- Elements cut short suspend. -/
theorem readVarints_more (hd : d.Filled) (hp : d.pos ≤ d.n)
    (hel : Elements lo hi zigzag d.rest raws tail) (hn : raws.length < count)
    (hfill : fillFrom c (into.map (·,base)) 0 (raws.map (element zigzag)) d.store=(σ,none))
    (hcut : Varint.Cut 0 tail) :
    readVarints c count lo hi zigzag into base d=
      .error (.incomplete "truncated varint") {d with pos := d.keep, store := σ} := by
  have hloop := readVarints_run c count lo hi zigzag into base hd hp
  rw [hel.scan_more hn hcut] at hloop
  simpa [hfill,LoopEnds] using hloop

/-- What is no element is refused. -/
theorem readVarints_bad (hd : d.Filled) (hp : d.pos ≤ d.n) {why : Exn}
    (hel : Elements lo hi zigzag d.rest raws tail) (hn : raws.length < count)
    (hfill : fillFrom c (into.map (·,base)) 0 (raws.map (element zigzag)) d.store=(σ,none))
    (hhalt : Halts lo hi zigzag tail why) :
    ∃ d', readVarints c count lo hi zigzag into base d=.error why d' := by
  have hloop := readVarints_run c count lo hi zigzag into base hd hp
  rw [hel.scan_bad hn hhalt] at hloop
  have hends : ∃ p, readVarints c count lo hi zigzag into base d=
      .error why {d with pos := p, store := σ} := by
    simpa [hfill,LoopEnds] using hloop
  obtain ⟨p,hr⟩ := hends
  exact ⟨_,hr⟩

/-- Reading an array comes to all of its elements, or stops where they are cut, malformed or
outside, unless one of them could not be stored. -/
theorem readVarints_ends (c : Config V) (count : ℕ) (lo hi : Option ℤ) (zigzag : Bool)
    (into : Option Sink) (base : ℕ) (hd : d.Filled) (hp : d.pos ≤ d.n) :
    ∃ raws tail σ, Elements lo hi zigzag d.rest raws tail ∧
      ((∃ e d', readVarints c count lo hi zigzag into base d=.error e d' ∧
          (e=.index ∨ e=.value)) ∨
        (fillFrom c (into.map (·,base)) 0 (raws.map (element zigzag)) d.store=(σ,none) ∧
          (raws.length=count ∨ raws.length < count ∧
            (Varint.Cut 0 tail ∨ ∃ why, Halts lo hi zigzag tail why)))) := by
  have hloop := readVarints_run c count lo hi zigzag into base hd hp
  obtain ⟨raws,tail,hel,helems,htail⟩ := scan_elements lo hi zigzag count d.rest
  rw [helems] at hloop
  rcases hfill : fillFrom c (into.map (·,base)) 0 (raws.map (element zigzag)) d.store with ⟨σ,e⟩
  refine ⟨raws,tail,σ,hel,?_⟩
  cases e with
  | some e =>
    have hends : ∃ p, readVarints c count lo hi zigzag into base d=
        .error e {d with pos := p, store := σ} := by
      simpa [hfill,LoopEnds] using hloop
    obtain ⟨p,hr⟩ := hends
    exact .inl ⟨e,_,hr,fillFrom_error hfill⟩
  | none =>
    refine .inr ⟨hfill,?_⟩
    cases hs : (scan (.of lo hi zigzag) zigzag count d.rest).2 with
    | done rest =>
      rw [hs] at htail
      exact .inl htail.2
    | more =>
      rw [hs] at htail
      exact .inr ⟨htail.1,.inl htail.2⟩
    | bad why =>
      rw [hs] at htail
      exact .inr ⟨htail.1,.inr ⟨why,htail.2⟩⟩

/-- The width of an element is judged at the element, whether the elements are listed or
stored, and on one-byte elements, in the window and outside it alike. -/
theorem readVarints_elements (c : Config V) (count : ℕ) (lo hi : Option ℤ) (zigzag : Bool)
    (into : Option Sink) (base : ℕ) (hd : d.Filled) (hp : d.pos ≤ d.n) :
    ReadsElements c count lo hi zigzag into base d := by
  obtain ⟨raws,tail,σ,hel,hends⟩ := readVarints_ends c count lo hi zigzag into base hd hp
  constructor
  · intro out d'
    constructor
    · intro hr
      rcases hends with ⟨e,d'',he,-⟩ | ⟨hfill,hn | ⟨hn,hcut | ⟨why,hhalt⟩⟩⟩
      · simp [he] at hr
      · have hdone := readVarints_done hd hp hel hn hfill
        rw [hr] at hdone
        cases hdone
        exact ⟨raws,tail,σ,hel,hn,hfill,rfl,rfl⟩
      · have hmore := readVarints_more hd hp hel hn hfill hcut
        simp [hr] at hmore
      · obtain ⟨d'',hbad⟩ := readVarints_bad hd hp hel hn hfill hhalt
        simp [hr] at hbad
    · rintro ⟨raws,tail,σ,hel,hn,hfill,rfl,rfl⟩
      exact readVarints_done hd hp hel hn hfill
  · intro why hwhy
    constructor
    · rintro ⟨d',hr⟩
      rcases hends with ⟨e,d'',he,hcls⟩ | ⟨hfill,hn | ⟨hn,hcut | ⟨why',hhalt⟩⟩⟩
      · rw [hr] at he
        cases he
        rcases hcls with rfl | rfl
        · simp [Exn.cls] at hwhy
        · simp [Exn.cls] at hwhy
      · have hdone := readVarints_done hd hp hel hn hfill
        simp [hr] at hdone
      · have hmore := readVarints_more hd hp hel hn hfill hcut
        rw [hr] at hmore
        cases hmore
        simp [Exn.cls] at hwhy
      · obtain ⟨d'',hbad⟩ := readVarints_bad hd hp hel hn hfill hhalt
        rw [hr] at hbad
        cases hbad
        exact ⟨raws,tail,σ,hel,hn,hfill,hhalt⟩
    · rintro ⟨raws,tail,σ,hel,hn,hfill,hhalt⟩
      exact readVarints_bad hd hp hel hn hfill hhalt
  · intro msg d'
    constructor
    · intro hr
      rcases hends with ⟨e,d'',he,hcls⟩ | ⟨hfill,hn | ⟨hn,hcut | ⟨why,hhalt⟩⟩⟩
      · rw [hr] at he
        cases he
        simp at hcls
      · have hdone := readVarints_done hd hp hel hn hfill
        simp [hr] at hdone
      · have hmore := readVarints_more hd hp hel hn hfill hcut
        rw [hr] at hmore
        cases hmore
        exact ⟨raws,tail,σ,hel,hn,hfill,hcut,rfl,rfl⟩
      · obtain ⟨d'',hbad⟩ := readVarints_bad hd hp hel hn hfill hhalt
        rw [hr] at hbad
        cases hbad
        cases hhalt
    · rintro ⟨raws,tail,σ,hel,hn,hfill,hcut,rfl,rfl⟩
      exact readVarints_more hd hp hel hn hfill hcut

/-- An array of three signed elements, cut short behind one that is too large for its width. -/
theorem readVarints_elements_truncated :
    ReadsElements listener 3 (some (-128)) (some 127) true none 0
      ((Dec.fresh listener [] blank).over [0x02,0x80,0x02]) :=
  readVarints_elements listener 3 (some (-128)) (some 127) true none 0 (Nat.le_refl _)
    (Nat.zero_le _)

end Reads

end SofaBuffers
