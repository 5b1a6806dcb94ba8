import SofaBuffers.Walk.Meaning
import SofaBuffers.Format.Marks

/-!
# What was read was a construct

A reader that takes something off the front of a string took the bytes of a
construct of the grammar, and a construct that is there in front is the only one
that is.
-/

set_option autoImplicit false

namespace SofaBuffers

open Resumable

variable {V : Type}

/-- A value is left with the shape its leading words announce. -/
theorem Extent.pending_injective {x y : Extent} (h : x.pending=y.pending) : x=y := by
  cases x <;> cases y <;> cases h <;> rfl

/-- A header leads to one announcement. -/
theorem Lead.token_injective {l l' : Lead} (h : l.token=l'.token) : l=l' := by
  cases l <;> cases l' <;> simp only [Lead.token,Token.value.injEq,Token.start.injEq,reduceCtorEq] at h
  · obtain ⟨rfl,hx⟩ := h
    rw [Extent.pending_injective hx]
  · rw [h]
  · rfl

/-- A string opens with one row of leading words at most. -/
theorem Announces.unique {hd hd' : List UInt8} {l l' : Lead} {xs ys : List UInt8}
    (h : Announces hd l) (h' : Announces hd' l') (he : hd++xs=hd'++ys) :
    hd=hd' ∧ l=l' ∧ xs=ys := by
  have hread := h.read xs
  rw [he,h'.read ys] at hread
  simp only [Parse.done.injEq] at hread
  obtain ⟨htok,rfl⟩ := hread
  exact ⟨List.append_cancel_right he,(Lead.token_injective htok).symm,rfl⟩

/-- A header that was read is one that was announced. -/
theorem readToken_announces {xs rest : List UInt8} {tok : Token} (h : readToken xs=.done tok rest) :
    ∃ hd l, Announces hd l ∧ tok=l.token ∧ xs=hd++rest := by
  rcases lead_cases xs with ⟨hd,l,ys,ha,rfl⟩ | hbad | hcut
  · rw [ha.read ys] at h
    cases h
    exact ⟨hd,l,ha,rfl,rfl⟩
  · obtain ⟨why,hr⟩ := hbad.read
    rw [hr] at h
    cases h
  · rw [hcut.read] at h
    cases h

/-- The leading words of a construct. -/
theorem Mark.Spelled.lead {m : Mark} {bs : List UInt8} (h : m.Spelled bs) :
    ∃ hd l tl, Announces hd l ∧ bs=hd++tl := by
  cases h with
  | value ha hb => exact ⟨_,_,_,ha,rfl⟩
  | start ha => exact ⟨_,_,[],ha,(List.append_nil _).symm⟩
  | stop ha => exact ⟨_,_,[],ha,(List.append_nil _).symm⟩

/-- Where no header can be read no construct is whole. -/
theorem unfinished_of_token {xs : List UInt8} (h : ∀ tok rest, readToken xs≠.done tok rest) :
    Unfinished xs := by
  intro m bs ys hm he
  obtain ⟨hd,l,tl,ha,rfl⟩ := hm.lead
  rw [he,List.append_assoc] at h
  exact h _ _ (ha.read (tl++ys))

/-- No construct is whole in no bytes. -/
theorem unfinished_nil : Unfinished [] :=
  unfinished_of_token fun _ _ hr => by cases hr

/-- The construct behind the leading words of a value is a value of that shape. -/
theorem Mark.Spelled.value_inv {m : Mark} {hd bs xs ys : List UInt8} {id : ℕ} {x : Extent}
    (hm : m.Spelled bs) (ha : Announces hd (.value id x)) (he : hd++xs=bs++ys) :
    ∃ y cs, m=.value id y ∧ y.extent=x ∧ Body y cs ∧ xs=cs++ys := by
  cases hm with
  | value ha' hb =>
    rw [List.append_assoc] at he
    obtain ⟨-,hl,hxs⟩ := ha.unique ha' he
    cases hl
    exact ⟨_,_,rfl,rfl,hb,hxs⟩
  | start ha' => cases (ha.unique ha' he).2.1
  | stop ha' => cases (ha.unique ha' he).2.1

/-- The construct behind the header of a sequence is its start. -/
theorem Mark.Spelled.start_inv {m : Mark} {hd bs xs ys : List UInt8} {id : ℕ}
    (hm : m.Spelled bs) (ha : Announces hd (.start id)) (he : hd++xs=bs++ys) : m=.start id := by
  cases hm with
  | value ha' hb =>
    rw [List.append_assoc] at he
    cases (ha.unique ha' he).2.1
  | start ha' =>
    cases (ha.unique ha' he).2.1
    rfl
  | stop ha' => cases (ha.unique ha' he).2.1

/-- The construct behind an end marker is that. -/
theorem Mark.Spelled.stop_inv {m : Mark} {hd bs xs ys : List UInt8}
    (hm : m.Spelled bs) (ha : Announces hd .stop) (he : hd++xs=bs++ys) : m=.stop := by
  cases hm with
  | value ha' hb =>
    rw [List.append_assoc] at he
    cases (ha.unique ha' he).2.1
  | start ha' => cases (ha.unique ha' he).2.1
  | stop ha' => rfl

/-- Varints are spelled in one way. -/
theorem spellsAll_unique {xs xs' : List UInt8} {vs vs' : List ℕ} {ys ys' : List UInt8}
    (h : Varint.SpellsAll xs vs) (h' : Varint.SpellsAll xs' vs') (hn : vs.length=vs'.length)
    (he : xs++ys=xs'++ys') : vs=vs' ∧ ys=ys' := by
  induction h generalizing xs' vs' with
  | nil =>
    cases h' with
    | nil => exact ⟨rfl,he⟩
    | cons => cases hn
  | @cons bs cs v vs hv _ ih =>
    cases h' with
    | nil => cases hn
    | cons hv' hrest =>
      rw [List.append_assoc,List.append_assoc] at he
      have hread := Word.read hv (cs++ys)
      rw [he,Word.read hv'] at hread
      simp only [Parse.done.injEq] at hread
      obtain ⟨rfl,hcs⟩ := hread
      obtain ⟨rfl,hys⟩ := ih hrest (Nat.succ.inj hn) hcs.symm
      exact ⟨rfl,hys⟩

/-- A string opens with one value of a shape at most. -/
theorem Body.unique {x y : Datum} {bs cs xs ys : List UInt8} (h : Body x bs) (h' : Body y cs)
    (hx : x.extent=y.extent) (he : bs++xs=cs++ys) : x=y ∧ xs=ys := by
  cases h with
  | scalar signed hw =>
    cases h' <;> cases hx
    next hw' =>
      have hread := Word.read hw xs
      rw [he,Word.read hw'] at hread
      simp only [Parse.done.injEq] at hread
      exact ⟨by rw [hread.1],hread.2.symm⟩
  | fixlen st data =>
    cases h' <;> simp only [Datum.extent,Extent.fixlen.injEq,reduceCtorEq] at hx
    obtain ⟨hdata,hrest⟩ := List.append_inj he hx.2
    exact ⟨by rw [hx.1,hdata],hrest⟩
  | varray signed hs =>
    cases h' <;> simp only [Datum.extent,Extent.varray.injEq,reduceCtorEq] at hx
    next hs' =>
      obtain ⟨hraws,hrest⟩ := spellsAll_unique hs hs' hx.2 he
      exact ⟨by rw [hx.1,hraws],hrest⟩
  | farray st hl =>
    cases h' <;> simp only [Datum.extent,Extent.farray.injEq,reduceCtorEq] at hx
    next hl' =>
      obtain ⟨hdata,hrest⟩ := List.append_inj he (by rw [hl,hl',hx.2.1,hx.2.2])
      exact ⟨by rw [hx.1,hx.2.1,hx.2.2,hdata],hrest⟩

/-- A string opens with one construct at most. -/
theorem Mark.Spelled.unique {m m' : Mark} {bs cs xs ys : List UInt8} (h : m.Spelled bs)
    (h' : m'.Spelled cs) (he : bs++xs=cs++ys) : m=m' ∧ xs=ys := by
  cases h with
  | value ha hb =>
    rw [List.append_assoc] at he
    obtain ⟨y,ds,rfl,hy,hb',hds⟩ := h'.value_inv ha he
    obtain ⟨rfl,hrest⟩ := hb.unique hb' hy.symm hds
    exact ⟨rfl,hrest⟩
  | start ha =>
    have := h'.start_inv ha he
    subst this
    cases h' with
    | start ha' => exact ⟨rfl,(ha.unique ha' he).2.2⟩
  | stop ha =>
    have := h'.stop_inv ha he
    subst this
    cases h' with
    | stop ha' => exact ⟨rfl,(ha.unique ha' he).2.2⟩

/-- Constructs in a row begin with the first of them. -/
theorem Marked.front {ms : List Mark} {xs : List UInt8} (h : Marked ms xs) :
    (ms=[] ∧ xs=[]) ∨ ∃ m ns bs ys, ms=m::ns ∧ m.Spelled bs ∧ Marked ns ys ∧ xs=bs++ys := by
  induction h with
  | nil => exact Or.inl ⟨rfl,rfl⟩
  | @snoc ms m xs bs hm _ ih =>
    refine Or.inr ?_
    rcases ih with ⟨rfl,rfl⟩ | ⟨m',ns,cs,ys,rfl,hm',hns,rfl⟩
    · exact ⟨m,[],bs,[],rfl,hm,.nil,(List.append_nil _).symm⟩
    · exact ⟨m',ns++[m],cs,ys++bs,rfl,hm',.snoc hm hns,List.append_assoc _ _ _⟩

/-- Bytes are those of one row of constructs at most. -/
theorem Marked.unique {ms ns : List Mark} {xs : List UInt8} (h : Marked ms xs) (h' : Marked ns xs) :
    ms=ns := by
  induction ms generalizing ns xs with
  | nil =>
    rcases h.front with ⟨-,rfl⟩ | ⟨m,_,_,_,hcons,-⟩
    · rcases h'.front with ⟨rfl,-⟩ | ⟨m,_,bs,ys,-,hm,-,hnil⟩
      · rfl
      · exact absurd hnil (unfinished_nil m bs ys hm)
    · cases hcons
  | cons m ms ih =>
    rcases h.front with ⟨hcons,-⟩ | ⟨m,_,bs,ys,hcons,hm,hrest,rfl⟩
    · cases hcons
    · cases hcons
      rcases h'.front with ⟨-,hnil⟩ | ⟨m',ns,cs,zs,rfl,hm',hrest',heq⟩
      · exact absurd hnil.symm (unfinished_nil m bs ys hm)
      · obtain ⟨rfl,rfl⟩ := hm.unique hm' heq
        rw [ih hrest hrest']

/-- Elements that were scanned were there. -/
theorem scan_spells {bound : Bound} {zigzag : Bool} {n : ℕ} {xs rest : List UInt8}
    (h : (scan bound zigzag n xs).2=.done rest) :
    ∃ es raws, Varint.SpellsAll es raws ∧ raws.length=n ∧ xs=es++rest := by
  induction n generalizing xs with
  | zero =>
    cases h
    exact ⟨[],[],.nil,rfl,rfl⟩
  | succ n ih =>
    rw [scan] at h
    cases hv : Varint.read overlong xs with
    | more => rw [hv] at h; cases h
    | bad why => rw [hv] at h; cases h
    | done raw ys =>
      rw [hv] at h
      dsimp only at h
      split at h
      · cases h
      · obtain ⟨bs,hw,rfl⟩ := Varint.read_done_iff.mp hv
        obtain ⟨es,raws,hes,hlen,rfl⟩ := ih h
        exact ⟨bs++es,raw::raws,.cons hw hes,congrArg (·+1) hlen,(List.append_assoc _ _ _).symm⟩

/-- A read that ended had all its bytes, and its effect raised nothing. -/
theorem Reading.of_done {r : Store V × Option Exn} {σ : Store V} {ys rest : List UInt8}
    (h : Reading.of r ys=.done σ rest) : r=(σ,none) ∧ ys=rest := by
  rcases r with ⟨τ,_|why⟩
  · cases h
    exact ⟨rfl,rfl⟩
  · cases h

/-- A value that was read was there. -/
theorem read_spells {c : Config V} {pl : Plan V} {x : Extent} (hp : pl.Suits x) {s σ : Store V}
    {xs rest : List UInt8} (h : pl.read c s xs=.done σ rest) :
    ∃ y bs, Datum.extent y=x ∧ Body y bs ∧ xs=bs++rest := by
  have hpayload : ∀ {n : ℕ} {k : List UInt8 → Effect V},
      (Plan.payload n k).read c s xs=.done σ rest →
        (xs.take n).length=n ∧ xs=xs.take n++rest := by
    intro n k h
    rw [Plan.read] at h
    split at h
    · cases h
    · next hn =>
      obtain ⟨-,rfl⟩ := Reading.of_done h
      refine ⟨?_,(List.take_append_drop n xs).symm⟩
      rw [List.length_take]
      omega
  cases hp with
  | refuse x why => cases h
  | scalar signed k =>
    rw [Plan.read] at h
    cases hv : Varint.read overlong xs with
    | more => rw [hv] at h; cases h
    | bad why => rw [hv] at h; cases h
    | done raw ys =>
      rw [hv] at h
      obtain ⟨-,rfl⟩ := Reading.of_done h
      obtain ⟨bs,hw,rfl⟩ := Varint.read_done_iff.mp hv
      exact ⟨.scalar signed raw,bs,rfl,.scalar signed hw,rfl⟩
  | payload st n k =>
    obtain ⟨hlen,hxs⟩ := hpayload h
    exact ⟨.fixlen st (xs.take n),xs.take n,by rw [Datum.extent,hlen],.fixlen st _,hxs⟩
  | elements signed zigzag n bound into k =>
    rw [Plan.read] at h
    rcases hf : fillFrom c into 0 (scan bound zigzag n xs).1 s with ⟨τ,_|why⟩
    · rw [hf] at h
      dsimp only at h
      cases hs : (scan bound zigzag n xs).2 with
      | more => rw [hs] at h; cases h
      | bad why => rw [hs] at h; cases h
      | done ys =>
        rw [hs] at h
        obtain ⟨-,rfl⟩ := Reading.of_done h
        obtain ⟨es,raws,hes,rfl,hxs⟩ := scan_spells hs
        exact ⟨.varray signed raws,es,rfl,.varray signed hes,hxs⟩
    · rw [hf] at h
      cases h
  | span st n size k =>
    obtain ⟨hlen,hxs⟩ := hpayload h
    exact ⟨.farray st n size (xs.take (n*size)),xs.take (n*size),rfl,.farray st hlen,hxs⟩

/-- A varint that was dropped was there. -/
theorem dropVarints_gone {n i : ℕ} {xs rest : List UInt8} (hi : i ≤ 9)
    (h : dropVarints (n+1) i xs=.gone rest) :
    ∃ bs v ys, Varint.Spells i bs v ∧ xs=bs++ys ∧ dropVarints n 0 ys=.gone rest := by
  induction xs generalizing i with
  | nil => cases h
  | cons b xs ih =>
    rw [dropVarints] at h
    split at h
    · next hnine =>
      split at h
      · cases h
      · exact ⟨[b],_,xs,.last (by omega) (.inr ⟨by omega,by omega⟩),rfl,h⟩
    · split at h
      · next hb => exact ⟨[b],_,xs,.last hb (.inl (by omega)),rfl,h⟩
      · obtain ⟨bs,v,ys,hs,rfl,hrest⟩ := ih (by omega) h
        exact ⟨b::bs,_,ys,.group (by omega) (by omega) hs,rfl,hrest⟩

/-- Varints that were dropped were there. -/
theorem dropVarints_spelled {n : ℕ} {xs rest : List UInt8} (h : dropVarints n 0 xs=.gone rest) :
    ∃ es raws, Varint.SpellsAll es raws ∧ raws.length=n ∧ xs=es++rest := by
  induction n generalizing xs with
  | zero =>
    cases xs <;> cases h <;> exact ⟨[],[],.nil,rfl,rfl⟩
  | succ n ih =>
    obtain ⟨bs,v,ys,hv,rfl,hys⟩ := dropVarints_gone (Nat.zero_le 9) h
    obtain ⟨es,raws,hes,hlen,rfl⟩ := ih hys
    exact ⟨bs++es,v::raws,.cons hv hes,congrArg (·+1) hlen,(List.append_assoc _ _ _).symm⟩

/-- A value that was dropped was there. -/
theorem drop_spells {x : Extent} {xs rest : List UInt8} (h : dropReal x.pending xs=.gone rest) :
    ∃ y bs, Datum.extent y=x ∧ Body y bs ∧ xs=bs++rest := by
  have hbytes : ∀ n, dropDiscard n 0 0 xs=.gone rest →
      (xs.take n).length=n ∧ xs=xs.take n++rest := by
    intro n h
    rw [dropDiscard] at h
    split at h
    · cases h
    · rw [dropVarints] at h
      cases h
      refine ⟨?_,(List.take_append_drop n xs).symm⟩
      rw [List.length_take]
      omega
  cases x with
  | scalar signed =>
    change dropReal (.scalar signed) xs=_ at h
    rw [dropReal] at h
    cases hv : Varint.read overlong xs with
    | more => rw [hv] at h; cases h
    | bad why => rw [hv] at h; cases h
    | done raw ys =>
      rw [hv] at h
      cases h
      obtain ⟨bs,hw,rfl⟩ := Varint.read_done_iff.mp hv
      exact ⟨.scalar signed raw,bs,rfl,.scalar signed hw,rfl⟩
  | fixlen st n =>
    obtain ⟨hlen,hxs⟩ := hbytes n h
    exact ⟨.fixlen st (xs.take n),xs.take n,by rw [Datum.extent,hlen],.fixlen st _,hxs⟩
  | varray signed n =>
    change dropDiscard 0 n 0 xs=_ at h
    rw [dropDiscard,if_neg (by omega),List.drop_zero] at h
    obtain ⟨es,raws,hes,rfl,rfl⟩ := dropVarints_spelled h
    exact ⟨.varray signed raws,es,rfl,.varray signed hes,rfl⟩
  | farray st n size =>
    change dropReal (.farray st n size) xs=_ at h
    rw [dropReal] at h
    split at h
    · cases h
    · obtain ⟨hlen,hxs⟩ := hbytes (n*size) h
      exact ⟨.farray st n size (xs.take (n*size)),xs.take (n*size),rfl,.farray st hlen,hxs⟩

end SofaBuffers
