import SofaBuffers.Walk.Token
import SofaBuffers.Format.Grammar

/-!
# Leading words as they are read

The reader of a header takes exactly the leading words of the grammar, refuses
exactly those that are broken and waits exactly inside them.
-/

set_option autoImplicit false

namespace SofaBuffers

open Resumable

/-- The value a decoder is left with once its leading words are read. -/
def Extent.pending : Extent → Pending
  | .scalar signed => .scalar signed
  | .fixlen st length => .fixlen st length
  | .varray signed count => .varray signed count
  | .farray st count size => .farray st count size

/-- The header a decoder is left with once its leading words are read. -/
def Lead.token : Lead → Token
  | .value id x => .value id x.pending
  | .start id => .start id
  | .stop => .stop

/-- A word is read, whatever follows it. -/
theorem Word.read {bs : List UInt8} {v : ℕ} (h : Word bs v) (rest : List UInt8) :
    Varint.read overlong (bs++rest)=.done v rest :=
  Varint.read_done_iff.mpr ⟨bs,h,rfl⟩

/-- An overlong word is refused, whatever follows it. -/
theorem Overlong.read {bs : List UInt8} (h : Overlong bs) (rest : List UInt8) :
    Varint.read overlong (bs++rest)=.bad overlong :=
  Varint.read_bad_iff.mpr ⟨rfl,bs,rest,h,rfl⟩

/-- A string opens with a word or an overlong one, or ends inside one. -/
theorem word_cases (xs : List UInt8) :
    (∃ bs v rest, Word bs v ∧ xs=bs++rest) ∨ (∃ bs rest, Overlong bs ∧ xs=bs++rest) ∨
      CutWord xs := by
  cases h : Varint.read overlong xs with
  | done v rest =>
    obtain ⟨bs,hw,hx⟩ := Varint.read_done_iff.mp h
    exact Or.inl ⟨bs,v,rest,hw,hx⟩
  | bad why =>
    obtain ⟨-,bs,rest,ho,hx⟩ := Varint.read_bad_iff.mp h
    exact Or.inr (Or.inl ⟨bs,rest,ho,hx⟩)
  | more => exact Or.inr (Or.inr (Varint.read_more_iff.mp h))

/-- A header word is its id and its wire type. -/
theorem header_word (w : ℕ) : w/8*8+(WireType.ofHeader w).toNat=w := by
  have hk : w%8=0 ∨ w%8=1 ∨ w%8=2 ∨ w%8=3 ∨ w%8=4 ∨ w%8=5 ∨ w%8=6 ∨ w%8=7 := by omega
  have hw := Nat.div_add_mod' w 8
  rw [WireType.ofHeader]
  rcases hk with h | h | h | h | h | h | h | h <;> rw [h] at hw ⊢ <;> exact hw

/-- The id of a header word. -/
theorem header_id (id : ℕ) (t : WireType) : (id*8+t.toNat)/8=id := by
  have h := t.toNat_lt
  omega

/-- The rules of a fixlen word. -/
theorem fixlenWord_iff {w n : ℕ} {st : FixlenSubtype} :
    fixlenWord w=.ok (st,n) ↔ w=n*8+st.toNat ∧ st.Allows n := by
  have hlt : w%8 < 8 := Nat.mod_lt w (by omega)
  have hw := Nat.div_add_mod' w 8
  rw [fixlenWord]
  constructor
  · intro h
    split at h
    · next hm =>
      split at h <;> cases h
      exact ⟨by rw [FixlenSubtype.toNat]; omega,by rw [FixlenSubtype.Allows]; omega⟩
    · next hm =>
      split at h <;> cases h
      exact ⟨by rw [FixlenSubtype.toNat]; omega,by rw [FixlenSubtype.Allows]; omega⟩
    · next hm =>
      split at h <;> cases h
      exact ⟨by rw [FixlenSubtype.toNat]; omega,by rw [FixlenSubtype.Allows]; omega⟩
    · next hm =>
      split at h <;> cases h
      exact ⟨by rw [FixlenSubtype.toNat]; omega,by rw [FixlenSubtype.Allows]; omega⟩
    · cases h
  · rintro ⟨rfl,hs⟩
    cases st <;> rw [FixlenSubtype.Allows] at hs <;> simp only [FixlenSubtype.toNat]
    · subst hs; rfl
    · subst hs; rfl
    · have h1 : (n*8+2)%8=2 := by omega
      have h2 : (n*8+2)/8=n := by omega
      simp only [h1,h2]
      exact if_neg (by omega)
    · have h1 : (n*8+3)%8=3 := by omega
      have h2 : (n*8+3)/8=n := by omega
      simp only [h1,h2]
      exact if_neg (by omega)

/-- The rules of an element word. -/
theorem elementWord_iff {w n : ℕ} {st : FixlenSubtype} :
    elementWord w=.ok (st,n) ↔ w=n*8+st.toNat ∧ st.Sizes n := by
  have hw := Nat.div_add_mod' w 8
  rw [elementWord]
  constructor
  · intro h
    split at h
    · next hm =>
      split at h <;> cases h
      exact ⟨by rw [FixlenSubtype.toNat]; omega,by rw [FixlenSubtype.Sizes]; omega⟩
    · next hm =>
      split at h <;> cases h
      exact ⟨by rw [FixlenSubtype.toNat]; omega,by rw [FixlenSubtype.Sizes]; omega⟩
    · cases h
  · rintro ⟨rfl,hs⟩
    cases st <;> rw [FixlenSubtype.Sizes] at hs
    · subst hs; rfl
    · subst hs; rfl
    · exact absurd hs id
    · exact absurd hs id

/-- A check that is passed lets its word through. -/
theorem ofCheck_ok {α : Type} {r : Except Exn α} {a : α} (h : r=.ok a) (xs : List UInt8) :
    ofCheck r xs=.done a xs := by
  rw [h]
  rfl

/-- A check that is not passed refuses. -/
theorem ofCheck_error {α : Type} {r : Except Exn α} (h : ∀ a, r≠.ok a) (xs : List UInt8) :
    ∃ why, ofCheck r xs=.bad why := by
  cases r with
  | ok a => exact absurd rfl (h a)
  | error why => exact ⟨why,rfl⟩

/-- An id in range passes. -/
theorem idWord_ok {id : ℕ} (h : id ≤ idMax) : idWord id=.ok () := by
  rw [idWord,if_neg (by omega)]

/-- A count in range passes. -/
theorem countWord_ok {n : ℕ} (h : n ≤ arrayMax) : countWord n=.ok n := by
  rw [countWord,if_neg (by omega)]

section Header

variable {hd : List UInt8} {id : ℕ} {t : WireType}

/-- A header is read, and the words behind it are next. -/
theorem Header.read (h : Header hd id t) (rest : List UInt8) :
    readToken (hd++rest)=readBehind (id*8+t.toNat) rest := by
  have hid := idWord_ok h.2
  rw [←header_id id t] at hid
  rw [readToken,bind_done (h.1.read rest),bind_done (ofCheck_ok hid rest)]

/-- The word behind an array's header is its count. -/
theorem readBehind_count (ht : t.Counted) {xs : List UInt8} {n : ℕ} {rest : List UInt8}
    (hr : Varint.read overlong xs=.done n rest) (hn : ∀ m, countWord n≠.ok m) :
    ∃ why, readBehind (id*8+t.toNat) xs=.bad why := by
  obtain ⟨why,hc⟩ := ofCheck_error hn rest
  rw [readBehind,WireType.ofHeader_header]
  rcases ht with rfl | rfl | rfl <;> exact ⟨why,(bind_done hr).trans (bind_bad hc)⟩

/-- The word behind a header is needed. -/
theorem readBehind_more (ht : t.Worded) {xs : List UInt8} (hr : Varint.read overlong xs=.more) :
    readBehind (id*8+t.toNat) xs=.more := by
  rw [readBehind,WireType.ofHeader_header]
  rcases ht with rfl | rfl | rfl | rfl <;> exact bind_more hr

/-- The word behind a header has to be one. -/
theorem readBehind_bad (ht : t.Worded) {xs : List UInt8} {why : Exn}
    (hr : Varint.read overlong xs=.bad why) : readBehind (id*8+t.toNat) xs=.bad why := by
  rw [readBehind,WireType.ofHeader_header]
  rcases ht with rfl | rfl | rfl | rfl <;> exact bind_bad hr

/-- The words behind the header of a fixlen array. -/
theorem readBehind_farray {cd : List UInt8} {n : ℕ} (hc : Word cd n) (hn : n ≤ arrayMax)
    (rest : List UInt8) :
    readBehind (id*8+WireType.arrayFixlen.toNat) (cd++rest)=
      (Varint.read overlong >>= fun word => ofCheck (elementWord word) >>= fun p =>
        pure (.value id (.farray p.1 n p.2)) : Parser Exn UInt8 Token) rest := by
  rw [readBehind,WireType.ofHeader_header,header_id]
  dsimp only
  rw [bind_done (hc.read rest),bind_done (ofCheck_ok (countWord_ok hn) rest)]

end Header

/-- Leading words are read as what they announce. -/
theorem Announces.read {hd : List UInt8} {l : Lead} (h : Announces hd l) (rest : List UInt8) :
    readToken (hd++rest)=.done l.token rest := by
  cases h with
  | scalar signed h =>
    rw [h.read,readBehind,WireType.ofHeader_header,header_id]
    cases signed <;> rfl
  | fixlen h hw hn =>
    rw [List.append_assoc,h.read,readBehind,WireType.ofHeader_header,header_id]
    dsimp only
    rw [bind_done (hw.read rest),bind_done (ofCheck_ok (fixlenWord_iff.mpr ⟨rfl,hn⟩) rest)]
    rfl
  | varray signed h hc hn =>
    rw [List.append_assoc,h.read,readBehind,WireType.ofHeader_header,header_id]
    cases signed <;>
      exact (bind_done (hc.read rest)).trans (bind_done (ofCheck_ok (countWord_ok hn) rest))
  | farray h hc hn hw hs =>
    rw [List.append_assoc,List.append_assoc,h.read,readBehind_farray hc hn,
      bind_done (hw.read rest),bind_done (ofCheck_ok (elementWord_iff.mpr ⟨rfl,hs⟩) rest)]
    rfl
  | start h =>
    rw [h.read,readBehind,WireType.ofHeader_header,header_id]
    rfl
  | stop h =>
    rw [h.read,readBehind,WireType.ofHeader_header]
    rfl

/-- Broken leading words are refused. -/
theorem Misannounced.read {xs : List UInt8} (h : Misannounced xs) :
    ∃ why, readToken xs=.bad why := by
  cases h with
  | header h rest => exact ⟨_,bind_bad (h.read rest)⟩
  | @id hd id t h hid rest =>
    have hne : ∀ a, idWord ((id*8+t.toNat)/8)≠.ok a := by
      intro a
      rw [header_id,idWord,if_pos hid]
      simp
    obtain ⟨why,hc⟩ := ofCheck_error hne rest
    exact ⟨why,by rw [readToken,bind_done (h.read rest),bind_bad hc]⟩
  | second h ht hw rest =>
    rw [h.read]
    exact ⟨_,readBehind_bad ht (hw.read rest)⟩
  | @length hd wd id w h hw hn rest =>
    have hne : ∀ a, fixlenWord w≠.ok a := by
      rintro ⟨st,n⟩ ha
      obtain ⟨hw',hs⟩ := fixlenWord_iff.mp ha
      exact hn n st hw' hs
    obtain ⟨why,hc⟩ := ofCheck_error hne rest
    rw [h.read,readBehind,WireType.ofHeader_header]
    exact ⟨why,(bind_done (hw.read rest)).trans (bind_bad hc)⟩
  | count h ht hc hn rest =>
    rw [h.read]
    refine readBehind_count ht (hc.read rest) fun m => ?_
    rw [countWord,if_pos hn]
    simp
  | third h hc hn hw rest =>
    rw [h.read,readBehind_farray hc hn]
    exact ⟨_,bind_bad (hw.read rest)⟩
  | @size hd cd wd id n w h hc hn hw hs rest =>
    have hne : ∀ a, elementWord w≠.ok a := by
      rintro ⟨st,m⟩ ha
      obtain ⟨hw',hm⟩ := elementWord_iff.mp ha
      exact hs m st hw' hm
    obtain ⟨why,hc'⟩ := ofCheck_error hne rest
    rw [h.read,readBehind_farray hc hn]
    exact ⟨why,(bind_done (hw.read rest)).trans (bind_bad hc')⟩

/-- Inside its leading words a construct is waited for. -/
theorem CutLead.read {xs : List UInt8} (h : CutLead xs) : readToken xs=.more := by
  cases h with
  | header h => exact bind_more (Varint.read_more_iff.mpr h)
  | second h ht hw =>
    rw [h.read]
    exact readBehind_more ht (Varint.read_more_iff.mpr hw)
  | third h hc hn hw =>
    rw [h.read,readBehind_farray hc hn]
    exact bind_more (Varint.read_more_iff.mpr hw)

/-- A string opens with leading words or with broken ones, or ends inside them. -/
theorem lead_cases (xs : List UInt8) :
    (∃ hd l rest, Announces hd l ∧ xs=hd++rest) ∨ Misannounced xs ∨ CutLead xs := by
  rcases word_cases xs with ⟨hd,w,ys,hw,rfl⟩ | ⟨hd,ys,ho,rfl⟩ | hcut
  · rw [←header_word w] at hw
    by_cases hid : idMax < w/8
    · exact Or.inr (Or.inl (.id hw hid ys))
    · have hd' : Header hd (w/8) (WireType.ofHeader w) := ⟨hw,by omega⟩
      generalize w/8=id at hd'
      cases ht : WireType.ofHeader w with
      | unsigned =>
        rw [ht] at hd'
        exact Or.inl ⟨_,_,ys,.scalar false hd',rfl⟩
      | signed =>
        rw [ht] at hd'
        exact Or.inl ⟨_,_,ys,.scalar true hd',rfl⟩
      | sequenceStart =>
        rw [ht] at hd'
        exact Or.inl ⟨_,_,ys,.start hd',rfl⟩
      | sequenceEnd =>
        rw [ht] at hd'
        exact Or.inl ⟨_,_,ys,.stop hd',rfl⟩
      | fixlen =>
        rw [ht] at hd'
        rcases word_cases ys with ⟨wd,v,rest,hv,rfl⟩ | ⟨wd,rest,ho,rfl⟩ | hcut
        · by_cases hok : ∃ n st, v=n*8+FixlenSubtype.toNat st ∧ st.Allows n
          · obtain ⟨n,st,rfl,hn⟩ := hok
            exact Or.inl ⟨_,_,rest,.fixlen hd' hv hn,(List.append_assoc _ _ _).symm⟩
          · exact Or.inr (Or.inl (.length hd' hv (fun n st h1 h2 => hok ⟨n,st,h1,h2⟩) rest))
        · exact Or.inr (Or.inl (.second hd' (Or.inl rfl) ho rest))
        · exact Or.inr (Or.inr (.second hd' (Or.inl rfl) hcut))
      | arrayUnsigned =>
        rw [ht] at hd'
        rcases word_cases ys with ⟨cd,n,rest,hn,rfl⟩ | ⟨cd,rest,ho,rfl⟩ | hcut
        · by_cases hm : arrayMax < n
          · exact Or.inr (Or.inl (.count hd' (Or.inl rfl) hn hm rest))
          · exact Or.inl ⟨_,_,rest,.varray false hd' hn (by omega),(List.append_assoc _ _ _).symm⟩
        · exact Or.inr (Or.inl (.second hd' (Or.inr (Or.inl rfl)) ho rest))
        · exact Or.inr (Or.inr (.second hd' (Or.inr (Or.inl rfl)) hcut))
      | arraySigned =>
        rw [ht] at hd'
        rcases word_cases ys with ⟨cd,n,rest,hn,rfl⟩ | ⟨cd,rest,ho,rfl⟩ | hcut
        · by_cases hm : arrayMax < n
          · exact Or.inr (Or.inl (.count hd' (Or.inr (Or.inl rfl)) hn hm rest))
          · exact Or.inl ⟨_,_,rest,.varray true hd' hn (by omega),(List.append_assoc _ _ _).symm⟩
        · exact Or.inr (Or.inl (.second hd' (Or.inr (Or.inr (Or.inl rfl))) ho rest))
        · exact Or.inr (Or.inr (.second hd' (Or.inr (Or.inr (Or.inl rfl))) hcut))
      | arrayFixlen =>
        rw [ht] at hd'
        have htw : WireType.arrayFixlen.Worded := Or.inr (Or.inr (Or.inr rfl))
        rcases word_cases ys with ⟨cd,n,zs,hn,rfl⟩ | ⟨cd,rest,ho,rfl⟩ | hcut
        · by_cases hm : arrayMax < n
          · exact Or.inr (Or.inl (.count hd' (Or.inr (Or.inr rfl)) hn hm zs))
          · have hm : n ≤ arrayMax := by omega
            rcases word_cases zs with ⟨wd,v,rest,hv,rfl⟩ | ⟨wd,rest,ho,rfl⟩ | hcut
            · by_cases hok : ∃ k st, v=k*8+FixlenSubtype.toNat st ∧ st.Sizes k
              · obtain ⟨k,st,rfl,hk⟩ := hok
                exact Or.inl ⟨_,_,rest,.farray hd' hn hm hv hk,by simp only [List.append_assoc]⟩
              · exact Or.inr (Or.inl (.size hd' hn hm hv (fun k st h1 h2 => hok ⟨k,st,h1,h2⟩) rest))
            · exact Or.inr (Or.inl (.third hd' hn hm ho rest))
            · exact Or.inr (Or.inr (.third hd' hn hm hcut))
        · exact Or.inr (Or.inl (.second hd' htw ho rest))
        · exact Or.inr (Or.inr (.second hd' htw hcut))
  · exact Or.inr (Or.inl (.header ho ys))
  · exact Or.inr (Or.inr (.header hcut))

end SofaBuffers
