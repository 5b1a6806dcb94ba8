import SofaBuffers.Resumable

/-!
# Base-128 varints bounded to 64 bits

Seven payload bits a byte, lowest group first, the high bit set on every byte
but the last. A value of 64 bits takes at most ten bytes, and the tenth has
room for a single bit, so a larger tenth byte is overlong: ill formed whatever
follows. Padded encodings are accepted; `encode` writes the shortest one.
-/

set_option autoImplicit false

namespace Varint

open Resumable

variable {ε : Type}

/-- Go on reading a varint of which the groups below `i` are in `acc`. -/
def readFrom (why : ε) : ℕ → ℕ → List UInt8 → Parse ε UInt8 ℕ
  | _, _, [] => .more
  | i, acc, b::t =>
    if i < 9 then
      if b.toNat < 128 then .done (acc+b.toNat*128^i) t
      else readFrom why (i+1) (acc+(b.toNat-128)*128^i) t
    else if b.toNat ≤ 1 then .done (acc+b.toNat*128^i) t
    else .bad why

/-- Read one varint, refusing an overlong one with the given reason. -/
def read (why : ε) : Parser ε UInt8 ℕ := readFrom why 0 0

/-- The bytes `bs` spell `v` when `i` groups stand before them. -/
inductive Spells : ℕ → List UInt8 → ℕ → Prop
  /-- A byte without the continuation bit ends the value. -/
  | last {i : ℕ} {b : UInt8} (hb : b.toNat < 128) (hi : i < 9 ∨ (i=9 ∧ b.toNat ≤ 1)) :
      Spells i [b] (b.toNat*128^i)
  /-- A continued byte gives its low seven bits. -/
  | group {i : ℕ} {b : UInt8} {bs : List UInt8} {v : ℕ} (hb : 128 ≤ b.toNat) (hi : i < 9) :
      Spells (i+1) bs v → Spells i (b::bs) ((b.toNat-128)*128^i+v)

/-- The bytes `bs` outgrow 64 bits when `i` groups stand before them. -/
inductive Overlong : ℕ → List UInt8 → Prop
  /-- The tenth byte holds more than one bit. -/
  | tenth {b : UInt8} (hb : 1 < b.toNat) : Overlong 9 [b]
  /-- Every byte before it is continued. -/
  | group {i : ℕ} {b : UInt8} {bs : List UInt8} (hb : 128 ≤ b.toNat) (hi : i < 9) :
      Overlong (i+1) bs → Overlong i (b::bs)

/-- The bytes `bs` end inside a value when `i` groups stand before them. -/
inductive Cut : ℕ → List UInt8 → Prop
  /-- There are no bytes at all. -/
  | nil {i : ℕ} (hi : i ≤ 9) : Cut i []
  /-- Every one of them is continued. -/
  | group {i : ℕ} {b : UInt8} {bs : List UInt8} (hb : 128 ≤ b.toNat) (hi : i < 9) :
      Cut (i+1) bs → Cut i (b::bs)

/-- The bytes `bs` spell one value after the other. -/
inductive SpellsAll : List UInt8 → List ℕ → Prop
  /-- No bytes spell no values. -/
  | nil : SpellsAll [] []
  /-- A spelling and the spellings behind it. -/
  | cons {bs cs : List UInt8} {v : ℕ} {vs : List ℕ} (h : Spells 0 bs v) :
      SpellsAll cs vs → SpellsAll (bs++cs) (v::vs)

/-- A spelling of a value is read as that value, whatever follows it. -/
theorem readFrom_spells (why : ε) {i v : ℕ} {bs : List UInt8} (h : Spells i bs v)
    (acc : ℕ) (rest : List UInt8) :
    readFrom why i acc (bs++rest)=.done (acc+v) rest := by
  induction h generalizing acc with
  | @last i b hb hi =>
    rw [List.cons_append,List.nil_append,readFrom]
    rcases hi with hi|⟨hi,h1⟩
    · rw [if_pos hi,if_pos hb]
    · rw [if_neg (by omega),if_pos h1]
  | @group i b bs v hb hi _ ih =>
    rw [List.cons_append,readFrom,if_pos hi,if_neg (by omega),ih,Nat.add_assoc]

/-- An overlong varint is refused, whatever follows it. -/
theorem readFrom_overlong (why : ε) {i : ℕ} {bs : List UInt8} (h : Overlong i bs)
    (acc : ℕ) (rest : List UInt8) : readFrom why i acc (bs++rest)=.bad why := by
  induction h generalizing acc with
  | @tenth b hb =>
    rw [List.cons_append,List.nil_append,readFrom,if_neg (by omega),if_neg (by omega)]
  | @group i b bs hb hi _ ih =>
    rw [List.cons_append,readFrom,if_pos hi,if_neg (by omega),ih]

/-- What is read was spelled by the bytes taken. -/
theorem spells_of_readFrom {why : ε} {i acc v : ℕ} {xs rest : List UInt8} (hi : i ≤ 9)
    (h : readFrom why i acc xs=.done v rest) :
    ∃ bs w, Spells i bs w ∧ xs=bs++rest ∧ v=acc+w := by
  induction xs generalizing i acc with
  | nil => cases h
  | cons b t ih =>
    rw [readFrom] at h
    split at h
    · next h9 =>
      split at h
      · next hb =>
        cases h
        exact ⟨[b],_,.last hb (.inl h9),rfl,rfl⟩
      · next hb =>
        obtain ⟨bs,w,hs,hx,hv⟩ := ih (by omega) h
        exact ⟨b::bs,_,.group (by omega) h9 hs,by rw [hx]; rfl,by rw [hv,Nat.add_assoc]⟩
    · next h9 =>
      split at h
      · next hb =>
        cases h
        exact ⟨[b],_,.last (by omega) (.inr ⟨by omega,hb⟩),rfl,rfl⟩
      · cases h

/-- What is refused was overlong. -/
theorem overlong_of_readFrom {why w : ε} {i acc : ℕ} {xs : List UInt8} (hi : i ≤ 9)
    (h : readFrom why i acc xs=.bad w) :
    w=why ∧ ∃ bs rest, Overlong i bs ∧ xs=bs++rest := by
  induction xs generalizing i acc with
  | nil => cases h
  | cons b t ih =>
    rw [readFrom] at h
    split at h
    · next h9 =>
      split at h
      · cases h
      · next hb =>
        obtain ⟨hw,bs,rest,ho,hx⟩ := ih (by omega) h
        exact ⟨hw,b::bs,rest,.group (by omega) h9 ho,by rw [hx]; rfl⟩
    · next h9 =>
      split at h
      · cases h
      · next hb =>
        cases h
        have h9' : i=9 := by omega
        subst h9'
        exact ⟨rfl,[b],t,.tenth (by omega),rfl⟩

/-- The reader is done exactly on a spelling. -/
theorem read_done_iff {why : ε} {xs rest : List UInt8} {v : ℕ} :
    read why xs=.done v rest ↔ ∃ bs, Spells 0 bs v ∧ xs=bs++rest := by
  constructor
  · intro h
    obtain ⟨bs,w,hs,hx,hv⟩ := spells_of_readFrom (by omega) h
    rw [Nat.zero_add] at hv
    subst hv
    exact ⟨bs,hs,hx⟩
  · rintro ⟨bs,hs,rfl⟩
    rw [read,readFrom_spells why hs,Nat.zero_add]

/-- The reader refuses exactly an overlong varint. -/
theorem read_bad_iff {why w : ε} {xs : List UInt8} :
    read why xs=.bad w ↔ w=why ∧ ∃ bs rest, Overlong 0 bs ∧ xs=bs++rest := by
  constructor
  · intro h
    exact overlong_of_readFrom (by omega) h
  · rintro ⟨rfl,bs,rest,ho,rfl⟩
    exact readFrom_overlong w ho 0 rest

/-- Bytes that end inside a value are too few. -/
theorem readFrom_cut (why : ε) {i : ℕ} {bs : List UInt8} (h : Cut i bs) (acc : ℕ) :
    readFrom why i acc bs=.more := by
  induction h generalizing acc with
  | nil hi => rfl
  | @group i b bs hb hi _ ih => rw [readFrom,if_pos hi,if_neg (by omega),ih]

/-- Bytes that are too few end inside a value. -/
theorem cut_of_readFrom {why : ε} {i acc : ℕ} {xs : List UInt8} (hi : i ≤ 9)
    (h : readFrom why i acc xs=.more) : Cut i xs := by
  induction xs generalizing i acc with
  | nil => exact .nil hi
  | cons b t ih =>
    rw [readFrom] at h
    split at h
    · next h9 =>
      split at h
      · cases h
      · next hb => exact .group (by omega) h9 (ih (by omega) h)
    · split at h <;> cases h

/-- The reader wants more exactly on bytes that end inside a value. -/
theorem read_more_iff {why : ε} {xs : List UInt8} : read why xs=.more ↔ Cut 0 xs :=
  ⟨fun h => cut_of_readFrom (by omega) h,fun h => readFrom_cut why h 0⟩

/-- Reading a varint is stable under more bytes. -/
theorem stable_readFrom (why : ε) {i : ℕ} (hi : i ≤ 9) (acc : ℕ) :
    Stable (readFrom why i acc : Parser ε UInt8 ℕ) where
  done := by
    intro xs v rest h ys
    obtain ⟨bs,w,hs,rfl,rfl⟩ := spells_of_readFrom hi h
    rw [List.append_assoc,readFrom_spells why hs]
  bad := by
    intro xs w h ys
    obtain ⟨rfl,bs,rest,ho,rfl⟩ := overlong_of_readFrom hi h
    rw [List.append_assoc,readFrom_overlong w ho]
  suffix := by
    intro xs v rest h
    obtain ⟨bs,w,_,rfl,_⟩ := spells_of_readFrom hi h
    exact List.suffix_append bs rest

/-- Reading a varint is stable under more bytes. -/
theorem stable_read (why : ε) : Stable (read why : Parser ε UInt8 ℕ) :=
  stable_readFrom why (by omega) 0

/-- A spelling has between one byte and the bytes still free of ten. -/
theorem Spells.length {i v : ℕ} {bs : List UInt8} (h : Spells i bs v) :
    0 < bs.length ∧ bs.length+i ≤ 10 := by
  induction h with
  | last hb hi => simp only [List.length_cons,List.length_nil]; omega
  | group hb hi _ ih => simp only [List.length_cons]; omega

/-- A spelled value fits the bits its groups leave free. -/
theorem Spells.lt_groups {i v : ℕ} {bs : List UInt8} (h : Spells i bs v) :
    v+128^i ≤ 2*128^9 ∧ (v+128^i ≤ 128^9 ∨ bs.length+i=10) := by
  induction h with
  | @last i b hb hi =>
    rw [List.length_singleton]
    have hsum : b.toNat*128^i+128^i=(b.toNat+1)*128^i := (Nat.succ_mul _ _).symm
    rcases hi with hi|⟨rfl,h1⟩
    · have h1 : (b.toNat+1)*128^i ≤ 128*128^i := Nat.mul_le_mul_right _ (by omega)
      have h2 : 128*128^i ≤ 128^9 := by
        rw [←Nat.pow_succ']
        exact Nat.pow_le_pow_right (by omega) (by omega)
      omega
    · have h2 : (b.toNat+1)*128^9 ≤ 2*128^9 := Nat.mul_le_mul_right _ (by omega)
      omega
  | @group i b bs v hb hi _ ih =>
    have hb2 := b.toNat_lt
    have hp : 128^(i+1)=128*128^i := Nat.pow_succ'
    have h1 : (b.toNat-128)*128^i ≤ 127*128^i := Nat.mul_le_mul_right _ (by omega)
    rw [List.length_cons]
    omega

/-- A spelled value fits 64 bits. -/
theorem Spells.lt {i v : ℕ} {bs : List UInt8} (h : Spells i bs v) : v < 2^64 := by
  have hk := h.lt_groups.1
  have hpos : 0 < 128^i := Nat.pow_pos (by omega)
  have h9 : 2*128^9=2^64 := by decide
  omega

/-- Values that are spelled fit 64 bits. -/
theorem SpellsAll.lt {bs : List UInt8} {vs : List ℕ} (h : SpellsAll bs vs) : ∀ v ∈ vs, v < 2^64 := by
  induction h with
  | nil => exact fun _ h => absurd h List.not_mem_nil
  | cons hv _ ih =>
    intro v hm
    rcases List.mem_cons.mp hm with rfl | hm
    · exact hv.lt
    · exact ih v hm

/-- The spellings of two runs of values, one behind the other. -/
theorem SpellsAll.append {bs cs : List UInt8} {vs ws : List ℕ} (h : SpellsAll bs vs)
    (h' : SpellsAll cs ws) : SpellsAll (bs++cs) (vs++ws) := by
  induction h with
  | nil => exact h'
  | cons hv _ ih =>
    rw [List.append_assoc]
    exact .cons hv ih

/-- A value that was read fits 64 bits. -/
theorem read_lt {why : ε} {xs rest : List UInt8} {v : ℕ} (h : read why xs=.done v rest) :
    v < 2^64 := by
  obtain ⟨bs,hs,_⟩ := read_done_iff.mp h
  exact hs.lt

/-- A varint that was read took at least one byte and at most ten. -/
theorem read_length {why : ε} {xs rest : List UInt8} {v : ℕ} (h : read why xs=.done v rest) :
    rest.length < xs.length ∧ xs.length ≤ rest.length+10 := by
  obtain ⟨bs,hs,rfl⟩ := read_done_iff.mp h
  have hl := hs.length
  rw [List.length_append]
  omega

/-- Nothing can be read off an empty string. -/
@[simp] theorem read_nil (why : ε) : read why []=.more := rfl

/-- A byte below 128 is its own varint. -/
theorem read_cons_small (why : ε) {b : UInt8} (hb : b.toNat < 128) (t : List UInt8) :
    read why (b::t)=.done b.toNat t := by
  rw [read,readFrom,if_pos (by omega),if_pos hb,Nat.zero_add,Nat.pow_zero,Nat.mul_one]

/-- A string the reader wants more of has at most nine bytes. -/
theorem readFrom_more_length {why : ε} {i acc : ℕ} {xs : List UInt8} (hi : i ≤ 9)
    (h : readFrom why i acc xs=.more) : xs.length+i ≤ 9 := by
  induction xs generalizing i acc with
  | nil => simpa only [List.length_nil,Nat.zero_add] using hi
  | cons b t ih =>
    rw [readFrom] at h
    split at h
    · next h9 =>
      split at h
      · cases h
      · have hl := ih (by omega) h
        rw [List.length_cons]
        omega
    · split at h <;> cases h

/-- The shortest encoding, spending at most `n` bytes. -/
def encodeFor : ℕ → ℕ → List UInt8
  | 0, _ => []
  | n+1, v => if v < 128 then [UInt8.ofNat v] else UInt8.ofNat (v%128+128)::encodeFor n (v/128)

/-- The shortest encoding of a value. -/
def encode (v : ℕ) : List UInt8 := encodeFor (v.log2/7+1) v

/-- Bytes to spare do not change the encoding. -/
theorem encodeFor_enough {n m v : ℕ} (hn : v < 128^n) (hm : v < 128^m) (h0 : 0 < n) (h1 : 0 < m) :
    encodeFor n v=encodeFor m v := by
  induction n generalizing m v with
  | zero => omega
  | succ n ih =>
    cases m with
    | zero => omega
    | succ m =>
      rw [encodeFor,encodeFor]
      split
      · rfl
      · next hv =>
        rw [Nat.pow_succ'] at hn hm
        have hn' : v/128 < 128^n := Nat.div_lt_of_lt_mul hn
        have hm' : v/128 < 128^m := Nat.div_lt_of_lt_mul hm
        have h2 : 0 < v/128 := by omega
        have h3 : 0 < n := Nat.pos_of_ne_zero (by rintro rfl; omega)
        have h4 : 0 < m := Nat.pos_of_ne_zero (by rintro rfl; omega)
        rw [ih hn' hm' h3 h4]

/-- The bytes `encode` spends are enough. -/
theorem lt_encode_bound (v : ℕ) : v < 128^(v.log2/7+1) := by
  have h1 : v < 2^(v.log2+1) := Nat.lt_log2_self
  have h2 : 2^(v.log2+1) ≤ 2^(7*(v.log2/7+1)) := Nat.pow_le_pow_right (by omega) (by omega)
  rw [Nat.pow_mul] at h2
  exact lt_of_lt_of_le h1 h2

/-- One group of the shortest encoding at a time. -/
theorem encode_eq (v : ℕ) :
    encode v=if v < 128 then [UInt8.ofNat v] else UInt8.ofNat (v%128+128)::encode (v/128) := by
  rw [encode,encodeFor]
  split
  · rfl
  · next hv =>
    have hb := lt_encode_bound v
    rw [Nat.pow_succ'] at hb
    have h1 : v/128 < 128^(v.log2/7) := Nat.div_lt_of_lt_mul hb
    have h2 : 0 < v.log2/7 := Nat.pos_of_ne_zero (by intro h; rw [h] at h1; omega)
    rw [encodeFor_enough h1 (lt_encode_bound (v/128)) h2 (by omega)]
    rfl

/-- A small byte survives the trip through `UInt8`. -/
theorem toNat_ofNat {n : ℕ} (h : n < 256) : (UInt8.ofNat n).toNat=n := by
  rw [UInt8.toNat_ofNat',Nat.mod_eq_of_lt h]

/-- The shortest encoding spells its value above the groups before it. -/
theorem spells_encode {i v : ℕ} (hi : i ≤ 9) (hv : v*128^i < 2^64) :
    Spells i (encode v) (v*128^i) := by
  induction v using Nat.strongRecOn generalizing i with
  | ind v ih =>
    have hpos : 0 < 128^i := Nat.pow_pos (by omega)
    have h9 : i=9 → v ≤ 1 := by
      rintro rfl
      omega
    rw [encode_eq]
    split
    · next hs =>
      have hb := toNat_ofNat (show v < 256 by omega)
      have hl := Spells.last (i:=i) (b:=UInt8.ofNat v) (by omega) (by omega)
      rwa [hb] at hl
    · next hs =>
      have hi9 : i < 9 := by
        rcases Nat.lt_or_ge i 9 with h|h
        · exact h
        · have := h9 (by omega)
          omega
      have hb := toNat_ofNat (show v%128+128 < 256 by omega)
      have hp : 128^(i+1)=128*128^i := Nat.pow_succ'
      have hsplit : v*128^i=(v%128)*128^i+v/128*128^(i+1) := by
        rw [hp,←Nat.mul_assoc,←Nat.add_mul]
        congr 1
        omega
      have hrec := ih (v/128) (by omega) (i:=i+1) (by omega) (by omega)
      have hg := Spells.group (b:=UInt8.ofNat (v%128+128)) (by omega) hi9 hrec
      rwa [hb,Nat.add_sub_cancel,←hsplit] at hg

/-- Reading the shortest encoding gives its value back. -/
theorem read_encode (why : ε) {v : ℕ} (hv : v < 2^64) (rest : List UInt8) :
    read why (encode v++rest)=.done v rest := by
  have h := spells_encode (i:=0) (by omega) (show v*128^0 < 2^64 by omega)
  rw [Nat.pow_zero,Nat.mul_one] at h
  exact read_done_iff.mpr ⟨_,h,rfl⟩

/-- The shortest encoding of a 64-bit value has one to ten bytes. -/
theorem encode_length {v : ℕ} (hv : v < 2^64) :
    0 < (encode v).length ∧ (encode v).length ≤ 10 := by
  have h := spells_encode (i:=0) (by omega) (show v*128^0 < 2^64 by omega)
  exact h.length

/-- No shorter bytes spell the same value. -/
def Shortest (bs : List UInt8) : Prop :=
  ∀ v cs, Spells 0 bs v → Spells 0 cs v → bs.length ≤ cs.length

/-- No spelling of a value is shorter than its encoding, and none else is as short. -/
theorem Spells.encode_le {i v : ℕ} {bs : List UInt8} (h : Spells i bs v) :
    ∃ u, v=u*128^i ∧ (encode u).length ≤ bs.length ∧
      ((encode u).length=bs.length → bs=encode u) := by
  induction h with
  | @last i b hb hi =>
    have he : encode b.toNat=[b] := by
      rw [encode_eq,if_pos hb,UInt8.ofNat_toNat]
    exact ⟨b.toNat,rfl,by rw [he],fun _ => he.symm⟩
  | @group i b bs v hb hi h ih =>
    obtain ⟨u,rfl,hle,heq⟩ := ih
    have hb' := b.toNat_lt
    have hpos := h.length.1
    have hv : (b.toNat-128)*128^i+u*128^(i+1)=(b.toNat-128+128*u)*128^i := by
      rw [Nat.pow_succ',Nat.add_mul,Nat.mul_comm 128 u,Nat.mul_assoc]
    refine ⟨b.toNat-128+128*u,hv,?_⟩
    rw [encode_eq,List.length_cons]
    by_cases hs : b.toNat-128+128*u < 128
    · rw [if_pos hs,List.length_singleton]
      exact ⟨by omega,fun h => by omega⟩
    · have hmod : (b.toNat-128+128*u)%128+128=b.toNat := by omega
      have hdiv : (b.toNat-128+128*u)/128=u := by omega
      rw [if_neg hs,List.length_cons,hmod,hdiv,UInt8.ofNat_toNat]
      exact ⟨by omega,fun h => by rw [←heq (by omega)]⟩

/-- A spelling of a value is no shorter than its encoding. -/
theorem Spells.length_encode {v : ℕ} {bs : List UInt8} (h : Spells 0 bs v) :
    (encode v).length ≤ bs.length := by
  obtain ⟨u,rfl,hle,-⟩ := h.encode_le
  rw [Nat.pow_zero,Nat.mul_one]
  exact hle

/-- The shortest spelling of a value is its encoding. -/
theorem Spells.eq_encode {v : ℕ} {bs : List UInt8} (h : Spells 0 bs v) (hs : Shortest bs) :
    bs=encode v := by
  obtain ⟨u,hu,hle,heq⟩ := h.encode_le
  rw [Nat.pow_zero,Nat.mul_one] at hu
  subst hu
  have hv := h.lt
  have henc := spells_encode (i:=0) (v:=v) (by omega) (by omega)
  rw [Nat.pow_zero,Nat.mul_one] at henc
  exact heq (Nat.le_antisymm hle (hs v _ h henc))

/-- The encodings of values spell them. -/
theorem spellsAll_encode {vs : List ℕ} (h : ∀ v ∈ vs, v < 2^64) :
    SpellsAll (vs.flatMap encode) vs := by
  induction vs with
  | nil => exact .nil
  | cons v vs ih =>
    have hv : v < 2^64 := h v List.mem_cons_self
    have henc := spells_encode (i:=0) (v:=v) (by omega) (by omega)
    rw [Nat.pow_zero,Nat.mul_one] at henc
    exact .cons henc (ih fun u hu => h u (List.mem_cons_of_mem v hu))

/-- Spellings of values one by one. -/
theorem SpellsAll.words {bs : List UInt8} {vs : List ℕ} (h : SpellsAll bs vs) :
    ∃ ws : List (List UInt8), bs=ws.flatten ∧ List.Forall₂ (Spells 0) ws vs := by
  induction h with
  | nil => exact ⟨[],rfl,.nil⟩
  | @cons bs cs v vs h _ ih =>
    obtain ⟨ws,rfl,hws⟩ := ih
    exact ⟨bs::ws,rfl,.cons h hws⟩

/-- No spellings of values are shorter than their encodings. -/
theorem words_length {ws : List (List UInt8)} {vs : List ℕ} (h : List.Forall₂ (Spells 0) ws vs) :
    (vs.flatMap encode).length ≤ ws.flatten.length := by
  induction h with
  | nil => exact Nat.le_refl _
  | cons h _ ih =>
    rw [List.flatMap_cons,List.flatten_cons,List.length_append,List.length_append]
    exact Nat.add_le_add h.length_encode ih

/-- The shortest spellings of values are their encodings. -/
theorem words_shortest {ws : List (List UInt8)} {vs : List ℕ} (h : List.Forall₂ (Spells 0) ws vs)
    (hs : ∀ w ∈ ws, Shortest w) : ws.flatten=vs.flatMap encode := by
  induction h with
  | nil => rfl
  | @cons w v ws vs h _ ih =>
    rw [List.flatMap_cons,List.flatten_cons,h.eq_encode (hs w List.mem_cons_self),
      ih fun w hw => hs w (List.mem_cons_of_mem _ hw)]

end Varint
