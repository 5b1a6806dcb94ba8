import SofaBuffers.Walk.Readers
import Mathlib.Tactic.IntervalCases
import Mathlib.Tactic.Ring

/-!
# The native varint codec

The compiled engine moves the seven-bit groups of a varint between a 64-bit word and the
eight bytes of another word with three masks and shifts. Each transform is stated bit by bit,
and from its bits follow the bytes it writes and the value it reads.
-/

set_option autoImplicit false

namespace SofaBuffers

namespace Native

/-- Eight groups of seven bits, one a byte, packed into the low 56 bits (`__sofab_gather7`). -/
def gather7 (x : BitVec 64) : BitVec 64 :=
  let x := x &&& 0x7F7F7F7F7F7F7F7F#64
  let x := (x &&& 0x007F007F007F007F#64) ||| ((x &&& 0x7F007F007F007F00#64) >>> 1)
  let x := (x &&& 0x00003FFF00003FFF#64) ||| ((x &&& 0x3FFF00003FFF0000#64) >>> 2)
  (x &&& 0x000000000FFFFFFF#64) ||| ((x &&& 0x0FFFFFFF00000000#64) >>> 4)

/-- The inverse of `gather7`: 56 bits spread back out into a group of seven a byte
(`__sofab_spread7`). -/
def spread7 (x : BitVec 64) : BitVec 64 :=
  let x := (x &&& 0x000000000FFFFFFF#64) ||| ((x &&& 0x00FFFFFFF0000000#64) <<< 4)
  let x := (x &&& 0x00003FFF00003FFF#64) ||| ((x &&& 0x0FFFC0000FFFC000#64) <<< 2)
  (x &&& 0x007F007F007F007F#64) ||| ((x &&& 0x3F803F803F803F80#64) <<< 1)

/-- Each bit of a group comes from its byte. -/
theorem gather7_bit (x : BitVec 64) {k : ℕ} (hk : k < 64) :
    (gather7 x).getLsbD k=(decide (k < 56) && x.getLsbD (k/7*8+k%7)) := by
  interval_cases k <;> simp [gather7]

/-- Each bit of a byte but the highest comes from its group. -/
theorem spread7_bit (x : BitVec 64) {k : ℕ} (hk : k < 64) :
    (spread7 x).getLsbD k=(decide (k%8 < 7) && x.getLsbD (k/8*7+k%8)) := by
  interval_cases k <;> simp [spread7]

/-- Gathering undoes spreading. -/
theorem gather7_spread7 {x : BitVec 64} (hx : x.toNat < 2^56) : gather7 (spread7 x)=x := by
  refine BitVec.eq_of_getLsbD_eq fun k hk => ?_
  rw [gather7_bit _ hk]
  by_cases h56 : k < 56
  · have hlt : k/7*8+k%7 < 64 := by omega
    have hmod : (k/7*8+k%7)%8=k%7 := by omega
    have hdiv : (k/7*8+k%7)/8=k/7 := by omega
    have hk7 : k/7*7+k%7=k := by omega
    have hm : k%7 < 7 := by omega
    simp [h56,spread7_bit _ hlt,hmod,hdiv,hk7,hm]
  · have hbit : x.getLsbD k=false := by
      refine Nat.testBit_lt_two_pow (lt_of_lt_of_le hx ?_)
      exact Nat.pow_le_pow_right (by omega) (by omega)
    simp [h56,hbit]

/-- Spreading undoes gathering, but for the continuation bits. -/
theorem spread7_gather7 (x : BitVec 64) : spread7 (gather7 x)=x &&& 0x7F7F7F7F7F7F7F7F#64 := by
  refine BitVec.eq_of_getLsbD_eq fun k hk => ?_
  have hmask : (0x7F7F7F7F7F7F7F7F#64).getLsbD k=decide (k%8 < 7) := by
    interval_cases k <;> rfl
  rw [spread7_bit _ hk,BitVec.getLsbD_and,hmask]
  by_cases h7 : k%8 < 7
  · have hlt : k/8*7+k%8 < 64 := by omega
    have h56 : k/8*7+k%8 < 56 := by omega
    have hmod : (k/8*7+k%8)%7=k%8 := by omega
    have hdiv : (k/8*7+k%8)/7=k/8 := by omega
    have hk8 : k/8*8+k%8=k := by omega
    simp [h7,gather7_bit _ hlt,h56,hmod,hdiv,hk8]
  · simp [h7]

/-- Groups of seven bits, lowest first, as a number. -/
def ofGroups : List ℕ → ℕ
  | [] => 0
  | d::ds => d+128*ofGroups ds

/-- A bit of a byte string read as a word is a bit of one of its bytes. -/
theorem leNat_testBit (bs : List UInt8) (k : ℕ) :
    (leNat bs).testBit k=((bs.getD (k/8) 0).toNat).testBit (k%8) := by
  induction bs generalizing k with
  | nil => simp [leNat]
  | cons b t ih =>
    have hb : b.toNat < 2^8 := b.toNat_lt
    have hsum : leNat (b::t)=2^8*leNat t+b.toNat := by
      rw [leNat]
      omega
    rw [hsum,Nat.testBit_two_pow_mul_add _ hb]
    by_cases hk : k < 8
    · have hdiv : k/8=0 := by omega
      have hmod : k%8=k := by omega
      simp [hk,hdiv,hmod]
    · obtain ⟨j,rfl⟩ : ∃ j, k=j+8 := ⟨k-8,by omega⟩
      have hdiv : (j+8)/8=j/8+1 := by omega
      have hmod : (j+8)%8=j%8 := by omega
      simp [hdiv,hmod,ih]

/-- A bit of groups put together is a bit of one of them. -/
theorem ofGroups_testBit {ds : List ℕ} (h : ∀ d ∈ ds, d < 128) (k : ℕ) :
    (ofGroups ds).testBit k=(ds.getD (k/7) 0).testBit (k%7) := by
  induction ds generalizing k with
  | nil => simp [ofGroups]
  | cons d ds ih =>
    have hd : d < 2^7 := h d List.mem_cons_self
    have hsum : ofGroups (d::ds)=2^7*ofGroups ds+d := by
      rw [ofGroups]
      omega
    rw [hsum,Nat.testBit_two_pow_mul_add _ hd]
    by_cases hk : k < 7
    · have hdiv : k/7=0 := by omega
      have hmod : k%7=k := by omega
      simp [hk,hdiv,hmod]
    · obtain ⟨j,rfl⟩ : ∃ j, k=j+7 := ⟨k-7,by omega⟩
      have hdiv : (j+7)/7=j/7+1 := by omega
      have hmod : (j+7)%7=j%7 := by omega
      simp [hdiv,hmod,ih fun e he => h e (List.mem_cons_of_mem d he)]

/-- A word with the bits of the groups is their number. -/
theorem toNat_ofGroups {x : BitVec 64} {ds : List ℕ} (h : ∀ d ∈ ds, d < 128)
    (hlt : ofGroups ds < 2^64)
    (hbit : ∀ k < 64, x.getLsbD k=(ds.getD (k/7) 0).testBit (k%7)) : x.toNat=ofGroups ds := by
  refine Nat.eq_of_testBit_eq fun k => ?_
  by_cases hk : k < 64
  · rw [ofGroups_testBit h,←hbit k hk]
    rfl
  · have hpow : (2 : ℕ)^64 ≤ 2^k := Nat.pow_le_pow_right (by omega) (by omega)
    rw [Nat.testBit_lt_two_pow (lt_of_lt_of_le x.isLt hpow),
      Nat.testBit_lt_two_pow (lt_of_lt_of_le hlt hpow)]

/-- Groups put together stay below the group behind them. -/
theorem ofGroups_lt {ds : List ℕ} (h : ∀ d ∈ ds, d < 128) : ofGroups ds < 128^ds.length := by
  induction ds with
  | nil => simp [ofGroups]
  | cons d ds ih =>
    have hd : d < 128 := h d List.mem_cons_self
    have hrest := ih fun e he => h e (List.mem_cons_of_mem d he)
    rw [ofGroups,List.length_cons,Nat.pow_succ']
    omega

/-- The groups of bytes. -/
def groups (bs : List UInt8) : List ℕ := bs.map fun c => c.toNat%128

/-- Every group is below 128. -/
theorem groups_lt {bs : List UInt8} : ∀ d ∈ groups bs, d < 128 := by
  intro d hd
  obtain ⟨c,-,rfl⟩ := List.mem_map.mp hd
  exact Nat.mod_lt _ (by decide)

/-- Bytes that are continued, and one that is not, spell their groups. -/
theorem spells_groups {bs : List UInt8} {b : UInt8} {i : ℕ} (hbs : ∀ c ∈ bs, 128 ≤ c.toNat)
    (hb : b.toNat < 128) (hi : bs.length+i < 9 ∨ (bs.length+i=9 ∧ b.toNat ≤ 1)) :
    Varint.Spells i (bs++[b]) (ofGroups (groups (bs++[b]))*128^i) := by
  induction bs generalizing i with
  | nil =>
    have hmod : b.toNat%128=b.toNat := Nat.mod_eq_of_lt hb
    simp only [List.length_nil,Nat.zero_add] at hi
    simpa [ofGroups,groups,hmod] using Varint.Spells.last hb hi
  | cons c cs ih =>
    have hc : 128 ≤ c.toNat := hbs c List.mem_cons_self
    have hc256 := c.toNat_lt
    have hmod : c.toNat%128=c.toNat-128 := by omega
    simp only [List.length_cons] at hi
    have hrest := @ih (i+1) (fun e he => hbs e (List.mem_cons_of_mem c he)) (by omega)
    have hspell := Varint.Spells.group hc (by omega) hrest
    have hvalue : (c.toNat-128)*128^i+ofGroups (groups (cs++[b]))*128^(i+1)=
        ofGroups (groups ((c::cs)++[b]))*128^i := by
      simp only [groups,List.cons_append,List.map_cons,ofGroups,hmod,Nat.pow_succ]
      ring
    rw [hvalue] at hspell
    exact hspell

/-- Bytes that are all continued, ten of them, are overlong, and so is a tenth above one. -/
theorem overlong_groups {bs : List UInt8} {b : UInt8} {i : ℕ} (hbs : ∀ c ∈ bs, 128 ≤ c.toNat)
    (hb : 1 < b.toNat) (hi : bs.length+i=9) : Varint.Overlong i (bs++[b]) := by
  induction bs generalizing i with
  | nil =>
    simp only [List.length_nil,Nat.zero_add] at hi
    subst hi
    exact .tenth hb
  | cons c cs ih =>
    simp only [List.length_cons] at hi
    have hrest := @ih (i+1) (fun e he => hbs e (List.mem_cons_of_mem c he)) (by omega)
    exact .group (hbs c List.mem_cons_self) (by omega) hrest

/-- How many bits a word has (`__sofab_bitlen`). -/
def bitlen (v : BitVec 64) : ℕ := v.toNat.log2+1

/-- How many zeros a word ends in (`__sofab_ctz`). -/
def ctz (v : BitVec 64) : ℕ := ((List.range 64).find? v.getLsbD).getD 64

/-- The continuation bits of eight bytes (`__SOFAB_MSBS`). -/
def msbs : BitVec 64 := 0x8080808080808080#64

/-- Eight bytes as a word (`__sofab_load8`). -/
def load8 (p : List UInt8) : BitVec 64 := BitVec.ofNat 64 (leNat (p.take 8))

/-- A byte as a word. -/
def word (b : UInt8) : BitVec 64 := BitVec.ofNat 64 b.toNat

/-- The byte loop of `_varint_take` behind the first byte: `turns` of the bytes that cannot
overflow are left, then the tenth. -/
def takeSerial (p : List UInt8) : ℕ → ℕ → ℕ → BitVec 64 → Option (BitVec 64 × ℕ)
  | 0, i, shift, value =>
    let b := p.getD i 0
    if 1 < b.toNat then none else some (value ||| word b <<< shift,i+1)
  | turns+1, i, shift, value =>
    let b := p.getD i 0
    let value := value ||| word (b &&& 0x7F) <<< shift
    if b.toNat < 0x80 then some (value,i+1) else takeSerial p turns (i+1) (shift+7) value

/-- Decode the varint at the front of a window of ten bytes: its value and length, or `none` for
an overlong one (`_varint_take`). -/
def varintTake (swar : Bool) (p : List UInt8) : Option (BitVec 64 × ℕ) :=
  let b := p.getD 0 0
  if b.toNat < 0x80 then some (word b,1)
  else if swar then
    let w := load8 p
    let ends := ~~~w &&& msbs
    if ends≠0 then
      let n := (ctz ends>>>3)+1
      some (gather7 w &&& (1#64 <<< (7*n)-1#64),n)
    else
      let value := gather7 w
      let b := p.getD 8 0
      if b.toNat < 0x80 then some (value ||| word b <<< 56,9)
      else
        let value := value ||| word (b &&& 0x7F) <<< 56
        let b := p.getD 9 0
        if 1 < b.toNat then none else some (value ||| word b <<< 63,10)
  else takeSerial p 8 1 7 (word (b &&& 0x7F))

/-- Read the varint behind a cursor, each byte tested for being there (`_varint_refill`). -/
def varintRefillTail : ℕ → BitVec 64 → List UInt8 → Resumable.Parse Exn UInt8 (BitVec 64)
  | _, _, [] => .more
  | shift, result, b::t =>
    let room := 64-shift
    if room < 7 ∧ (b &&& 0x7F).toNat>>>room≠0 then .bad overlong
    else
      let result := result ||| word (b &&& 0x7F) <<< shift
      if b.toNat < 0x80 then .done result t
      else if 64 ≤ shift+7 then .bad overlong
      else varintRefillTail (shift+7) result t

/-- Read the varint behind a cursor (`_varint_refill`). -/
def varintRefill : List UInt8 → Resumable.Parse Exn UInt8 (BitVec 64)
  | [] => .more
  | b::t => if b.toNat < 0x80 then .done (word b) t else varintRefillTail 7 (word (b &&& 0x7F)) t

variable {p : List UInt8}

/-- A bit of the word of eight bytes is a bit of one of them. -/
theorem load8_bit (p : List UInt8) {k : ℕ} (hk : k < 64) :
    (load8 p).getLsbD k=(p.getD (k/8) 0).toNat.testBit (k%8) := by
  have hget : (p.take 8).getD (k/8) 0=p.getD (k/8) 0 := by
    have hlt : k/8 < 8 := by omega
    simp [hlt]
  rw [load8,BitVec.getLsbD_ofNat,leNat_testBit,hget]
  simp only [hk,decide_true,Bool.true_and]

/-- The highest bit of a byte says whether it is continued. -/
theorem testBit_seven (b : UInt8) : b.toNat.testBit 7=decide (128 ≤ b.toNat) := by
  have hlt := b.toNat_lt
  rw [Nat.testBit_eq_decide_div_mod_eq]
  by_cases h : 128 ≤ b.toNat
  · have hdiv : b.toNat/128%2=1 := by omega
    simp [h,hdiv]
  · have hdiv : b.toNat/128%2=0 := by omega
    simp [h,hdiv]

/-- The bits that end a value are the highest bits of the bytes that are not continued. -/
theorem ends_bit (p : List UInt8) {k : ℕ} (hk : k < 64) :
    (~~~load8 p &&& msbs).getLsbD k=
      (decide (k%8=7) && decide ((p.getD (k/8) 0).toNat < 128)) := by
  have hmask : msbs.getLsbD k=decide (k%8=7) := by
    interval_cases k <;> rfl
  rw [BitVec.getLsbD_and,hmask,BitVec.getLsbD_not,load8_bit p hk]
  generalize p.getD (k/8) 0=b
  by_cases h7 : k%8=7
  · rw [h7,testBit_seven]
    by_cases hb : 128 ≤ b.toNat
    · have hno : ¬b.toNat < 128 := by omega
      simp [hk,hb,hno]
    · have hyes : b.toNat < 128 := by omega
      simp [hk,hb,hyes]
  · simp [h7]

/-- The first byte that is not continued, where it is one of eight, is found by its bit. -/
theorem ctz_ends {q : ℕ} (hq : q < 8) (hend : (p.getD q 0).toNat < 128)
    (hbefore : ∀ j < q, 128 ≤ (p.getD j 0).toNat) : ctz (~~~load8 p &&& msbs)=8*q+7 := by
  have hfind : (List.range 64).find? (~~~load8 p &&& msbs).getLsbD=some (8*q+7) := by
    rw [List.find?_range_eq_some]
    refine ⟨?_,?_,?_⟩
    · have hmod : (8*q+7)%8=7 := by omega
      have hdiv : (8*q+7)/8=q := by omega
      rw [ends_bit p (by omega),hmod,hdiv]
      simpa using hend
    · simp only [List.mem_range]
      omega
    · intro j hj
      rw [ends_bit p (by omega)]
      by_cases h7 : j%8=7
      · have hcont := hbefore (j/8) (by omega)
        generalize p.getD (j/8) 0=b at hcont
        simp [hcont]
      · simp [h7]
  rw [ctz,hfind]
  rfl

/-- No byte of eight ends a value exactly where no such bit is set. -/
theorem ends_zero (hall : ∀ j < 8, 128 ≤ (p.getD j 0).toNat) : ~~~load8 p &&& msbs=0 := by
  refine BitVec.eq_of_getLsbD_eq fun k hk => ?_
  have hcont := hall (k/8) (by omega)
  rw [ends_bit p hk]
  generalize p.getD (k/8) 0=b at hcont
  simp [hcont]

/-- A byte that ends a value sets its bit. -/
theorem ends_ne_zero {q : ℕ} (hq : q < 8) (hend : (p.getD q 0).toNat < 128) :
    ~~~load8 p &&& msbs≠0 := by
  intro hzero
  have hbit := ends_bit p (show 8*q+7 < 64 by omega)
  have hmod : (8*q+7)%8=7 := by omega
  have hdiv : (8*q+7)/8=q := by omega
  rw [hzero,hmod,hdiv] at hbit
  generalize p.getD q 0=b at hend hbit
  simp at hbit
  omega

/-- A bit of a byte as a word. -/
theorem word_bit (b : UInt8) {k : ℕ} (hk : k < 64) : (word b).getLsbD k=b.toNat.testBit k := by
  rw [word,BitVec.getLsbD_ofNat]
  simp only [hk,decide_true,Bool.true_and]

/-- The low seven bits of a byte. -/
theorem low_toNat (b : UInt8) : (b &&& 0x7F).toNat=b.toNat%128 := by
  have hmod := Nat.and_two_pow_sub_one_eq_mod b.toNat 7
  simpa using hmod

/-- A bit of the groups of the first bytes. -/
theorem groups_bit {n : ℕ} (hn : n ≤ p.length) (q : ℕ) {r : ℕ} (hr : r < 7) :
    ((groups (p.take n)).getD q 0).testBit r=
      (decide (q < n) && (p.getD q 0).toNat.testBit r) := by
  by_cases hq : q < n
  · have hget : (groups (p.take n)).getD q 0=(p.getD q 0).toNat%128 := by
      have hlt : q < p.length := by omega
      simp [groups,hq,hlt]
    have hmod := Nat.testBit_mod_two_pow (p.getD q 0).toNat 7 r
    rw [hget]
    simpa [hq,hr] using hmod
  · have hlen : (groups (p.take n)).length ≤ q := by
      simp only [groups,List.length_map,List.length_take]
      omega
    rw [List.getD_eq_default _ _ hlen]
    simp [hq]

/-- The mask that keeps the groups of a value. -/
theorem mask_bit {m : ℕ} (hm : m < 64) (k : ℕ) :
    (1#64 <<< m-1#64).getLsbD k=decide (k < m) := by
  have hpow : 2^m < 2^64 := Nat.pow_lt_pow_right (by omega) hm
  have hpos : 0 < 2^m := Nat.two_pow_pos m
  have hshift : (1#64 <<< m).toNat=2^m := by
    rw [BitVec.toNat_shiftLeft]
    simpa [Nat.shiftLeft_eq] using Nat.mod_eq_of_lt hpow
  have hone : (1#64).toNat=1 := rfl
  have hnat : (1#64 <<< m-1#64).toNat=2^m-1 := by
    rw [BitVec.toNat_sub,hshift,hone]
    omega
  have htest := Nat.testBit_two_pow_sub_one m k
  rw [←hnat] at htest
  exact htest

/-- The window of a varint of up to eight bytes gathers its groups. -/
theorem gathered_short {n : ℕ} (hn : n ≤ 8) (hp : n ≤ p.length) :
    (gather7 (load8 p) &&& (1#64 <<< (7*n)-1#64)).toNat=
      ofGroups (groups (p.take n)) := by
  have hlt : ofGroups (groups (p.take n)) < 2^64 := by
    have hbound : ofGroups (groups (p.take n)) < 128^(groups (p.take n)).length :=
      ofGroups_lt groups_lt
    have hlen : (groups (p.take n)).length=n := by
      simp only [groups,List.length_map,List.length_take]
      omega
    have hpow : (128 : ℕ)^n ≤ 128^8 := Nat.pow_le_pow_right (by omega) hn
    rw [hlen] at hbound
    omega
  refine toNat_ofGroups groups_lt hlt fun k hk => ?_
  have hr : k%7 < 7 := Nat.mod_lt k (by decide)
  have hmod : (k/7*8+k%7)%8=k%7 := by omega
  have hdiv : (k/7*8+k%7)/8=k/7 := by omega
  rw [groups_bit hp _ hr,BitVec.getLsbD_and,mask_bit (by omega),gather7_bit _ hk]
  by_cases h56 : k < 56
  · have hq : (k/7 < n ↔ k < 7*n) := by omega
    rw [load8_bit p (by omega),hmod,hdiv]
    by_cases hkn : k < 7*n
    · simp [h56,hq,hkn]
    · simp [h56,hq,hkn]
  · have hq : ¬k/7 < n := by omega
    simp [h56,hq]

/-- A shifted byte as a word, bit by bit. -/
theorem word_shift_bit (b : UInt8) {m k : ℕ} (hk : k < 64) :
    (word b <<< m).getLsbD k=(decide (m ≤ k) && b.toNat.testBit (k-m)) := by
  rw [BitVec.getLsbD_shiftLeft]
  by_cases hmk : m ≤ k
  · have hno : ¬k < m := by omega
    rw [word_bit b (by omega)]
    simp [hmk,hno,hk]
  · have hyes : k < m := by omega
    simp [hmk,hyes]

/-- The low seven bits of a byte, bit by bit. -/
theorem low_bit (b : UInt8) (k : ℕ) :
    (b &&& 0x7F).toNat.testBit k=(decide (k < 7) && b.toNat.testBit k) := by
  rw [low_toNat]
  exact Nat.testBit_mod_two_pow b.toNat 7 k

/-- Bytes below 128 have no eighth bit. -/
theorem small_bit {b : UInt8} (hb : b.toNat < 128) : b.toNat.testBit 7=false := by
  rw [testBit_seven]
  simpa using hb

/-- The window of a varint of nine bytes gathers its groups. -/
theorem gathered_nine (hp : 9 ≤ p.length) (hb : (p.getD 8 0).toNat < 128) :
    (gather7 (load8 p) ||| word (p.getD 8 0) <<< 56).toNat=ofGroups (groups (p.take 9)) := by
  have hlt : ofGroups (groups (p.take 9)) < 2^64 := by
    have hbound : ofGroups (groups (p.take 9)) < 128^(groups (p.take 9)).length :=
      ofGroups_lt groups_lt
    have hlen : (groups (p.take 9)).length=9 := by
      simp only [groups,List.length_map,List.length_take]
      omega
    rw [hlen] at hbound
    omega
  refine toNat_ofGroups groups_lt hlt fun k hk => ?_
  have hr : k%7 < 7 := Nat.mod_lt k (by decide)
  have hmod : (k/7*8+k%7)%8=k%7 := by omega
  have hdiv : (k/7*8+k%7)/8=k/7 := by omega
  rw [groups_bit hp _ hr,BitVec.getLsbD_or,gather7_bit _ hk,word_shift_bit _ hk]
  by_cases h56 : k < 56
  · have hq : k/7 < 9 := by omega
    have hno : ¬56 ≤ k := by omega
    rw [load8_bit p (by omega),hmod,hdiv]
    simp [h56,hq,hno]
  · have hyes : 56 ≤ k := by omega
    by_cases h63 : k < 63
    · have hq : k/7=8 := by omega
      have hrest : k%7=k-56 := by omega
      simp [h56,hyes,hq,hrest]
    · have hq : ¬k/7 < 9 := by omega
      have hseven : k-56=7 := by omega
      rw [hseven,small_bit hb]
      simp [h56,hq]

/-- The window of a varint of ten bytes gathers its groups. -/
theorem gathered_ten (hp : 10 ≤ p.length)
    (hlt : ofGroups (groups (p.take 10)) < 2^64) :
    (gather7 (load8 p) ||| word (p.getD 8 0 &&& 0x7F) <<< 56 ||| word (p.getD 9 0) <<< 63).toNat=
      ofGroups (groups (p.take 10)) := by
  refine toNat_ofGroups groups_lt hlt fun k hk => ?_
  have hr : k%7 < 7 := Nat.mod_lt k (by decide)
  have hmod : (k/7*8+k%7)%8=k%7 := by omega
  have hdiv : (k/7*8+k%7)/8=k/7 := by omega
  have hq : k/7 < 10 := by omega
  rw [groups_bit hp _ hr,BitVec.getLsbD_or,BitVec.getLsbD_or,gather7_bit _ hk,
    word_shift_bit _ hk,word_shift_bit _ hk,low_bit]
  by_cases h56 : k < 56
  · have hno : ¬56 ≤ k := by omega
    have hno' : ¬63 ≤ k := by omega
    rw [load8_bit p (by omega),hmod,hdiv]
    simp [h56,hq,hno,hno']
  · have hyes : 56 ≤ k := by omega
    by_cases h63 : k < 63
    · have hq : k/7=8 := by omega
      have hrest : k%7=k-56 := by omega
      have hlow : k-56 < 7 := by omega
      have hno : ¬63 ≤ k := by omega
      simp [h56,hyes,hq,hrest,hlow,hno]
    · have hk63 : k=63 := by omega
      subst hk63
      simp

/-- What the bytes of a window spell, with how many of them spell it. -/
def spelledIn (p : List UInt8) : Option (BitVec 64 × ℕ) :=
  match Varint.read overlong p with
  | .done v rest => some (BitVec.ofNat 64 v,p.length-rest.length)
  | _ => none

/-- The first bytes of a window, all continued, and the one behind them. -/
theorem take_continued {n : ℕ} (hn : n < p.length) (hbefore : ∀ j < n, 128 ≤ (p.getD j 0).toNat) :
    p.take (n+1)=p.take n++[p.getD n 0] ∧ (p.take n).length=n ∧ ∀ c ∈ p.take n, 128 ≤ c.toNat := by
  have hget : p.getD n 0=p[n] := by simp [hn]
  refine ⟨?_,?_,?_⟩
  · rw [hget,List.take_add_one]
    simp [hn]
  · rw [List.length_take]
    omega
  · intro c hc
    obtain ⟨j,hj,rfl⟩ := List.mem_iff_getElem.mp hc
    simp only [List.length_take] at hj
    have hb := hbefore j (by omega)
    have hjp : j < p.length := by omega
    simpa [hjp] using hb

/-- Bytes of a window that spell their groups. -/
theorem spelledIn_groups {n : ℕ} (hp : 10 ≤ p.length) (hn : n < 10)
    (hend : (p.getD n 0).toNat < 128) (hten : n=9 → (p.getD n 0).toNat ≤ 1)
    (hbefore : ∀ j < n, 128 ≤ (p.getD j 0).toNat) :
    ofGroups (groups (p.take (n+1))) < 2^64 ∧
      spelledIn p=some (BitVec.ofNat 64 (ofGroups (groups (p.take (n+1)))),n+1) := by
  obtain ⟨htake,hlen,hcont⟩ := @take_continued p n (by omega) hbefore
  have hspell := @spells_groups (p.take n) (p.getD n 0) 0 hcont hend (by omega)
  rw [←htake,Nat.pow_zero,Nat.mul_one] at hspell
  have hread : Varint.read overlong p=.done (ofGroups (groups (p.take (n+1)))) (p.drop (n+1)) :=
    Varint.read_done_iff.mpr ⟨_,hspell,(List.take_append_drop (n+1) p).symm⟩
  refine ⟨hspell.lt,?_⟩
  have hused : p.length-(p.drop (n+1)).length=n+1 := by
    rw [List.length_drop]
    omega
  simp only [spelledIn,hread,hused]

/-- A window whose tenth byte is too large spells nothing. -/
theorem spelledIn_overlong (hp : 10 ≤ p.length) (hten : 1 < (p.getD 9 0).toNat)
    (hbefore : ∀ j < 9, 128 ≤ (p.getD j 0).toNat) : spelledIn p=none := by
  obtain ⟨htake,hlen,hcont⟩ := @take_continued p 9 (by omega) hbefore
  have hover := @overlong_groups (p.take 9) (p.getD 9 0) 0 hcont hten (by omega)
  rw [←htake] at hover
  have hread : Varint.read overlong p=.bad overlong :=
    Varint.read_bad_iff.mpr ⟨rfl,_,_,hover,(List.take_append_drop 10 p).symm⟩
  simp only [spelledIn,hread]

section Paths

variable (hfirst : ¬(p.getD 0 0).toNat < 0x80)

include hfirst

/-- The word path where a byte of the eight ends the value. -/
theorem take_short (hne : ~~~load8 p &&& msbs≠0) :
    varintTake true p=
      some (gather7 (load8 p) &&& (1#64 <<< (7*((ctz (~~~load8 p &&& msbs)>>>3)+1))-1#64),
        (ctz (~~~load8 p &&& msbs)>>>3)+1) := by
  rw [varintTake]
  dsimp only
  rw [if_neg hfirst,if_pos rfl,if_pos hne]

/-- The word path where the ninth byte does. -/
theorem take_nine (hzero : ~~~load8 p &&& msbs=0) (hend : (p.getD 8 0).toNat < 0x80) :
    varintTake true p=some (gather7 (load8 p) ||| word (p.getD 8 0) <<< 56,9) := by
  rw [varintTake]
  dsimp only
  rw [if_neg hfirst,if_pos rfl,if_neg (not_not.mpr hzero),if_pos hend]

/-- The word path where the tenth byte does, or is too large. -/
theorem take_ten (hzero : ~~~load8 p &&& msbs=0) (hninth : ¬(p.getD 8 0).toNat < 0x80) :
    varintTake true p=if 1 < (p.getD 9 0).toNat then none
      else some (gather7 (load8 p) ||| word (p.getD 8 0 &&& 0x7F) <<< 56 |||
        word (p.getD 9 0) <<< 63,10) := by
  rw [varintTake]
  dsimp only
  rw [if_neg hfirst,if_pos rfl,if_neg (not_not.mpr hzero),if_neg hninth]

end Paths

/-- The word path takes what is spelled. -/
theorem varintTake_swar (hp : 10 ≤ p.length) : varintTake true p=spelledIn p := by
  have hvalue : ∀ {x : BitVec 64} {v : ℕ}, x.toNat=v → x=BitVec.ofNat 64 v := by
    rintro x v rfl
    simp
  by_cases hex : ∃ q, q < 9 ∧ (p.getD q 0).toNat < 128
  · have hfind := Nat.find_spec hex
    have hleast := fun j hj => Nat.find_min hex (m := j) hj
    generalize Nat.find hex=q at hfind hleast
    obtain ⟨hq,hend⟩ := hfind
    have hbefore : ∀ j < q, 128 ≤ (p.getD j 0).toNat := by
      intro j hj
      have hno := hleast j hj
      omega
    have hspelled := (spelledIn_groups hp (by omega) hend (by omega) hbefore).2
    rw [hspelled]
    by_cases h0 : q=0
    · subst h0
      have htake := (@take_continued p 0 (by omega) (by simp)).1
      have hmod : (p.getD 0 0).toNat%128=(p.getD 0 0).toNat := Nat.mod_eq_of_lt hend
      have hone : ofGroups (groups (p.take 1))=(p.getD 0 0).toNat := by
        rw [htake,List.take_zero,List.nil_append,groups,List.map_singleton,hmod]
        rfl
      rw [varintTake]
      dsimp only
      rw [if_pos hend,hone,word]
    have hfirst : ¬(p.getD 0 0).toNat < 0x80 := by
      have hb := hbefore 0 (by omega)
      omega
    by_cases h8 : q < 8
    · have hne := ends_ne_zero h8 hend
      have hctz := ctz_ends h8 hend hbefore
      have hn : ((8*q+7)>>>3)+1=q+1 := by
        rw [Nat.shiftRight_eq_div_pow]
        omega
      have hgather := @gathered_short p (q+1) (by omega) (by omega)
      rw [take_short hfirst hne,hctz,hn,hvalue hgather]
    · have hq8 : q=8 := by omega
      subst hq8
      have hzero := ends_zero hbefore
      have hgather := gathered_nine (by omega) hend
      rw [take_nine hfirst hzero hend,hvalue hgather]
  · have hbefore : ∀ j < 9, 128 ≤ (p.getD j 0).toNat := by
      intro j hj
      by_contra hno
      exact hex ⟨j,hj,by omega⟩
    have hzero := ends_zero fun j hj => hbefore j (by omega)
    have hfirst : ¬(p.getD 0 0).toNat < 0x80 := by
      have hb := hbefore 0 (by omega)
      omega
    have hninth : ¬(p.getD 8 0).toNat < 0x80 := by
      have hb := hbefore 8 (by omega)
      omega
    rw [take_ten hfirst hzero hninth]
    by_cases hten : 1 < (p.getD 9 0).toNat
    · rw [spelledIn_overlong hp hten hbefore,if_pos hten]
    · have hspelled := spelledIn_groups hp (by omega) (by omega) (by omega) hbefore
      have hgather := gathered_ten hp hspelled.1
      rw [hspelled.2,if_neg hten,hvalue hgather]

/-- A group put on top of the others. -/
theorem word_or {value : BitVec 64} {b : UInt8} {i acc : ℕ} (hv : value.toNat=acc)
    (hacc : acc < 128^i) (hb : b.toNat*128^i < 2^64) :
    (value ||| word b <<< (7*i)).toNat=acc+b.toNat*128^i := by
  have hpow : (128 : ℕ)^i=2^(7*i) := by rw [Nat.pow_mul]
  have hb256 := b.toNat_lt
  have hword : (word b).toNat=b.toNat := by
    rw [word,BitVec.toNat_ofNat]
    exact Nat.mod_eq_of_lt (by omega)
  have hshift : (word b <<< (7*i)).toNat=b.toNat<<<(7*i) := by
    rw [BitVec.toNat_shiftLeft,hword]
    rw [hpow] at hb
    exact Nat.mod_eq_of_lt (by rwa [Nat.shiftLeft_eq])
  rw [BitVec.toNat_or,hv,hshift,or_group hacc]

/-- A value below a bound of groups fits a word as long as the tenth group is not reached. -/
theorem group_fits {x i : ℕ} (hx : x < 128) (hi : i < 9) : x*128^i < 2^64 := by
  have hpow : (128 : ℕ)^i ≤ 128^8 := Nat.pow_le_pow_right (by omega) (by omega)
  have hmul : x*128^i ≤ 127*128^8 := Nat.mul_le_mul (by omega) hpow
  omega

/-- One group more of the loops over bytes. -/
theorem low_or {value : BitVec 64} {b : UInt8} {i acc : ℕ} (hv : value.toNat=acc)
    (hacc : acc < 128^i) (hi : i < 9) :
    (value ||| word (b &&& 0x7F) <<< (7*i)).toNat=acc+b.toNat%128*128^i ∧
      acc+b.toNat%128*128^i < 128^(i+1) := by
  have hlow := low_toNat b
  have hlt : b.toNat%128 < 128 := Nat.mod_lt _ (by decide)
  have hfits := group_fits hlt hi
  rw [←hlow] at hfits
  have hor := word_or hv hacc hfits
  rw [hlow] at hor
  exact ⟨hor,group_lt hacc hlt⟩

/-- The number of a word whose number is known. -/
theorem eq_ofNat {x : BitVec 64} {v : ℕ} (h : x.toNat=v) : x=BitVec.ofNat 64 v := by
  subst h
  simp

/-- The bytes of a window from a place on. -/
theorem drop_window {i : ℕ} (hi : i < p.length) :
    p.drop i=p.getD i 0::p.drop (i+1) ∧ p.length-(p.drop (i+1)).length=i+1 := by
  have hget : p.getD i 0=p[i] := by simp [hi]
  constructor
  · rw [hget]
    exact List.drop_eq_getElem_cons hi
  · rw [List.length_drop]
    omega

/-- The byte loop of the window reads what the format's reader does. -/
theorem takeSerial_eq (hp : 10 ≤ p.length) {turns i acc : ℕ} {value : BitVec 64}
    (hi : i+turns=9) (hv : value.toNat=acc) (hacc : acc < 128^i) :
    takeSerial p turns i (7*i) value=
      match Varint.readFrom overlong i acc (p.drop i) with
      | .done v rest => some (BitVec.ofNat 64 v,p.length-rest.length)
      | _ => none := by
  induction turns generalizing i acc value with
  | zero =>
    obtain ⟨hdrop,hused⟩ := @drop_window p i (by omega)
    have h9 : i=9 := by omega
    subst h9
    rw [takeSerial,hdrop,Varint.readFrom]
    by_cases hten : 1 < (p.getD 9 0).toNat
    · have hno : ¬(p.getD 9 0).toNat ≤ 1 := by omega
      simp only [hten,hno,if_true,if_false,Nat.lt_irrefl]
    · have hyes : (p.getD 9 0).toNat ≤ 1 := by omega
      have hor := word_or (b := p.getD 9 0) hv hacc (by omega)
      simp only [hten,hyes,if_true,if_false,Nat.lt_irrefl,eq_ofNat hor,hused]
  | succ turns ih =>
    have hi9 : i < 9 := by omega
    obtain ⟨hdrop,hused⟩ := @drop_window p i (by omega)
    obtain ⟨hor,hlt⟩ := @low_or value (p.getD i 0) i acc hv hacc hi9
    have hb256 := (p.getD i 0).toNat_lt
    rw [takeSerial,hdrop,Varint.readFrom]
    by_cases hb : (p.getD i 0).toNat < 128
    · have hmod : (p.getD i 0).toNat%128=(p.getD i 0).toNat := Nat.mod_eq_of_lt hb
      rw [hmod] at hor
      simp only [hi9,hb,if_true,eq_ofNat hor,hused]
    · have hmod : (p.getD i 0).toNat%128=(p.getD i 0).toNat-128 := by omega
      rw [hmod] at hor hlt
      simp only [hi9,hb,if_true,if_false]
      exact ih (by omega) hor hlt

/-- The byte-serial path takes what is spelled. -/
theorem varintTake_serial (hp : 10 ≤ p.length) : varintTake false p=spelledIn p := by
  obtain ⟨hdrop,hused⟩ := @drop_window p 0 (by omega)
  rw [List.drop_zero] at hdrop
  have hb256 := (p.getD 0 0).toNat_lt
  have hread : Varint.read overlong p=
      if (p.getD 0 0).toNat < 128 then .done (p.getD 0 0).toNat (p.drop 1)
      else Varint.readFrom overlong 1 ((p.getD 0 0).toNat-128) (p.drop 1) := by
    conv_lhs => rw [hdrop]
    simp [Varint.read,Varint.readFrom]
  rw [varintTake,spelledIn,hread]
  dsimp only
  by_cases hb : (p.getD 0 0).toNat < 128
  · rw [if_pos hb,if_pos hb]
    simp only [word,hused]
  · have hlow := low_toNat (p.getD 0 0)
    have hword : (word (p.getD 0 0 &&& 0x7F)).toNat=(p.getD 0 0).toNat-128 := by
      rw [word,BitVec.toNat_ofNat,hlow]
      omega
    rw [if_neg hb,if_neg hb,if_neg Bool.false_ne_true]
    exact takeSerial_eq hp (by omega) hword (by omega)

/-- The reader that tests for each byte reads what the format's reader does. -/
theorem varintRefillTail_eq {i acc : ℕ} {result : BitVec 64} (hi : i ≤ 9) (hv : result.toNat=acc)
    (hacc : acc < 128^i) (xs : List UInt8) :
    varintRefillTail (7*i) result xs=match Varint.readFrom overlong i acc xs with
      | .done v rest => .done (BitVec.ofNat 64 v) rest
      | .more => .more
      | .bad why => .bad why := by
  induction xs generalizing i acc result with
  | nil => simp [varintRefillTail,Varint.readFrom]
  | cons b t ih =>
    have hlow := low_toNat b
    have hb256 := b.toNat_lt
    rw [varintRefillTail,Varint.readFrom,hlow]
    dsimp only
    by_cases h9 : i < 9
    · have hroom : ¬64-7*i < 7 := by omega
      have hmore : ¬64 ≤ 7*i+7 := by omega
      obtain ⟨hor,hlt⟩ := @low_or result b i acc hv hacc h9
      rw [if_neg (fun h => hroom h.1),if_pos h9]
      by_cases hb : b.toNat < 128
      · have hmod : b.toNat%128=b.toNat := Nat.mod_eq_of_lt hb
        rw [hmod] at hor
        rw [if_pos hb,if_pos hb,eq_ofNat hor]
      · have hmod : b.toNat%128=b.toNat-128 := by omega
        rw [hmod] at hor hlt
        rw [if_neg hb,if_neg hb,if_neg hmore]
        exact ih (by omega) hor hlt
    · -- the tenth byte has room for one bit
      have hi9 : i=9 := by omega
      subst hi9
      rw [if_neg (show ¬9 < 9 by omega)]
      have hshift : (b.toNat%128)>>>(64-7*9)=b.toNat%128/2 := by
        rw [Nat.shiftRight_eq_div_pow]
      rw [hshift]
      by_cases hten : b.toNat ≤ 1
      · have hroom : ¬(64-7*9 < 7 ∧ b.toNat%128/2≠0) := by omega
        have hmod : b.toNat%128=b.toNat := by omega
        have hor := word_or (b := b &&& 0x7F) hv hacc (by rw [hlow]; omega)
        rw [hlow,hmod] at hor
        rw [if_neg hroom,if_pos hten,if_pos (by omega),eq_ofNat hor]
      · rw [if_neg hten]
        by_cases hroom : 64-7*9 < 7 ∧ b.toNat%128/2≠0
        · rw [if_pos hroom]
        · rw [if_neg hroom,if_neg (by omega),if_pos (by omega)]

/-- The careful reader reads what the format's reader does. -/
theorem varintRefill_eq (xs : List UInt8) :
    varintRefill xs=match Varint.read overlong xs with
      | .done v rest => .done (BitVec.ofNat 64 v) rest
      | .more => .more
      | .bad why => .bad why := by
  cases xs with
  | nil => rfl
  | cons b t =>
    have hb256 := b.toNat_lt
    rw [varintRefill,Varint.read,Varint.readFrom,if_pos (show 0 < 9 by omega)]
    by_cases hb : b.toNat < 128
    · simp [hb,word]
    · have hlow := low_toNat b
      have hword : (word (b &&& 0x7F)).toNat=0+(b.toNat-128)*128^0 := by
        rw [word,BitVec.toNat_ofNat,hlow]
        omega
      rw [if_neg hb,if_neg hb]
      have hacc : 0+(b.toNat-128)*128^0 < 128^1 := by
        simp only [Nat.pow_zero,Nat.pow_one]
        omega
      exact @varintRefillTail_eq 1 _ _ (by omega) hword hacc t

/-- Store a word over the first eight bytes (`__sofab_store8`). -/
def store8 (out : List UInt8) (w : BitVec 64) : List UInt8 := leBytes 8 w.toNat++out.drop 8

/-- The byte loop of `_varint_put` from a place on, with the turns it has left. -/
def putSerial : ℕ → ℕ → List UInt8 → BitVec 64 → List UInt8 × ℕ
  | 0, i, out, _ => (out,i)
  | turns+1, i, out, value =>
    if 0x80 ≤ value.toNat then
      putSerial turns (i+1) (out.set i (UInt8.ofNat (value ||| 0x80#64).toNat)) (value >>> 7)
    else (out.set i (UInt8.ofNat value.toNat),i+1)

/-- Encode a value over the front of a buffer: the buffer then, and the number of bytes
written (`_varint_put`). -/
def varintPut (swar : Bool) (out : List UInt8) (value : BitVec 64) : List UInt8 × ℕ :=
  if value.toNat < 0x80 then (out.set 0 (UInt8.ofNat value.toNat),1)
  else if swar then
    if value.toNat < 2^56 then
      let n := (bitlen value-1)/7+1
      (store8 out (spread7 value ||| (msbs &&& (1#64 <<< (8*(n-1))-1#64))),n)
    else
      let out := store8 out (spread7 (value &&& 0x00FFFFFFFFFFFFFF#64) ||| msbs)
      let rest := value >>> 56
      if rest.toNat < 0x80 then (out.set 8 (UInt8.ofNat rest.toNat),9)
      else
        ((out.set 8 (UInt8.ofNat ((rest &&& 0x7F#64) ||| 0x80#64).toNat)).set 9
          (UInt8.ofNat (rest >>> 7).toNat),10)
  else putSerial 10 0 out value

/-- One byte of a varint of so many. -/
def varintByte (v n q : ℕ) : ℕ := v/128^q%128+if q+1 < n then 128 else 0

/-- The bytes of an encoding, one for each group. -/
theorem encode_bytes (v : ℕ) : Varint.encode v=
    (List.range (v.log2/7+1)).map fun q => UInt8.ofNat (varintByte v (v.log2/7+1) q) := by
  induction v using Nat.strongRecOn with
  | ind v ih =>
    rw [Varint.encode_eq]
    by_cases hv : v < 128
    · have hlog : v.log2/7=0 := by
        rcases Nat.eq_zero_or_pos v with rfl | hpos
        · simp
        · have hlt := (Nat.log2_lt (by omega)).mpr (show v < 2^7 by omega)
          omega
      have hmod : v%128=v := Nat.mod_eq_of_lt hv
      simp [hv,hlog,varintByte,hmod]
    · have hdiv : (v/128).log2+7=v.log2 := by
        have hself := (Nat.log2_eq_iff (show v/128≠0 by omega)).mp rfl
        refine Eq.symm ((Nat.log2_eq_iff (by omega)).mpr ?_)
        have hlow : 2^((v/128).log2+7)=2^(v/128).log2*128 := by rw [Nat.pow_add]
        have hhigh : 2^((v/128).log2+7+1)=2^((v/128).log2+1)*128 := by
          rw [Nat.add_right_comm,Nat.pow_add]
        rw [hlow,hhigh]
        omega
      have hn : v.log2/7+1=((v/128).log2/7+1)+1 := by omega
      have hpos : 0 < (v/128).log2/7+1 := Nat.succ_pos _
      rw [if_neg hv,ih (v/128) (by omega),hn]
      generalize (v/128).log2/7+1=n at hpos
      rw [List.range_succ_eq_map]
      have hfirst : varintByte v (n+1) 0=v%128+128 := by simp [varintByte,hpos]
      have hnext : ∀ q, varintByte v (n+1) (q+1)=varintByte (v/128) n q := by
        intro q
        have hquot : v/128^(q+1)=v/128/128^q := by
          rw [Nat.pow_succ',Nat.div_div_eq_div_mul]
        simp [varintByte,hquot]
      simp only [List.map_cons,List.map_map,Function.comp_def,hfirst,Nat.succ_eq_add_one,hnext]

/-- The bytes of a number, one for each eight bits. -/
theorem leBytes_bytes (n w : ℕ) :
    leBytes n w=(List.range n).map fun q => UInt8.ofNat (w/256^q%256) := by
  induction n generalizing w with
  | zero => rfl
  | succ n ih =>
    have hnext : ∀ q, w/256^(q+1)=w/256/256^q := by
      intro q
      rw [Nat.pow_succ',Nat.div_div_eq_div_mul]
    rw [leBytes,ih,List.range_succ_eq_map]
    simp [hnext,Function.comp_def]

/-- A byte with the bits of a group, and the continuation bit or not. -/
theorem byte_of_bits {w v q : ℕ} {c : Bool} (hbits : ∀ r < 7, w.testBit (8*q+r)=v.testBit (7*q+r))
    (hc : w.testBit (8*q+7)=c) : w/256^q%256=v/128^q%128+if c then 128 else 0 := by
  have hpow : (256 : ℕ)^q=2^(8*q) := by rw [Nat.pow_mul]
  have hpow' : (128 : ℕ)^q=2^(7*q) := by rw [Nat.pow_mul]
  have h256 : w/256^q%256=w/2^(8*q)%2^8 := by
    rw [hpow]
    rfl
  have h128 : v/128^q%128=v/2^(7*q)%2^7 := by
    rw [hpow']
    rfl
  have hcarry : (v/2^(7*q)%2^7+if c then 128 else 0)=2^7*(if c then 1 else 0)+v/2^(7*q)%2^7 := by
    cases c with
    | true => simp [Nat.add_comm]
    | false => simp
  rw [h256,h128,hcarry]
  refine Nat.eq_of_testBit_eq fun r => ?_
  rw [Nat.testBit_two_pow_mul_add _ (Nat.mod_lt _ (by decide)),Nat.testBit_mod_two_pow,
    Nat.testBit_mod_two_pow,Nat.testBit_div_two_pow,Nat.testBit_div_two_pow]
  by_cases hr : r < 7
  · have hr8 : r < 8 := by omega
    have hbit := hbits r hr
    rw [Nat.add_comm] at hbit
    simp [hr,hr8,hbit,Nat.add_comm]
  · by_cases h7 : r=7
    · subst h7
      rw [Nat.add_comm] at hc
      cases c with
      | true => simp [hc]
      | false => simp [hc]
    · have hr8 : ¬r < 8 := by omega
      have hsub : r-7≠0 := by omega
      obtain ⟨j,hj⟩ : ∃ j, r-7=j+1 := ⟨r-8,by omega⟩
      cases c with
      | true => simp [hr,hr8,hj,Nat.testBit_succ]
      | false => simp [hr,hr8]

/-- What encoding a value over the front of a buffer has to come to. -/
structure PutsVarint (out : List UInt8) (v : ℕ) (r : List UInt8 × ℕ) : Prop where
  /-- The number of bytes is that of the encoding. -/
  length : r.2=(Varint.encode v).length
  /-- It is between one and ten. -/
  bounds : 1 ≤ r.2 ∧ r.2 ≤ 10
  /-- The first bytes are the encoding. -/
  bytes : r.1.take r.2=Varint.encode v
  /-- The buffer stays as long as it was. -/
  room : r.1.length=out.length
  /-- Behind ten bytes it is as it was. -/
  frame : r.1.drop 10=out.drop 10

variable {out : List UInt8} {v : BitVec 64}

/-- A bit of the word stored for the low groups. -/
theorem stored_bit (x : BitVec 64) {q r : ℕ} (hq : q < 8) (hr : r < 7) (m : BitVec 64) :
    (spread7 x ||| (msbs &&& m)).toNat.testBit (8*q+r)=x.toNat.testBit (7*q+r) := by
  have hk : 8*q+r < 64 := by omega
  have hmod : (8*q+r)%8=r := by omega
  have hdiv : (8*q+r)/8=q := by omega
  have hmask : msbs.getLsbD (8*q+r)=false := by
    have hbits : ∀ k < 64, msbs.getLsbD k=decide (k%8=7) := by
      intro k hk
      interval_cases k <;> rfl
    have hne : r≠7 := by omega
    rw [hbits _ hk,hmod]
    simp [hne]
  have hbit : (spread7 x ||| (msbs &&& m)).getLsbD (8*q+r)=x.getLsbD (7*q+r) := by
    rw [BitVec.getLsbD_or,BitVec.getLsbD_and,spread7_bit x hk,hmask,hmod,hdiv,Nat.mul_comm q 7]
    simp [hr]
  exact hbit

/-- The continuation bit of a byte of the word stored for the low groups. -/
theorem stored_top (x : BitVec 64) {q : ℕ} (hq : q < 8) (m : BitVec 64) :
    (spread7 x ||| (msbs &&& m)).toNat.testBit (8*q+7)=m.getLsbD (8*q+7) := by
  have hk : 8*q+7 < 64 := by omega
  have hmod : (8*q+7)%8=7 := by omega
  have hmask : msbs.getLsbD (8*q+7)=true := by
    interval_cases q <;> rfl
  have hbit : (spread7 x ||| (msbs &&& m)).getLsbD (8*q+7)=m.getLsbD (8*q+7) := by
    rw [BitVec.getLsbD_or,BitVec.getLsbD_and,spread7_bit x hk,hmask,hmod]
    simp
  exact hbit

/-- The bytes stored for the low groups of a value of so many groups. -/
theorem stored_bytes {x m : BitVec 64} {n k : ℕ} (hk : k ≤ 8)
    (hm : ∀ q < k, m.getLsbD (8*q+7)=decide (q+1 < n)) :
    (leBytes 8 (spread7 x ||| (msbs &&& m)).toNat).take k=
      (List.range k).map fun q => UInt8.ofNat (varintByte x.toNat n q) := by
  have hmin : min k 8=k := by omega
  rw [leBytes_bytes,←List.map_take,List.take_range,hmin]
  refine List.map_congr_left fun q hq => ?_
  have hqk : q < k := List.mem_range.mp hq
  have hbyte := byte_of_bits (fun r hr => stored_bit x (q := q) (by omega) hr m)
    (stored_top x (by omega) m)
  rw [hm q hqk] at hbyte
  rw [hbyte,varintByte]
  simp

/-- The number of groups of a value of more than one. -/
theorem groups_of_log {v : ℕ} (h : 128 ≤ v) (h56 : v < 2^56) : 1 ≤ v.log2/7 ∧ v.log2/7 < 8 := by
  have hlow : 7 ≤ v.log2 := (Nat.le_log2 (by omega)).mpr (by omega)
  have hhigh : v.log2 < 56 := (Nat.log2_lt (by omega)).mpr h56
  omega

/-- A value of one byte is put there. -/
theorem put_small (swar : Bool) (hout : 10 ≤ out.length) (hv : v.toNat < 128) :
    PutsVarint out v.toNat (varintPut swar out v) := by
  obtain ⟨a,t,rfl⟩ : ∃ a t, out=a::t := by
    cases out with
    | nil => simp at hout
    | cons a t => exact ⟨a,t,rfl⟩
  have henc : Varint.encode v.toNat=[UInt8.ofNat v.toNat] := by
    rw [Varint.encode_eq,if_pos hv]
  have hput : varintPut swar (a::t) v=(UInt8.ofNat v.toNat::t,1) := by
    rw [varintPut,if_pos hv,List.set_cons_zero]
  rw [hput]
  exact ⟨by simp [henc],by simp,by simp [henc],by simp,by simp⟩

/-- A value of up to 56 bits is put by the word path. -/
theorem put_short (hout : 10 ≤ out.length) (hv : ¬v.toNat < 128) (h56 : v.toNat < 2^56) :
    PutsVarint out v.toNat (varintPut true out v) := by
  obtain ⟨hlow,hhigh⟩ := groups_of_log (by omega) h56
  have hput : varintPut true out v=
      (store8 out (spread7 v ||| (msbs &&& (1#64 <<< (8*(v.toNat.log2/7))-1#64))),
        v.toNat.log2/7+1) := by
    rw [varintPut]
    dsimp only
    rw [if_neg hv,if_pos rfl,if_pos h56,bitlen,Nat.add_sub_cancel,Nat.add_sub_cancel]
  have hmask : ∀ q < v.toNat.log2/7+1, (1#64 <<< (8*(v.toNat.log2/7))-1#64).getLsbD (8*q+7)=
      decide (q+1 < v.toNat.log2/7+1) := by
    intro q hq
    rw [mask_bit (by omega)]
    congr 1
    apply propext
    omega
  have hbytes := stored_bytes (x := v) (show v.toNat.log2/7+1 ≤ 8 by omega) hmask
  have henc := encode_bytes v.toNat
  have hlen : (Varint.encode v.toNat).length=v.toNat.log2/7+1 := by simp [henc]
  rw [hput]
  constructor
  · exact hlen.symm
  · exact ⟨by omega,by omega⟩
  · dsimp only [store8]
    rw [List.take_append_of_le_length (by rw [leBytes_length]; omega),hbytes,henc]
  · simp only [store8,List.length_append,leBytes_length,List.length_drop]
    omega
  · dsimp only [store8]
    rw [List.drop_append]
    simp [leBytes_length]

/-- The low groups of a value do not depend on its high bits. -/
theorem varintByte_low (v n : ℕ) {q : ℕ} (hq : q < 8) :
    varintByte (v%2^56) n q=varintByte v n q := by
  have hsplit : (2 : ℕ)^56=128^q*128^(8-q) := by
    have hsum : q+(8-q)=8 := by omega
    rw [←Nat.pow_add,hsum]
    rfl
  have hdvd : 128∣128^(8-q) := dvd_pow_self 128 (by omega)
  rw [varintByte,varintByte,hsplit,Nat.mod_mul_right_div_self,Nat.mod_mod_of_dvd _ hdvd]

/-- A buffer of ten bytes or more behind its first eight. -/
theorem drop_eight (hout : 10 ≤ out.length) : ∃ a b, out.drop 8=a::b::out.drop 10 := by
  have h8 : 8 < out.length := by omega
  have h9 : 9 < out.length := by omega
  exact ⟨out[8],out[9],by rw [List.drop_eq_getElem_cons h8,List.drop_eq_getElem_cons h9]⟩

/-- The bytes stored for the low groups of a value of more than 56 bits. -/
theorem stored_long (n : ℕ) (hn : 9 ≤ n) :
    leBytes 8 (spread7 (v &&& 0x00FFFFFFFFFFFFFF#64) ||| msbs).toNat=
      (List.range 8).map fun q => UInt8.ofNat (varintByte v.toNat n q) := by
  have hall : msbs &&& BitVec.allOnes 64=msbs := BitVec.and_allOnes
  have hm : ∀ q < 8, (BitVec.allOnes 64).getLsbD (8*q+7)=decide (q+1 < n) := by
    intro q hq
    have h64 : 8*q+7 < 64 := by omega
    have hyes : q+1 < n := by omega
    rw [BitVec.getLsbD_allOnes]
    simp [h64,hyes]
  have hbytes := stored_bytes (x := v &&& 0x00FFFFFFFFFFFFFF#64) (Nat.le_refl 8) hm
  have hlow : (v &&& 0x00FFFFFFFFFFFFFF#64).toNat=v.toNat%2^56 :=
    Nat.and_two_pow_sub_one_eq_mod v.toNat 56
  rw [hall,List.take_of_length_le (by rw [leBytes_length]),hlow] at hbytes
  rw [hbytes]
  refine List.map_congr_left fun q hq => ?_
  rw [varintByte_low _ _ (List.mem_range.mp hq)]

/-- A value of more than 56 bits is put by the word path and one or two bytes more. -/
theorem put_long (hout : 10 ≤ out.length) (h56 : ¬v.toNat < 2^56) :
    PutsVarint out v.toNat (varintPut true out v) := by
  have hlt := v.isLt
  have hsmall : ¬v.toNat < 0x80 := by omega
  have hrest : (v >>> 56).toNat=v.toNat/2^56 := by
    rw [BitVec.toNat_ushiftRight,Nat.shiftRight_eq_div_pow]
  have henc := encode_bytes v.toNat
  obtain ⟨a,b,hdrop⟩ := drop_eight hout
  have hlen8 := leBytes_length 8 (spread7 (v &&& 0x00FFFFFFFFFFFFFF#64) ||| msbs).toNat
  by_cases h63 : v.toNat/2^56 < 0x80
  · have hlog : v.toNat.log2/7+1=9 := by
      have hlow : 56 ≤ v.toNat.log2 := (Nat.le_log2 (by omega)).mpr (by omega)
      have hhigh : v.toNat.log2 < 63 := (Nat.log2_lt (by omega)).mpr (by omega)
      omega
    have hlast : varintByte v.toNat 9 8=v.toNat/2^56 := by
      simp only [varintByte,Nat.lt_irrefl,if_false,Nat.add_zero]
      omega
    have hnine : (List.range 9).map (fun q => UInt8.ofNat (varintByte v.toNat 9 q))=
        (List.range 8).map (fun q => UInt8.ofNat (varintByte v.toNat 9 q))++
          [UInt8.ofNat (varintByte v.toNat 9 8)] := by
      rw [List.range_succ,List.map_append]
      rfl
    have hput : varintPut true out v=
        ((List.range 9).map (fun q => UInt8.ofNat (varintByte v.toNat 9 q))++b::out.drop 10,9) := by
      rw [varintPut]
      dsimp only
      rw [if_neg hsmall,if_pos rfl,if_neg h56,hrest,if_pos h63,store8,hdrop,
        List.set_append_right _ _ (by rw [hlen8]),hlen8,stored_long 9 (Nat.le_refl 9),hnine,
        hlast,List.append_assoc]
      rfl
    rw [hlog] at henc
    have hlen : (Varint.encode v.toNat).length=9 := by simp [henc]
    rw [hput,←henc]
    refine ⟨hlen.symm,by simp,?_,?_,?_⟩
    · dsimp only
      rw [List.take_left' hlen]
    · simp only [List.length_append,hlen,List.length_cons,List.length_drop]
      omega
    · dsimp only
      rw [List.drop_append,hlen]
      simp [hlen]
  · have hlog : v.toNat.log2/7+1=10 := by
      have hlow : 63 ≤ v.toNat.log2 := (Nat.le_log2 (by omega)).mpr (by omega)
      have hhigh : v.toNat.log2 < 64 := (Nat.log2_lt (by omega)).mpr (by omega)
      omega
    have hninth : ((v >>> 56 &&& 0x7F#64) ||| 0x80#64).toNat=varintByte v.toNat 10 8 := by
      have hmod : (v >>> 56 &&& 0x7F#64).toNat=v.toNat/2^56%128 := by
        rw [BitVec.toNat_and,hrest]
        exact Nat.and_two_pow_sub_one_eq_mod (v.toNat/2^56) 7
      have hor : v.toNat/2^56%128|||128=v.toNat/2^56%128+128 := by
        have hgroup := @or_group 1 (v.toNat/2^56%128) 1 (by omega)
        exact hgroup
      have hvalue : varintByte v.toNat 10 8=v.toNat/2^56%128+128 := by
        simp only [varintByte,show 8+1 < 10 by omega,if_true]
        omega
      rw [BitVec.toNat_or,hmod,hvalue]
      exact hor
    have htenth : (v >>> 56 >>> 7).toNat=varintByte v.toNat 10 9 := by
      have hvalue : varintByte v.toNat 10 9=v.toNat/2^56/2^7 := by
        simp only [varintByte,Nat.lt_irrefl,if_false,Nat.add_zero]
        omega
      rw [BitVec.toNat_ushiftRight,hrest,Nat.shiftRight_eq_div_pow,hvalue]
    have hten : (List.range 10).map (fun q => UInt8.ofNat (varintByte v.toNat 10 q))=
        (List.range 8).map (fun q => UInt8.ofNat (varintByte v.toNat 10 q))++
          [UInt8.ofNat (varintByte v.toNat 10 8),UInt8.ofNat (varintByte v.toNat 10 9)] := by
      rw [List.range_succ,List.range_succ,List.map_append,List.map_append,List.append_assoc]
      rfl
    have hput : varintPut true out v=
        ((List.range 10).map (fun q => UInt8.ofNat (varintByte v.toNat 10 q))++out.drop 10,10) := by
      rw [varintPut]
      dsimp only
      rw [if_neg hsmall,if_pos rfl,if_neg h56,hrest,if_neg h63,store8,hdrop,hninth,htenth,
        List.set_append_right _ _ (by rw [hlen8]),List.set_append_right _ _ (by rw [hlen8]; omega),
        hlen8,stored_long 10 (by omega),hten,List.append_assoc]
      rfl
    rw [hlog] at henc
    have hlen : (Varint.encode v.toNat).length=10 := by simp [henc]
    rw [hput,←henc]
    refine ⟨hlen.symm,by simp,?_,?_,?_⟩
    · dsimp only
      rw [List.take_left' hlen]
    · simp only [List.length_append,hlen,List.length_drop]
      omega
    · dsimp only
      rw [List.drop_append,hlen]
      simp [hlen]

/-- The low byte of a value with its continuation bit set. -/
theorem continued_byte (v : ℕ) : UInt8.ofNat (v|||128)=UInt8.ofNat (v%128+128) := by
  have hlow : ∀ x < 256, x|||128=x%128+128 := by decide +kernel
  have hmod : (v|||128)%256=v%256|||128 := Nat.or_mod_two_pow (a := v) (b := 128) (n := 8)
  have hsum := hlow (v%256) (Nat.mod_lt v (by decide))
  have hbyte : (v|||128)%256=(v%128+128)%256 := by omega
  rw [←UInt8.toNat_inj,UInt8.toNat_ofNat',UInt8.toNat_ofNat']
  exact hbyte

/-- The byte loop writes the encoding where it starts. -/
theorem putSerial_eq {turns i : ℕ} (ht : v.toNat < 128^(turns+1))
    (hroom : i+(Varint.encode v.toNat).length ≤ out.length) :
    putSerial (turns+1) i out v=
      (out.take i++Varint.encode v.toNat++out.drop (i+(Varint.encode v.toNat).length),
        i+(Varint.encode v.toNat).length) := by
  induction turns generalizing i out v with
  | zero =>
    have hv : v.toNat < 128 := by simpa using ht
    have hno : ¬0x80 ≤ v.toNat := by omega
    have henc : Varint.encode v.toNat=[UInt8.ofNat v.toNat] := by
      rw [Varint.encode_eq,if_pos hv]
    rw [henc] at hroom ⊢
    simp only [List.length_singleton] at hroom ⊢
    rw [putSerial,if_neg hno,List.set_eq_take_append_cons_drop,if_pos (by omega)]
    simp
  | succ turns ih =>
    rw [putSerial]
    by_cases hv : v.toNat < 128
    · have hno : ¬0x80 ≤ v.toNat := by omega
      have henc : Varint.encode v.toNat=[UInt8.ofNat v.toNat] := by
        rw [Varint.encode_eq,if_pos hv]
      rw [henc] at hroom ⊢
      simp only [List.length_singleton] at hroom ⊢
      rw [if_neg hno,List.set_eq_take_append_cons_drop,if_pos (by omega)]
      simp
    · have hyes : 0x80 ≤ v.toNat := by omega
      have hrest : (v >>> 7).toNat=v.toNat/128 := by
        rw [BitVec.toNat_ushiftRight,Nat.shiftRight_eq_div_pow]
      have hor : (v ||| 0x80#64).toNat=v.toNat|||128 := BitVec.toNat_or v 0x80#64
      have henc : Varint.encode v.toNat=
          UInt8.ofNat (v.toNat%128+128)::Varint.encode (v.toNat/128) := by
        rw [Varint.encode_eq,if_neg hv]
      rw [henc] at hroom ⊢
      simp only [List.length_cons] at hroom ⊢
      have hpow : v.toNat/128 < 128^(turns+1) := by
        rw [Nat.pow_succ'] at ht
        omega
      have hset : out.set i (UInt8.ofNat (v.toNat|||128))=
          out.take i++UInt8.ofNat (v.toNat%128+128)::out.drop (i+1) := by
        rw [List.set_eq_take_append_cons_drop,if_pos (by omega),continued_byte]
      have hi : (out.take i).length=i := by
        rw [List.length_take]
        omega
      rw [if_pos hyes,hor,hset]
      rw [←hrest] at hpow hroom ⊢
      rw [ih hpow (by simp only [List.length_append,List.length_cons,List.length_drop,hi]; omega)]
      generalize Varint.encode (v >>> 7).toNat=bs at hroom
      have htake : (out.take i++UInt8.ofNat (v.toNat%128+128)::out.drop (i+1)).take (i+1)=
          out.take i++[UInt8.ofNat (v.toNat%128+128)] := by
        have hsub : i+1-i=1 := by omega
        rw [List.take_append,hi,List.take_of_length_le (by omega),hsub]
        rfl
      have hdrop : (out.take i++UInt8.ofNat (v.toNat%128+128)::out.drop (i+1)).drop
          (i+1+bs.length)=out.drop (i+1+bs.length) := by
        rw [List.drop_append,hi,List.drop_eq_nil_of_le (by omega)]
        have hsub : i+1+bs.length-i=bs.length+1 := by omega
        rw [hsub,List.drop_succ_cons,List.drop_drop,List.nil_append]
      rw [htake,hdrop]
      have hsum : i+1+bs.length=i+(bs.length+1) := by omega
      simp [hsum]

/-- A value is put by the byte loop. -/
theorem put_serial (hout : 10 ≤ out.length) : PutsVarint out v.toNat (varintPut false out v) := by
  by_cases hv : v.toNat < 128
  · exact put_small false hout hv
  · obtain ⟨hpos,hten⟩ := Varint.encode_length v.isLt
    have hfit : v.toNat < 128^(9+1) := lt_of_lt_of_le v.isLt (by decide)
    have hput : varintPut false out v=putSerial (9+1) 0 out v := by
      rw [varintPut]
      dsimp only
      rw [if_neg hv,if_neg Bool.false_ne_true]
    rw [hput,putSerial_eq hfit (by omega)]
    refine ⟨by simp,by simp only [Nat.zero_add]; omega,by simp,?_,?_⟩
    · simp only [List.take_zero,List.nil_append,Nat.zero_add,List.length_append,List.length_drop]
      omega
    · simp only [List.take_zero,List.nil_append,Nat.zero_add]
      rw [List.drop_append,List.drop_eq_nil_of_le hten,List.drop_drop,List.nil_append]
      congr 1
      omega

/-- A value is put by the word path. -/
theorem put_swar (hout : 10 ≤ out.length) : PutsVarint out v.toNat (varintPut true out v) := by
  by_cases hv : v.toNat < 128
  · exact put_small true hout hv
  by_cases h56 : v.toNat < 2^56
  · exact put_short hout hv h56
  · exact put_long hout h56

/-- The codec that moves a word at a time does what the byte loops do. -/
structure WordCodec (out p : List UInt8) (v : BitVec 64) : Prop where
  /-- A value is written as its encoding, and no byte behind the tenth is touched. -/
  puts : PutsVarint out v.toNat (varintPut true out v)
  /-- The byte loop writes the same. -/
  putsSerial : PutsVarint out v.toNat (varintPut false out v)
  /-- A window gives the value and the length of the varint it starts with. -/
  takes : ∀ x n, varintTake true p=some (x,n) ↔
    ∃ bs rest, Varint.Spells 0 bs x.toNat ∧ p=bs++rest ∧ n=bs.length
  /-- It is refused exactly for an overlong one. -/
  refuses : varintTake true p=none ↔ ∃ bs rest, Varint.Overlong 0 bs ∧ p=bs++rest
  /-- The byte-serial path gives the same. -/
  takesSerial : varintTake false p=varintTake true p
  /-- The reader that tests for each byte gives the same. -/
  refill : varintRefill p=match varintTake true p with
    | some (x,n) => .done x (p.drop n)
    | none => .bad overlong
  /-- The reader of the interpreted engine gives the same. -/
  interpreted : ∀ {V : Type} (d : Dec V), d.Filled → d.rest=p →
    varintAt d d.pos=match varintTake true p with
      | some (x,n) => .value x.toNat n
      | none => .refused overlong
  /-- Gathering undoes spreading. -/
  gathers : v.toNat < 2^56 → gather7 (spread7 v)=v
  /-- Spreading undoes gathering. -/
  spreads : v &&& msbs=0 → spread7 (gather7 v)=v

/-- The word codec is the byte loops, for every value and every window of ten bytes. -/
theorem word_codec (hout : 10 ≤ out.length) (hp : 10 ≤ p.length) (v : BitVec 64) :
    WordCodec out p v := by
  have hswar := varintTake_swar hp
  have hserial := varintTake_serial hp
  have hrefill := varintRefill_eq p
  -- a window is too long to end inside a varint
  have hwhole : Varint.read overlong p≠.more := by
    intro hmore
    have hshort := Varint.readFrom_more_length (Nat.zero_le 9) hmore
    omega
  have hofNat : ∀ {w : ℕ} {rest : List UInt8}, Varint.read overlong p=.done w rest →
      (BitVec.ofNat 64 w).toNat=w := by
    intro w rest hr
    rw [BitVec.toNat_ofNat]
    exact Nat.mod_eq_of_lt (Varint.read_lt hr)
  constructor
  · exact put_swar hout
  · exact put_serial hout
  · intro x n
    rw [hswar,spelledIn]
    constructor
    · intro h
      cases hr : Varint.read overlong p with
      | more => exact absurd hr hwhole
      | bad why => simp [hr] at h
      | done w rest =>
        obtain ⟨bs,hbs,hsplit⟩ := Varint.read_done_iff.mp hr
        simp only [hr,Option.some.injEq,Prod.mk.injEq] at h
        refine ⟨bs,rest,?_,hsplit,?_⟩
        · rw [←h.1,hofNat hr]
          exact hbs
        · rw [←h.2,hsplit,List.length_append,Nat.add_sub_cancel]
    · rintro ⟨bs,rest,hbs,hsplit,hn⟩
      have hr : Varint.read overlong p=.done x.toNat rest :=
        Varint.read_done_iff.mpr ⟨bs,hbs,hsplit⟩
      have hlen : p.length-rest.length=n := by
        rw [hsplit,List.length_append,Nat.add_sub_cancel,hn]
      simp [hr,hlen]
  · rw [hswar,spelledIn]
    constructor
    · intro h
      cases hr : Varint.read overlong p with
      | more => exact absurd hr hwhole
      | done w rest => simp [hr] at h
      | bad why =>
        obtain ⟨-,bs,rest,hbs,hsplit⟩ := Varint.read_bad_iff.mp hr
        exact ⟨bs,rest,hbs,hsplit⟩
    · rintro ⟨bs,rest,hbs,hsplit⟩
      have hr : Varint.read overlong p=.bad overlong :=
        Varint.read_bad_iff.mpr ⟨rfl,bs,rest,hbs,hsplit⟩
      simp [hr]
  · rw [hserial,hswar]
  · rw [hrefill,hswar,spelledIn]
    cases hr : Varint.read overlong p with
    | more => exact absurd hr hwhole
    | bad why =>
      have hwhy := (Varint.read_bad_iff.mp hr).1
      simp [hwhy]
    | done w rest =>
      obtain ⟨bs,-,hsplit⟩ := Varint.read_done_iff.mp hr
      simp [hsplit]
  · intro V d hd hrest
    have hpure := varintAt_eq hd d.pos
    have hfrom : d.restFrom d.pos=p := hrest
    rw [hfrom] at hpure
    rw [hpure,hswar,spelledIn,Report.spelled]
    cases hr : Varint.read overlong p with
    | more => exact absurd hr hwhole
    | bad why =>
      have hwhy := (Varint.read_bad_iff.mp hr).1
      simp [hwhy]
    | done w rest => simp [hofNat hr]
  · intro h56
    exact gather7_spread7 h56
  · intro hzero
    rw [spread7_gather7]
    refine BitVec.eq_of_getLsbD_eq fun k hk => ?_
    have hbit := congrArg (·.getLsbD k) hzero
    have hmask : (0x7F7F7F7F7F7F7F7F#64).getLsbD k=!msbs.getLsbD k := by
      interval_cases k <;> rfl
    simp only [BitVec.getLsbD_and] at hbit ⊢
    rw [hmask]
    cases hb : v.getLsbD k with
    | true => simpa [hb] using hbit
    | false => simp

/-- The largest value, and a window that starts with a varint of two bytes. -/
theorem word_codec_largest : WordCodec (List.replicate 10 0) (0xAC::0x02::List.replicate 8 0)
    0xFFFFFFFFFFFFFFFF#64 :=
  word_codec (by decide) (by decide) 0xFFFFFFFFFFFFFFFF#64

end Native

end SofaBuffers
