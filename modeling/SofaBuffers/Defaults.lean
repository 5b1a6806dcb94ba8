import SofaBuffers.Built
import SofaBuffers.Walk.Widths

/-!
# Declared defaults

A row of a one-of table restores a declared default where its option is selected again. The
binder refuses a default the field could not hold: what is restored is what some arrival
would have stored. One check is missing, that of an unsigned row's lower end.
-/

set_option autoImplicit false

namespace SofaBuffers

namespace Binder

/-- What is left in the storage, and how many elements or bytes of it there are where a row
counts them. -/
structure Brought where
  /-- The words. -/
  words : List (ℕ × BitVec 64) := []
  /-- The objects. -/
  objects : List (ℕ × Obj) := []
  /-- The contents of buffers. -/
  into : List (ℕ × List UInt8) := []
  /-- The elements of an array, or the bytes in a buffer. -/
  count : Option ℕ := none

/-- The width test an integer passes as it arrives (`_mapped_field`). -/
def admitted (e : Entry) (raw : ℕ) : Bool :=
  match scalarOf e.kind with
  | .unsigned => !(e.elemBounded && raw > e.elemHi)
  | .signed => !(e.elemBounded && !(e.elemLo ≤ Zigzag.decode raw && Zigzag.decode raw ≤ e.elemHi))
  | _ => true

/-- The word an integer is stored as. -/
def storedWord (e : Entry) (raw : ℕ) : BitVec 64 :=
  match scalarOf e.kind with
  | .unsigned => BitVec.ofInt 64 raw
  | .signed => BitVec.ofInt 64 (Zigzag.decode raw)
  | _ => if raw≠0 then 1 else 0

/-- What the arrival of a value leaves under a row, unless it is refused. -/
def brings (e : Entry) (x : Datum) : Option Brought :=
  match x with
  | .scalar _ raw => if admitted e raw then some {words := [(e.slot,storedWord e raw)]} else none
  | .varray _ raws =>
    if raws.length ≤ e.cap && raws.all (admitted e) then
      some {words := raws.mapIdx fun i raw => (e.slot+i,storedWord e raw), count := raws.length}
    else none
  | .fixlen st data =>
    if e.cap≠0 && e.cap < data.length then none
    else if st=.string then
      match Utf8.decode data with
      | none => none
      | some text =>
        if e.into then some {into := [(e.slot,data)], count := data.length}
        else some {objects := [(e.slot,.text text)]}
    else if e.into then some {into := [(e.slot,data)], count := data.length}
    else some {objects := [(e.slot,.blob data)]}
  | .farray .. => none

/-- A value that can arrive under a row: it can be announced under the row's id and spelled,
and its tag is the row's. -/
def Comes (e : Entry) (x : Datum) : Prop :=
  (∃ hd bs, Announces hd (.value e.fieldId x.extent) ∧ Body x bs) ∧
    e.mismatch x.extent.pending.tag.1 x.extent.pending.tag.2=false

/-- What is to be restored is what an arrival could have stored. The slot of a row that counts
no elements and no bytes is a flag, which says that nothing has arrived. -/
def Restores (e : Entry)
    (reset : List (ℕ × BitVec 64) × List (ℕ × Obj) × List (ℕ × List UInt8)) : Prop :=
  ∃ (x : Datum) (b : Brought), Comes e x ∧ brings e x=some b ∧
    reset=(b.words++(e.countAt.map fun i => (i,BitVec.ofNat 64 (b.count.getD 0))).toList,
      b.objects,b.into)

/-- The default a binder method is given. -/
def Method.default : Method → Option Default
  | .unsigned _ _ _ _ d | .signed _ _ _ _ _ d | .boolean _ _ _ d | .float32 _ _ _ d
  | .float64 _ _ _ d | .string _ _ _ _ d | .bytes _ _ _ _ d | .stringInto _ _ _ _ d
  | .blobInto _ _ _ _ d | .unsignedArray _ _ _ _ _ d | .signedArray _ _ _ _ _ _ d
  | .booleanArray _ _ _ _ d | .float32Array _ _ _ _ d | .float64Array _ _ _ _ d => d
  | .sequence .. => none

/-- The methods whose rows hold floats. -/
def Method.floats : Method → Bool
  | .float32 .. | .float64 .. | .float32Array .. | .float64Array .. => true
  | _ => false

/-- The bytes of a default. -/
def Default.payload (text : Bool) (d : Default) : Option (List UInt8) :=
  if text then d.text.bind Utf8.encode else d.bytes

/-- The condition on a default that no check of the binder stands for. -/
def Method.Sound (d : Default) : Method → Prop
  | .unsigned _ _ _ maxValue _ =>
    ∀ n : ℤ, d.index=some n → 0 ≤ n ∨ ∀ most : ℤ, maxValue=some (.int most) → n+2^64 ≤ most
  | .string _ _ maxlen _ _ | .stringInto _ _ maxlen _ _ =>
    maxlen=.int 0 → ∀ data, d.payload true=some data → data.length ≤ fixlenMax
  | .bytes _ _ maxlen _ _ | .blobInto _ _ maxlen _ _ =>
    maxlen=.int 0 → ∀ data, d.payload false=some data → data.length ≤ fixlenMax
  | _ => True

section Add

variable {narrow : BitVec 64 → Option (BitVec 32)} {b b' : Binding}

/-- A check that was passed. -/
theorem check_ok {α β : Type} {r : Except Exn α} {f : α → EStateM Exn Binding β} {y : β}
    (h : (check r >>= f) b=.ok y b') : ∃ a : α, r=.ok a ∧ f a b=.ok y b' := by
  cases r with
  | error e => cases h
  | ok a => exact ⟨a,rfl,h⟩

/-- What a row that was bound came through. -/
structure BoundAs (narrow : BitVec 64 → Option (BitVec 32)) (b b' : Binding) (k : Kind)
    (given : Given) (bottom top : Option Given) (filled : Bool) (d : Option Default)
    (e : Entry) (start : BitVec 64 × Option DefaultValue) : Prop where
  /-- The row is of the kind that was asked for. -/
  kind : e.kind=k
  /-- Its id is within the format's ceiling. -/
  id : e.fieldId ≤ idMax
  /-- Its capacity was checked. -/
  cap : capacity k given=.ok e.cap
  /-- The ends of its width were checked. -/
  ends : width k bottom top=.ok (e.elemLo,e.elemHi)
  /-- Whether a width was declared. -/
  bounded : e.elemBounded=(bottom.isSome || top.isSome)
  /-- Whether it fills a buffer of the caller's. -/
  into : e.into=filled
  /-- It owns nothing yet. -/
  bare : e.ownWords=[] ∧ e.ownObjects=[] ∧ e.ownInto=[]
  /-- What it starts from. -/
  starts : prepared narrow b.whichAt k d e.cap e.elemLo e.elemHi filled=.ok start
  /-- It is the last row of its table. -/
  bound : b'.entries=b.entries++[e.init start.1 start.2]

/-- A row without a table was bound. -/
theorem add_ok {kind : Kind} {fieldId slot cap : Given} {countAt elemLo elemHi : Option Given}
    {into : Bool} {default : Option Default}
    (h : add narrow kind fieldId slot cap countAt none elemLo elemHi into default b=.ok () b') :
    ∃ (e : Entry) (start : BitVec 64 × Option DefaultValue), e.child=none ∧
      BoundAs narrow b b' kind cap elemLo elemHi into default e start := by
  rw [add,run_get_bind] at h
  obtain ⟨fid,hfid,h⟩ := check_ok h
  obtain ⟨at_,-,h⟩ := check_ok h
  obtain ⟨k,hk,h⟩ := check_ok h
  obtain ⟨cnt,-,h⟩ := check_ok h
  rw [run_modify_bind,run_modify_bind] at h
  obtain ⟨words,objects,hb,-⟩ := require_grow kind at_ k cnt b
  rw [hb] at h
  obtain ⟨declared,hdeclared,h⟩ := check_ok h
  rw [run_get_bind] at h
  obtain ⟨start,hstart,h⟩ := check_ok h
  rw [run_modify] at h
  cases h
  exact ⟨{kind := kind, fieldId := fid, slot := at_, cap := k, countAt := cnt
          elemLo := declared.1, elemHi := declared.2
          elemBounded := elemLo.isSome || elemHi.isSome, into := into},start,rfl,
    rfl,(freeId_ok hfid).1,hk,hdeclared,rfl,rfl,⟨rfl,rfl,rfl⟩,hstart,rfl⟩

end Add

section Arrivals

variable {e : Entry}

/-- Every 64-bit word can be spelled. -/
theorem word_spelled {v : ℕ} (h : v < 2^64) : ∃ bs, Word bs v := by
  have hs := @Varint.spells_encode 0 v (Nat.zero_le 9) (by simpa using h)
  rw [Nat.pow_zero,Nat.mul_one] at hs
  exact ⟨Varint.encode v,hs⟩

/-- Every run of 64-bit words can be. -/
theorem words_spelled {raws : List ℕ} (h : ∀ raw ∈ raws, raw < 2^64) :
    ∃ bs, Varint.SpellsAll bs raws := by
  induction raws with
  | nil => exact ⟨[],.nil⟩
  | cons raw raws ih =>
    obtain ⟨bs,hbs⟩ := word_spelled (h raw List.mem_cons_self)
    obtain ⟨cs,hcs⟩ := ih fun r hr => h r (List.mem_cons_of_mem raw hr)
    exact ⟨bs++cs,.cons hbs hcs⟩

/-- Every id in range has a header of every type. -/
theorem header_spelled {id : ℕ} (h : id ≤ idMax) (t : WireType) : ∃ hd, Header hd id t := by
  have hmax : idMax=0x7FFFFFFF := rfl
  have ht : t.toNat < 8 := by cases t <;> decide
  obtain ⟨hd,hhd⟩ := word_spelled (v := id*8+t.toNat) (by omega)
  exact ⟨hd,hhd,h⟩

/-- An integer can arrive under a row of its type. -/
theorem comes_scalar (hid : e.fieldId ≤ idMax) {signed : Bool} (hwt : e.wt=scalarType signed)
    (hst : e.st=none) {raw : ℕ} (hraw : raw < 2^64) : Comes e (.scalar signed raw) := by
  obtain ⟨hd,hhd⟩ := header_spelled hid (scalarType signed)
  obtain ⟨bs,hbs⟩ := word_spelled hraw
  refine ⟨⟨hd,bs,.scalar signed hhd,.scalar signed hbs⟩,?_⟩
  unfold Entry.mismatch
  rw [hwt,hst]
  cases signed <;> rfl

/-- An integer array can arrive under a row of its type. -/
theorem comes_varray (hid : e.fieldId ≤ idMax) {signed : Bool} (hwt : e.wt=varrayType signed)
    (hst : e.st=none) {raws : List ℕ} (hraws : ∀ raw ∈ raws, raw < 2^64)
    (hlen : raws.length ≤ arrayMax) : Comes e (.varray signed raws) := by
  have hmax : arrayMax=0x7FFFFFFF := rfl
  obtain ⟨hd,hhd⟩ := header_spelled hid (varrayType signed)
  obtain ⟨cd,hcd⟩ := word_spelled (v := raws.length) (by omega)
  obtain ⟨bs,hbs⟩ := words_spelled hraws
  refine ⟨⟨hd++cd,bs,.varray signed hhd hcd hlen,.varray signed hbs⟩,?_⟩
  unfold Entry.mismatch
  rw [hwt,hst]
  cases signed <;> rfl

/-- A payload can arrive under a row of its type and subtype. -/
theorem comes_fixlen (hid : e.fieldId ≤ idMax) {st : FixlenSubtype} (hwt : e.wt=.fixlen)
    (hst : e.st=some st) {data : List UInt8} (hlen : st.Allows data.length)
    (hmost : data.length ≤ fixlenMax) : Comes e (.fixlen st data) := by
  have hmax : fixlenMax=0x7FFFFFFF := rfl
  have ht : st.toNat < 8 := by cases st <;> decide
  obtain ⟨hd,hhd⟩ := header_spelled hid .fixlen
  obtain ⟨wd,hwd⟩ := word_spelled (v := data.length*8+st.toNat) (by omega)
  refine ⟨⟨hd++wd,data,.fixlen hhd hwd hlen,.fixlen st data⟩,?_⟩
  unfold Entry.mismatch
  rw [hwt,hst]
  cases st <;> rfl

/-- What an integer row restores is the word of an integer that can arrive. -/
theorem restores_scalar (hid : e.fieldId ≤ idMax) {signed : Bool} (hwt : e.wt=scalarType signed)
    (hst : e.st=none) (bits : BitVec 64) :
    Restores e ((e.slot,bits)::(e.countAt.map fun i => (i,(0 : BitVec 64))).toList,[],[]) ↔
      ∃ raw : ℕ, raw < 2^64 ∧ admitted e raw=true ∧ storedWord e raw=bits := by
  constructor
  · rintro ⟨x,b,⟨⟨hd,bs,-,hbody⟩,htyped⟩,hb,hreset⟩
    unfold Entry.mismatch at htyped
    rw [hwt,hst] at htyped
    cases hbody with
    | @scalar _ raw signed' hword =>
      unfold brings at hb
      by_cases hadm : admitted e raw=true
      · dsimp only at hb
        rw [if_pos hadm] at hb
        cases hb
        injection hreset with hwords
        injection hwords with hpair
        injection hpair with _ hbits
        exact ⟨raw,Varint.Spells.lt hword,hadm,hbits.symm⟩
      · dsimp only at hb
        rw [if_neg hadm] at hb
        cases hb
    | fixlen st data => cases signed <;> cases htyped
    | varray signed' h => cases signed <;> cases signed' <;> cases htyped
    | farray st h => cases signed <;> cases htyped
  · rintro ⟨raw,hraw,hadm,rfl⟩
    refine ⟨.scalar signed raw,{words := [(e.slot,storedWord e raw)]},
      comes_scalar hid hwt hst hraw,?_,?_⟩
    · unfold brings
      dsimp only
      rw [if_pos hadm]
    · cases e.countAt <;> rfl

/-- The value and the bytes of a string or blob default. -/
inductive Holds : Kind → DefaultValue → List UInt8 → Prop
  /-- A string, and its bytes. -/
  | text {t : List ℕ} {data : List UInt8} (h : Utf8.encode t=some data) : Holds .string (.text t) data
  /-- Bytes. -/
  | bytes (data : List UInt8) : Holds .bytes (.bytes data) data

/-- The subtype of a payload that arrives under a row. -/
def payloadType : Kind → FixlenSubtype
  | .string => .string
  | _ => .blob

/-- The kind of a row with such a default. -/
theorem Holds.kind {kind : Kind} {value : DefaultValue} {data : List UInt8}
    (h : Holds kind value data) : kind=.string ∨ kind=.bytes := by
  cases h with
  | text h => exact .inl rfl
  | bytes data => exact .inr rfl

/-- What a string or blob row restores. -/
def objectReset (e : Entry) (value : DefaultValue) (data : List UInt8) :
    List (ℕ × BitVec 64) × List (ℕ × Obj) × List (ℕ × List UInt8) :=
  if e.into then
    ((e.countAt.map fun i => (i,BitVec.ofNat 64 data.length)).toList,[],[(e.slot,data)])
  else ((e.countAt.map fun i => (i,(0 : BitVec 64))).toList,[(e.slot,value.toObj)],[])

/-- What a payload leaves under a string or blob row whose length allows it. -/
theorem brings_fixlen {value : DefaultValue} {data : List UInt8} (hv : Holds e.kind value data)
    (hcap : e.cap=0 ∨ data.length ≤ e.cap) :
    brings e (.fixlen (payloadType e.kind) data)=some
      (if e.into then {into := [(e.slot,data)], count := data.length}
        else {objects := [(e.slot,value.toObj)]}) := by
  have hfits : ¬(e.cap≠0 && e.cap < data.length)=true := by
    simp
    omega
  unfold brings
  dsimp only
  rw [if_neg hfits]
  generalize hkind : e.kind=kind at hv
  cases hv with
  | text h =>
    rw [show payloadType .string=.string from rfl,if_pos rfl,Utf8.decode_encode h]
    dsimp only
    split <;> rfl
  | bytes data =>
    rw [show payloadType .bytes=.blob from rfl,if_neg (by decide)]
    split <;> rfl

/-- A payload that leaves the same is the same. -/
theorem brings_unique {value : DefaultValue} {data other : List UInt8} {b : Brought}
    (hv : Holds e.kind value data) (hb : brings e (.fixlen (payloadType e.kind) other)=some b)
    (hobjects : e.into=false → b.objects=[(e.slot,value.toObj)])
    (hinto : e.into=true → b.into=[(e.slot,data)]) : other=data := by
  unfold brings at hb
  dsimp only at hb
  split at hb
  · cases hb
  · generalize hkind : e.kind=kind at hv hb
    cases hinto' : e.into with
    | true =>
      rw [hinto'] at hb
      have hinto := hinto hinto'
      split at hb
      · split at hb
        · cases hb
        · rw [if_pos rfl] at hb
          cases hb
          simpa using hinto
      · rw [if_pos rfl] at hb
        cases hb
        simpa using hinto
    | false =>
      rw [hinto'] at hb
      have hobjects := hobjects hinto'
      cases hv with
      | @text t _ h =>
        rw [show payloadType .string=.string from rfl,if_pos rfl] at hb
        split at hb
        · cases hb
        · next t' hdec =>
          rw [if_neg Bool.false_ne_true] at hb
          cases hb
          have heq : t'=t := by simpa [DefaultValue.toObj] using hobjects
          have henc := Utf8.encode_decode hdec
          rw [heq,h] at henc
          exact (Option.some.inj henc).symm
      | bytes data =>
        rw [if_neg (by decide),if_neg Bool.false_ne_true] at hb
        cases hb
        simpa [DefaultValue.toObj] using hobjects

/-- A string or blob row restores what can arrive iff a payload of that length can. -/
theorem restores_object (hid : e.fieldId ≤ idMax) {value : DefaultValue} {data : List UInt8}
    (hv : Holds e.kind value data) (hcap : e.cap=0 ∨ data.length ≤ e.cap)
    (hmost : e.cap ≤ fixlenMax) :
    Restores e (objectReset e value data) ↔ (e.cap=0 → data.length ≤ fixlenMax) := by
  have hobject := hv.kind
  have hwt : e.wt=.fixlen ∧ e.st=some (payloadType e.kind) := by
    unfold Entry.wt Entry.st
    rcases hobject with hk | hk
    · rw [hk]
      exact ⟨rfl,rfl⟩
    · rw [hk]
      exact ⟨rfl,rfl⟩
  constructor
  · rintro ⟨x,b,⟨⟨hd,bs,hlead,hbody⟩,htyped⟩,hb,hreset⟩ _
    unfold Entry.mismatch at htyped
    rw [hwt.1,hwt.2] at htyped
    cases hbody with
    | scalar signed h => cases signed <;> cases htyped
    | varray signed h => cases signed <;> cases htyped
    | farray st h => cases htyped
    | fixlen st =>
      have hst : st=payloadType e.kind := by
        simpa [Datum.extent,Extent.pending,Pending.tag] using htyped
      subst hst
      have hsame : bs=data := by
        refine brings_unique hv hb (fun hinto => ?_) fun hinto => ?_
        · unfold objectReset at hreset
          rw [hinto,if_neg Bool.false_ne_true] at hreset
          injection hreset with _ hrest
          injection hrest with hobjects
          exact hobjects.symm
        · unfold objectReset at hreset
          rw [hinto,if_pos rfl] at hreset
          injection hreset with _ hrest
          injection hrest with _ hinto
          exact hinto.symm
      subst hsame
      cases hlead with
      | fixlen h hw hn =>
        rcases hobject with hk | hk
        · rw [hk] at hn
          exact hn
        · rw [hk] at hn
          exact hn
  · intro hzero
    have hle : data.length ≤ fixlenMax := by
      rcases hcap with hcap | hcap
      · exact hzero hcap
      · omega
    have hallows : (payloadType e.kind).Allows data.length := by
      rcases hobject with hk | hk
      · rw [hk]
        exact hle
      · rw [hk]
        exact hle
    refine ⟨_,_,comes_fixlen hid hwt.1 hwt.2 hallows hle,brings_fixlen hv hcap,?_⟩
    unfold objectReset
    cases e.into
    · rw [if_neg Bool.false_ne_true,if_neg Bool.false_ne_true]
      cases e.countAt <;> rfl
    · rw [if_pos rfl,if_pos rfl]
      cases e.countAt <;> rfl

/-- What an array row restores is what an array of its elements leaves. -/
theorem restores_array (hid : e.fieldId ≤ idMax) {signed : Bool} (hwt : e.wt=varrayType signed)
    (hst : e.st=none) {raws : List ℕ} (hraws : ∀ raw ∈ raws, raw < 2^64 ∧ admitted e raw=true)
    (hlen : raws.length ≤ e.cap) (hcap : e.cap ≤ arrayMax) :
    Restores e (((raws.map (storedWord e)).mapIdx fun i w => (e.slot+i,w))++
      (e.countAt.map fun i => (i,BitVec.ofNat 64 raws.length)).toList,[],[]) := by
  refine ⟨.varray signed raws,
    {words := raws.mapIdx fun i raw => (e.slot+i,storedWord e raw), count := raws.length},
    comes_varray hid hwt hst (fun raw hr => (hraws raw hr).1) (hlen.trans hcap),?_,?_⟩
  · unfold brings
    dsimp only
    rw [if_pos]
    simp only [Bool.and_eq_true,decide_eq_true_eq,List.all_eq_true]
    exact ⟨hlen,fun raw hr => (hraws raw hr).2⟩
  · rw [List.mapIdx_eq_zipIdx_map,List.mapIdx_eq_zipIdx_map,List.zipIdx_map,List.map_map]
    cases e.countAt <;> rfl

/-- Filling in a row does not change what can arrive under it. -/
theorem restores_init {e : Entry} (hw : e.ownWords=[]) (ho : e.ownObjects=[]) (hi : e.ownInto=[])
    (bits : BitVec 64) (value : Option DefaultValue)
    (reset : List (ℕ × BitVec 64) × List (ℕ × Obj) × List (ℕ × List UInt8)) :
    Restores (e.init bits value) reset ↔ Restores e reset := by
  rw [(init_filled hw ho hi bits value).same]
  rfl

/-- A row without a table restores what is its own. -/
theorem optionReset_own (f : Forest) {e : Entry} (h : e.child=none) :
    f.optionReset e=(e.ownWords,e.ownObjects,e.ownInto) := by
  unfold Forest.optionReset
  rw [h]
  simp

end Arrivals

section Numbers

variable {narrow : BitVec 64 → Option (BitVec 32)} {e : Entry}

/-- An integer default that was accepted. -/
theorem bits_integer {kind : Kind} (hk : kind=.unsigned ∨ kind=.signed) {d : Number} {lo hi : ℤ}
    {bits : BitVec 64} (h : defaultBits narrow kind d lo hi=.ok bits) :
    ∃ n : ℤ, d.index=some n ∧ lo ≤ n ∧ n ≤ hi ∧ bits=BitVec.ofInt 64 n := by
  unfold defaultBits at h
  have hscalar : kind.isScalar=true := by rcases hk with rfl | rfl <;> rfl
  have hfloat : ¬(kind=.float64 ∨ kind=.float32) := by
    rcases hk with rfl | rfl <;> decide
  have hbool : ¬kind=.boolean := by rcases hk with rfl | rfl <;> decide
  rw [hscalar,if_neg (by decide),if_neg hfloat] at h
  unfold Number.given at h
  cases hn : d.index with
  | none =>
    rw [hn] at h
    cases h
  | some n =>
    rw [hn] at h
    simp only [index] at h
    rw [if_neg hbool] at h
    by_cases hrange : lo ≤ n ∧ n ≤ hi
    · rw [if_neg (not_not.mpr hrange)] at h
      cases h
      exact ⟨n,rfl,hrange.1,hrange.2,rfl⟩
    · rw [if_pos hrange] at h
      cases h

/-- A boolean default that was accepted. -/
theorem bits_boolean {d : Number} {lo hi : ℤ} {bits : BitVec 64}
    (h : defaultBits narrow .boolean d lo hi=.ok bits) : bits=1 ∨ bits=0 := by
  unfold defaultBits at h
  rw [show Kind.boolean.isScalar=true from rfl,if_neg (by decide),if_neg (by decide)] at h
  unfold Number.given at h
  cases hn : d.index with
  | none =>
    rw [hn] at h
    cases h
  | some n =>
    rw [hn] at h
    simp only [index,if_true] at h
    cases h
    by_cases hz : n=0
    · exact .inr (if_neg (not_not.mpr hz))
    · exact .inl (if_pos hz)

/-- A boolean that was accepted is what some integer is stored as. -/
theorem boolean_held (hk : scalarOf e.kind=.boolean) {bits : BitVec 64} (h : bits=1 ∨ bits=0) :
    ∃ raw : ℕ, raw < 2^64 ∧ admitted e raw=true ∧ storedWord e raw=bits := by
  unfold admitted storedWord
  rw [hk]
  rcases h with rfl | rfl
  · exact ⟨1,by omega,rfl,rfl⟩
  · exact ⟨0,by omega,rfl,rfl⟩

/-- A signed integer inside the width is what its own arrival is stored as. -/
theorem signed_held (hk : scalarOf e.kind=.signed) {n : ℤ} (hlo : e.elemLo ≤ n)
    (hhi : n ≤ e.elemHi) (hmin : signedMin ≤ n) (hmax : n ≤ signedMax) :
    ∃ raw : ℕ, raw < 2^64 ∧ admitted e raw=true ∧ storedWord e raw=BitVec.ofInt 64 n := by
  unfold signedMin at hmin
  unfold signedMax at hmax
  have hdecode := Zigzag.decode_encode (v := n) (by omega) (by omega)
  refine ⟨Zigzag.encode n,Zigzag.encode_lt n,?_,?_⟩
  · unfold admitted
    rw [hk]
    dsimp only
    rw [hdecode]
    simp [hlo,hhi]
  · unfold storedWord
    rw [hk]
    dsimp only
    rw [hdecode]

/-- An unsigned integer inside the width is what its own arrival is stored as. -/
theorem unsigned_held (hk : scalarOf e.kind=.unsigned) {n : ℤ} (hpos : 0 ≤ n) (hhi : n ≤ e.elemHi)
    (hmax : n ≤ unsignedMax) :
    ∃ raw : ℕ, raw < 2^64 ∧ admitted e raw=true ∧ storedWord e raw=BitVec.ofInt 64 n := by
  unfold unsignedMax at hmax
  lift n to ℕ using hpos
  refine ⟨n,by omega,?_,?_⟩
  · unfold admitted
    rw [hk]
    simp
    omega
  · unfold storedWord
    rw [hk]

/-- An unsigned default is what an arrival is stored as iff it is not negative, or its two's
complement is inside the declared width. -/
theorem unsigned_iff (hk : scalarOf e.kind=.unsigned) {n : ℤ} (hlo : signedMin ≤ n)
    (hhi : n ≤ e.elemHi) (hmax : e.elemHi ≤ unsignedMax) :
    (∃ raw : ℕ, raw < 2^64 ∧ admitted e raw=true ∧ storedWord e raw=BitVec.ofInt 64 n) ↔
      0 ≤ n ∨ (e.elemBounded=true → n+2^64 ≤ e.elemHi) := by
  unfold signedMin at hlo
  unfold unsignedMax at hmax
  by_cases hpos : 0 ≤ n
  · exact ⟨fun _ => .inl hpos,fun _ => unsigned_held hk hpos hhi (by unfold unsignedMax; omega)⟩
  · have hadm : ∀ raw : ℕ, admitted e raw=true ↔ (e.elemBounded=true → (raw : ℤ) ≤ e.elemHi) := by
      intro raw
      unfold admitted
      rw [hk]
      cases e.elemBounded <;> simp
    have hword : ∀ raw : ℕ, raw < 2^64 →
        (storedWord e raw=BitVec.ofInt 64 n ↔ (raw : ℤ)=n+2^64) := by
      intro raw hraw
      unfold storedWord
      rw [hk]
      dsimp only
      rw [BitVec.toNat_eq,BitVec.toNat_ofInt,BitVec.toNat_ofInt]
      omega
    constructor
    · rintro ⟨raw,hraw,ha,hw⟩
      refine .inr fun hb => ?_
      rw [← (hword raw hraw).mp hw]
      exact (hadm raw).mp ha hb
    · intro h
      have h := h.resolve_left hpos
      have hlt : (n+2^64).toNat < 2^64 := by omega
      refine ⟨(n+2^64).toNat,hlt,(hadm _).mpr fun hb => ?_,(hword _ hlt).mpr (by omega)⟩
      have hle := h hb
      omega

/-- Elements each of which an arrival could have stored. -/
theorem mapM_held {f : Number → Except Exn (BitVec 64)}
    (hf : ∀ (v : Number) (bits : BitVec 64), f v=.ok bits →
      ∃ raw : ℕ, raw < 2^64 ∧ admitted e raw=true ∧ storedWord e raw=bits) {xs : List Number} :
    ∀ {ws : List (BitVec 64)}, xs.mapM f=.ok ws → ∃ raws : List ℕ,
      (∀ raw ∈ raws, raw < 2^64 ∧ admitted e raw=true) ∧ ws=raws.map (storedWord e) ∧
        raws.length=xs.length := by
  induction xs with
  | nil =>
    intro ws h
    cases h
    exact ⟨[],by simp,rfl,rfl⟩
  | cons x xs ih =>
    intro ws h
    rw [List.mapM_cons] at h
    cases hx : f x with
    | error e =>
      rw [hx] at h
      cases h
    | ok bits =>
      rw [hx] at h
      cases hrest : xs.mapM f with
      | error e =>
        rw [hrest] at h
        cases h
      | ok rest =>
        rw [hrest] at h
        cases h
        obtain ⟨raw,hraw,hadm,rfl⟩ := hf x bits hx
        obtain ⟨raws,hraws,rfl,hlen⟩ := ih hrest
        refine ⟨raw::raws,?_,rfl,by simp [hlen]⟩
        intro r hr
        rcases List.mem_cons.mp hr with rfl | hr
        · exact ⟨hraw,hadm⟩
        · exact hraws r hr

end Numbers

section Rows

variable {narrow : BitVec 64 → Option (BitVec 32)} {whichAt : Option ℕ} {kind : Kind} {d : Default}
  {cap : ℕ} {lo hi : ℤ} {into : Bool} {start : BitVec 64 × Option DefaultValue} {e : Entry}

/-- What a scalar row with a default starts from. -/
theorem prepared_scalar (hk : kind.isScalar=true)
    (h : prepared narrow whichAt kind (some d) cap lo hi into=.ok start) :
    start.2=none ∧ defaultBits narrow kind d.toNumber lo hi=.ok start.1 := by
  simp only [prepared,hk,if_true] at h
  cases hb : defaultBits narrow kind d.toNumber lo hi with
  | error e =>
    rw [hb] at h
    cases h
  | ok bits =>
    rw [hb] at h
    cases h
    exact ⟨rfl,rfl⟩

/-- What a row with a default that is none starts from. -/
theorem prepared_payload (hk : kind.isScalar=false)
    (h : prepared narrow whichAt kind (some d) cap lo hi into=.ok start) :
    ∃ value : DefaultValue, start=(0,some value) ∧
      defaultPayload narrow whichAt kind d cap lo hi into=.ok value := by
  simp only [prepared,hk,Bool.false_eq_true,if_false] at h
  cases hv : defaultPayload narrow whichAt kind d cap lo hi into with
  | error e =>
    rw [hv] at h
    cases h
  | ok value =>
    rw [hv] at h
    cases h
    exact ⟨value,rfl,rfl⟩

/-- A string or blob default that was accepted. -/
theorem object_held (hk : kind=.string ∨ kind=.bytes) {value : DefaultValue} {data : List UInt8}
    (h : defaultObject kind d cap=.ok (value,data)) :
    Holds kind value data ∧ (cap=0 ∨ data.length ≤ cap) ∧
      d.payload (kind=.string)=some data := by
  unfold defaultObject at h
  dsimp only at h
  rcases hk with rfl | rfl
  · rw [if_pos rfl] at h
    cases htext : d.text with
    | none =>
      rw [htext] at h
      cases h
    | some text =>
      rw [htext] at h
      dsimp only at h
      cases hdata : Utf8.encode text with
      | none =>
        rw [hdata] at h
        cases h
      | some bytes =>
        rw [hdata] at h
        dsimp only at h
        by_cases hfit : cap≠0 ∧ cap < bytes.length
        · rw [if_pos hfit] at h
          cases h
        · rw [if_neg hfit] at h
          cases h
          refine ⟨.text hdata,by omega,?_⟩
          unfold Default.payload
          rw [if_pos (by simp),htext]
          exact hdata
  · rw [if_neg (by decide)] at h
    by_cases htext : d.text.isSome=true
    · rw [if_pos htext] at h
      cases h
    · rw [if_neg htext] at h
      cases hdata : d.bytes with
      | none =>
        rw [hdata] at h
        cases h
      | some bytes =>
        rw [hdata] at h
        dsimp only at h
        by_cases hfit : cap≠0 ∧ cap < bytes.length
        · rw [if_pos hfit] at h
          cases h
        · rw [if_neg hfit] at h
          cases h
          refine ⟨.bytes data,by omega,?_⟩
          unfold Default.payload
          rw [if_neg (by simp)]
          exact hdata

/-- What a string or blob row with a default starts from. -/
theorem payload_object (hk : kind=.string ∨ kind=.bytes) {value : DefaultValue}
    (h : defaultPayload narrow whichAt kind d cap lo hi into=.ok value) :
    ∃ (held : DefaultValue) (data : List UInt8), Holds kind held data ∧
      (cap=0 ∨ data.length ≤ cap) ∧ d.payload (kind=.string)=some data ∧
      value=if into then .bytes data else held := by
  have hseq : ¬kind=.sequence := by rcases hk with rfl | rfl <;> decide
  have hobj : kind.isObject=true := by rcases hk with rfl | rfl <;> rfl
  unfold defaultPayload at h
  rw [if_neg hseq] at h
  by_cases hw : whichAt.isSome=true
  · rw [if_pos hw] at h
    cases h
  · rw [if_neg hw,if_pos hobj] at h
    cases ho : defaultObject kind d cap with
    | error e =>
      rw [ho] at h
      cases h
    | ok r =>
      rw [ho] at h
      cases h
      obtain ⟨hheld,hcap,hpayload⟩ := object_held hk ho
      exact ⟨r.1,r.2,hheld,hcap,hpayload,rfl⟩

/-- What an array row with a default starts from. -/
theorem payload_array (hk : kind.isArray=true) {value : DefaultValue}
    (h : defaultPayload narrow whichAt kind d cap lo hi into=.ok value) :
    ∃ (values : List Number) (ws : List (BitVec 64)), value=.words ws ∧ values.length ≤ cap ∧
      values.mapM (fun v => defaultBits narrow (scalarOf kind) v lo hi)=.ok ws := by
  have hseq : ¬kind=.sequence := by cases kind <;> first | decide | cases hk
  have hobj : ¬kind.isObject=true := by cases kind <;> first | decide | cases hk
  unfold defaultPayload at h
  rw [if_neg hseq] at h
  by_cases hw : whichAt.isSome=true
  · rw [if_pos hw] at h
    cases h
  · rw [if_neg hw,if_neg hobj] at h
    unfold defaultElements at h
    cases hitems : d.items with
    | none =>
      rw [hitems] at h
      cases h
    | some values =>
      rw [hitems] at h
      dsimp only at h
      by_cases hlen : cap < values.length
      · rw [if_pos hlen] at h
        cases h
      · rw [if_neg hlen] at h
        cases hm : values.mapM (fun v => defaultBits narrow (scalarOf kind) v lo hi) with
        | error e =>
          rw [hm] at h
          cases h
        | ok ws =>
          rw [hm] at h
          cases h
          exact ⟨values,ws,rfl,by omega,hm⟩

/-- The words and objects a scalar row owns. -/
theorem reset_scalar (f : Forest) (hk : e.kind.isScalar=true) (hchild : e.child=none)
    (hw : e.ownWords=[]) (ho : e.ownObjects=[]) (hi : e.ownInto=[]) (bits : BitVec 64) :
    f.optionReset (e.init bits none)=
      ((e.slot,bits)::(e.countAt.map fun i => (i,(0 : BitVec 64))).toList,[],[]) := by
  have hnone : (e.init bits none).child=none := by
    rw [(init_filled hw ho hi bits none).same]
    exact hchild
  rw [optionReset_own f hnone]
  unfold Entry.init
  dsimp only
  rw [if_pos hk]
  dsimp only
  rw [ho,hi]
  cases e.countAt <;> rfl

/-- The words and objects a string or blob row with a default owns. -/
theorem reset_object (f : Forest) (hk : e.kind=.string ∨ e.kind=.bytes) (hchild : e.child=none)
    (hw : e.ownWords=[]) (ho : e.ownObjects=[]) (hi : e.ownInto=[]) (value : DefaultValue)
    (data : List UInt8) :
    f.optionReset (e.init 0 (some (if e.into then .bytes data else value)))=
      objectReset e value data := by
  have hnone : (e.init 0 (some (if e.into then .bytes data else value))).child=none := by
    rw [(init_filled hw ho hi 0 _).same]
    exact hchild
  have hscalar : ¬e.kind.isScalar=true := by rcases hk with hk | hk <;> rw [hk] <;> decide
  have harray : e.kind.isArray=false := by rcases hk with hk | hk <;> rw [hk] <;> rfl
  have hobject : e.kind.isObject=true := by rcases hk with hk | hk <;> rw [hk] <;> rfl
  rw [optionReset_own f hnone]
  unfold Entry.init objectReset
  dsimp only
  rw [if_neg hscalar,harray,hobject]
  cases e.into with
  | true =>
    simp only [Bool.not_true,Bool.and_false,Bool.false_eq_true,if_false,if_true]
    rw [ho]
    cases e.countAt <;> rfl
  | false =>
    simp only [Bool.not_false,Bool.and_self,Bool.false_eq_true,if_false,if_true]
    rw [hi]
    cases e.countAt <;> rfl

/-- The words and objects an array row with a default owns. -/
theorem reset_array (f : Forest) (hk : e.kind.isArray=true) (hchild : e.child=none)
    (hw : e.ownWords=[]) (ho : e.ownObjects=[]) (hi : e.ownInto=[]) (ws : List (BitVec 64)) :
    f.optionReset (e.init 0 (some (.words ws)))=
      ((ws.mapIdx fun i w => (e.slot+i,w))++
        (e.countAt.map fun i => (i,BitVec.ofNat 64 ws.length)).toList,[],[]) := by
  have hnone : (e.init 0 (some (.words ws))).child=none := by
    rw [(init_filled hw ho hi 0 _).same]
    exact hchild
  have hscalar : ¬e.kind.isScalar=true := by
    generalize e.kind=kind at hk ⊢
    cases kind <;> first | decide | cases hk
  have hobject : e.kind.isObject=false := by
    generalize e.kind=kind at hk ⊢
    cases kind <;> first | rfl | cases hk
  rw [optionReset_own f hnone]
  unfold Entry.init
  dsimp only
  rw [if_neg hscalar,hobject,hk]
  simp only [Bool.false_and,Bool.false_eq_true,if_false,if_true,Bool.true_or]
  rw [ho,hi]
  cases e.countAt <;> rfl

/-- The two ends of a width that was accepted. -/
theorem width_ends {elemLo elemHi : Option Given} (h : width kind elemLo elemHi=.ok (lo,hi)) :
    widthEnd elemLo "elem_min" signedMin=.ok lo ∧
      widthEnd elemHi "elem_max" (widest kind)=.ok hi ∧ signedMin ≤ lo ∧ hi ≤ widest kind := by
  unfold width at h
  cases hl : widthEnd elemLo "elem_min" signedMin with
  | error e =>
    rw [hl] at h
    cases h
  | ok l =>
    rw [hl] at h
    dsimp only at h
    cases hh : widthEnd elemHi "elem_max" (widest kind) with
    | error e =>
      rw [hh] at h
      cases h
    | ok u =>
      rw [hh] at h
      dsimp only at h
      by_cases hrange : ¬(signedMin ≤ l ∧ l ≤ signedMax) ∨ ¬(0 ≤ u ∧ u ≤ widest kind)
      · rw [if_pos hrange] at h
        cases h
      · rw [if_neg hrange] at h
        cases h
        rw [not_or,not_not,not_not] at hrange
        exact ⟨rfl,rfl,hrange.1.1,hrange.2.2⟩

/-- A capacity that was accepted. -/
theorem capacity_kept {given : Given} {k : ℕ} (h : capacity kind given=.ok k) :
    given=.int k ∧ k ≤ (if kind.isObject then fixlenMax else arrayMax) := by
  unfold capacity at h
  cases given with
  | other t => cases h
  | int n =>
    simp only [index] at h
    by_cases hn : n < 0 ∨ n > ((if kind.isObject then fixlenMax else arrayMax : ℕ) : ℤ)
    · rw [if_pos hn] at h
      cases h
    · rw [if_neg hn] at h
      cases h
      generalize (if kind.isObject then fixlenMax else arrayMax : ℕ)=most at hn ⊢
      exact ⟨by rw [Int.toNat_of_nonneg (by omega)],by omega⟩

/-- A row that holds an integer restores what can arrive iff some integer is stored as its
default. -/
theorem scalar_row (f : Forest) (hk : e.kind.isScalar=true) (hid : e.fieldId ≤ idMax)
    {signed : Bool} (hwt : e.wt=scalarType signed) (hst : e.st=none) (hchild : e.child=none)
    (hw : e.ownWords=[]) (ho : e.ownObjects=[]) (hi : e.ownInto=[]) (bits : BitVec 64) :
    Restores (e.init bits none) (f.optionReset (e.init bits none)) ↔
      ∃ raw : ℕ, raw < 2^64 ∧ admitted e raw=true ∧ storedWord e raw=bits := by
  rw [reset_scalar f hk hchild hw ho hi,restores_init hw ho hi]
  exact restores_scalar hid hwt hst bits

/-- A row that holds integers restores what can arrive. -/
theorem array_row (f : Forest) (hk : e.kind.isArray=true) (hid : e.fieldId ≤ idMax)
    {signed : Bool} (hwt : e.wt=varrayType signed) (hst : e.st=none) (hchild : e.child=none)
    (hw : e.ownWords=[]) (ho : e.ownObjects=[]) (hi : e.ownInto=[]) (hcap : e.cap ≤ arrayMax)
    {values : List Number} {ws : List (BitVec 64)} (hlen : values.length ≤ e.cap)
    (hm : values.mapM (fun v => defaultBits narrow (scalarOf e.kind) v e.elemLo e.elemHi)=.ok ws)
    (hheld : ∀ (v : Number) (bits : BitVec 64),
      defaultBits narrow (scalarOf e.kind) v e.elemLo e.elemHi=.ok bits →
        ∃ raw : ℕ, raw < 2^64 ∧ admitted e raw=true ∧ storedWord e raw=bits) :
    Restores (e.init 0 (some (.words ws))) (f.optionReset (e.init 0 (some (.words ws)))) := by
  obtain ⟨raws,hraws,rfl,hcount⟩ := mapM_held hheld hm
  rw [reset_array f hk hchild hw ho hi,restores_init hw ho hi,List.length_map]
  exact restores_array hid hwt hst hraws (by omega) hcap

/-- A row that holds a payload restores what can arrive iff a payload of that length can. -/
theorem object_row (f : Forest) (hk : e.kind=.string ∨ e.kind=.bytes) (hid : e.fieldId ≤ idMax)
    (hchild : e.child=none) (hw : e.ownWords=[]) (ho : e.ownObjects=[]) (hi : e.ownInto=[])
    (hmost : e.cap ≤ fixlenMax) {value : DefaultValue}
    (h : defaultPayload narrow whichAt e.kind d e.cap e.elemLo e.elemHi e.into=.ok value) :
    Restores (e.init 0 (some value)) (f.optionReset (e.init 0 (some value))) ↔
      (e.cap=0 → ∀ data, d.payload (e.kind=.string)=some data → data.length ≤ fixlenMax) := by
  obtain ⟨held,data,hheld,hcap,hpayload,rfl⟩ := payload_object hk h
  rw [restores_init hw ho hi,reset_object f hk hchild hw ho hi,
    restores_object hid hheld hcap hmost]
  refine imp_congr_right fun _ => ⟨fun hle other hother => ?_,fun hle => hle data hpayload⟩
  rw [hpayload] at hother
  cases hother
  exact hle

end Rows

section Methods

variable {narrow : BitVec 64 → Option (BitVec 32)} {b b' : Binding}

variable {fieldId slot cap : Given} {countAt elemLo elemHi : Option Given} {d : Default}
  {kind : Kind}

/-- A string or blob row. -/
theorem add_object (hk : kind=.string ∨ kind=.bytes) {into : Bool}
    (h : add narrow kind fieldId slot cap countAt none none none into (some d) b=.ok () b') :
    ∃ e : Entry, b'.entries=b.entries++[e] ∧ ∀ f : Forest, Restores e (f.optionReset e) ↔
      (cap=.int 0 → ∀ data, d.payload (kind=.string)=some data → data.length ≤ fixlenMax) := by
  obtain ⟨e,start,hchild,hrow⟩ := add_ok h
  obtain ⟨hw,ho,hi⟩ := hrow.bare
  have hkind := hrow.kind
  subst hkind
  have hscalar : e.kind.isScalar=false := by rcases hk with hk | hk <;> rw [hk] <;> rfl
  have hobject : e.kind.isObject=true := by rcases hk with hk | hk <;> rw [hk] <;> rfl
  obtain ⟨value,hstart,hvalue⟩ := prepared_payload hscalar hrow.starts
  obtain ⟨hgiven,hmost⟩ := capacity_kept hrow.cap
  rw [hobject,if_pos rfl] at hmost
  refine ⟨_,hrow.bound,fun f => ?_⟩
  rw [hstart]
  rw [object_row f hk hrow.id hchild hw ho hi hmost (by rw [hrow.into]; exact hvalue),hgiven]
  refine imp_congr_left ?_
  simp

/-- A row that holds integers, each of them inside its width. -/
theorem add_array (hk : kind.isArray=true) {signed : Bool} (hwt : kind.tag.1=varrayType signed)
    (hst : kind.tag.2=none)
    (hheld : ∀ (e : Entry) (v : Number) (bits : BitVec 64), e.kind=kind →
      width kind elemLo elemHi=.ok (e.elemLo,e.elemHi) →
      defaultBits narrow (scalarOf kind) v e.elemLo e.elemHi=.ok bits →
        ∃ raw : ℕ, raw < 2^64 ∧ admitted e raw=true ∧ storedWord e raw=bits)
    (h : add narrow kind fieldId slot cap countAt none elemLo elemHi false (some d) b=.ok () b') :
    ∃ e : Entry, b'.entries=b.entries++[e] ∧ ∀ f : Forest, Restores e (f.optionReset e) := by
  obtain ⟨e,start,hchild,hrow⟩ := add_ok h
  obtain ⟨hw,ho,hi⟩ := hrow.bare
  have hkind := hrow.kind
  subst hkind
  have hscalar : e.kind.isScalar=false := by
    generalize e.kind=kind at hk ⊢
    cases kind <;> first | rfl | cases hk
  have hobject : e.kind.isObject=false := by
    generalize e.kind=kind at hk ⊢
    cases kind <;> first | rfl | cases hk
  obtain ⟨value,hstart,hvalue⟩ := prepared_payload hscalar hrow.starts
  obtain ⟨values,ws,rfl,hlen,hm⟩ := payload_array hk hvalue
  have hmost := (capacity_kept hrow.cap).2
  rw [hobject,if_neg Bool.false_ne_true] at hmost
  refine ⟨_,hrow.bound,fun f => ?_⟩
  rw [hstart]
  exact array_row f hk hrow.id hwt hst hchild hw ho hi hmost hlen hm
    fun v bits hv => hheld e v bits rfl hrow.ends hv

/-- A row that holds an integer. -/
theorem add_scalar (hk : kind.isScalar=true) {signed : Bool} (hwt : kind.tag.1=scalarType signed)
    (hst : kind.tag.2=none)
    (h : add narrow kind fieldId slot cap countAt none elemLo elemHi false (some d) b=.ok () b') :
    ∃ (e : Entry) (bits : BitVec 64), b'.entries=b.entries++[e.init bits none] ∧ e.kind=kind ∧
      e.elemBounded=(elemLo.isSome || elemHi.isSome) ∧
      width kind elemLo elemHi=.ok (e.elemLo,e.elemHi) ∧
      defaultBits narrow kind d.toNumber e.elemLo e.elemHi=.ok bits ∧
      ∀ f : Forest, Restores (e.init bits none) (f.optionReset (e.init bits none)) ↔
        ∃ raw : ℕ, raw < 2^64 ∧ admitted e raw=true ∧ storedWord e raw=bits := by
  obtain ⟨e,start,hchild,hrow⟩ := add_ok h
  obtain ⟨hw,ho,hi⟩ := hrow.bare
  have hkind := hrow.kind
  subst hkind
  obtain ⟨hvalue,hbits⟩ := prepared_scalar hk hrow.starts
  have hbound := hrow.bound
  rw [hvalue] at hbound
  refine ⟨e,start.1,hbound,rfl,hrow.bounded,hrow.ends,hbits,fun f => ?_⟩
  exact scalar_row f hk hrow.id hwt hst hchild hw ho hi start.1

/-- The condition on the default of an unsigned row, by the row. -/
theorem sound_unsigned {maxValue : Option Given} {e : Entry}
    (hbounded : e.elemBounded=maxValue.isSome)
    (hwidth : width .unsigned none maxValue=.ok (e.elemLo,e.elemHi)) (n : ℤ) :
    (0 ≤ n ∨ (e.elemBounded=true → n+2^64 ≤ e.elemHi)) ↔
      0 ≤ n ∨ ∀ most : ℤ, maxValue=some (.int most) → n+2^64 ≤ most := by
  refine or_congr_right ?_
  have hend := (width_ends hwidth).2.1
  cases maxValue with
  | none => simp [hbounded]
  | some given =>
    cases given with
    | other t => cases hend
    | int most =>
      have hmost : most=e.elemHi := by
        injection hend
      subst hmost
      simp [hbounded]

/-- What a default that was accepted restores is what an arrival could have stored, unless it is
a negative default of an unsigned row or a payload no message can carry. -/
theorem default_held {m : Method} {d : Default} (hd : m.default=some d) (hf : m.floats=false)
    (h : m.run narrow b=.ok () b') :
    ∃ e : Entry, b'.entries=b.entries++[e] ∧
      ∀ f : Forest, Restores e (f.optionReset e) ↔ m.Sound d := by
  have hall : ∀ {P : Forest → Prop} {e : Entry}, (b'.entries=b.entries++[e] ∧ ∀ f, P f) →
      b'.entries=b.entries++[e] ∧ ∀ f : Forest, P f ↔ True :=
    fun h => ⟨h.1,fun f => iff_true_intro (h.2 f)⟩
  cases m with
  | unsigned fieldId slot countAt maxValue default =>
    have hd : default=some d := hd
    subst hd
    obtain ⟨e,bits,hb,hkind,hbounded,hwidth,hbits,hrow⟩ :=
      @add_scalar narrow b b' _ _ _ _ _ _ d .unsigned rfl false rfl rfl h
    obtain ⟨n,hn,hlo,hhi,rfl⟩ := bits_integer (.inl rfl) hbits
    have hends := width_ends hwidth
    refine ⟨_,hb,fun f => ?_⟩
    rw [hrow f,unsigned_iff (by rw [hkind]; rfl) (Int.le_trans hends.2.2.1 hlo) hhi hends.2.2.2,
      sound_unsigned hbounded hwidth n]
    refine ⟨fun hs n' hn' => ?_,fun hs => hs n hn⟩
    rw [show d.index=some n from hn] at hn'
    cases hn'
    exact hs
  | signed fieldId slot countAt minValue maxValue default =>
    have hd : default=some d := hd
    subst hd
    obtain ⟨e,bits,hb,hkind,-,hwidth,hbits,hrow⟩ :=
      @add_scalar narrow b b' _ _ _ _ _ _ d .signed rfl true rfl rfl h
    obtain ⟨n,-,hlo,hhi,rfl⟩ := bits_integer (.inr rfl) hbits
    have hends := width_ends hwidth
    refine ⟨_,hb,fun f => iff_true_intro ((hrow f).mpr ?_)⟩
    exact signed_held (by rw [hkind]; rfl) hlo hhi (Int.le_trans hends.2.2.1 hlo)
      (Int.le_trans hhi hends.2.2.2)
  | boolean fieldId slot countAt default =>
    have hd : default=some d := hd
    subst hd
    obtain ⟨e,bits,hb,hkind,-,-,hbits,hrow⟩ :=
      @add_scalar narrow b b' _ _ _ _ _ _ d .boolean rfl false rfl rfl h
    refine ⟨_,hb,fun f => iff_true_intro ((hrow f).mpr ?_)⟩
    exact boolean_held (by rw [hkind]; rfl) (bits_boolean hbits)
  | string fieldId slot maxlen countAt default =>
    have hd : default=some d := hd
    subst hd
    exact add_object (.inl rfl) h
  | bytes fieldId slot maxlen countAt default =>
    have hd : default=some d := hd
    subst hd
    exact add_object (.inr rfl) h
  | stringInto fieldId slot maxlen countAt default =>
    have hd : default=some d := hd
    subst hd
    exact add_object (.inl rfl) h
  | blobInto fieldId slot maxlen countAt default =>
    have hd : default=some d := hd
    subst hd
    exact add_object (.inr rfl) h
  | unsignedArray fieldId slot cap countAt elemMax default =>
    have hd : default=some d := hd
    subst hd
    obtain ⟨e,hb,hrow⟩ := @add_array narrow b b' _ _ _ _ _ _ d .arrayUnsigned rfl false rfl rfl
      (fun e v bits hkind hwidth hbits => by
        obtain ⟨n,-,hlo,hhi,rfl⟩ := bits_integer (.inl rfl) hbits
        have hends := width_ends hwidth
        have hzero : e.elemLo=0 := by
          have hlow := hends.1
          injection hlow with hlow
          exact hlow.symm
        exact unsigned_held (by rw [hkind]; rfl) (by omega) hhi (Int.le_trans hhi hends.2.2.2)) h
    exact ⟨e,hall ⟨hb,hrow⟩⟩
  | signedArray fieldId slot cap countAt elemMin elemMax default =>
    have hd : default=some d := hd
    subst hd
    obtain ⟨e,hb,hrow⟩ := @add_array narrow b b' _ _ _ _ _ _ d .arraySigned rfl true rfl rfl
      (fun e v bits hkind hwidth hbits => by
        obtain ⟨n,-,hlo,hhi,rfl⟩ := bits_integer (.inr rfl) hbits
        have hends := width_ends hwidth
        exact signed_held (by rw [hkind]; rfl) hlo hhi (Int.le_trans hends.2.2.1 hlo)
          (Int.le_trans hhi hends.2.2.2)) h
    exact ⟨e,hall ⟨hb,hrow⟩⟩
  | booleanArray fieldId slot cap countAt default =>
    have hd : default=some d := hd
    subst hd
    obtain ⟨e,hb,hrow⟩ := @add_array narrow b b' _ _ _ _ _ _ d .arrayBoolean rfl false rfl rfl
      (fun e v bits hkind _ hbits =>
        boolean_held (by rw [hkind]; rfl) (bits_boolean hbits)) h
    exact ⟨e,hall ⟨hb,hrow⟩⟩
  | float32 | float64 | float32Array | float64Array => cases hf
  | sequence => cases hd

/-- A negative default is taken for an unsigned row of at most ten, and no arrival stores it. -/
theorem default_negative :
    ∃ (b' : Binding) (e : Entry),
      (Method.unsigned (.int 1) (.int 0) none (some (.int 10))
        (some {typeName := "int", index := some (-5)})).run (fun _ => none)
          {closed := true, whichAt := some 1, wordsRequired := 2}=.ok () b' ∧
      b'.entries=[e] ∧ ∀ f : Forest, ¬Restores e (f.optionReset e) := by
  have h : ∃ b' : Binding, (Method.unsigned (.int 1) (.int 0) none (some (.int 10))
      (some {typeName := "int", index := some (-5)})).run (fun _ => none)
        {closed := true, whichAt := some 1, wordsRequired := 2}=.ok () b' := ⟨_,rfl⟩
  obtain ⟨b',h⟩ := h
  obtain ⟨e,bits,hb,hkind,hbounded,hwidth,hbits,hrow⟩ :=
    @add_scalar _ _ b' _ _ _ _ _ _ _ .unsigned rfl false rfl rfl h
  refine ⟨b',_,h,hb,fun f hr => ?_⟩
  obtain ⟨n,hn,hlo,hhi,rfl⟩ := bits_integer (.inl rfl) hbits
  have hends := width_ends hwidth
  have hn : n=-5 := (Option.some.inj hn).symm
  have htop : e.elemHi=10 := (Except.ok.inj hends.2.1).symm
  have hsound := (unsigned_iff (by rw [hkind]; rfl) (Int.le_trans hends.2.2.1 hlo) hhi
    hends.2.2.2).mp ((hrow f).mp hr)
  rcases hsound with hpos | hwrap
  · omega
  · have hle := hwrap hbounded
    omega

/-- A default inside the width. -/
theorem default_held_seven :
    ∃ b' : Binding,
      (Method.unsigned (.int 1) (.int 0) none (some (.int 10))
        (some {typeName := "int", index := some 7})).run (fun _ => none) {}=.ok () b' ∧
      ∃ e : Entry, b'.entries=({} : Binding).entries++[e] ∧ ∀ f : Forest, Restores e (f.optionReset e) ↔
        (Method.unsigned (.int 1) (.int 0) none (some (.int 10))
          (some {typeName := "int", index := some 7})).Sound {typeName := "int", index := some 7} :=
  ⟨_,rfl,@default_held (fun _ => none) {} _ _ _ rfl rfl rfl⟩

end Methods

section Decoding

variable {V : Type} {c : Config V} {e : Entry}

/-- A word that fits is stored as it is. -/
theorem put_unsigned {raw : ℕ} (h : raw < 2^64) (i : ℕ) :
    Sink.put c .unsignedWords i (raw : ℤ)=Effect.putWord c i (BitVec.ofInt 64 raw) := by
  unfold Sink.put Effect.putWord
  dsimp only
  rw [if_pos (show 0 ≤ (raw : ℤ) ∧ (raw : ℤ) < 2^64 by omega)]

/-- A signed word that fits is stored as it is. -/
theorem put_signed {raw : ℕ} (h : raw < 2^64) (i : ℕ) :
    Sink.put c .signedWords i (Zigzag.decode raw)=
      Effect.putWord c i (BitVec.ofInt 64 (Zigzag.decode raw)) := by
  unfold Sink.put Effect.putWord
  dsimp only
  rw [if_pos (Zigzag.decode_range h)]

/-- The decoder stores an integer that is admitted, and refuses any other. -/
theorem scalar_taken (hk : e.kind=.unsigned ∨ e.kind=.signed ∨ e.kind=.boolean) (signed : Bool)
    {raw : ℕ} (hraw : raw < 2^64) (s : Store V) (p : Pending) :
    (mappedPlan c e s p).2.take c (.scalar signed raw)=
      (if admitted e raw then Effect.putWord c e.slot (storedWord e raw)
        else .raise (.decode "value outside declared width")).andThen (countArrival c e 1) := by
  unfold mappedPlan admitted storedWord
  rcases hk with hk | hk | hk
  · rw [hk]
    simp only [Plan.take,scalarOf]
    rw [put_unsigned hraw]
    cases (e.elemBounded && decide ((raw : ℤ) > e.elemHi)) <;> rfl
  · rw [hk]
    simp only [Plan.take,scalarOf]
    rw [put_signed hraw]
    cases (e.elemBounded && !(decide (e.elemLo ≤ Zigzag.decode raw) &&
      decide (Zigzag.decode raw ≤ e.elemHi))) <;> rfl
  · rw [hk]
    rfl

/-- An array is whole within a width iff every element is inside it. -/
theorem within_whole {bound : SofaBuffers.Bound} {zigzag : Bool} {raws : List ℕ} :
    (bound.within (raws.map (element zigzag))).length < raws.length ↔
      ¬∀ raw ∈ raws, bound.outside (element zigzag raw)=false := by
  unfold Bound.within
  induction raws with
  | nil => simp
  | cons raw raws ih =>
    rw [List.map_cons,List.takeWhile_cons]
    cases hout : bound.outside (element zigzag raw) with
    | true => simp [hout]
    | false =>
      simp only [Bool.not_false,if_true,List.length_cons,Nat.add_lt_add_iff_right,ih]
      simp [hout]

/-- The decoder takes the elements of an array iff every one of them is admitted. -/
theorem array_taken (hk : e.kind=.arrayUnsigned ∨ e.kind=.arraySigned ∨ e.kind=.arrayBoolean)
    (signed : Bool) (n : ℕ) (s : Store V) :
    ∃ (bound : SofaBuffers.Bound) (zigzag : Bool) (into : Option (Sink × ℕ))
      (k : List ℤ → Effect V),
      (mappedPlan c e s (.varray signed n)).2=.elements n bound zigzag into k ∧
      ∀ raws : List ℕ, (∀ raw ∈ raws, raw < 2^64) →
        ((bound.within (raws.map (element zigzag))).length < raws.length ↔
          ¬∀ raw ∈ raws, admitted e raw=true) := by
  have hpoint : ∀ {bound : SofaBuffers.Bound} {zigzag : Bool} {raws : List ℕ},
      (∀ raw ∈ raws, raw < 2^64) → (∀ raw : ℕ, raw < 2^64 →
        (bound.outside (element zigzag raw)=false ↔ admitted e raw=true)) →
      ((bound.within (raws.map (element zigzag))).length < raws.length ↔
        ¬∀ raw ∈ raws, admitted e raw=true) := by
    intro bound zigzag raws hraws hsame
    rw [within_whole]
    exact not_congr (forall₂_congr fun raw hr => hsame raw (hraws raw hr))
  rcases hk with hk | hk | hk
  · refine ⟨.of none (if e.elemBounded then some e.elemHi else none) false,false,
      some (.unsignedWords,e.slot),fun _ => countArrival c e n,?_,fun raws hraws =>
        hpoint hraws fun raw hr => ?_⟩
    · unfold mappedPlan mappedArrayPlan
      rw [hk]
    · rw [outside_iff hr]
      unfold admitted Admits element
      rw [hk]
      cases hb : e.elemBounded <;> simp [scalarOf]
  · refine ⟨.of (if e.elemBounded then some e.elemLo else none)
        (if e.elemBounded then some e.elemHi else none) true,true,
      some (.signedWords,e.slot),fun _ => countArrival c e n,?_,fun raws hraws =>
        hpoint hraws fun raw hr => ?_⟩
    · unfold mappedPlan mappedArrayPlan
      rw [hk]
    · rw [outside_iff hr]
      unfold admitted Admits element
      rw [hk]
      cases hb : e.elemBounded <;> simp [scalarOf]
  · refine ⟨.of none none false,false,some (.unsignedWords,e.slot),
      fun _ => (normaliseBooleans c n e.slot).andThen (countArrival c e n),?_,fun raws hraws =>
        hpoint hraws fun raw hr => ?_⟩
    · unfold mappedPlan mappedArrayPlan
      rw [hk]
    · rw [outside_iff hr]
      unfold admitted Admits
      rw [hk]
      simp [scalarOf]

end Decoding

end Binder

end SofaBuffers
