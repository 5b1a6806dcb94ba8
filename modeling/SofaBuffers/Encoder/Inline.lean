import SofaBuffers.Encoder.Refine

/-!
# Varints written in place, store by store

Where a whole varint has room it is written into the buffer by its width, one
byte at a time and two groups a turn; elsewhere the shared codec makes its
bytes, and they go through a drain. Both write the shortest encoding, and no
store is outside the room the guard has found.
-/

set_option autoImplicit false

namespace SofaBuffers

/-- Groups of a value, lowest first, the high bit set on all but the last. -/
def encodeTurns : ℕ → List UInt8 → ℕ → List UInt8
  | 0, out, _ => out
  | turns+1, out, value =>
    let byte := value&&&0x7F
    let value := value>>>7
    if value≠0 then encodeTurns turns (out++[UInt8.ofNat (byte|||0x80)]) value
    else out++[UInt8.ofNat byte]

/-- The shared varint codec, a byte a turn (`encode_varint`). -/
def encodeGroups (value : ℕ) : List UInt8 := encodeTurns (value.log2+1) [] value

/-- Assign a byte of a buffer. -/
def storeByte (buf : List UInt8) (i b : ℕ) : Except Exn (List UInt8) :=
  if buf.length ≤ i then .error .index
  else if 256 ≤ b then .error .value
  else .ok (buf.set i (UInt8.ofNat b))

/-- Two groups a turn, as long as three remain. -/
def storePairs : ℕ → List UInt8 → ℕ → ℕ → Except Exn (List UInt8 × ℕ × ℕ)
  | 0, _, _, _ => .error .turns
  | turns+1, buf, cursor, v =>
    if 0x4000 ≤ v then do
      let buf ← storeByte buf cursor ((v&&&0x7F)|||0x80)
      let buf ← storeByte buf (cursor+1) (((v>>>7)&&&0x7F)|||0x80)
      storePairs turns buf (cursor+2) (v>>>14)
    else .ok (buf,cursor,v)

/-- One group more, if two remain. -/
def storeSingle (buf : List UInt8) (cursor v : ℕ) : Except Exn (List UInt8 × ℕ × ℕ) :=
  if 0x80 ≤ v then do
    let buf ← storeByte buf cursor ((v&&&0x7F)|||0x80)
    pure (buf,cursor+1,v>>>7)
  else pure (buf,cursor,v)

/-- A varint by its width, store by store; the buffer and the cursor behind it. -/
def storeVarint (buf : List UInt8) (cursor v : ℕ) : Except Exn (List UInt8 × ℕ) :=
  if v < 0x80 then do
    let buf ← storeByte buf cursor v
    pure (buf,cursor+1)
  else if v < 0x4000 then do
    let buf ← storeByte buf cursor ((v&&&0x7F)|||0x80)
    let buf ← storeByte buf (cursor+1) (v>>>7)
    pure (buf,cursor+2)
  else do
    let (buf,cursor,v) ← storePairs (v.log2+1) buf cursor v
    let (buf,cursor,v) ← storeSingle buf cursor v
    let buf ← storeByte buf cursor v
    pure (buf,cursor+1)

/-- Write a varint, store by store when a whole one has room (`_emit_varint`). -/
def emitStores (o : Outlet) (v : ℕ) : EncM Unit := do
  let e ← get
  if e.cursor+varintMax ≤ e.cap then
    match storeVarint e.fixed e.cursor v with
    | .ok (fixed,cursor) => set {e with fixed := fixed, cursor := cursor}
    | .error why => throw why
  else put o (encodeGroups v)

/-- The element loop of the integer array writers, store by store. No buffer is installed
between two look-ups, so the one that was looked up is the encoder's. -/
def elementStores (o : Outlet) (word : Given → Except Exn ℕ) : List Given → ℤ → ℕ → EncM Unit
  | [], _, cursor => setCursor cursor
  | v::vs, limit, cursor =>
    match word v with
    | .error why => do
      setCursor cursor
      throw why
    | .ok u =>
      if (cursor : ℤ) > limit then do
        setCursor cursor
        put o (encodeGroups u)
        let e ← get
        elementStores o word vs (varintLimit e) e.cursor
      else do
        let e ← get
        match storeVarint e.fixed cursor u with
        | .ok (fixed,cursor) => do
          set {e with fixed := fixed}
          elementStores o word vs limit cursor
        | .error why => throw why

section Codec

/-- The low seven bits. -/
theorem low_group (v : ℕ) : v&&&0x7F=v%128 := Nat.and_two_pow_sub_one_eq_mod v 7

/-- A group with its continuation bit. -/
theorem continued_group (v : ℕ) : (v&&&0x7F)|||0x80=v%128+128 := by
  have hlt : v%128 < 2^7 := Nat.mod_lt _ (by decide)
  have hor : 2^7*1+v%128=2^7*1|||v%128 := Nat.two_pow_add_eq_or_of_lt hlt 1
  rw [low_group,Nat.or_comm]
  exact hor.symm.trans (Nat.add_comm _ _)

/-- The bits above the lowest group. -/
theorem above_group (v : ℕ) : v>>>7=v/128 := Nat.shiftRight_eq_div_pow v 7

/-- The bits above the two lowest groups. -/
theorem above_pair (v : ℕ) : v>>>14=v/0x4000 := Nat.shiftRight_eq_div_pow v 14

/-- The shared codec makes the shortest encoding. -/
theorem encodeTurns_eq {turns v : ℕ} (h : v < 2^turns) (ht : 0 < turns) (out : List UInt8) :
    encodeTurns turns out v=out++Varint.encode v := by
  induction turns generalizing v out with
  | zero => omega
  | succ turns ih =>
    rw [encodeTurns,continued_group,low_group,above_group,Varint.encode_eq]
    by_cases hv : v < 128
    · have hdiv : v/128=0 := by omega
      have hmod : v%128=v := by omega
      rw [if_neg (by omega),if_pos hv,hmod]
    · have hturns : 0 < turns := by
        rcases Nat.eq_zero_or_pos turns with rfl|hpos
        · omega
        · exact hpos
      have hnext : v/128 < 2^turns := by
        rw [Nat.pow_succ] at h
        omega
      rw [if_pos (by omega),if_neg hv,ih hnext hturns,List.append_assoc]
      rfl

/-- The shared codec makes the shortest encoding. -/
theorem encodeGroups_eq (v : ℕ) : encodeGroups v=Varint.encode v := by
  rw [encodeGroups,encodeTurns_eq Nat.lt_log2_self (by omega),List.nil_append]

end Codec

section Stores

variable {buf : List UInt8} {cursor v : ℕ}

/-- A byte assigned is a slice of one. -/
theorem storeByte_run {b : ℕ} (h : cursor < buf.length) (hb : b < 256) :
    storeByte buf cursor b=.ok (splice buf cursor [UInt8.ofNat b]) := by
  have hset : buf.set cursor (UInt8.ofNat b)=splice buf cursor [UInt8.ofNat b] := by
    rw [splice,List.set_eq_take_append_cons_drop,if_pos h]
    simp
  rw [storeByte,if_neg (by omega),if_neg (by omega),hset]

/-- A buffer behind a slice assigned to it. -/
theorem splice_back {bs : List UInt8} {k : ℕ} (h : cursor+bs.length ≤ buf.length)
    (hk : cursor+bs.length ≤ k) : (splice buf cursor bs).drop k=buf.drop k := by
  have hlen : (buf.take cursor++bs).length=cursor+bs.length := by
    rw [List.length_append,List.length_take]
    omega
  rw [splice,List.drop_append,List.drop_eq_nil_of_le (by omega),List.nil_append,hlen,
    List.drop_drop]
  congr 1
  omega

/-- A slice behind a slice is a longer one. -/
theorem splice_splice {bs cs : List UInt8} (h : cursor+bs.length ≤ buf.length) :
    splice (splice buf cursor bs) (cursor+bs.length) cs=splice buf cursor (bs++cs) := by
  rw [splice,splice_take h,splice_back h (Nat.le_add_right ..)]
  simp [splice,Nat.add_assoc]

/-- A byte assigned, and a byte behind it. -/
theorem storeByte_pair {b c : ℕ} (h : cursor+2 ≤ buf.length) (hb : b < 256) (hc : c < 256) :
    storeByte buf cursor b=.ok (splice buf cursor [UInt8.ofNat b]) ∧
      storeByte (splice buf cursor [UInt8.ofNat b]) (cursor+1) c=
        .ok (splice buf cursor [UInt8.ofNat b,UInt8.ofNat c]) := by
  have hone : cursor+[UInt8.ofNat b].length ≤ buf.length := by
    rw [List.length_singleton]
    omega
  have hlen := splice_length hone
  refine ⟨storeByte_run (by omega) hb,?_⟩
  rw [storeByte_run (by omega) hc]
  exact congrArg Except.ok (splice_splice hone)

/-- A value of three groups or more, and what is left of it behind two. -/
theorem encode_pair (h : 0x4000 ≤ v) : Varint.encode v=
    [UInt8.ofNat (v%128+128),UInt8.ofNat (v/128%128+128)]++Varint.encode (v/0x4000) := by
  have hv1 : ¬v < 128 := by omega
  have hv2 : ¬v/128 < 128 := by omega
  have hdiv : v/128/128=v/0x4000 := by omega
  rw [Varint.encode_eq,if_neg hv1,Varint.encode_eq (v/128),if_neg hv2,hdiv]
  rfl

/-- Two groups a turn are written while three remain. -/
theorem storePairs_run {turns : ℕ} (hv : v < 2^turns) (ht : 0 < turns)
    (h : cursor+(Varint.encode v).length ≤ buf.length) :
    ∃ bs w, w < 0x4000 ∧ Varint.encode v=bs++Varint.encode w ∧
      storePairs turns buf cursor v=.ok (splice buf cursor bs,cursor+bs.length,w) := by
  induction turns generalizing buf cursor v with
  | zero => omega
  | succ turns ih =>
    rw [storePairs]
    by_cases hwide : 0x4000 ≤ v
    · have hturns : 0 < turns := by
        rcases Nat.eq_zero_or_pos turns with rfl|hpos
        · omega
        · exact hpos
      have hnext : v/0x4000 < 2^turns := by
        rw [Nat.pow_succ] at hv
        omega
      have henc := encode_pair hwide
      rw [henc,List.length_append] at h
      have hpair : cursor+[UInt8.ofNat (v%128+128),UInt8.ofNat (v/128%128+128)].length ≤
          buf.length := Nat.le_trans (by omega) h
      have htwo : [UInt8.ofNat (v%128+128),UInt8.ofNat (v/128%128+128)].length=2 := rfl
      have hlen := splice_length hpair
      obtain ⟨hone,hsecond⟩ := storeByte_pair (b:=v%128+128) (c:=v/128%128+128) hpair (by omega)
        (by omega)
      have hroom : cursor+2+(Varint.encode (v/0x4000)).length ≤
          (splice buf cursor [UInt8.ofNat (v%128+128),UInt8.ofNat (v/128%128+128)]).length := by
        omega
      obtain ⟨bs,w,hw,hbs,hrun⟩ := ih hnext hturns hroom
      refine ⟨[UInt8.ofNat (v%128+128),UInt8.ofNat (v/128%128+128)]++bs,w,hw,?_,?_⟩
      · rw [henc,hbs,List.append_assoc]
      · rw [if_pos hwide,continued_group,above_group,continued_group,above_pair,hone]
        show (storeByte _ (cursor+1) (v/128%128+128) >>= _)=_
        rw [hsecond]
        show storePairs turns _ (cursor+2) (v/0x4000)=_
        rw [hrun,←splice_splice hpair,List.length_append,htwo,Nat.add_assoc]
    · rw [if_neg hwide]
      refine ⟨[],v,by omega,rfl,?_⟩
      simp [splice]

/-- The last groups of a value, two of them at most. -/
theorem storeLast_run (hv : v < 0x4000) (h : cursor+(Varint.encode v).length ≤ buf.length) :
    (do
      let (buf,cursor,v) ← storeSingle buf cursor v
      let buf ← storeByte buf cursor v
      pure (buf,cursor+1) : Except Exn (List UInt8 × ℕ))=
      .ok (splice buf cursor (Varint.encode v),cursor+(Varint.encode v).length) := by
  rw [Varint.encode_eq] at h ⊢
  by_cases hone : v < 128
  · rw [if_pos hone,List.length_singleton] at h
    rw [storeSingle,if_neg (by omega),if_pos hone]
    show (storeByte buf cursor v >>= _)=_
    rw [storeByte_run (by omega) (by omega)]
    rfl
  · have hlast : v/128 < 128 := by omega
    rw [if_neg hone,Varint.encode_eq,if_pos hlast] at h ⊢
    obtain ⟨hfirst,hsecond⟩ := storeByte_pair (b:=v%128+128) (c:=v/128) h (by omega) (by omega)
    rw [storeSingle,if_pos (by omega),continued_group,above_group,hfirst]
    show (storeByte _ (cursor+1) (v/128) >>= _)=_
    rw [hsecond]
    rfl

/-- A varint is written in place where it has room. -/
theorem storeVarint_run (h : cursor+(Varint.encode v).length ≤ buf.length) :
    storeVarint buf cursor v=
      .ok (splice buf cursor (Varint.encode v),cursor+(Varint.encode v).length) := by
  rw [storeVarint]
  by_cases hone : v < 0x80
  · rw [Varint.encode_eq,if_pos hone,List.length_singleton] at h
    rw [if_pos hone,storeByte_run (by omega) (by omega),Varint.encode_eq,if_pos hone]
    rfl
  · by_cases htwo : v < 0x4000
    · have hlast : v/128 < 128 := by omega
      rw [Varint.encode_eq,if_neg hone,Varint.encode_eq,if_pos hlast] at h ⊢
      obtain ⟨hfirst,hsecond⟩ := storeByte_pair (b:=v%128+128) (c:=v/128) h (by omega) (by omega)
      rw [if_neg hone,if_pos htwo,continued_group,above_group,hfirst]
      show (storeByte _ (cursor+1) (v/128) >>= _)=_
      rw [hsecond]
      rfl
    · obtain ⟨bs,w,hw,hbs,hrun⟩ := storePairs_run Nat.lt_log2_self (Nat.succ_pos _) h
      rw [hbs,List.length_append] at h
      have hpairs : cursor+bs.length ≤ buf.length := by omega
      have hlen := splice_length hpairs
      rw [if_neg hone,if_neg htwo,hrun,hbs,←splice_splice hpairs,List.length_append,←Nat.add_assoc]
      exact storeLast_run hw (by omega)

end Stores

section Emit

variable {o : Outlet} {e : Enc}

/-- A whole varint has room where ten bytes have. -/
theorem storeVarint_room {buf : List UInt8} {cursor v : ℕ} (hv : v < 2^64)
    (h : cursor+varintMax ≤ buf.length) :
    storeVarint buf cursor v=
      .ok (splice buf cursor (Varint.encode v),cursor+(Varint.encode v).length) := by
  have hlen := (Varint.encode_length hv).2
  rw [varintMax] at h
  exact storeVarint_run (by omega)

/-- A varint is written in place, or its bytes go through a drain. -/
theorem emitStores_run (hcap : e.cap=e.fixed.length) {v : ℕ} (hv : v < 2^64) :
    emitStores o v e=
      if e.cursor+varintMax ≤ e.cap then .ok () {e with
        fixed := splice e.fixed e.cursor (encodeGroups v)
        cursor := e.cursor+(encodeGroups v).length}
      else put o (encodeGroups v) e := by
  rw [emitStores,run_get_bind,encodeGroups_eq]
  by_cases hroom : e.cursor+varintMax ≤ e.cap
  · rw [if_pos hroom,if_pos hroom,storeVarint_room hv (by omega)]
    rfl
  · rw [if_neg hroom,if_neg hroom]

/-- Store by store the same is written as at once. -/
theorem emitStores_eq (hcap : e.cap=e.fixed.length) {v : ℕ} (hv : v < 2^64) :
    emitStores o v e=emitVarint o v e := by
  rw [emitStores_run hcap hv,emitVarint,run_get_bind,encodeGroups_eq,inlineVarint_eq]
  split <;> rfl

/-- One turn of the element loop over an element that is accepted. -/
theorem elementStores_run {word : Given → Except Exn ℕ} {v : Given} {u : ℕ} (hv : word v=.ok u)
    (hu : u < 2^64) (hcap : e.cap=e.fixed.length) (vs : List Given) (cursor : ℕ) :
    elementStores o word (v::vs) (varintLimit e) cursor e=
      if cursor+varintMax ≤ e.cap then
        elementStores o word vs (varintLimit e) (cursor+(encodeGroups u).length)
          {e with fixed := splice e.fixed cursor (encodeGroups u)}
      else (do
        put o (encodeGroups u)
        let e ← get
        elementStores o word vs (varintLimit e) e.cursor) {e with cursor := cursor} := by
  rw [elementStores,hv]
  dsimp only
  by_cases hroom : cursor+varintMax ≤ e.cap
  · have hfits : ¬(cursor : ℤ) > varintLimit e := by
      rw [varintLimit]
      omega
    rw [if_pos hroom,if_neg hfits,run_get_bind,storeVarint_room hu (by omega),encodeGroups_eq]
    rfl
  · have hnear : (cursor : ℤ) > varintLimit e := by
      rw [varintLimit]
      omega
    rw [if_neg hroom,if_pos hnear,setCursor,run_modify_bind]

/-- Store by store the loop does what it does at once. -/
theorem elementStores_eq (hf : o.Fair) {word : Given → Except Exn ℕ}
    (hw : ∀ v u, word v=.ok u → u < 2^64) (vs : List Given) {cursor : ℕ}
    (h : Enc.Ok o {e with cursor := cursor}) :
    elementStores o word vs (varintLimit e) cursor e=
      elementLoop o word vs e.installs (varintLimit e) cursor e := by
  induction vs generalizing e cursor with
  | nil => rfl
  | cons v vs ih =>
    cases hv : word v with
    | error why =>
      rw [elementStores,elementLoop,hv]
    | ok u =>
      have hu := hw v u hv
      have hlen := (Varint.encode_length hu).2
      have hcap : e.cap=e.fixed.length := h.cap
      rw [elementStores_run hv hu hcap,elementLoop,hv,encodeGroups_eq]
      dsimp only
      by_cases hroom : cursor+varintMax ≤ e.cap
      · have hfits : ¬(cursor : ℤ) > varintLimit e := by
          rw [varintLimit]
          omega
        have hfit : cursor+(Varint.encode u).length ≤ e.cap := by
          rw [varintMax] at hroom
          omega
        obtain ⟨e₂,hp,ha⟩ := poke_after h (Varint.encode u) hfit
        injection hp with _ hp
        rw [if_pos hroom,if_neg hfits,inlineVarint_eq,pokeAt,run_modify_bind,if_pos rfl]
        rw [←hp] at ha
        exact ih (e:={e with fixed := splice e.fixed cursor (Varint.encode u)}) ha.ok
      · have hnear : (cursor : ℤ) > varintLimit e := by
          rw [varintLimit]
          omega
        have hput := put_run h hf (Varint.encode u)
        rw [if_neg hroom,if_pos hnear,setCursor,run_modify_bind,run_bind,run_bind,encodeVarint]
        cases hr : put o (Varint.encode u) {e with cursor := cursor} with
        | ok a e' =>
          rw [hr] at hput
          cases hput with
          | done _ ha => exact ih ha.ok
        | error why e' => rfl

/-- Elements are put out as their shortest encodings, up to the first that is refused. -/
theorem elementStores_wrote (hf : o.Fair) (h : e.Ok o) (w : Width) (vs : List Given) :
    Wrote o e (encodeElements (elementWordOf w) vs).1 (encodeElements (elementWordOf w) vs).2
      (elementStores o (elementWordOf w) vs (varintLimit e) e.cursor e) := by
  rw [elementStores_eq hf (elementWordOf_lt w) vs h]
  exact elementLoop_run hf (elementWordOf_lt w) vs rfl rfl h

end Emit

/-- What a buffer and a cursor are behind bytes written in place of at most ten. -/
structure InPlace (bs buf : List UInt8) (cursor : ℕ) (after : List UInt8 × ℕ) : Prop where
  /-- The cursor is behind them. -/
  stop : after.2=cursor+bs.length
  /-- It is within the room of ten bytes. -/
  room : after.2 ≤ cursor+varintMax
  /-- The bytes stand behind the old cursor. -/
  written : (after.1.take after.2).drop cursor=bs
  /-- What is in front of them is as it was. -/
  front : after.1.take cursor=buf.take cursor
  /-- What is behind them is as it was. -/
  back : after.1.drop after.2=buf.drop after.2
  /-- The buffer is as long as it was. -/
  size : after.1.length=buf.length

/-- A slice assigned in place. -/
theorem splice_inPlace {buf bs : List UInt8} {cursor : ℕ} (h : cursor+bs.length ≤ buf.length)
    (hbs : bs.length ≤ varintMax) :
    InPlace bs buf cursor (splice buf cursor bs,cursor+bs.length) where
  stop := rfl
  room := Nat.add_le_add_left hbs cursor
  written := by
    have hfront : (buf.take cursor).length=cursor := by
      rw [List.length_take]
      omega
    dsimp only
    rw [splice_take h,List.drop_append,hfront,Nat.sub_self,List.drop_zero,
      List.drop_eq_nil_of_le (by omega),List.nil_append]
  front := splice_front h (le_refl cursor)
  back := splice_back h (le_refl _)
  size := splice_length h

/-- The shortest encoding spells its value. -/
theorem spells_word {v : ℕ} (hv : v < 2^64) : Varint.Spells 0 (Varint.encode v) v := by
  have h := Varint.spells_encode (i:=0) (v:=v) (by omega) (by simpa using hv)
  simpa using h

/-- No bytes that spell the same are shorter. -/
theorem shortest_encode {v : ℕ} (hv : v < 2^64) : Varint.Shortest (Varint.encode v) := by
  intro w bs hw hbs
  have hread := Varint.readFrom_spells () hw 0 []
  have hsame := Varint.readFrom_spells () (spells_word hv) 0 []
  rw [hsame] at hread
  injection hread with hvalue
  have hwv : w=v := by omega
  rw [hwv] at hbs
  exact hbs.length_encode

/-- The inlined varint writers equal the shared codec. The codec makes the shortest spelling
of a value, of at most ten bytes; the by-width code writes those bytes at the cursor of any
buffer with room for ten from there on, and stores nothing outside of them. A varint and the
elements of the integer arrays are written so where their guard finds that room, and elsewhere
the same bytes take the splitting path. Signed values are words by zigzag, which is undone, and
in range its mask does nothing. -/
theorem varint_writers :
    (∀ v, v < 2^64 → encodeGroups v=Varint.encode v ∧
      Varint.Spells 0 (encodeGroups v) v ∧ Varint.Shortest (encodeGroups v) ∧
      0 < (encodeGroups v).length ∧ (encodeGroups v).length ≤ varintMax) ∧
    (∀ v buf cursor, v < 2^64 → cursor+varintMax ≤ buf.length →
      ∃ after, storeVarint buf cursor v=.ok after ∧ InPlace (encodeGroups v) buf cursor after) ∧
    (∀ (o : Outlet) (e : Enc) v, e.cap=e.fixed.length → v < 2^64 →
      emitStores o v e=
        if e.cursor+varintMax ≤ e.cap then .ok () {e with
          fixed := splice e.fixed e.cursor (encodeGroups v)
          cursor := e.cursor+(encodeGroups v).length}
        else put o (encodeGroups v) e) ∧
    (∀ (o : Outlet) (e : Enc) v, o.Fair → e.Ok o → v < 2^64 →
      Wrote o e (encodeGroups v) none (emitStores o v e)) ∧
    (∀ (o : Outlet) (e : Enc) (w : Width) v u vs cursor, elementWordOf w v=.ok u →
      e.cap=e.fixed.length →
      elementStores o (elementWordOf w) (v::vs) (varintLimit e) cursor e=
        if cursor+varintMax ≤ e.cap then
          elementStores o (elementWordOf w) vs (varintLimit e) (cursor+(encodeGroups u).length)
            {e with fixed := splice e.fixed cursor (encodeGroups u)}
        else (do
          put o (encodeGroups u)
          let e ← get
          elementStores o (elementWordOf w) vs (varintLimit e) e.cursor)
            {e with cursor := cursor}) ∧
    (∀ (o : Outlet) (e : Enc) (w : Width) vs, o.Fair → e.Ok o →
      Wrote o e (encodeElements (elementWordOf w) vs).1 (encodeElements (elementWordOf w) vs).2
        (elementStores o (elementWordOf w) vs (varintLimit e) e.cursor e)) ∧
    ∀ v : ℤ, signedMin ≤ v → v ≤ signedMax →
      Zigzag.decode (Zigzag.encode v)=v ∧ Zigzag.encode v < 2^64 ∧
        Int.xor (v*2) (v/2^63)=Zigzag.encode v ∧ zigzagWord v=Zigzag.encode v := by
  refine ⟨fun v hv => ?_,fun v buf cursor hv h => ?_,fun o e v hcap hv => emitStores_run hcap hv,
    fun o e v hf h hv => ?_,fun o e w v u vs cursor hu hcap => ?_,
    fun o e w vs hf h => elementStores_wrote hf h w vs,fun v hlo hhi => ?_⟩
  · rw [encodeGroups_eq]
    exact ⟨rfl,spells_word hv,shortest_encode hv,Varint.encode_length hv⟩
  · have hlen := (Varint.encode_length hv).2
    rw [encodeGroups_eq]
    rw [varintMax] at h
    exact ⟨_,storeVarint_room hv h,splice_inPlace (by omega) hlen⟩
  · rw [emitStores_eq h.cap hv,encodeGroups_eq]
    exact emitVarint_run h hf hv
  · exact elementStores_run hu (elementWordOf_lt w v u hu) hcap vs cursor
  · rw [signedMin] at hlo
    rw [signedMax] at hhi
    exact ⟨Zigzag.decode_encode hlo (by omega),Zigzag.encode_lt v,
      zigzag_unmasked hlo (by omega),zigzagWord_eq hlo hhi⟩

/-- The greatest word, and the least signed value. -/
theorem varint_writers_ends :
    (∃ after, storeVarint (List.replicate 12 0) 1 (2^64-1)=.ok after ∧
      InPlace (encodeGroups (2^64-1)) (List.replicate 12 0) 1 after) ∧
    zigzagWord signedMin=Zigzag.encode signedMin :=
  ⟨varint_writers.2.1 (2^64-1) (List.replicate 12 0) 1 (by decide) (by decide),
    (varint_writers.2.2.2.2.2.2 signedMin (by decide) (by decide)).2.2.2⟩

end SofaBuffers
