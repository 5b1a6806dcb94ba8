import SofaBuffers.Encoder.Output
import SofaBuffers.Encoder.Writers

/-!
# Varints and elements, written

A varint is put out as its shortest encoding, in place or through a drain. The
element loops keep the buffer, its limit and the cursor to themselves; what
they put out is the encodings of the elements, up to the first one refused.
-/

set_option autoImplicit false

namespace SofaBuffers

/-- Two groups a turn are the groups of the shortest encoding. -/
theorem wideGroups_eq {turns v : ℕ} (h : v < 2^turns) (ht : 0 < turns) :
    wideGroups turns v=Varint.encode v := by
  induction turns generalizing v with
  | zero => omega
  | succ turns ih =>
    rw [wideGroups,Varint.encode_eq]
    by_cases hwide : 0x4000 ≤ v
    · have hv1 : ¬v < 128 := by omega
      have hv2 : ¬v/128 < 128 := by omega
      have hdiv : v/128/128=v/0x4000 := by omega
      have hturns : 0 < turns := by
        rcases Nat.eq_zero_or_pos turns with rfl|hpos
        · omega
        · exact hpos
      have hnext : v/0x4000 < 2^turns := by
        rw [Nat.pow_succ] at h
        omega
      rw [if_pos hwide,if_neg hv1,ih hnext hturns,Varint.encode_eq (v/128),if_neg hv2,hdiv]
    · rw [if_neg hwide]
      by_cases hmid : 0x80 ≤ v
      · have hv1 : ¬v < 128 := by omega
        have hv2 : v/128 < 128 := by omega
        rw [if_pos hmid,if_neg hv1,Varint.encode_eq (v/128),if_pos hv2]
      · have hv1 : v < 128 := by omega
        rw [if_neg hmid,if_pos hv1]

/-- A varint written by its width is the shortest encoding. -/
theorem inlineVarint_eq (v : ℕ) : inlineVarint v=Varint.encode v := by
  rw [inlineVarint]
  by_cases hone : v < 0x80
  · rw [if_pos hone,Varint.encode_eq,if_pos hone]
  · by_cases htwo : v < 0x4000
    · have hv : v/128 < 128 := by omega
      rw [if_neg hone,if_pos htwo,Varint.encode_eq,if_neg hone,Varint.encode_eq (v/128),if_pos hv]
    · have hlog : v < 2^(v.log2+1) := Nat.lt_log2_self
      rw [if_neg hone,if_neg htwo,wideGroups_eq hlog (by omega)]

/-- In range the mask of zigzag does nothing. -/
theorem zigzag_unmasked {v : ℤ} (hlo : -2^63 ≤ v) (hhi : v < 2^63) :
    Int.xor (v*2) (v/2^63)=Zigzag.encode v := by
  rcases Zigzag.cases64 hlo hhi with ⟨k,hk,rfl⟩|⟨k,hk,rfl⟩
  · have hdiv : ((k : ℤ)/2^63)=0 := Int.ediv_eq_zero_of_lt (by omega) (by omega)
    have hxor : Int.xor ((k : ℤ)*2) 0=((k*2 : ℕ) : ℤ) := by
      show Int.ofNat (k*2^^^0)=((k*2 : ℕ) : ℤ)
      rw [Nat.xor_zero]
      rfl
    rw [hdiv,hxor,Zigzag.encode_nonneg hk,Nat.mul_comm]
  · have hdiv : (-(k : ℤ)-1)/2^63=Int.negSucc 0 := by
      have hmin : (-(k : ℤ)-1)/2^63=-1 := by omega
      rw [hmin]
      rfl
    have hmul : (-(k : ℤ)-1)*2=Int.negSucc (2*k+1) := by
      rw [Int.negSucc_eq]
      omega
    have hxor : Int.xor (Int.negSucc (2*k+1)) (Int.negSucc 0)=((2*k+1 : ℕ) : ℤ) := by
      show Int.ofNat ((2*k+1)^^^0)=((2*k+1 : ℕ) : ℤ)
      rw [Nat.xor_zero]
      rfl
    rw [hdiv,hmul,hxor,Zigzag.encode_neg hk]

/-- A signed element in range needs no mask. -/
theorem zigzagWord_eq {v : ℤ} (hlo : signedMin ≤ v) (hhi : v ≤ signedMax) :
    zigzagWord v=Zigzag.encode v := by
  rw [signedMin] at hlo
  rw [signedMax] at hhi
  rw [zigzagWord,zigzag_unmasked hlo (by omega),Int.toNat_natCast]

section Emit

variable {o : Outlet} {e : Enc}

/-- A varint is written. -/
theorem emitVarint_run (h : e.Ok o) (hf : o.Fair) {v : ℕ} (hv : v < 2^64) :
    Wrote o e (Varint.encode v) none (emitVarint o v e) := by
  have hlen := (Varint.encode_length hv).2
  rw [emitVarint,run_get_bind]
  split
  · next hroom =>
    rw [varintMax] at hroom
    rw [inlineVarint_eq]
    obtain ⟨e',hp,ha⟩ := poke_after h (Varint.encode v) (by omega)
    rw [hp]
    exact .done rfl ha
  · exact put_run h hf _

/-- A slice assigned through the loop's own view is written at the loop's own cursor. -/
theorem pokeAt_after {cursor : ℕ} (h : Enc.Ok o {e with cursor := cursor}) (bs : List UInt8)
    (hfit : cursor+bs.length ≤ e.cap) :
    ∃ e', pokeAt e.installs cursor bs e=.ok () e' ∧ e'.installs=e.installs ∧
      varintLimit e'=varintLimit e ∧ e'.cap=e.cap ∧
      After o {e with cursor := cursor} bs {e' with cursor := cursor+bs.length} := by
  obtain ⟨e₂,hp,ha⟩ := poke_after h bs hfit
  injection hp with _ hp
  refine ⟨{e with fixed := splice e.fixed cursor bs},?_,rfl,rfl,rfl,?_⟩
  · rw [pokeAt,run_modify,if_pos rfl]
  · rw [←hp] at ha
    exact ha

/-- The encodings of elements, up to the first that is refused. -/
def encodeElements (word : Given → Except Exn ℕ) : List Given → List UInt8 × Option Exn
  | [] => ([],none)
  | v::vs =>
    match word v with
    | .error why => ([],some why)
    | .ok u => (Varint.encode u++(encodeElements word vs).1,(encodeElements word vs).2)

/-- The element loop puts out the encodings of the elements. -/
theorem elementLoop_run (hf : o.Fair) {word : Given → Except Exn ℕ}
    (hw : ∀ v u, word v=.ok u → u < 2^64) (vs : List Given) {seen cursor : ℕ} {limit : ℤ}
    (hs : e.installs=seen) (hl : varintLimit e=limit) (h : Enc.Ok o {e with cursor := cursor}) :
    Wrote o {e with cursor := cursor} (encodeElements word vs).1 (encodeElements word vs).2
      (elementLoop o word vs seen limit cursor e) := by
  induction vs generalizing e seen cursor limit with
  | nil => exact .nil h
  | cons v vs ih =>
    rw [encodeElements,elementLoop]
    cases hv : word v with
    | error why => exact .raised rfl (.refl h)
    | ok u =>
      have hu := hw v u hv
      have hlen := (Varint.encode_length hu).2
      dsimp only
      by_cases hnear : (cursor : ℤ) > limit
      · rw [if_pos hnear,setCursor,run_modify_bind]
        have hput := put_run h hf (Varint.encode u)
        exact Wrote.bind hput fun e' ha => ih rfl rfl ha.ok
      · rw [if_neg hnear,inlineVarint_eq]
        rw [←hl,varintLimit,varintMax] at hnear
        obtain ⟨e',hp,hi,hl',hc,ha⟩ := pokeAt_after h (Varint.encode u) (by omega)
        rw [hs] at hp
        rw [run_bind_ok hp]
        exact .after ha (ih (hi.trans hs) (hl'.trans hl) ha.ok)

/-- The boolean loop puts out a byte for each element. -/
theorem boolLoop_run (hf : o.Fair) (vs : List Bool) {seen room cursor : ℕ}
    (hs : e.installs=seen) (hr : e.cap=room) (h : Enc.Ok o {e with cursor := cursor}) :
    Wrote o {e with cursor := cursor} (vs.map boolByte) none
      (boolLoop o vs seen room cursor e) := by
  induction vs generalizing e seen room cursor with
  | nil => exact .nil h
  | cons v vs ih =>
    rw [List.map_cons,←List.singleton_append,boolLoop]
    by_cases hfull : cursor ≥ room
    · rw [if_pos hfull,setCursor,run_modify_bind]
      have hput := put_run h hf [boolByte v]
      exact Wrote.bind hput fun e' ha => ih rfl rfl ha.ok
    · have hfit : cursor+[boolByte v].length ≤ e.cap := by
        rw [List.length_singleton]
        omega
      obtain ⟨e',hp,hi,_,hc,ha⟩ := pokeAt_after h [boolByte v] hfit
      rw [hs] at hp
      rw [if_neg hfull,run_bind_ok hp]
      exact .after ha (ih (hi.trans hs) (hc.trans hr) ha.ok)

end Emit

end SofaBuffers
