import SofaBuffers.Core

/-!
# The native validator of strings

The compiled engine checks a payload with a byte walk of its own, in place. It
answers as the windowed check of the interpreted engine does, and reads no byte past the
payload's end.
-/

set_option autoImplicit false

namespace SofaBuffers

namespace Native

/-- How many bytes follow a lead byte, and the range of the first of them. -/
def seconds (b : ℕ) : ℕ × ℕ × ℕ :=
  if b < 0xE0 then (1,0x80,0xBF)
  else if b < 0xF0 then (2,if b=0xE0 then 0xA0 else 0x80,if b=0xED then 0x9F else 0xBF)
  else (3,if b=0xF0 then 0x90 else 0x80,if b=0xF4 then 0x8F else 0xBF)

/-- Whether the bytes from the `k`-th behind the lead on are continuation bytes; `none` is a
read past the end. -/
def tailsFrom (p : List UInt8) (i : ℕ) : ℕ → ℕ → Option Bool
  | 0, _ => some true
  | left+1, k =>
    match p[i+k]? with
    | none => none
    | some b => if b.toNat < 0x80 ∨ 0xBF < b.toNat then some false else tailsFrom p i left (k+1)

/-- The byte walk of `_decode_utf8_checked` from a position on, with the turns it has left:
whether it accepts, or `none` for a read past the end. -/
def decodeUtf8From (p : List UInt8) : ℕ → ℕ → Option Bool
  | 0, _ => none
  | turns+1, i =>
    if i < p.length then
      match p[i]? with
      | none => none
      | some b =>
        if b.toNat < 0x80 then decodeUtf8From p turns (i+1)
        else if b.toNat < 0xC2 ∨ 0xF4 < b.toNat then some false
        else
          let (extra,lo,hi) := seconds b.toNat
          if p.length ≤ i+extra then some false
          else
            match p[i+1]? with
            | none => none
            | some b =>
              if b.toNat < lo ∨ hi < b.toNat then some false
              else
                match tailsFrom p i (extra-1) 2 with
                | none => none
                | some false => some false
                | some true => decodeUtf8From p turns (i+extra+1)
    else some true

/-- Check a payload (`_decode_utf8_checked`). -/
def decodeUtf8Checked (p : List UInt8) : Option Bool := decodeUtf8From p (p.length+1) 0

variable {p t : List UInt8} {i turns : ℕ} {a : UInt8}

/-- The byte at a distance from a position that has bytes left. -/
theorem getElem_drop (h : p.drop i=t) (k : ℕ) : p[i+k]?=t[k]? := by
  rw [←h,List.getElem?_drop]

/-- Where a lead byte has the bytes it asks for, they are there. -/
theorem tailsFrom_eq (h : p.drop i=a::t) {b : UInt8} (rest : List UInt8) (ht : t=b::rest) :
    tailsFrom p i 0 2=some true ∧
      (∀ c cs, rest=c::cs → tailsFrom p i 1 2=some (Utf8.isTail c)) ∧
      ∀ c d cs, rest=c::d::cs → tailsFrom p i 2 2=some (Utf8.isTail c && Utf8.isTail d) := by
  have hone : ∀ c cs, rest=c::cs → p[i+2]?=some c := by
    intro c cs hr
    rw [getElem_drop h,ht,hr]
    rfl
  have htwo : ∀ c d cs, rest=c::d::cs → p[i+3]?=some d := by
    intro c d cs hr
    rw [getElem_drop h,ht,hr]
    rfl
  have htail : ∀ c : UInt8, (c.toNat < 0x80 ∨ 0xBF < c.toNat) ↔ ¬Utf8.isTail c=true := by
    intro c
    rw [Utf8.isTail_iff]
    omega
  refine ⟨rfl,?_,?_⟩
  · intro c cs hr
    cases hc : Utf8.isTail c with
    | true => simp [tailsFrom,hone c cs hr,htail,hc]
    | false => simp [tailsFrom,hone c cs hr,htail,hc]
  · intro c d cs hr
    have hc' := hone c (d::cs) hr
    have hd' := htwo c d cs hr
    cases hc : Utf8.isTail c with
    | true =>
      cases hd : Utf8.isTail d with
      | true => simp [tailsFrom,hc',hd',htail,hc,hd]
      | false => simp [tailsFrom,hc',hd',htail,hc,hd]
    | false => simp [tailsFrom,hc',htail,hc]

/-- One turn of the walk reads one sequence off the bytes left. -/
theorem decodeUtf8_step (h : p.drop i=a::t) :
    decodeUtf8From p (turns+1) i=match Utf8.first (a::t) with
      | .point _ rest => decodeUtf8From p turns (i+(t.length+1-rest.length))
      | _ => some false := by
  have hlen : p.length=i+(t.length+1) := by
    have hl := congrArg List.length h
    simp only [List.length_drop,List.length_cons] at hl
    omega
  have hlead : p[i]?=some a := by
    have hget := getElem_drop h 0
    simpa using hget
  have hin : i < p.length := by omega
  rw [decodeUtf8From]
  simp only [hin,if_true,hlead,seconds]
  by_cases h1 : a.toNat < 0x80
  · have hnext : t.length+1-t.length=1 := by omega
    simp [h1,Utf8.first,hnext]
  by_cases h2 : a.toNat < 0xC2
  · simp [h1,h2,Utf8.first]
  by_cases h5 : 0xF4 < a.toNat
  · have h3 : ¬a.toNat < 0xE0 := by omega
    have h4 : ¬a.toNat < 0xF0 := by omega
    have h6 : ¬a.toNat < 0xF5 := by omega
    simp [h1,h2,h3,h4,h5,h6,Utf8.first]
  by_cases h3 : a.toNat < 0xE0
  · cases t with
    | nil =>
      have hshort : p.length ≤ i+1 := by simp only [List.length_nil] at hlen; omega
      simp [h1,h2,h3,h5,hshort,Utf8.first]
    | cons b rest =>
      have hlong : ¬p.length ≤ i+1 := by simp only [List.length_cons] at hlen; omega
      have hb : p[i+1]?=some b := getElem_drop h 1
      have htails := (tailsFrom_eq h rest rfl).1
      have hrange : (b.toNat < 0x80 ∨ 0xBF < b.toNat) ↔ ¬Utf8.isTail b=true := by
        rw [Utf8.isTail_iff]
        omega
      have hnext : rest.length+1+1-rest.length=2 := by omega
      cases hbt : Utf8.isTail b with
      | true => simp [h1,h2,h3,h5,hlong,hb,hrange,hbt,htails,hnext,Utf8.first]
      | false => simp [h1,h2,h3,h5,hlong,hb,hrange,hbt,Utf8.first]
  by_cases h4 : a.toNat < 0xF0
  · rcases t with _ | ⟨b,_ | ⟨c,rest⟩⟩
    · have hshort : p.length ≤ i+2 := by simp only [List.length_nil] at hlen; omega
      simp [h1,h2,h3,h4,h5,hshort,Utf8.first]
    · have hshort : p.length ≤ i+2 := by simp only [List.length_cons,List.length_nil] at hlen; omega
      cases hbs : Utf8.isSecond a b with
      | true => simp [h1,h2,h3,h4,h5,hshort,hbs,Utf8.first]
      | false => simp [h1,h2,h3,h4,h5,hshort,hbs,Utf8.first]
    · have hlong : ¬p.length ≤ i+2 := by simp only [List.length_cons] at hlen; omega
      have hb : p[i+1]?=some b := getElem_drop h 1
      have htails := (tailsFrom_eq h (c::rest) rfl).2.1 c rest rfl
      have hrange : (b.toNat < (if a.toNat=0xE0 then 0xA0 else 0x80) ∨
          (if a.toNat=0xED then 0x9F else 0xBF) < b.toNat) ↔ ¬Utf8.isSecond a b=true := by
        rw [Utf8.isSecond_iff]
        split
        · split <;> omega
        · split <;> omega
      have hnext : rest.length+1+1+1-rest.length=3 := by omega
      cases hbs : Utf8.isSecond a b with
      | true =>
        cases hct : Utf8.isTail c with
        | true => simp [h1,h2,h3,h4,h5,hlong,hb,hrange,hbs,htails,hct,hnext,Utf8.first]
        | false => simp [h1,h2,h3,h4,h5,hlong,hb,hrange,hbs,htails,hct,Utf8.first]
      | false => simp [h1,h2,h3,h4,h5,hlong,hb,hrange,hbs,Utf8.first]
  · have h6 : a.toNat < 0xF5 := by omega
    rcases t with _ | ⟨b,_ | ⟨c,_ | ⟨d,rest⟩⟩⟩
    · have hshort : p.length ≤ i+3 := by simp only [List.length_nil] at hlen; omega
      simp [h1,h2,h3,h4,h6,h5,hshort,Utf8.first]
    · have hshort : p.length ≤ i+3 := by simp only [List.length_cons,List.length_nil] at hlen; omega
      cases hbs : Utf8.isSecond a b with
      | true => simp [h1,h2,h3,h4,h6,h5,hshort,hbs,Utf8.first]
      | false => simp [h1,h2,h3,h4,h6,h5,hshort,hbs,Utf8.first]
    · have hshort : p.length ≤ i+3 := by simp only [List.length_cons,List.length_nil] at hlen; omega
      cases hbs : Utf8.isSecond a b with
      | true =>
        cases hct : Utf8.isTail c with
        | true => simp [h1,h2,h3,h4,h6,h5,hshort,hbs,hct,Utf8.first]
        | false => simp [h1,h2,h3,h4,h6,h5,hshort,hbs,hct,Utf8.first]
      | false => simp [h1,h2,h3,h4,h6,h5,hshort,hbs,Utf8.first]
    · have hlong : ¬p.length ≤ i+3 := by simp only [List.length_cons] at hlen; omega
      have hb : p[i+1]?=some b := getElem_drop h 1
      have htails := (tailsFrom_eq h (c::d::rest) rfl).2.2 c d rest rfl
      have hrange : (b.toNat < (if a.toNat=0xF0 then 0x90 else 0x80) ∨
          (if a.toNat=0xF4 then 0x8F else 0xBF) < b.toNat) ↔ ¬Utf8.isSecond a b=true := by
        rw [Utf8.isSecond_iff]
        split
        · split <;> omega
        · split <;> omega
      have hnext : rest.length+1+1+1+1-rest.length=4 := by omega
      cases hbs : Utf8.isSecond a b with
      | true =>
        cases hcd : Utf8.isTail c && Utf8.isTail d with
        | true => simp [h1,h2,h3,h4,h6,h5,hlong,hb,hrange,hbs,htails,hcd,hnext,Utf8.first]
        | false => simp [h1,h2,h3,h4,h6,h5,hlong,hb,hrange,hbs,htails,hcd,Utf8.first]
      | false => simp [h1,h2,h3,h4,h6,h5,hlong,hb,hrange,hbs,Utf8.first]

/-- A turn for each byte left is enough, and the walk answers for those bytes. -/
theorem decodeUtf8From_eq {xs : List UInt8} (h : p.drop i=xs) (hi : i ≤ p.length)
    (ht : xs.length < turns) : decodeUtf8From p turns i=some (Utf8.valid xs) := by
  induction turns generalizing i xs with
  | zero => omega
  | succ turns ih =>
    have hlen : xs.length=p.length-i := by rw [←h,List.length_drop]
    cases xs with
    | nil =>
      have hend : ¬i < p.length := by simp only [List.length_nil] at hlen; omega
      simp [decodeUtf8From,hend,Utf8.valid,Utf8.decode]
    | cons a t =>
      rw [decodeUtf8_step h]
      rcases Utf8.first_cases (a::t) with ⟨bs,rest,q,hx,hpos,-,hf⟩ | ⟨hf,-⟩ | hf
      · have hl : t.length+1=bs.length+rest.length := by
          rw [←List.length_cons,hx,List.length_append]
        have hvalid : Utf8.valid (a::t)=Utf8.valid rest := by
          rw [hx]
          exact Utf8.valid_append hf hpos rest
        have hdrop : p.drop (i+(t.length+1-rest.length))=rest := by
          have hn : t.length+1-rest.length=bs.length := by omega
          rw [hn,←List.drop_drop,h,hx,List.drop_left]
        have hfirst : Utf8.first (a::t)=.point q rest := by
          rw [hx]
          exact hf rest
        rw [hfirst,hvalid]
        simp only [List.length_cons] at hlen ht
        exact ih hdrop (by omega) (by omega)
      · rw [hf,Utf8.valid_of_short hf (by simp)]
      · have hbad := hf []
        rw [List.append_nil] at hbad
        rw [hbad,Utf8.valid_of_bad hbad]

/-- The walk over a payload accepts exactly the strict encodings, and reads nothing past it. -/
theorem decodeUtf8Checked_eq (p : List UInt8) : decodeUtf8Checked p=some (Utf8.valid p) := by
  rw [decodeUtf8Checked]
  exact decodeUtf8From_eq (by simp) (Nat.zero_le _) (by omega)

end Native

/-- What the two validators of a payload come to. -/
structure Validates (data : List UInt8) (start size : ℕ) : Prop where
  /-- The compiled walk reads nothing past the payload. -/
  inside : Native.decodeUtf8Checked ((data.drop start).take size)≠none
  /-- It accepts exactly the encodings of a text. -/
  native : Native.decodeUtf8Checked ((data.drop start).take size)=some true ↔
    ∃ ps, Utf8.encode ps=some ((data.drop start).take size)
  /-- The windows accept the same payloads. -/
  windows : utf8Valid data start size=true ↔
    Native.decodeUtf8Checked ((data.drop start).take size)=some true
  /-- They answer within as many passes as the payload has bytes. -/
  passes : ∀ turns, size < turns →
    utf8ValidFrom data start size turns 0=some (utf8Valid data start size)

/-- Both validators accept exactly the strict encodings, wherever the payload lies. -/
theorem utf8_validators {data : List UInt8} {start size : ℕ} (h : start+size ≤ data.length) :
    Validates data start size := by
  have hnative := Native.decodeUtf8Checked_eq ((data.drop start).take size)
  constructor
  · simp [hnative]
  · rw [hnative,←Utf8.valid_iff]
    simp
  · rw [hnative,utf8Valid_eq h]
    simp
  · intro turns ht
    rw [utf8Valid_eq h]
    exact utf8ValidFrom_eq h (Nat.zero_le _) (by omega)

/-- A text of two bytes between two others. -/
theorem utf8_validators_inner : Validates [0xFF,0xC3,0xA9,0xFF] 1 2 :=
  utf8_validators (by decide)

end SofaBuffers
