import SofaBuffers.Walk.Whole
import SofaBuffers.Walk.View

/-!
# Handlers that welcome everything

A handler that declines nothing, bounds nothing, raises nothing and offers
destinations with room leaves the verdict on a value to the value's bytes.
-/

set_option autoImplicit false

namespace SofaBuffers

open Resumable

variable {V : Type}

/-- The change raises nothing. -/
def Effect.Calm (f : Effect V) : Prop := ∀ s, (f s).2=none

section Calm

variable {c : Config V}

/-- A calm change goes well. -/
theorem Effect.Calm.eq {f : Effect V} (h : f.Calm) (s : Store V) : f s=((f s).1,none) :=
  Prod.ext rfl (h s)

/-- Changing nothing is calm. -/
theorem calm_done : (Effect.done : Effect V).Calm := fun _ => rfl

/-- Updating is calm. -/
theorem calm_update (f : Store V → Store V) : (Effect.update f).Calm := fun _ => rfl

/-- Calm changes in order are calm. -/
theorem Effect.Calm.andThen {f g : Effect V} (hf : f.Calm) (hg : g.Calm) : (f.andThen g).Calm := by
  intro s
  rw [Effect.andThen,hf.eq s]
  exact hg _

/-- A hook that does not raise is called calmly. -/
theorem calm_deliver {v : V} (h : ∀ id x, (c.hooks v).onValue id x=none) (id : ℕ) (x : Value) :
    (Effect.deliver c v id x).Calm := by
  rw [Effect.deliver,h]
  exact (calm_update _).andThen calm_done

end Calm

/-- The buffer is writable and has room for so many items of a size. -/
structure Dst.Holds (d : Dst) (size n : ℕ) : Prop where
  /-- It is a writable, contiguous buffer. -/
  writable : d.writable=true
  /-- The items of the buffer are of that size. -/
  itemsize : d.itemsize=size
  /-- There is room for them. -/
  room : n*size ≤ d.nbytes

/-- The handler declines nothing, bounds nothing and raises nothing, and the
destinations it offers have room. -/
structure Hooks.Welcoming (h : Hooks V) : Prop where
  /-- It accepts every field. -/
  field : ∀ g, h.onField=some g → ∀ f, g f=true
  /-- It enters every sequence. -/
  sequence : ∀ g, h.onSequenceBegin=some g → ∀ id, g id≠.skip
  /-- It declares no bound. -/
  bound : ∀ g, h.onSchemaBound=some g → ∀ id n t st, g id n t st < 0
  /-- The typed hooks do not raise. -/
  value : ∀ id x, h.onValue id x=none
  /-- It declares no element width, and a destination has eight-byte items of the
  array's own kind. -/
  array : ∀ g, h.onArrayBegin=some g → ∀ id t n dst lo hi, g id t n=some (dst,lo,hi) →
    lo=none ∧ hi=none ∧ ∀ d, dst=some d → d.Holds 8 n ∧ d.signed=decide (t=.arraySigned)
  /-- A blob's destination has room for its bytes. -/
  blob : ∀ g, h.onBlobBegin=some g → ∀ id n d, g id n=some d → d.Holds 1 n ∧ d.signed=false
  /-- A string's destination has room for its bytes. -/
  string : ∀ g, h.onStringBegin=some g → ∀ id n d, g id n=some d → d.Holds 1 n ∧ d.signed=false
  /-- The destination of a float array has room for as many doubles. -/
  floats : ∀ g, h.onFloatArrayBegin=some g → ∀ id st n d, g id st n=some d → d.Holds 8 n

/-- How a plan reads that refuses nothing but a string that is not UTF-8. -/
inductive Plan.Mild (c : Config V) : Extent → Plan V → Prop
  /-- One varint. -/
  | scalar {signed : Bool} {k : ℕ → Effect V} (hk : ∀ raw, (k raw).Calm) :
      Mild c (.scalar signed) (.scalar k)
  /-- So many payload bytes. -/
  | payload {st : FixlenSubtype} {n : ℕ} {k : List UInt8 → Effect V} (hst : st≠.string)
      (hk : ∀ data, data.length=n → (k data).Calm) : Mild c (.fixlen st n) (.payload n k)
  /-- A string. -/
  | text {n : ℕ} {k : List UInt8 → Effect V}
      (hk : ∀ data, data.length=n → Utf8.valid data=true → (k data).Calm)
      (hbad : ∀ data, Utf8.valid data=false → k data=.raise (.decode "invalid UTF-8 in string field")) :
      Mild c (.fixlen .string n) (.payload n k)
  /-- So many varints. -/
  | elements {signed : Bool} {n : ℕ} {into : Option (Sink × ℕ)} {k : List ℤ → Effect V}
      (hfill : ∀ raws : List ℕ, raws.length ≤ n → (∀ raw ∈ raws, raw < 2^64) →
        (fillFrom c into 0 (raws.map (element signed))).Calm)
      (hk : ∀ xs, (k xs).Calm) :
      Mild c (.varray signed n) (.elements n (.of none none signed) signed into k)
  /-- So many elements of a size. -/
  | span {st : FixlenSubtype} {n size : ℕ} {k : List UInt8 → Effect V}
      (hk : ∀ data, data.length=n*size → (k data).Calm) :
      Mild c (.farray st n size) (.payload (n*size) k)

/-- Nothing is outside a width that was not declared. -/
@[simp] theorem outside_none (zigzag : Bool) (x : ℤ) : (Bound.of none none zigzag).outside x=false :=
  rfl

/-- Every element is inside a width that was not declared. -/
theorem within_none (zigzag : Bool) (xs : List ℤ) : (Bound.of none none zigzag).within xs=xs := by
  rw [Bound.within]
  induction xs with
  | nil => rfl
  | cons x xs ih => rw [List.takeWhile_cons,outside_none,ih]; rfl

section Mild

variable {c : Config V} {x : Extent} {pl : Plan V}

/-- A mild plan fits the leading words. -/
theorem Plan.Mild.suits (h : pl.Mild c x) : pl.Suits x := by
  cases h with
  | scalar => exact .scalar _ _
  | payload => exact .payload _ _ _
  | text => exact .payload _ _ _
  | elements => exact .elements _ _ _ _ _ _
  | span => exact .span _ _ _ _

/-- A whole value is read. -/
theorem Plan.Mild.whole {y : Datum} {bs : List UInt8} (h : pl.Mild c y.extent) (hb : Body y bs)
    (ht : y.Textual) (s : Store V) (rest : List UInt8) :
    ∃ σ, pl.read c s (bs++rest)=.done σ rest := by
  have hcalm : (pl.take c y).Calm := by
    cases hb with
    | scalar signed hw => cases h with | scalar hk => exact hk _
    | fixlen st data =>
      cases h with
      | payload hst hk => exact hk _ rfl
      | text hk hbad => exact hk _ rfl ht
    | @varray bs raws signed hw =>
      cases h with
      | elements hfill hk =>
        rw [Plan.take,within_none,if_neg (by omega)]
        exact (hfill raws (Nat.le_refl _) hw.lt).andThen (hk _)
    | farray st hl => cases h with | span hk => exact hk _ hl
  rw [read_whole c hb h.suits,hcalm.eq s]
  exact ⟨_,rfl⟩

/-- The elements that are there are stored, and the scan goes on behind them. -/
theorem read_prefix {signed : Bool} {n : ℕ} {into : Option (Sink × ℕ)} {k : List ℤ → Effect V}
    (hfill : ∀ raws : List ℕ, raws.length ≤ n → (∀ raw ∈ raws, raw < 2^64) →
      (fillFrom c into 0 (raws.map (element signed))).Calm)
    {es bs : List UInt8} {raws : List ℕ} (he : Varint.SpellsAll es raws) (hn : raws.length < n)
    {t : Tail} (ht : scan (.of none none signed) signed (n-raws.length) bs=([],t)) (s : Store V) :
    ∃ σ, (Plan.elements n (.of none none signed) signed into k).read c s (es++bs)=
      match t with
      | .done rest => .of (k (raws.map (element signed)) σ) rest
      | .more => .more σ
      | .bad why => .bad why σ := by
  have hs := scan_spelled he (.of none none signed) signed (n-raws.length) bs fun _ _ => rfl
  rw [Nat.add_sub_cancel' (by omega),ht,List.append_nil] at hs
  rw [Plan.read,hs]
  dsimp only
  rw [(hfill raws (by omega) he.lt).eq s]
  exact ⟨_,rfl⟩

/-- A broken value is refused for being malformed. -/
theorem Plan.Mild.broken {xs : List UInt8} (h : pl.Mild c x) (hb : BrokenBody x xs) (s : Store V) :
    ∃ why σ, pl.read c s xs=.bad why σ ∧ why.cls=.decode := by
  cases hb with
  | scalar signed ho rest =>
    cases h with
    | scalar hk =>
      rw [Plan.read,Overlong.read ho]
      exact ⟨_,_,rfl,rfl⟩
  | text hu rest =>
    cases h with
    | payload hst hk => exact absurd rfl hst
    | text hk hbad =>
      rw [read_payload c _ s rfl,hbad _ hu]
      exact ⟨_,_,rfl,rfl⟩
  | element signed he hn ho rest =>
    cases h with
    | elements hfill hk =>
      rename_i es bs raws n into k
      have ht : scan (.of none none signed) signed (n-raws.length) (bs++rest)=([],.bad overlong) := by
        obtain ⟨m,hm⟩ : ∃ m, n-raws.length=m+1 := ⟨n-raws.length-1,by omega⟩
        rw [hm,scan,Overlong.read ho]
      obtain ⟨σ,hr⟩ := read_prefix (k:=k) hfill he hn ht s
      exact ⟨_,σ,hr,rfl⟩

/-- A value that is cut short is waited for. -/
theorem Plan.Mild.cut {xs : List UInt8} (h : pl.Mild c x) (hb : CutBody x xs) (s : Store V) :
    ∃ σ, pl.read c s xs=.more σ := by
  cases hb with
  | scalar signed hc =>
    cases h with
    | scalar hk =>
      rw [Plan.read,Varint.read_more_iff.mpr hc]
      exact ⟨_,rfl⟩
  | fixlen st hl =>
    cases h with
    | payload => exact ⟨_,read_payload_more c _ s hl⟩
    | text => exact ⟨_,read_payload_more c _ s hl⟩
  | varray signed he hn hc =>
    cases h with
    | elements hfill hk =>
      rename_i es bs raws n into k
      have ht : scan (.of none none signed) signed (n-raws.length) bs=([],.more) := by
        obtain ⟨m,hm⟩ : ∃ m, n-raws.length=m+1 := ⟨n-raws.length-1,by omega⟩
        rw [hm,scan,Varint.read_more_iff.mpr hc]
      exact read_prefix (k:=k) hfill he hn ht s
  | farray st hl =>
    cases h with
    | span hk => exact ⟨_,read_payload_more c _ s hl⟩

end Mild

/-- The bytes behind leading words open with a value, a broken one or the beginning
of one. -/
theorem body_cases (x : Extent) (xs : List UInt8) :
    (∃ y bs rest, Datum.extent y=x ∧ Body y bs ∧ y.Textual ∧ xs=bs++rest) ∨ BrokenBody x xs ∨
      CutBody x xs := by
  cases x with
  | scalar signed =>
    rcases word_cases xs with ⟨bs,v,rest,hw,rfl⟩ | ⟨bs,rest,ho,rfl⟩ | hc
    · exact Or.inl ⟨.scalar signed v,bs,rest,rfl,.scalar signed hw,trivial,rfl⟩
    · exact Or.inr (Or.inl (.scalar signed ho rest))
    · exact Or.inr (Or.inr (.scalar signed hc))
  | fixlen st n =>
    by_cases hl : xs.length < n
    · exact Or.inr (Or.inr (.fixlen st hl))
    · have hn : (xs.take n).length=n := by rw [List.length_take]; omega
      by_cases ht : (Datum.fixlen st (xs.take n)).Textual
      · exact Or.inl ⟨.fixlen st (xs.take n),xs.take n,xs.drop n,by rw [Datum.extent,hn],
          .fixlen st _,ht,(List.take_append_drop n xs).symm⟩
      · cases st with
        | string =>
          have hb := BrokenBody.text (Bool.not_eq_true _ ▸ ht) (xs.drop n)
          rw [hn,List.take_append_drop] at hb
          exact Or.inr (Or.inl hb)
        | fp32 | fp64 | blob => exact absurd trivial ht
  | varray signed n =>
    have hgo : ∀ (m : ℕ) (es : List UInt8) (raws : List ℕ) (ys : List UInt8),
        Varint.SpellsAll es raws → raws.length+m=n → xs=es++ys →
        (∃ y bs rest, Datum.extent y=.varray signed n ∧ Body y bs ∧ y.Textual ∧ xs=bs++rest) ∨
          BrokenBody (.varray signed n) xs ∨ CutBody (.varray signed n) xs := by
      intro m
      induction m with
      | zero =>
        intro es raws ys he hm hx
        refine Or.inl ⟨.varray signed raws,es,ys,?_,.varray signed he,trivial,hx⟩
        rw [Datum.extent,←hm,Nat.add_zero]
      | succ m ih =>
        intro es raws ys he hm hx
        subst hx
        rcases word_cases ys with ⟨bs,v,rest,hw,rfl⟩ | ⟨bs,rest,ho,rfl⟩ | hc
        · have happ : Varint.SpellsAll (es++bs) (raws++[v]) := by
            have h1 := he.append (.cons hw .nil)
            rwa [List.append_nil] at h1
          refine ih (es++bs) (raws++[v]) rest happ ?_ (List.append_assoc _ _ _).symm
          rw [List.length_append,List.length_singleton]
          omega
        · exact Or.inr (Or.inl (.element signed he (by omega) ho rest))
        · exact Or.inr (Or.inr (.varray signed he (by omega) hc))
    exact hgo n [] [] xs .nil (by rw [List.length_nil,Nat.zero_add]) rfl
  | farray st n size =>
    by_cases hl : xs.length < n*size
    · exact Or.inr (Or.inr (.farray st hl))
    · refine Or.inl ⟨.farray st n size (xs.take (n*size)),xs.take (n*size),xs.drop (n*size),rfl,
        .farray st ?_,trivial,(List.take_append_drop _ xs).symm⟩
      rw [List.length_take]
      omega

section Visit

variable {c : Config V} {v : V}

/-- An element of 64 bits fits an eight-byte item of its kind. -/
theorem element_item {signed : Bool} {raw : ℕ} (hr : raw < 2^64) :
    (itemRange signed 8).1 ≤ element signed raw ∧ element signed raw ≤ (itemRange signed 8).2 := by
  cases signed with
  | false =>
    show (0 : ℤ) ≤ raw ∧ (raw : ℤ) ≤ 2^(8*8)-1
    omega
  | true =>
    have hz := Zigzag.decode_range hr
    show -2^(8*8-1) ≤ Zigzag.decode raw ∧ Zigzag.decode raw ≤ 2^(8*8-1)-1
    omega

/-- Elements that fit its items fit a destination with room for them. -/
theorem calm_fillFrom {d : Dst} {n size : ℕ} (hd : d.Holds size n) {xs : List ℤ} {i : ℕ}
    (hn : i+xs.length ≤ n)
    (hr : ∀ x ∈ xs, (itemRange d.signed size).1 ≤ x ∧ x ≤ (itemRange d.signed size).2) :
    (fillFrom c (some (.buffer d,0)) i xs).Calm := by
  obtain ⟨-,rfl,hroom⟩ := hd
  induction xs generalizing i with
  | nil => exact calm_done
  | cons x xs ih =>
    rw [List.length_cons] at hn
    have hitem : (i+1)*d.itemsize ≤ d.nbytes :=
      (Nat.mul_le_mul_right _ (by omega)).trans hroom
    have hput : (Sink.put c (.buffer d) i x).Calm := by
      rw [Sink.put,if_pos hitem]
      dsimp only
      rw [if_pos (hr x List.mem_cons_self)]
      exact calm_update _
    rw [fillFrom,Nat.zero_add]
    exact hput.andThen (ih (by omega) fun y hy => hr y (List.mem_cons_of_mem x hy))

/-- A payload fits a destination with room for it. -/
theorem calm_copyInto {d : Dst} (hs : d.signed=false) (data : List UInt8) :
    (copyInto d data : Effect V).Calm := by
  rw [copyInto,hs]
  exact calm_update _

/-- A destination with room for a payload is taken as it is. -/
theorem byteView_holds {d : Dst} {n : ℕ} (hd : d.Holds 1 n) (who what : String) :
    byteView who what (.buffer d) n=.ok d := by
  have hroom := hd.room
  rw [byteView,writable.eq_def]
  dsimp only
  rw [if_pos hd.writable]
  dsimp only
  rw [if_neg (not_not.mpr hd.itemsize),if_neg (by omega)]

/-- A destination with room for an array is taken as it is. -/
theorem arrayView_holds {d : Dst} {n : ℕ} (hd : d.Holds 8 n) (zigzag : Bool) (lo hi : Option ℤ) :
    arrayView d zigzag lo hi n=.ok d := by
  have hroom := hd.room
  rw [arrayView,writable.eq_def]
  dsimp only
  rw [if_pos hd.writable]
  dsimp only
  have h8 := hd.itemsize
  rw [if_neg (by omega),if_neg (by simp [h8]),if_neg (by rw [h8]; omega)]

/-- A destination with room for the doubles is taken as it is. -/
theorem farrayView_holds {d : Dst} {n : ℕ} (hd : d.Holds 8 n) : farrayView d n=.ok d := by
  have hroom := hd.room
  rw [farrayView,writable.eq_def]
  dsimp only
  rw [if_pos hd.writable]
  dsimp only
  rw [if_neg (not_not.mpr hd.itemsize),if_neg (by omega)]

/-- The doubles of an array fit a destination with room for them. -/
theorem calm_unpackFarrayInto {d : Dst} {n : ℕ} (hd : d.Holds 8 n) (data : List UInt8)
    (width start : ℕ) {turns off : ℕ} (ho : off ≤ n) (ht : n-off < turns) :
    (unpackFarrayInto c (.buffer d) 0 data n width start turns off).Calm := by
  have hroom := hd.room
  induction turns generalizing off with
  | zero => omega
  | succ turns ih =>
    rw [unpackFarrayInto]
    by_cases hlt : off < n
    · rw [if_pos hlt,farrayChunk]
      refine Effect.Calm.andThen ?_ (ih (by omega) (by omega))
      have hlen : ∀ block : List (List UInt8), block.length=min (n-off) 64 →
          (if width=4 then unpackF32Block structF32 block else block.map unpackF64).length=
            min (n-off) 64 := by
        intro block hb
        split
        · rw [unpackF32Block_eq,List.length_map,hb]
        · rw [List.length_map,hb]
      rw [FloatSink.put,if_pos]
      · exact calm_update _
      · rw [hlen _ (elements_length _ _ _)]
        omega
    · rw [if_neg hlt]
      exact calm_done

/-- An array within the format's ceiling can be addressed. -/
def Extent.Small : Extent → Prop
  | .farray st n size => st.Sizes size ∧ n ≤ arrayMax
  | _ => True

/-- Leading words announce what can be addressed. -/
theorem Announces.small {hd : List UInt8} {id : ℕ} {x : Extent} (h : Announces hd (.value id x)) :
    x.Small := by
  cases h with
  | farray h hc hn hw hs => exact ⟨hs,hn⟩
  | scalar | fixlen | varray => trivial

/-- The elements of an array that can be addressed. -/
theorem span_eq {st : FixlenSubtype} {n size : ℕ} (h : Extent.Small (.farray st n size))
    (k : List UInt8 → Effect V) : Plan.span n size k=.payload (n*size) k := by
  have h8 : size ≤ 8 := by
    obtain ⟨hs,-⟩ := h
    cases st with
    | fp32 => exact (show size=4 from hs).le.trans (by omega)
    | fp64 => exact (show size=8 from hs).le
    | string | blob => exact absurd hs id
  have hle : n*size ≤ arrayMax*8 := Nat.mul_le_mul h.2 h8
  rw [Plan.span,if_neg]
  rw [arrayMax] at hle
  rw [sysMaxsize]
  omega

/-- How a welcoming handler's string, blob or float is read. -/
theorem mild_fixlen (h : (c.hooks v).Welcoming) (id : ℕ) (st : FixlenSubtype) (n : ℕ) :
    (fixlenPlan c v id (.fixlen st n) st n (fixlenOffer c v id st n).2).2.Mild c (.fixlen st n) := by
  have hnone : (fixlenPlan c v id (.fixlen st n) st n none).2.Mild c (.fixlen st n) := by
    rw [fixlenPlan.eq_def]
    dsimp only
    have hdel : ∀ (data : List UInt8) x, (Effect.deliver c v id x : Effect V).Calm :=
      fun _ x => calm_deliver h.value id x
    cases st with
    | string =>
      refine .text (fun data _ hv => ?_) fun data hv => ?_
      · rw [fixlenDelivery,withText]
        rw [Utf8.valid] at hv
        obtain ⟨text,ht⟩ := Option.isSome_iff_exists.mp hv
        rw [ht]
        exact calm_deliver h.value _ _
      · rw [fixlenDelivery,withText]
        rw [Utf8.valid,Option.isSome_eq_false_iff,Option.isNone_iff_eq_none] at hv
        rw [hv]
    | fp32 | fp64 | blob =>
      exact .payload (by simp) fun data _ => calm_deliver h.value _ _
  rw [fixlenOffer.eq_def]
  split
  · next begin hb =>
    cases hd : begin id n with
    | none => exact hnone
    | some d =>
      obtain ⟨hd,hs⟩ := h.string begin hb id n d hd
      rw [fixlenPlan,if_pos rfl]
      dsimp only
      rw [byteView_holds hd]
      refine .text (fun data _ hv => ?_) fun data hv => ?_
      · rw [copyText,if_pos hv]
        exact calm_copyInto hs data
      · rw [copyText,if_neg (by rw [hv]; simp)]
  · next begin hb =>
    cases hd : begin id n with
    | none => exact hnone
    | some d =>
      obtain ⟨hd,hs⟩ := h.blob begin hb id n d hd
      rw [fixlenPlan,if_neg (by simp)]
      dsimp only
      rw [byteView_holds hd]
      exact .payload (by simp) fun data _ => calm_copyInto hs data
  · exact hnone

/-- How a welcoming handler's integer array is read. -/
theorem mild_array (h : (c.hooks v).Welcoming) (id : ℕ) (signed : Bool) (n : ℕ) :
    (arrayPlan c v id (.varray signed n) n signed
      (arrayOffer c v id (varrayType signed) n).2).2.Mild c (.varray signed n) := by
  have hnone : (arrayPlan c v id (.varray signed n) n signed (none,none,none)).2.Mild c
      (.varray signed n) := by
    rw [arrayPlan.eq_def]
    dsimp only
    refine .elements (fun raws _ _ => ?_) fun xs => calm_deliver h.value _ _
    cases raws <;> exact calm_done
  rw [arrayOffer.eq_def]
  split
  · exact hnone
  · next begin hb =>
    dsimp only
    cases hans : begin id (varrayType signed) n with
    | none => exact hnone
    | some ans =>
      obtain ⟨dst,lo,hi⟩ := ans
      obtain ⟨rfl,rfl,hdst⟩ := h.array begin hb id _ n dst lo hi hans
      cases dst with
      | none => exact hnone
      | some d =>
        obtain ⟨hd,hs⟩ := hdst d rfl
        have hs' : d.signed=signed := by rw [hs]; cases signed <;> rfl
        rw [Option.getD_some,arrayPlan,arrayView_holds hd]
        refine .elements (fun raws hn hr => calm_fillFrom hd ?_ fun x hx => ?_) fun _ => calm_done
        · rw [List.length_map]
          omega
        · obtain ⟨raw,hraw,rfl⟩ := List.mem_map.mp hx
          rw [hs']
          exact element_item (hr raw hraw)

/-- How a welcoming handler's float array is read. -/
theorem mild_farray (h : (c.hooks v).Welcoming) (id : ℕ) {st : FixlenSubtype} {n size : ℕ}
    (hx : Extent.Small (.farray st n size)) :
    (visitFarrayPlan c v id (.farray st n size) st n size).2.2.Mild c (.farray st n size) := by
  have hoff : ∀ width, (farrayPlan c v id (.farray st n size) n size width
      (farrayOffer c v id width n).2).2.Mild c (.farray st n size) := by
    intro width
    have hnone : (farrayPlan c v id (.farray st n size) n size width none).2.Mild c
        (.farray st n size) := by
      rw [farrayPlan.eq_def]
      dsimp only
      rw [span_eq hx]
      exact .span fun data _ => calm_deliver h.value _ _
    rw [farrayOffer.eq_def]
    split
    · exact hnone
    · next begin hb =>
      dsimp only
      generalize hst : (if width=4 then FixlenSubtype.fp32 else .fp64)=st'
      cases hd : begin id st' n with
      | none => exact hnone
      | some d =>
        have hd := h.floats begin hb id st' n d hd
        rw [farrayPlan,farrayView_holds hd]
        dsimp only
        rw [span_eq hx]
        exact .span fun data _ => calm_unpackFarrayInto hd data width 0 (Nat.zero_le n) (by omega)
  rw [visitFarrayPlan]
  split
  · split
    · rw [farrayBitsPlan.eq_def]
      dsimp only
      rw [span_eq hx]
      exact .span fun data _ => calm_deliver h.value _ _
    · exact hoff 4
  · exact hoff 8

/-- However a value is announced, a welcoming handler's is read mildly. -/
theorem visitPlan_mild (h : (c.hooks v).Welcoming) (id : ℕ) {x : Extent} (hx : x.Small) :
    (visitPlan c v id x.pending.tag.1 x.pending).2.2.Mild c x := by
  cases x with
  | scalar signed => cases signed <;> exact .scalar fun raw => calm_deliver h.value _ _
  | fixlen st n => exact mild_fixlen h id st n
  | varray signed n =>
    cases signed with
    | false => exact mild_array h id false n
    | true => exact mild_array h id true n
  | farray st n size => exact mild_farray h id hx

end Visit

end SofaBuffers
