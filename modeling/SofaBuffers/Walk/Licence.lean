import SofaBuffers.Walk.Rows
import SofaBuffers.Walk.Welcome

/-!
# What a change of the storage may do

A licence names the slots and entries a change may write, the calls it may make
and what it may raise. A change that keeps to a licence is made of changes that
do, so what every read of the decoder does at most is settled once.
-/

set_option autoImplicit false

namespace SofaBuffers

variable {V : Type}

/-- What a change may do, the entries it may not write being as they are given. -/
structure Licence (V : Type) where
  /-- The slots it may write. -/
  word : ℕ → Prop
  /-- The entries it may write. -/
  obj : ℕ → Prop
  /-- The calls it may make. -/
  call : Event V → Prop
  /-- What it may raise, and over which storage. -/
  raise : Exn → Store V → Prop
  /-- What the entries hold all along. -/
  given : (ℕ → Obj) → Prop
  /-- The entries it may write are not among those. -/
  stable : ∀ o o' : ℕ → Obj, (∀ i, ¬obj i → o' i=o i) → given o → given o'

namespace Licence

variable (A : Licence V) (c : Config V)

/-- What a change came to is allowed. -/
structure Allows (s : Store V) (r : Store V × Option Exn) : Prop where
  /-- The other slots are as they were. -/
  word : ∀ i, ¬A.word i → r.1.word i=s.word i
  /-- The other entries are as they were. -/
  obj : ∀ i, ¬A.obj i → r.1.obj i=s.obj i
  /-- Calls were made behind those made before. -/
  log : ∃ es, r.1.log=s.log++es ∧ ∀ e ∈ es, A.call e
  /-- What is raised may be. -/
  raise : ∀ why, r.2=some why → A.raise why r.1

/-- A slot may be written, or it is raised that there is none. -/
def Word (i : ℕ) : Prop := A.word i ∧ (i < c.nwords ∨ ∀ s, A.raise .index s)

/-- An entry may be written, or it is raised that there is none. -/
def Object (i : ℕ) : Prop := A.obj i ∧ (i < c.nobjects ∨ ∀ s, A.raise .index s)

/-- An element may be stored, or it is raised that it does not fit. -/
def Fits (into : Sink) (i : ℕ) (x : ℤ) : Prop :=
  match into with
  | .unsignedWords => A.Word c i ∧ ((0 ≤ x ∧ x < 2^64) ∨ ∀ s, A.raise .value s)
  | .signedWords => A.Word c i ∧ ((-2^63 ≤ x ∧ x < 2^63) ∨ ∀ s, A.raise .value s)
  | .buffer d =>
    ((i+1)*d.itemsize ≤ d.nbytes ∨ ∀ s, A.raise .index s) ∧
      (((itemRange d.signed d.itemsize).1 ≤ x ∧ x ≤ (itemRange d.signed d.itemsize).2) ∨
        ∀ s, A.raise .value s)

/-- Something holds of a buffer, unless what a buffer is refused for may be raised. -/
def Sure (p : Prop) : Prop := p ∨ ∀ why s, why.cls=.argument ∨ why.cls=.value → A.raise why s

/-- Something holds of a buffer, unless what it is refused for may be raised over a storage. -/
def SureAt (s : Store V) (p : Prop) : Prop :=
  p ∨ ∀ why, why.cls=.argument ∨ why.cls=.value → A.raise why s

/-- The verdicts on a message may be raised. -/
def Verdicts : Prop := ∀ why s, why.cls=.decode ∨ why.cls=.limit → A.raise why s

variable {A c}
variable {s t : Store V} {r : Store V × Option Exn}

/-- What is sure over every storage is over each. -/
theorem Sure.at {p : Prop} (h : A.Sure p) (s : Store V) : A.SureAt s p :=
  h.imp_right fun hany why hw => hany why s hw

/-- What is given stays. -/
theorem Allows.given (h : A.Allows s r) (hg : A.given s.obj) : A.given r.1.obj :=
  A.stable _ _ h.obj hg

/-- Nothing done is allowed. -/
theorem allows_done (s : Store V) : A.Allows s (s,none) :=
  ⟨fun _ _ => rfl,fun _ _ => rfl,⟨[],(List.append_nil _).symm,by simp⟩,by simp⟩

/-- Raising is allowed where it may be done. -/
theorem allows_raise {why : Exn} (h : A.raise why s) : A.Allows s (s,some why) :=
  ⟨fun _ _ => rfl,fun _ _ => rfl,⟨[],(List.append_nil _).symm,by simp⟩,
    fun _ hw => by cases hw; exact h⟩

/-- What comes after an allowed change. -/
theorem Allows.trans (h : A.Allows s (t,none)) (h' : A.Allows t r) : A.Allows s r where
  word i hi := (h'.word i hi).trans (h.word i hi)
  obj i hi := (h'.obj i hi).trans (h.obj i hi)
  log := by
    obtain ⟨es,he,hes⟩ := h.log
    obtain ⟨fs,hf,hfs⟩ := h'.log
    refine ⟨es++fs,?_,fun e hm => ?_⟩
    · rw [hf,he,List.append_assoc]
    · rcases List.mem_append.mp hm with hm | hm
      · exact hes e hm
      · exact hfs e hm
  raise := h'.raise

/-- An update that calls nothing. -/
theorem allows_update {u : Store V} (hw : ∀ i, ¬A.word i → u.word i=s.word i)
    (ho : ∀ i, ¬A.obj i → u.obj i=s.obj i) (hl : u.log=s.log) : A.Allows s (u,none) :=
  ⟨hw,ho,⟨[],by rw [hl,List.append_nil],by simp⟩,by simp⟩

/-- Calls that may be made. -/
theorem allows_calls {es : List (Event V)} (h : ∀ e ∈ es, A.call e) (s : Store V) :
    A.Allows s (es.foldl Store.call s,none) := by
  induction es generalizing s with
  | nil => exact allows_done s
  | cons e es ih =>
    have hone : A.Allows s (s.call e,none) := by
      refine ⟨fun _ _ => rfl,fun _ _ => rfl,⟨[e],rfl,?_⟩,by simp⟩
      intro e' he
      rw [List.mem_singleton.mp he]
      exact h e List.mem_cons_self
    exact hone.trans (ih (fun e' he => h e' (List.mem_cons_of_mem e he)) (s.call e))

end Licence

/-- The change keeps to the licence wherever what is given holds. -/
def Effect.Within (A : Licence V) (f : Effect V) : Prop :=
  ∀ s, A.given s.obj → A.Allows s (f s)

section Within

variable {A : Licence V} {c : Config V} {f g : Effect V}

/-- Changing nothing keeps to every licence. -/
theorem within_done : (Effect.done : Effect V).Within A := fun s _ => A.allows_done s

/-- Raising does where it may be done. -/
theorem within_raise {why : Exn} (h : ∀ s, A.raise why s) : (Effect.raise why : Effect V).Within A :=
  fun s _ => A.allows_raise (h s)

/-- A change that was allowed and one that keeps to the licence. -/
theorem Licence.Allows.andThen {s : Store V} (hf : A.Allows s (f s)) (hg : g.Within A)
    (hs : A.given s.obj) : A.Allows s (f.andThen g s) := by
  rw [Effect.andThen]
  rcases hr : f s with ⟨t,_|why⟩
  · rw [hr] at hf
    exact hf.trans (hg t (hf.given hs))
  · rw [hr] at hf
    exact hf

/-- Changes in order keep to a licence when each does. -/
theorem Effect.Within.andThen (hf : f.Within A) (hg : g.Within A) : (f.andThen g).Within A :=
  fun s hs => (hf s hs).andThen hg hs

/-- A list of changes keeps to a licence when each does. -/
theorem within_all {fs : List (Effect V)} (h : ∀ f ∈ fs, f.Within A) : (Effect.all fs).Within A := by
  induction fs with
  | nil => exact within_done
  | cons f fs ih =>
    exact (h f List.mem_cons_self).andThen (ih fun g hg => h g (List.mem_cons_of_mem f hg))

/-- Calls that may be made keep to the licence. -/
theorem within_calls {es : List (Event V)} (h : ∀ e ∈ es, A.call e) :
    (Effect.update (es.foldl Store.call)).Within A := fun s _ => A.allows_calls h s

/-- Storing a word keeps to a licence for its slot. -/
theorem within_putWord {i : ℕ} (h : A.Word c i) (w : BitVec 64) :
    (Effect.putWord c i w).Within A := by
  intro s hs
  rw [Effect.putWord]
  split
  · refine A.allows_update (fun k hk => ?_) (fun _ _ => rfl) rfl
    have hne : k≠i := fun he => hk (he ▸ h.1)
    exact Function.update_of_ne hne w s.word
  · next hi => exact A.allows_raise ((h.2.resolve_left hi) s)

/-- Storing an object keeps to a licence for its entry. -/
theorem within_putObj {i : ℕ} (h : A.Object c i) (o : Obj) :
    (Effect.putObj c i o).Within A := by
  intro s hs
  rw [Effect.putObj]
  split
  · refine A.allows_update (fun _ _ => rfl) (fun k hk => ?_) rfl
    have hne : k≠i := fun he => hk (he ▸ h.1)
    exact Function.update_of_ne hne o s.obj
  · next hi => exact A.allows_raise ((h.2.resolve_left hi) s)

/-- A typed hook keeps to a licence for its call and for what it raises. -/
theorem within_deliver {v : V} {id : ℕ} {x : Value} (h : A.call (.value v id x))
    (hr : A.Verdicts) : (Effect.deliver c v id x).Within A := by
  have hcall : (Effect.call (.value v id x) : Effect V).Within A :=
    @within_calls _ A [.value v id x] (by simpa using h)
  refine hcall.andThen ?_
  cases (c.hooks v).onValue id x with
  | none => exact within_done
  | some r =>
    refine within_raise fun s => hr _ s ?_
    cases r with
    | decode msg => exact .inl rfl
    | limit msg => exact .inr rfl

/-- Storing an element keeps to a licence for its place. -/
theorem within_put {into : Sink} {i : ℕ} {x : ℤ} (h : A.Fits c into i x) :
    (into.put c i x).Within A := by
  have hword : ∀ j, A.word j → ∀ w, (Effect.update (·.setWord j w) : Effect V).Within A := by
    intro j hj w s _
    refine A.allows_update (fun k hk => ?_) (fun _ _ => rfl) rfl
    have hne : k≠j := fun he => hk (he ▸ hj)
    exact Function.update_of_ne hne w s.word
  cases into with
  | unsignedWords =>
    obtain ⟨hw,hx⟩ := h
    rw [Sink.put]
    split
    · split
      · exact hword i hw.1 _
      · next hr => exact within_raise (hx.resolve_left hr)
    · next hi => exact within_raise (hw.2.resolve_left hi)
  | signedWords =>
    obtain ⟨hw,hx⟩ := h
    rw [Sink.put]
    split
    · split
      · exact hword i hw.1 _
      · next hr => exact within_raise (hx.resolve_left hr)
    · next hi => exact within_raise (hw.2.resolve_left hi)
  | buffer d =>
    obtain ⟨hi,hx⟩ := h
    rw [Sink.put]
    split
    · dsimp only
      split
      · exact fun s _ => A.allows_update (fun _ _ => rfl) (fun _ _ => rfl) rfl
      · next hr => exact within_raise (hx.resolve_left hr)
    · next hn => exact within_raise (hi.resolve_left hn)

/-- Storing elements keeps to a licence for their places. -/
theorem within_fillFrom {into : Sink} {base i : ℕ} {xs : List ℤ}
    (h : ∀ k x, xs[k]?=some x → A.Fits c into (base+(i+k)) x) :
    (fillFrom c (some (into,base)) i xs).Within A := by
  induction xs generalizing i with
  | nil => exact within_done
  | cons x xs ih =>
    refine (within_put (h 0 x rfl)).andThen (ih fun k y hk => ?_)
    have hplace : base+(i+1+k)=base+(i+(k+1)) := by omega
    rw [hplace]
    exact h (k+1) y hk

/-- Elements that go nowhere keep to every licence. -/
theorem within_fillNone (i : ℕ) (xs : List ℤ) : (fillFrom c none i xs).Within A := by
  cases xs <;> exact within_done

/-- Copying a payload is allowed where the buffer is of unsigned bytes. -/
theorem allows_copyInto {s : Store V} {view : Dst} (h : view.signed=false ∨ A.raise .value s)
    (data : List UInt8) : A.Allows s ((copyInto view data : Effect V) s) := by
  rw [copyInto]
  split
  · next hs => exact A.allows_raise (h.resolve_left (by rw [hs]; simp))
  · exact A.allows_update (fun _ _ => rfl) (fun _ _ => rfl) rfl

/-- Copying a text is allowed where the buffer is of unsigned bytes. -/
theorem allows_copyText {s : Store V} {view : Dst} (h : view.signed=false ∨ A.raise .value s)
    (hr : A.Verdicts) (data : List UInt8) : A.Allows s ((copyText view data : Effect V) s) := by
  rw [copyText]
  split
  · exact allows_copyInto h data
  · exact A.allows_raise (hr _ s (.inl rfl))

/-- Going on with a text keeps to a licence when what is done with it does. -/
theorem within_withText (hr : A.Verdicts) {data : List UInt8} {k : List ℕ → Effect V}
    (hk : ∀ text, (k text).Within A) : (withText data k).Within A := by
  rw [withText]
  cases Utf8.decode data with
  | some text => exact hk text
  | none => exact within_raise fun s => hr _ s (.inl rfl)

/-- A place for so many doubles from `i` on, or it is raised that there is none. -/
def Licence.Doubles (A : Licence V) (c : Config V) (into : FloatSink) (i n : ℕ) : Prop :=
  match into with
  | .words => (∀ k, i ≤ k → k < i+n → A.word k) ∧ (i+n ≤ c.nwords ∨ ∀ s, A.raise .value s)
  | .buffer d => (i+n)*8 ≤ d.nbytes ∨ ∀ s, A.raise .value s

/-- Storing a slice of doubles keeps to a licence for their places. -/
theorem within_farrayPut {into : FloatSink} {i : ℕ} {ws : List (BitVec 64)}
    (h : A.Doubles c into i ws.length) : (into.put c i ws).Within A := by
  cases into with
  | words =>
    rw [FloatSink.put]
    split
    · intro s _
      refine A.allows_update (fun k hk => ?_) (fun _ _ => rfl) rfl
      exact if_neg fun hr => hk (h.1 k hr.1 hr.2)
    · next hn => exact within_raise (h.2.resolve_left hn)
  | buffer d =>
    rw [FloatSink.put]
    split
    · exact fun s _ => A.allows_update (fun _ _ => rfl) (fun _ _ => rfl) rfl
    · next hn => exact within_raise (h.resolve_left hn)

/-- A part of a place for doubles is one. -/
theorem Licence.Doubles.part {into : FloatSink} {i n j m : ℕ} (h : A.Doubles c into i n)
    (hi : i ≤ j) (hm : j+m ≤ i+n) : A.Doubles c into j m := by
  cases into with
  | words => exact ⟨fun k hk hk' => h.1 k (by omega) (by omega),h.2.imp_left fun hn => by omega⟩
  | buffer d =>
    refine h.imp_left fun hn => ?_
    have hmul := Nat.mul_le_mul_right 8 hm
    omega

/-- Storing a fixlen array keeps to a licence for its doubles. -/
theorem within_unpackFarrayInto {into : FloatSink} {base count : ℕ} (h : A.Doubles c into base count)
    (data : List UInt8) (width start : ℕ) {turns off : ℕ} (ht : count-off < turns) :
    (unpackFarrayInto c into base data count width start turns off).Within A := by
  induction turns generalizing off with
  | zero => omega
  | succ turns ih =>
    rw [unpackFarrayInto]
    split
    · next hoff =>
      dsimp only
      refine Effect.Within.andThen (within_farrayPut (h.part (by omega) ?_)) (ih ?_)
      · have hlen : (if width=4 then unpackF32Block structF32
            (elements width (min (count-off) farrayChunk) (data.drop (start+off*width)))
            else (elements width (min (count-off) farrayChunk)
              (data.drop (start+off*width))).map unpackF64).length=
              min (count-off) farrayChunk := by
          split
          · rw [unpackF32Block_eq,List.length_map,elements_length]
          · rw [List.length_map,elements_length]
        rw [hlen]
        omega
      · rw [farrayChunk]
        omega
    · exact within_done

/-- The second pass over booleans keeps to a licence for their slots. -/
theorem within_normaliseBooleans {count i : ℕ} (h : ∀ k, i ≤ k → k < i+count → A.Word c k) :
    (normaliseBooleans c count i).Within A := by
  induction count generalizing i with
  | zero => exact within_done
  | succ count ih =>
    have hi := h i (Nat.le_refl i) (by omega)
    have hrest := ih (i:=i+1) fun k hk hk' => h k (by omega) (by omega)
    intro s hs
    rw [normaliseBooleans]
    dsimp only
    split
    · refine Effect.Within.andThen ?_ hrest s hs
      split
      · exact within_putWord hi 1
      · exact within_done
    · next hn => exact A.allows_raise ((hi.2.resolve_left hn) s)

/-- Writing an arrival keeps to a licence for its slot. -/
theorem within_countArrival {e : Entry} (h : ∀ i, e.countAt=some i → A.Word c i) (got : ℕ) :
    (countArrival c e got).Within A := by
  rw [countArrival]
  cases hc : e.countAt with
  | none => exact within_done
  | some i => exact within_putWord (h i hc) _

/-- What the arrival of a row needs. -/
structure Licence.Arrival (A : Licence V) (c : Config V) (e : Entry) : Prop where
  /-- The slot of the held option. -/
  which : ∀ w, e.whichAt=some w → A.Word c w
  /-- The words reset. -/
  words : e.whichAt.isSome=true → ∀ p ∈ e.resetWords, A.Word c p.1
  /-- The objects reset. -/
  objects : e.whichAt.isSome=true → ∀ p ∈ e.resetObjects, A.Object c p.1
  /-- The buffers reset. -/
  into : e.whichAt.isSome=true → ∀ p ∈ e.resetInto, (resetInto c p.1 p.2).Within A

/-- What the arrival and the storing of a row need. -/
structure Licence.Row (A : Licence V) (c : Config V) (e : Entry) : Prop extends
    Licence.Arrival A c e where
  /-- The slot of the arrival. -/
  count : ∀ i, e.countAt=some i → A.Word c i
  /-- The slot of a scalar. -/
  scalar : e.kind.isScalar=true → A.Word c e.slot
  /-- The slots of an array. -/
  array : e.kind.isArray=true → ∀ k, e.slot ≤ k → k < e.slot+e.cap → A.Word c k
  /-- The slots of doubles. -/
  doubles : e.kind.isArray=true → A.Doubles c .words e.slot e.cap
  /-- The entry of a string or blob. -/
  object : e.kind.isObject=true → e.into=false → A.Object c e.slot
  /-- The entry of the buffer of a string or blob. -/
  entry : e.kind.isObject=true → e.into=true → e.slot < c.nobjects ∨ ∀ s, A.raise .index s
  /-- The buffer. -/
  filled : e.kind.isObject=true → e.into=true → ∀ s : Store V, A.given s.obj → ∀ n ≤ fixlenMax,
    (∀ most, e.declared=some most → n ≤ most) →
    A.SureAt s (∃ d, s.obj e.slot=.buffer d ∧ d.Holds 1 n ∧ d.signed=false)

/-- A buffer is reset within a licence for it. -/
theorem within_resetInto {slot : ℕ} (hslot : slot < c.nobjects ∨ ∀ s, A.raise .index s)
    {payload : List UInt8} (h : ∀ s : Store V, A.given s.obj →
      A.SureAt s (∃ d, s.obj slot=.buffer d ∧ d.Holds 1 payload.length ∧ d.signed=false)) :
    (resetInto c slot payload).Within A := by
  intro s hs
  rw [resetInto]
  dsimp only
  split
  · rcases h s hs with ⟨d,hd,hh,hu⟩ | hany
    · have hroom := hh.room
      rw [hd,writable.eq_def]
      dsimp only
      rw [if_pos hh.writable]
      dsimp only
      rw [if_neg (by rw [hh.itemsize]; omega),if_neg (by omega)]
      exact allows_copyInto (.inl hu) payload
    · cases hw : writable "a declared default" (s.obj slot) with
      | error why => exact A.allows_raise (hany why (.inl (writable_error hw)))
      | ok view =>
        dsimp only
        split
        · exact A.allows_raise (hany _ (.inl rfl))
        · split
          · exact A.allows_raise (hany _ (.inl rfl))
          · exact allows_copyInto (.inr (hany .value (.inr rfl))) payload
  · next hn => exact A.allows_raise ((hslot.resolve_left hn) s)

/-- Resetting an option keeps to a licence for the row. -/
theorem within_resetOption {e : Entry} (h : A.Arrival c e) (hw : e.whichAt.isSome=true) :
    (resetOption c e).Within A := by
  rw [resetOption,resetWords]
  refine Effect.Within.andThen (within_all fun f hf => ?_)
    (Effect.Within.andThen (within_all fun f hf => ?_) (within_all fun f hf => ?_))
  · obtain ⟨p,hp,rfl⟩ := List.mem_map.mp hf
    exact within_putWord (h.words hw p hp) _
  · obtain ⟨p,hp,rfl⟩ := List.mem_map.mp hf
    exact within_putObj (h.objects hw p hp) _
  · obtain ⟨p,hp,rfl⟩ := List.mem_map.mp hf
    exact h.into hw p hp

/-- The arrival of a one-of option keeps to a licence for the row. -/
theorem within_arrive {e : Entry} (h : A.Arrival c e) : (arrive c e).Within A := by
  rw [arrive]
  cases hw : e.whichAt with
  | none => exact within_done
  | some w =>
    have hput := within_putWord (h.which w hw) (BitVec.ofNat 64 e.fieldId)
    intro s hs
    dsimp only
    split
    · split
      · exact hput s hs
      · exact (within_resetOption h (by rw [hw]; rfl)).andThen hput s hs
    · next hn => exact A.allows_raise (((h.which w hw).2.resolve_left hn) s)

end Within

end SofaBuffers
