import SofaBuffers.Binder

/-!
# What can be built is well formed

Every binder method keeps to what a decoder relies on of a table, whether it
binds a row or raises halfway, and so do all the tables that can be built. The
tables a root reaches are a forest.
-/

set_option autoImplicit false

namespace SofaBuffers

namespace Binder

/-- A row that was filled in, and what it starts from. -/
structure Filled (e : Entry) (value : Option DefaultValue) (e' : Entry) : Prop where
  /-- The row is as it was but for what it owns. -/
  same : e'={e with ownWords := e'.ownWords, ownObjects := e'.ownObjects, ownInto := e'.ownInto}
  /-- The words are its arrival, its slot, or an array's elements. -/
  words : ∀ p ∈ e'.ownWords, e.countAt=some p.1 ∨ (e.kind.isScalar=true ∧ p.1=e.slot) ∨
    (e.kind.isArray=true ∧ ∃ v, value=some (.words v) ∧ p.1 < e.slot+v.length)
  /-- The objects are its own. -/
  objects : ∀ p ∈ e'.ownObjects, e.kind.isObject=true ∧ p.1=e.slot
  /-- The buffers it fills are at its slot, and only a default fills one. -/
  into : ∀ p ∈ e'.ownInto, e.kind.isObject=true ∧ p.1=e.slot ∧ value.isSome=true

/-- Filling in a row fills in what it owns. -/
theorem init_filled {e : Entry} (hw : e.ownWords=[]) (ho : e.ownObjects=[]) (hi : e.ownInto=[])
    (bits : BitVec 64) (value : Option DefaultValue) : Filled e value (e.init bits value) := by
  rw [Entry.init.eq_def]
  extract_lets arrived start
  have harrived : ∀ p ∈ arrived, e.countAt=some p.1 := by
    intro p hp
    unfold arrived at hp
    split at hp
    · cases hp
    · next c hc =>
      rw [hc]
      split at hp <;> rw [List.mem_singleton.mp hp]
  clear_value arrived start
  have hnoWords : ∀ p ∈ e.ownWords, False := by simp [hw]
  have hnoObjects : ∀ p ∈ e.ownObjects, False := by simp [ho]
  have hnoInto : ∀ p ∈ e.ownInto, False := by simp [hi]
  split
  · next hs =>
    refine ⟨rfl,?_,fun p hp => (hnoObjects p hp).elim,fun p hp => (hnoInto p hp).elim⟩
    intro p hp
    rcases List.mem_cons.mp hp with rfl | hp
    · exact Or.inr (Or.inl ⟨hs,rfl⟩)
    · exact Or.inl (harrived p hp)
  · split
    · next hk =>
      rw [Bool.and_eq_true] at hk
      refine ⟨rfl,fun p hp => Or.inl (harrived p hp),?_,fun p hp => (hnoInto p hp).elim⟩
      intro p hp
      rw [List.mem_singleton.mp hp]
      exact ⟨hk.1,rfl⟩
    · split
      · next v =>
        split
        · next hk =>
          refine ⟨rfl,fun p hp => Or.inl (harrived p hp),fun p hp => (hnoObjects p hp).elim,?_⟩
          intro p hp
          rw [List.mem_singleton.mp hp]
          exact ⟨hk,rfl,rfl⟩
        · exact ⟨rfl,fun p hp => Or.inl (harrived p hp),fun p hp => (hnoObjects p hp).elim,
            fun p hp => (hnoInto p hp).elim⟩
      · next v =>
        split
        · next hk =>
          refine ⟨rfl,?_,fun p hp => (hnoObjects p hp).elim,fun p hp => (hnoInto p hp).elim⟩
          intro p hp
          rcases List.mem_append.mp hp with hp | hp
          · obtain ⟨i,hi',rfl⟩ := List.mem_mapIdx.mp hp
            exact Or.inr (Or.inr ⟨hk,v,rfl,Nat.add_lt_add_left hi' e.slot⟩)
          · exact Or.inl (harrived p hp)
        · exact ⟨rfl,fun p hp => Or.inl (harrived p hp),fun p hp => (hnoObjects p hp).elim,
            fun p hp => (hnoInto p hp).elim⟩
      · exact ⟨rfl,fun p hp => Or.inl (harrived p hp),fun p hp => (hnoObjects p hp).elim,
          fun p hp => (hnoInto p hp).elim⟩

section WellFormed

variable {n : ℕ} {b : Binding}

/-- A table in a larger forest is well formed there. -/
theorem wellFormed_mono {m : ℕ} (h : b.WellFormed n) (hm : n ≤ m) : b.WellFormed m :=
  {h with childLt := fun e he r hr => Nat.lt_of_lt_of_le (h.childLt e he r hr) hm}

/-- Asking for more storage leaves a table well formed. -/
theorem wellFormed_grow (h : b.WellFormed n) {words objects : ℕ} (hw : b.wordsRequired ≤ words)
    (ho : b.objectsRequired ≤ objects) :
    Binding.WellFormed n {b with wordsRequired := words, objectsRequired := objects} :=
  {h with
    words := fun e he => (h.words e he).trans hw
    objects := fun e he => (h.objects e he).trans ho
    which := fun w hw' => Nat.lt_of_lt_of_le (h.which w hw') hw
    ownWords := fun e he p hp => Nat.lt_of_lt_of_le (h.ownWords e he p hp) hw
    ownObjects := fun e he p hp => Nat.lt_of_lt_of_le (h.ownObjects e he p hp) ho
    ownInto := fun e he p hp => Nat.lt_of_lt_of_le (h.ownInto e he p hp) ho}

/-- A row that may be bound to a table. -/
structure Fits (n : ℕ) (b : Binding) (e : Entry) (value : Option DefaultValue) : Prop where
  /-- Its id is in range and free. -/
  id : e.fieldId ≤ idMax ∧ (b.find e.fieldId).isNone=true
  /-- It names a table exactly when it is a sequence row. -/
  child : (e.kind=.sequence ↔ e.child.isSome) ∧ ∀ r, e.child=some r → r < n
  /-- Its capacity is within the format's ceiling. -/
  cap : e.cap ≤ arrayMax
  /-- The ends of its declared width are within 64 bits. -/
  width : signedMin ≤ e.elemLo ∧ 0 ≤ e.elemHi ∧ e.elemHi ≤ unsignedMax
  /-- There is storage for it. -/
  room : e.wordsNeeded ≤ b.wordsRequired ∧ e.objectsNeeded ≤ b.objectsRequired
  /-- Nothing was pushed onto it. -/
  unfrozen : e.whichAt=none
  /-- It owns nothing yet. -/
  bare : e.ownWords=[] ∧ e.ownObjects=[] ∧ e.ownInto=[]
  /-- The elements of a default fit its capacity. -/
  elements : ∀ v, value=some (.words v) → v.length ≤ e.cap
  /-- An option of its own has no such default. -/
  option : b.whichAt.isSome=true → value=none

/-- A row that fits is bound. -/
theorem wellFormed_push (h : b.WellFormed n) {e : Entry} {value : Option DefaultValue}
    (he : Fits n b e value) (bits : BitVec 64) :
    Binding.WellFormed n {b with entries := b.entries++[e.init bits value]} := by
  have hf := init_filled he.bare.1 he.bare.2.1 he.bare.2.2 bits value
  generalize e.init bits value=e' at hf ⊢
  obtain ⟨words,objects,into,rfl⟩ : ∃ words objects into, e'={e with
      ownWords := words, ownObjects := objects, ownInto := into} := ⟨_,_,_,hf.same⟩
  have hall : ∀ {P : Entry → Prop}, (∀ x ∈ b.entries, P x) → P {e with
      ownWords := words, ownObjects := objects, ownInto := into} →
      ∀ x ∈ b.entries++[{e with ownWords := words, ownObjects := objects, ownInto := into}], P x := by
    intro P hold hnew x hx
    rcases List.mem_append.mp hx with hx | hx
    · exact hold x hx
    · rw [List.mem_singleton.mp hx]
      exact hnew
  have hobject : ∀ i, e.kind.isObject=true → i=e.slot → i < b.objectsRequired := by
    intro i hk hi
    have hroom := he.room.2
    rw [Entry.objectsNeeded,if_pos hk] at hroom
    omega
  exact {
    ids := by
      rw [List.map_append,List.map_cons,List.map_nil]
      refine List.nodup_append.mpr ⟨h.ids,List.nodup_singleton _,?_⟩
      intro x hx y hy hxy
      obtain ⟨e₀,he₀,rfl⟩ := List.mem_map.mp hx
      rw [List.mem_singleton.mp hy] at hxy
      have hfree := Option.isNone_iff_eq_none.mp he.id.2
      rw [Binding.find,List.find?_eq_none] at hfree
      exact hfree e₀ he₀ (decide_eq_true hxy)
    idMax := hall h.idMax he.id.1
    child := hall h.child he.child.1
    childLt := hall h.childLt he.child.2
    cap := hall h.cap he.cap
    width := hall h.width he.width
    words := hall h.words he.room.1
    objects := hall h.objects he.room.2
    which := h.which
    unfrozen := hall h.unfrozen he.unfrozen
    option := by
      intro hw
      refine hall (h.option hw) fun hk => ⟨fun p hp => ?_,?_,?_⟩
      · rcases hf.words p hp with hp | hp | ⟨-,v,hv,-⟩
        · exact hp
        · have hk' : e.kind.isArray=true := hk
          have hscalar := hp.1
          cases hkind : e.kind <;> rw [hkind] at hk' hscalar <;> cases hk' <;> cases hscalar
        · rw [he.option hw] at hv
          cases hv
      · refine List.eq_nil_iff_forall_not_mem.mpr fun p hp => ?_
        have hk' : e.kind.isArray=true := hk
        have hobj := (hf.objects p hp).1
        cases hkind : e.kind <;> rw [hkind] at hk' hobj <;> cases hk' <;> cases hobj
      · refine List.eq_nil_iff_forall_not_mem.mpr fun p hp => ?_
        have hv := (hf.into p hp).2.2
        rw [he.option hw] at hv
        cases hv
    held := by
      intro hw
      refine hall (h.held hw) (List.eq_nil_iff_forall_not_mem.mpr fun p hp => ?_)
      have hv := (hf.into p hp).2.2
      rw [he.option hw] at hv
      cases hv
    ownWords := by
      refine hall h.ownWords fun p hp => ?_
      have hroom := he.room.1
      rcases hf.words p hp with hp | ⟨hk,hp⟩ | ⟨hk,v,hv,hp⟩
      · exact Nat.lt_of_lt_of_le (Entry.countAt_lt hp) hroom
      · rw [Entry.wordsNeeded] at hroom
        have hk' : e.kind.isArray=false := by
          cases hkind : e.kind <;> rw [hkind] at hk <;> first | rfl | cases hk
        rw [if_neg (by rw [hk']; decide),if_pos hk] at hroom
        have hle : e.slot+1 ≤ b.wordsRequired := (Nat.le_max_right _ _).trans hroom
        show p.1 < b.wordsRequired
        omega
      · rw [Entry.wordsNeeded,if_pos hk] at hroom
        have hv' := he.elements v hv
        have hle : e.slot+e.cap ≤ b.wordsRequired := (Nat.le_max_right _ _).trans hroom
        show p.1 < b.wordsRequired
        omega
    ownObjects := hall h.ownObjects fun p hp => hobject p.1 (hf.objects p hp).1 (hf.objects p hp).2
    ownInto := hall h.ownInto fun p hp => hobject p.1 (hf.into p hp).1 (hf.into p hp).2.1 }

end WellFormed

/-- Whatever a method comes to, it leaves a table of a kind. -/
def Leaves {α : Type} (P : Binding → Prop) : EStateM.Result Exn Binding α → Prop
  | .ok _ b | .error _ b => P b

section Add

variable {P : Binding → Prop} {narrow : BitVec 64 → Option (BitVec 32)} {n : ℕ} {b : Binding}

/-- A check that is passed or not leaves the table as it was. -/
theorem leaves_check {α β : Type} {r : Except Exn α} {f : α → EStateM Exn Binding β} (hb : P b)
    (h : ∀ a, r=.ok a → Leaves P (f a b)) : Leaves P ((check r >>= f) b) := by
  rw [run_bind]
  cases r with
  | error e => exact hb
  | ok a => exact h a rfl

/-- An id that is free and in range. -/
theorem freeId_ok {fieldId : Given} {fid : ℕ} (h : freeId b fieldId=.ok fid) :
    fid ≤ idMax ∧ (b.find fid).isNone=true := by
  rw [freeId] at h
  split at h
  · cases h
  · split at h
    · cases h
    · next v _ hrange =>
      split at h
      · cases h
      · next hfree =>
        cases h
        refine ⟨by omega,?_⟩
        simpa using hfree

/-- A capacity in range. -/
theorem capacity_ok {kind : Kind} {cap : Given} {k : ℕ} (h : capacity kind cap=.ok k) :
    k ≤ arrayMax := by
  have hmax : fixlenMax=arrayMax := rfl
  rw [capacity,hmax,ite_self] at h
  split at h
  · cases h
  · split at h
    · cases h
    · next v _ hrange =>
      cases h
      omega

/-- A declared width in range. -/
theorem width_ok {kind : Kind} {elemLo elemHi : Option Given} {lo hi : ℤ}
    (h : width kind elemLo elemHi=.ok (lo,hi)) : signedMin ≤ lo ∧ 0 ≤ hi ∧ hi ≤ unsignedMax := by
  have hmost : widest kind ≤ unsignedMax := by
    rw [widest]
    split
    · rw [signedMax,unsignedMax]
      omega
    · exact Int.le_refl _
  rw [width] at h
  split at h
  · cases h
  · split at h
    · cases h
    · split at h
      · cases h
      · next hrange =>
        cases h
        rw [not_or,not_not,not_not] at hrange
        exact ⟨hrange.1.1,hrange.2.1,Int.le_trans hrange.2.2 hmost⟩

/-- A default has as many words as elements. -/
theorem mapM_length {α β : Type} {f : α → Except Exn β} {xs : List α} {ys : List β}
    (h : xs.mapM f=.ok ys) : ys.length=xs.length := by
  induction xs generalizing ys with
  | nil => cases h; rfl
  | cons x xs ih =>
    rw [List.mapM_cons] at h
    cases hx : f x with
    | error e => rw [hx] at h; cases h
    | ok y =>
      rw [hx] at h
      cases hrest : xs.mapM f with
      | error e => rw [hrest] at h; cases h
      | ok zs =>
        rw [hrest] at h
        cases h
        rw [List.length_cons,List.length_cons,ih hrest]

/-- A string or blob default has no elements. -/
theorem defaultObject_ok {kind : Kind} {default : Default} {cap : ℕ} {value : DefaultValue}
    {data : List UInt8} (h : defaultObject kind default cap=.ok (value,data)) :
    ∀ words, value≠.words words := by
  have hfits : ∀ {v : DefaultValue} {bs : List UInt8}, (∀ words, v≠.words words) →
      (let length := bs.length
        if cap≠0 ∧ cap < length then
          (.error (.argument
            s!"default of {length} bytes is longer than the declared maxlen {cap}") :
              Except Exn (DefaultValue × List UInt8))
        else .ok (v,bs))=.ok (value,data) → ∀ words, value≠.words words := by
    intro v bs hv h
    dsimp only at h
    split at h <;> cases h
    exact hv
  rw [defaultObject] at h
  split at h
  · split at h
    · cases h
    · split at h
      · cases h
      · exact hfits (fun words hw => by cases hw) h
  · split at h
    · cases h
    · split at h
      · cases h
      · exact hfits (fun words hw => by cases hw) h

/-- What a row starts from fits its capacity, and an option has nothing of its own. -/
theorem prepared_ok {whichAt : Option ℕ} {kind : Kind} {default : Option Default} {cap : ℕ}
    {lo hi : ℤ} {into : Bool} {bits : BitVec 64} {value : Option DefaultValue}
    (h : prepared narrow whichAt kind default cap lo hi into=.ok (bits,value)) :
    (∀ v, value=some (.words v) → v.length ≤ cap) ∧ (whichAt.isSome=true → value=none) := by
  rw [prepared.eq_def] at h
  split at h
  · cases h
    exact ⟨by simp,fun _ => rfl⟩
  · split at h
    · split at h <;> cases h
      exact ⟨by simp,fun _ => rfl⟩
    · split at h
      · cases h
      · next v hv =>
        cases h
        rw [defaultPayload] at hv
        split at hv
        · cases hv
        · split at hv
          · cases hv
          · next hnone =>
            refine ⟨?_,fun hw => absurd hw hnone⟩
            rintro words hwords
            cases hwords
            split at hv
            · split at hv
              · cases hv
              · next value data hobj =>
                split at hv
                · cases hv
                · cases hv
                  exact absurd rfl (defaultObject_ok hobj words)
            · split at hv
              · cases hv
              · next ws hws =>
                cases hv
                rw [defaultElements] at hws
                split at hws
                · cases hws
                · dsimp only at hws
                  split at hws
                  · cases hws
                  · next hfit =>
                    rw [mapM_length hws]
                    omega

/-- Storage is claimed for a value and its arrival. -/
theorem require_grow (kind : Kind) (slot k : ℕ) (cnt : Option ℕ) (b : Binding) :
    ∃ words objects, requireValue kind slot k (requireCount cnt b)={b with
        wordsRequired := words, objectsRequired := objects} ∧
      b.wordsRequired ≤ words ∧ b.objectsRequired ≤ objects ∧
      (∀ c, cnt=some c → c < words) ∧ (kind.isObject=true → slot < objects) ∧
      (kind.isArray=true → slot+k ≤ words) ∧ (kind.isScalar=true → slot < words) := by
  have hcount : ∃ words, requireCount cnt b={b with wordsRequired := words} ∧
      b.wordsRequired ≤ words ∧ ∀ c, cnt=some c → c < words := by
    cases cnt with
    | none => exact ⟨b.wordsRequired,rfl,Nat.le_refl _,by simp⟩
    | some c =>
      refine ⟨max b.wordsRequired (c+1),rfl,Nat.le_max_left _ _,?_⟩
      rintro _ ⟨⟩
      exact Nat.le_max_right _ _
  obtain ⟨words,hwords,hle,hcnt⟩ := hcount
  rw [hwords,requireValue]
  split
  · next hk =>
    refine ⟨words,max b.objectsRequired (slot+1),rfl,hle,Nat.le_max_left _ _,hcnt,
      fun _ => Nat.le_max_right _ _,fun ha => ?_,fun hs => ?_⟩
    · cases kind <;> cases hk <;> cases ha
    · cases kind <;> cases hk <;> cases hs
  · next hobj =>
    split
    · next hk =>
      refine ⟨max words (slot+k),b.objectsRequired,rfl,hle.trans (Nat.le_max_left _ _),
        Nat.le_refl _,fun c hc => Nat.lt_of_lt_of_le (hcnt c hc) (Nat.le_max_left _ _),
        fun ho => absurd ho hobj,fun _ => Nat.le_max_right _ _,fun hs => ?_⟩
      cases kind <;> cases hk <;> cases hs
    · next harr =>
      split
      · exact ⟨max words (slot+1),b.objectsRequired,rfl,hle.trans (Nat.le_max_left _ _),
          Nat.le_refl _,fun c hc => Nat.lt_of_lt_of_le (hcnt c hc) (Nat.le_max_left _ _),
          fun ho => absurd ho hobj,fun ha => absurd ha harr,fun _ => Nat.le_max_right _ _⟩
      · next hseq =>
        refine ⟨words,b.objectsRequired,rfl,hle,Nat.le_refl _,hcnt,fun ho => absurd ho hobj,
          fun ha => absurd ha harr,fun hs => ?_⟩
        rw [not_not.mp hseq] at hs
        cases hs

/-- Binding a row leaves a table well formed, also when it raises. -/
theorem add_wellFormed (h : b.WellFormed n) {kind : Kind} {child : Option ℕ}
    (hc : (kind=.sequence ↔ child.isSome) ∧ ∀ r, child=some r → r < n) (fieldId slot cap : Given)
    (countAt elemLo elemHi : Option Given) (into : Bool) (default : Option Default) :
    Leaves (·.WellFormed n)
      (add narrow kind fieldId slot cap countAt child elemLo elemHi into default b) := by
  rw [add,run_get_bind]
  refine leaves_check h fun fid hfid => leaves_check h fun slot _ => leaves_check h fun k hk =>
    leaves_check h fun cnt _ => ?_
  rw [run_modify_bind,run_modify_bind]
  obtain ⟨words,objects,hb,hwords,hobjects,hcnt,hobject,harray,hscalar⟩ :=
    require_grow kind slot k cnt b
  have hgrow := wellFormed_grow h hwords hobjects
  rw [hb]
  refine leaves_check hgrow fun declared hdeclared => ?_
  rw [run_get_bind]
  refine leaves_check hgrow fun start hstart => ?_
  rw [run_modify]
  have hprep := prepared_ok hstart
  refine wellFormed_push hgrow (?_ : Fits n _ _ start.2) start.1
  exact {
    id := freeId_ok hfid
    child := hc
    cap := capacity_ok hk
    width := width_ok hdeclared
    room := by
      constructor
      · exact Entry.wordsNeeded_le hcnt harray hscalar
      · rw [Entry.objectsNeeded]
        split
        · next ho => exact hobject ho
        · exact Nat.zero_le _
    unfrozen := rfl
    bare := ⟨rfl,rfl,rfl⟩
    elements := hprep.1
    option := hprep.2 }

/-- Every binder method whose child is a table leaves a table well formed. -/
theorem run_wellFormed (h : b.WellFormed n) {m : Method} (hs : ¬m.stray=true)
    (hm : ∀ g, m.child=some g → g < n) :
    Leaves (·.WellFormed n) (m.run narrow b) := by
  have hplain : ∀ {kind : Kind}, kind≠.sequence →
      (kind=.sequence ↔ (none : Option ℕ).isSome) ∧ ∀ r, (none : Option ℕ)=some r → r < n :=
    fun hk => ⟨⟨fun h => absurd h hk,fun h => by cases h⟩,by simp⟩
  cases m with
  | sequence fieldId child countAt =>
    have hchild : child.isSome := by
      cases child with
      | none => exact absurd rfl hs
      | some g => rfl
    exact add_wellFormed h ⟨⟨fun _ => hchild,fun _ => rfl⟩,fun r hr => hm r hr⟩ _ _ _ _ _ _ _ _
  | unsigned | signed | boolean | float32 | float64 | string | bytes | stringInto | blobInto
  | unsignedArray | signedArray | booleanArray | float32Array | float64Array =>
    exact add_wellFormed h (hplain (by decide)) _ _ _ _ _ _ _ _

end Add

section Heap

variable {narrow : BitVec 64 → Option (BitVec 32)} {heap : List Cell}

/-- A new table is well formed. -/
theorem create_wellFormed {closed : Bool} {whichAt : Option Given} {defaultId : Given} {b : Binding}
    (h : create closed whichAt defaultId=.ok b) (n : ℕ) : b.WellFormed n := by
  rw [create] at h
  split at h
  · cases h
  · next which _ =>
    split at h
    · cases h
    · split at h
      · cases h
      · cases h
        refine Binding.wellFormed_empty rfl fun w hw => ?_
        have hw' : which=some w := hw
        rw [hw']
        exact Nat.lt_succ_self w

/-- A binder call leaves the tables alone, or leaves of one what the method does to it. -/
theorem bind_cases (narrow : BitVec 64 → Option (BitVec 32)) (heap : List Cell) (r : ℕ)
    (m : Method) : (bind narrow heap r m).2=heap ∨ ∃ (self : Cell) (b : Binding),
      heap[r]?=some self ∧ ¬m.stray=true ∧
        (bind narrow heap r m).2=heap.set r {self with table := b} ∧
        ∀ P : Binding → Prop, Leaves P (m.run narrow self.table) → P b := by
  rw [bind]
  split
  · exact .inl rfl
  · next self hself =>
    dsimp only
    split
    · exact .inl rfl
    · next hs =>
      split
      · exact .inl rfl
      · split
        · exact .inl rfl
        · cases hr : m.run narrow self.table with
          | ok _ b => exact .inr ⟨self,b,hself,hs,rfl,fun P h => by rwa [hr] at h⟩
          | error e b => exact .inr ⟨self,b,hself,hs,rfl,fun P h => by rwa [hr] at h⟩

/-- All tables that can be built are well formed. -/
theorem built_wellFormed (h : Built narrow heap) :
    ∀ cell ∈ heap, cell.table.WellFormed heap.length := by
  induction h with
  | empty => exact fun _ hc => absurd hc List.not_mem_nil
  | @create heap closed whichAt defaultId b hb _ ih =>
    intro cell hc
    rw [List.length_append]
    rcases List.mem_append.mp hc with hc | hc
    · exact wellFormed_mono (ih cell hc) (Nat.le_add_right _ _)
    · rw [List.mem_singleton.mp hc]
      exact create_wellFormed hb _
  | @bind heap r m hm _ ih =>
    have hset : ∀ (self : Cell) (b : Binding), b.WellFormed heap.length →
        ∀ cell ∈ heap.set r {self with table := b},
          cell.table.WellFormed (heap.set r {self with table := b}).length := by
      intro self b hb cell hc
      rw [List.length_set]
      rcases List.mem_or_eq_of_mem_set hc with hc | rfl
      · exact ih cell hc
      · exact hb
    rcases bind_cases narrow heap r m with hsame | ⟨self,b,hself,hs,hleft,hruns⟩
    · rw [hsame]
      exact ih
    · rw [hleft]
      exact hset self b (hruns _ (run_wellFormed (ih self (List.mem_of_getElem? hself)) hs hm))
  | @freeze heap root _ ih =>
    intro cell hc
    rw [freeze] at hc ⊢
    rw [List.length_mapIdx]
    obtain ⟨i,hi,rfl⟩ := List.mem_mapIdx.mp hc
    have hkept := ih _ (List.getElem_mem hi)
    split <;> exact hkept

/-- A table that was built is well formed. -/
theorem tableAt_wellFormed (h : Built narrow heap) (r : ℕ) :
    (tableAt heap r).WellFormed heap.length := by
  rw [tableAt]
  split
  · next cell hcell => exact built_wellFormed h cell (List.mem_of_getElem? hcell)
  · exact Binding.wellFormed_empty rfl (by simp)

/-- With a table a root reaches the tables its rows name. -/
theorem reachable_child (h : Built narrow heap) {root : ℕ} (hr : root < heap.length) {r g : ℕ}
    (hmem : r ∈ reachable heap root) {e : Entry} (he : e ∈ (tableAt heap r).entries)
    (hg : e.child=some g) : g ∈ reachable heap root := by
  have hall : ∀ a ∈ List.range heap.length, ∀ b ∈ children heap a, b ∈ List.range heap.length := by
    intro a _ b hb
    obtain ⟨e,he,hchild⟩ := List.mem_filterMap.mp hb
    exact List.mem_range.mpr ((tableAt_wellFormed h a).childLt e he b hchild)
  refine Worklist.visitFrom_closed hall (i:=0) ?_ (List.nodup_singleton root) (Nat.zero_le _) ?_ ?_
    r hmem g (List.mem_filterMap.mpr ⟨e,he,hg⟩)
  · intro a ha
    rw [List.mem_singleton.mp ha]
    exact List.mem_range.mpr hr
  · rw [List.length_range]
    omega
  · intro j hj
    cases hj

/-- A root reaches itself, first of all. -/
theorem reachable_root (heap : List Cell) (root : ℕ) : ∃ rest, reachable heap root=root::rest := by
  obtain ⟨new,hnew⟩ := @Worklist.visitFrom_append _ _ (children heap) (heap.length+1) 0 [root]
  exact ⟨new,hnew⟩

/-- A table keeps what is asked of it under other numbers. -/
theorem renumbered_wellFormed {n : ℕ} {b : Binding} (h : b.WellFormed n) {order : List ℕ}
    (hchild : ∀ e ∈ b.entries, ∀ g, e.child=some g → g ∈ order) :
    (renumbered order b).WellFormed order.length := by
  have hall : ∀ {P : Entry → Prop},
      (∀ e ∈ b.entries, P {e with child := e.child.map fun g => order.idxOf g}) →
        ∀ e ∈ (renumbered order b).entries, P e := by
    intro P hP e he
    obtain ⟨e₀,he₀,rfl⟩ := List.mem_map.mp he
    exact hP e₀ he₀
  exact {
    ids := by
      rw [renumbered,List.map_map]
      exact h.ids
    idMax := hall h.idMax
    child := hall fun e he => by
      rw [Option.isSome_map]
      exact h.child e he
    childLt := hall fun e he r hr => by
      obtain ⟨g,hg,rfl⟩ := Option.map_eq_some_iff.mp hr
      exact List.idxOf_lt_length_of_mem (hchild e he g hg)
    cap := hall h.cap
    width := hall h.width
    words := hall h.words
    objects := hall h.objects
    which := h.which
    unfrozen := hall h.unfrozen
    option := fun hw => hall (h.option hw)
    held := fun hw => hall (h.held hw)
    ownWords := hall h.ownWords
    ownObjects := hall h.ownObjects
    ownInto := hall h.ownInto }

/-- The forest a decoder is given is that of the tables its root reaches. -/
def forest (h : Built narrow heap) {root : ℕ} (hr : root < heap.length) : Forest where
  tables := tablesOf heap root
  root := by
    obtain ⟨rest,hrest⟩ := reachable_root heap root
    rw [tablesOf,List.length_map,hrest]
    exact Nat.succ_pos _
  wellFormed := by
    intro b hb
    obtain ⟨r,hmem,rfl⟩ := List.mem_map.mp hb
    rw [tablesOf,List.length_map]
    refine renumbered_wellFormed (tableAt_wellFormed h r) fun e he g hg => ?_
    exact reachable_child h hr hmem he hg

end Heap

end Binder

end SofaBuffers
