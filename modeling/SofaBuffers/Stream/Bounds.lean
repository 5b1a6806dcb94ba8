import SofaBuffers.Built
import SofaBuffers.Stream.Scoping
import SofaBuffers.Walk.Licensed
import SofaBuffers.Walk.Tables

/-!
# Writes stay inside the storage

A decoder over tables that were built writes the slots and the entries the tree
of tables asks for and no others, whatever it is fed. An index past the buffer
is raised for in the model, so none that is ever used lies past it.
-/

set_option autoImplicit false

namespace SofaBuffers

open Resumable Dec

variable {V : Type}

/-- The slots and entries that are asked for may be written, and anything be raised but
that there is no such slot or entry. -/
def Licence.bounded (V : Type) (words objects : ℕ) : Licence V where
  word i := i < words
  obj i := i < objects
  call _ := True
  raise why _ := why.cls≠.index
  given _ := True
  stable _ _ _ _ := trivial

section Bounds

variable {c : Config V} {f : Forest} {d : Dec V}

/-- Every row and every handler keep to the storage a forest asks for. -/
theorem bounded_covers (hf : c.forest=some f) (hc : bindWords c=.ok ()) :
    (Licence.bounded V f.treeWordsRequired f.treeObjectsRequired).Covers c := by
  have hany : ∀ why : Exn, ∀ s : Store V, why.cls=.argument ∨ why.cls=.value →
      (Licence.bounded V f.treeWordsRequired f.treeObjectsRequired).raise why s := by
    intro why s h
    show why.cls≠.index
    rcases h with h | h <;> rw [h] <;> decide
  obtain ⟨hwords,hobjs⟩ := bindWords_ok hf hc
  constructor
  · intro why s h
    show why.cls≠.index
    rcases h with h | h <;> rw [h] <;> decide
  · exact fun _ => trivial
  · intro r id e he
    have hl : f.lookup r id=some e := by
      rw [Config.lookup,hf] at he
      exact he
    have hslot := e.value_le.2.2
    have hneed := Forest.lookup_objectsNeeded hl
    refine Licence.row_within hf hc he (fun i hi => hi) ?_ ?_ ?_ ?_
    · exact fun hwhich p hp => (Forest.lookup_resets hl hwhich).objects p hp
    · exact fun hk _ => (hslot hk).trans_le hneed
    · intro hwhich p hp
      have hlt := (Forest.lookup_resets hl hwhich).into p hp
      exact within_resetInto (Or.inl (by omega)) fun s _ => Or.inr fun why hw => hany why s hw
    · exact fun _ _ s _ _ _ _ => Or.inr fun why hw => hany why s hw
  · intro r id e i s _ _ _ _
    exact hany .value s (Or.inr rfl)
  · intro v
    constructor
    · exact fun _ _ _ => trivial
    · exact fun _ _ _ _ _ _ => Or.inr hany
    · exact fun _ _ _ _ _ _ => Or.inr hany
    · exact fun _ _ _ _ _ _ _ _ _ => Or.inr hany
    · exact fun _ _ _ _ _ _ _ => Or.inr hany

/-- Nothing but the storage a forest asks for was written. -/
structure Forest.Stored (f : Forest) (before after : Store V) : Prop where
  /-- The slots past what it asks for are as they were. -/
  words : ∀ i, f.treeWordsRequired ≤ i → after.word i=before.word i
  /-- The entries past what it asks for are as they were. -/
  objects : ∀ i, f.treeObjectsRequired ≤ i → after.obj i=before.obj i

/-- A feed stayed inside the storage a forest asks for. -/
inductive InBounds (f : Forest) (before : Store V) : EStateM.Result Exn (Dec V) Status → Prop
  /-- The feed answered. -/
  | answered {st : Status} {d : Dec V} (h : f.Stored before d.store) : InBounds f before (.ok st d)
  /-- It raised, but not for want of a slot or an entry. -/
  | raised {e : Exn} {d : Dec V} (h : f.Stored before d.store) (he : e≠.index) :
      InBounds f before (.error e d)

/-- What is allowed is stored within the bounds. -/
theorem Licence.Allows.stored {s : Store V} {r : Store V × Option Exn}
    (h : (Licence.bounded V f.treeWordsRequired f.treeObjectsRequired).Allows s r) :
    f.Stored s r.1 where
  words i hi := h.word i (Nat.not_lt.mpr hi)
  objects i hi := h.obj i (Nat.not_lt.mpr hi)

/-- A fresh decoder has done nothing yet. -/
theorem fresh_licensed (A : Licence V) (c : Config V) (rbuf : List UInt8) (store : Store V) :
    Walk.Licensed A c store (Dec.fresh c rbuf store).view where
  scoping := fresh_scoping c rbuf store
  inHand := Walk.inHand_none rfl
  allows := A.allows_done store

/-- Writes stay inside the storage: whatever tables were built and whatever a decoder over
them was fed, a feed writes no slot and no entry past those they ask for, and raises for
want of none even where there are no more. -/
theorem feed_inBounds {narrow : BitVec 64 → Option (BitVec 32)} {heap : List Binder.Cell}
    (hb : Binder.Built narrow heap) {root : ℕ} (hr : root < heap.length)
    (hf : c.forest=some (Binder.forest hb hr)) {r : Reassembly} {store : Store V} {d₀ : Dec V}
    (hi : Dec.init c r store=.ok d₀) (hd : Streamed c d₀ d) (data : List UInt8) :
    InBounds (Binder.forest hb hr) store (feed c data d) := by
  obtain ⟨⟨rbuf,-,rfl⟩,hc⟩ := init_ok hi
  generalize Binder.forest hb hr=f at hf
  have hcovers := bounded_covers hf hc
  have hrun := fun s xs hs => @Walk.run_licensed _ _ _ s hcovers store trivial hs xs
  have hfresh := fresh_licensed (Licence.bounded V f.treeWordsRequired f.treeObjectsRequired) c rbuf
    store
  have hkeep : ∀ {st : Status} {d : Dec V} {s : Walk V}, d.store=s.store →
      f.Stored store s.store → InBounds f store (.ok st d) := fun he h => .answered (he ▸ h)
  cases hd.standing hrun (.going ((fresh_at c rbuf store).going hfresh)) with
  | invalid hl hs hq hstore =>
    rw [feed_invalid hl hs]
    exact hkeep hstore (Licence.Allows.stored hq)
  | limited hw hl hq hstore =>
    rw [feed_limited hl]
    refine .raised (hstore ▸ Licence.Allows.stored hq) ?_
    rintro rfl
    cases hw
  | going hg =>
    have hkept := feed_kept hrun hg data
    cases hr : feed c data d with
    | ok st d' =>
      rw [hr] at hkept
      cases st with
      | complete => exact .answered hkept.1.kept.allows.stored
      | incomplete => exact .answered hkept.kept.allows.stored
      | invalid =>
        obtain ⟨-,-,why,s,-,hq,hstore⟩ := hkept
        exact hkeep hstore (Licence.Allows.stored hq)
    | error e d' =>
      rw [hr] at hkept
      rcases hkept with ⟨room,need,rfl,hg'⟩ | ⟨why,s,-,hq,hstore,hsame,-⟩
      · exact .raised hg'.kept.allows.stored (fun h => by cases h)
      · refine .raised (hstore ▸ Licence.Allows.stored hq) ?_
        rcases hsame with rfl | ⟨room,need,rfl⟩
        · have hne := Licence.Allows.raise hq e rfl
          exact fun h => hne (congrArg Exn.cls h)
        · exact fun h => by cases h

end Bounds

/-- A table that takes an array of three elements from slot 2 on. -/
def arrayTable : List Binder.Cell :=
  (Binder.bind (fun _ => none) [{table := {}}] 0
    (.unsignedArray (.int 1) (.int 2) (.int 3) none none none)).2

/-- The table of the array can be built. -/
theorem built_arrayTable : Binder.Built (fun _ => none) arrayTable :=
  .bind (fun g hg => by cases hg)
    (.create (show Binder.create false none (.int 0)=.ok {} from rfl) .empty)

/-- A decoder over it, whose buffer has exactly the slots it asks for. -/
def arrayConfig : Config Unit where
  forest := some (Binder.forest built_arrayTable (show 0 < arrayTable.length by decide))
  hooks := fun _ => {}
  nwords := 5

/-- An array one longer than the table takes stays inside the buffer. -/
theorem feed_inBounds_array :
    InBounds (Binder.forest built_arrayTable (show 0 < arrayTable.length by decide)) blank
      (feed arrayConfig [0x0B,0x04,1,2,3,4]
        (Dec.fresh arrayConfig (List.replicate 16 0) blank)) := by
  have hinit : Dec.init arrayConfig (.size 16) blank=
      .ok (Dec.fresh arrayConfig (List.replicate 16 0) blank) := rfl
  have hin := feed_inBounds built_arrayTable (show 0 < arrayTable.length by decide) rfl hinit
    .start [0x0B,0x04,1,2,3,4]
  exact hin

end SofaBuffers
