import SofaBuffers.Stream.Bounds

/-!
# No input reaches an internal failure

Where the destinations suffice, a feed answers, reaches a limit or is refused
for the reassembly buffer, whatever it is fed and whatever it was fed before:
no assertion fails, no index is out of range and every integer fits its slot.
-/

set_option autoImplicit false

namespace SofaBuffers

open Resumable Dec

variable {V : Type}

/-- The destinations a handler offers take what they are offered for. -/
structure Hooks.Sufficient (h : Hooks V) : Prop where
  /-- A string's destination is a buffer of unsigned bytes with room. -/
  string : ∀ g, h.onStringBegin=some g → ∀ id n d, g id n=some d → d.Holds 1 n ∧ d.signed=false
  /-- A blob's destination is a buffer of unsigned bytes with room. -/
  blob : ∀ g, h.onBlobBegin=some g → ∀ id n d, g id n=some d → d.Holds 1 n ∧ d.signed=false
  /-- An integer array's destination takes the elements as they are declared. -/
  array : ∀ g, h.onArrayBegin=some g → ∀ id signed n d lo hi,
    g id (varrayType signed) n=some (some d,lo,hi) → d.Receives signed lo hi n
  /-- A float array's destination has room for eight bytes an element. -/
  floats : ∀ g, h.onFloatArrayBegin=some g → ∀ id st n d, g id st n=some d → d.Holds 8 n

/-- A count of occurrences is full. -/
def Config.Full (c : Config V) (s : Store V) : Prop :=
  ∃ r id e i, c.lookup r id=some e ∧ e.kind=.sequence ∧ e.countAt=some i ∧ (s.word i).toNat+1=2^64

/-- An entry of the list holds a buffer of bytes with room for so many. -/
def Obj.Takes (o : Obj) (n : ℕ) : Prop := ∃ d, o=.buffer d ∧ d.Holds 1 n ∧ d.signed=false

/-- The row is filled into the buffer at its slot, which takes at least so many bytes. -/
structure Entry.Fills (e : Entry) (i n : ℕ) : Prop where
  /-- It is a string's or a blob's. -/
  kind : e.kind.isObject=true
  /-- It has a buffer. -/
  into : e.into=true
  /-- That is at its slot. -/
  slot : e.slot=i
  /-- It takes what the row declares, or what the format allows. -/
  size : e.declared.getD fixlenMax=n

/-- A buffer at an entry is asked to take so many bytes, off the wire or as a default. -/
def Config.Asks (c : Config V) (i n : ℕ) : Prop :=
  ∃ r id e, c.lookup r id=some e ∧
    (e.Fills i n ∨ (e.whichAt.isSome=true ∧ ∃ p ∈ e.resetInto, p.1=i ∧ p.2.length=n))

/-- An entry is stored to as a value, off the wire or as a default. -/
def Config.Stores (c : Config V) (i : ℕ) : Prop :=
  ∃ r id e, c.lookup r id=some e ∧
    ((e.kind.isObject=true ∧ e.into=false ∧ e.slot=i) ∨
      (e.whichAt.isSome=true ∧ ∃ p ∈ e.resetObjects, p.1=i))

/-- The storage gives out: a buffer cannot take what it is asked to, or a count is full. -/
def Config.Short (c : Config V) (s : Store V) : Prop :=
  c.Full s ∨ ∃ i n, c.Asks i n ∧ ¬(s.obj i).Takes n

/-- The buffers a caller put into the list take what they are asked to, and no value is
stored over one. -/
def Config.Sufficient (c : Config V) (o : ℕ → Obj) : Prop :=
  ∀ i n, c.Asks i n → (o i).Takes n ∧ ¬c.Stores i

/-- What is done over a storage that does not give out raises a verdict at most, and
stores values where there are any. -/
def Licence.safe (c : Config V) : Licence V where
  word _ := True
  obj i := c.Stores i
  call _ := True
  raise why s := why.cls=.decode ∨ why.cls=.limit ∨ c.Short s
  given _ := True
  stable _ _ _ _ := trivial

section Safe

variable {c : Config V} {d₀ d : Dec V}

/-- A buffer that holds so much holds less. -/
theorem Dst.Holds.less {d : Dst} {size n m : ℕ} (h : d.Holds size n) (hm : m ≤ n) :
    d.Holds size m where
  writable := h.writable
  itemsize := h.itemsize
  room := (Nat.mul_le_mul_right size hm).trans h.room

/-- Every row and every handler keep to it. -/
theorem safe_covers (hc : bindWords c=.ok ()) (hh : ∀ v, (c.hooks v).Sufficient) :
    (Licence.safe c).Covers c := by
  constructor
  · exact fun why s h => h.imp_right Or.inl
  · exact fun _ => trivial
  · intro r id e he
    obtain ⟨f,hf,hl⟩ := lookup_forest he
    obtain ⟨-,hobjs⟩ := bindWords_ok hf hc
    refine Licence.row_within hf hc he (fun _ _ => trivial) ?_ ?_ ?_ ?_
    · exact fun hwhich p hp => ⟨r,id,e,he,Or.inr ⟨hwhich,p,hp,rfl⟩⟩
    · exact fun hk hinto => ⟨r,id,e,he,Or.inl ⟨hk,hinto,rfl⟩⟩
    · intro hwhich p hp
      have hlt := (Forest.lookup_resets hl hwhich).into p hp
      refine within_resetInto (Or.inl (by omega)) fun s _ => ?_
      have hasks : c.Asks p.1 p.2.length := ⟨r,id,e,he,Or.inr ⟨hwhich,p,hp,rfl,rfl⟩⟩
      by_cases hs : (s.obj p.1).Takes p.2.length
      · exact Or.inl hs
      · exact Or.inr fun _ _ => Or.inr (Or.inr (Or.inr ⟨_,_,hasks,hs⟩))
    · intro hk hinto s _ n hn hg
      have hasks : c.Asks e.slot (e.declared.getD fixlenMax) :=
        ⟨r,id,e,he,Or.inl ⟨hk,hinto,rfl,rfl⟩⟩
      by_cases hs : (s.obj e.slot).Takes (e.declared.getD fixlenMax)
      · obtain ⟨d,hd,hhold,hu⟩ := hs
        refine Or.inl ⟨d,hd,hhold.less ?_,hu⟩
        cases hdecl : e.declared with
        | none => exact hn
        | some most => exact hg most hdecl
      · exact Or.inr fun _ _ => Or.inr (Or.inr (Or.inr ⟨_,_,hasks,hs⟩))
  · exact fun r id e i s he hk hi hfull => Or.inr (Or.inr (Or.inl ⟨r,id,e,i,he,hk,hi,hfull⟩))
  · intro v
    have hv := hh v
    constructor
    · exact fun _ _ _ => trivial
    · exact fun g hg id n d hd => Or.inl (hv.string g hg id n d hd)
    · exact fun g hg id n d hd => Or.inl (hv.blob g hg id n d hd)
    · exact fun g hg id signed n d lo hi hd => Or.inl (hv.array g hg id signed n d lo hi hd)
    · exact fun g hg id st n d hd => Or.inl (hv.floats g hg id st n d hd)

/-- What a feed comes to where nothing fails internally, up to a storage of a kind. -/
inductive Safe (X : Store V → Prop) : EStateM.Result Exn (Dec V) Status → Prop
  /-- The feed answered. -/
  | answered {st : Status} {d : Dec V} : Safe X (.ok st d)
  /-- It reached a limit. -/
  | limited {e : Exn} {d : Dec V} (he : e.cls=.limit) : Safe X (.error e d)
  /-- It was refused for the reassembly buffer. -/
  | refused {room need : ℕ} {d : Dec V} : Safe X (.error (tooLong room need) d)
  /-- The storage gave out. -/
  | short {e : Exn} {d : Dec V} (h : X d.store) : Safe X (.error e d)

/-- No input reaches an internal failure: whatever a decoder was fed, and however its feeds
ended, the next answers, reaches a limit or is refused for the reassembly buffer, as long as
the storage does not give out; and where the buffers suffice at the start, only a count of
occurrences can. -/
theorem feed_safe {r : Reassembly} {store : Store V} (hi : Dec.init c r store=.ok d₀)
    (hh : ∀ v, (c.hooks v).Sufficient) (hd : Dec.Reached c c.Short d₀ d) (data : List UInt8) :
    Safe c.Short (feed c data d) ∧ (c.Sufficient store.obj → Safe c.Full (feed c data d)) := by
  obtain ⟨⟨rbuf,-,rfl⟩,hc⟩ := init_ok hi
  have hcovers := safe_covers hc hh
  have hrun := fun s xs hs => @Walk.run_licensed _ _ _ s hcovers store trivial hs xs
  have hfresh := fresh_licensed (Licence.safe c) c rbuf store
  have hfail : ∀ why s, Walk.Refused (Licence.safe c) store why s →
      why.cls=.decode ∨ why.cls=.limit ∨ c.Short s.store := fun why s hq => hq.raise why rfl
  have hstanding := hd.standing hrun hfail (.going ((fresh_at c rbuf store).going hfresh))
  rcases feed_standing hrun hfail hstanding data with
    ⟨st,d',hr,-⟩ | ⟨e,d',hr,⟨-,he | ⟨room,need,rfl⟩⟩ | ⟨hshort,why,s,hq,hstore⟩⟩
  · rw [hr]
    exact ⟨.answered,fun _ => .answered⟩
  · rw [hr]
    exact ⟨.limited he,fun _ => .limited he⟩
  · rw [hr]
    exact ⟨.refused,fun _ => .refused⟩
  · rw [hr]
    refine ⟨.short hshort,fun hs => .short (hshort.resolve_right ?_)⟩
    rintro ⟨i,n,hasks,hn⟩
    obtain ⟨htakes,hstores⟩ := hs i n hasks
    have hsame : d'.store.obj i=store.obj i := (congrArg (Store.obj · i) hstore).trans (hq.obj i hstores)
    rw [hsame] at hn
    exact hn htakes

end Safe

/-- A table that takes a text into a buffer, a text as a value, an array and a closed table of
its own. -/
def messageTables : List Binder.Cell :=
  let bind := Binder.bind (fun _ => none)
  let heap : List Binder.Cell := [{table := {}},{table := {closed := true}}]
  let heap := (bind heap 1 (.unsigned (.int 1) (.int 4) none none none)).2
  let heap := (bind heap 0 (.stringInto (.int 1) (.int 0) (.int 4) none none)).2
  let heap := (bind heap 0 (.string (.int 2) (.int 1) (.int 8) none none)).2
  let heap := (bind heap 0 (.unsignedArray (.int 3) (.int 0) (.int 2) (some (.int 2)) none
    none)).2
  (bind heap 0 (.sequence (.int 4) (some 1) (some (.int 3)))).2

/-- The tables of the message can be built. -/
theorem built_messageTables : Binder.Built (fun _ => none) messageTables := by
  have hroot : Binder.Built (fun _ => none) [{table := {}}] :=
    .create (show Binder.create false none (.int 0)=.ok {} from rfl) .empty
  have hchild : Binder.Built (fun _ => none) [{table := {}},{table := {closed := true}}] :=
    .create (show Binder.create true none (.int 0)=.ok {closed := true} from rfl) hroot
  refine .bind ?_ (.bind ?_ (.bind ?_ (.bind ?_ (.bind ?_ hchild))))
  · intro g hg
    cases hg
    decide
  all_goals
    intro g hg
    cases hg

/-- A handler that offers sixteen bytes for a blob and two doubles for floats. -/
def offering : Hooks Unit where
  onBlobBegin := some fun _ n =>
    if n ≤ 16 then some {base := 8, itemsize := 1, nbytes := 16} else none
  onFloatArrayBegin := some fun _ _ n =>
    if n ≤ 2 then some {base := 24, itemsize := 8, nbytes := 16} else none

/-- What it offers has room. -/
theorem offering_sufficient : offering.Sufficient where
  string _ h := by cases h
  blob g h id n d hd := by
    cases h
    dsimp only at hd
    split at hd
    · cases hd
      exact ⟨⟨rfl,rfl,by dsimp only; omega⟩,rfl⟩
    · cases hd
  array _ h := by cases h
  floats g h id st n d hd := by
    cases h
    dsimp only at hd
    split at hd
    · cases hd
      exact ⟨rfl,rfl,by dsimp only; omega⟩
    · cases hd

/-- A decoder over the tables, with that handler for what they do not name. -/
def messageConfig : Config Unit where
  forest := some (Binder.forest built_messageTables (show 0 < messageTables.length by decide))
  hooks := fun _ => offering
  visitor := some ()
  nwords := 5
  nobjects := 2

/-- Storage with a buffer of four bytes in the list. -/
def messageStore : Store Unit where
  word := fun _ => 0
  obj := fun i => if i=0 then .buffer {base := 0, itemsize := 1, nbytes := 4} else .empty
  mem := fun _ => 0

/-- A decoder over them can be built. -/
theorem init_message : Dec.init messageConfig (.size 16) messageStore=
    .ok (Dec.fresh messageConfig (List.replicate 16 0) messageStore) :=
  rfl

/-- The rows of the tables: a text or a blob goes into the buffer at entry 0, or is stored at
entry 1, and only the nested table is counted, at slot 3. -/
theorem message_rows {r id : ℕ} {e : Entry} (h : messageConfig.lookup r id=some e) :
    e.whichAt=none ∧
      (e.kind.isObject=true → if e.into=true then e.slot=0 ∧ e.declared=some 4 else e.slot=1) ∧
      (e.kind=.sequence → e.countAt=some 3) := by
  have hrows : ∀ b ∈ Binder.tablesOf messageTables 0, b.whichAt=none ∧ ∀ e ∈ b.entries,
      e.whichAt=none ∧
      (e.kind.isObject=true → if e.into=true then e.slot=0 ∧ e.declared=some 4 else e.slot=1) ∧
      (e.kind=.sequence → e.countAt=some 3) := by decide
  obtain ⟨f,hf,hl⟩ := lookup_forest h
  cases hf
  obtain ⟨e₀,hmem,rfl⟩ := Forest.lookup_mem hl
  unfold Forest.table at hmem ⊢
  cases hb : (Binder.forest built_messageTables
      (show 0 < messageTables.length by decide)).tables[r]? with
  | none =>
    rw [hb] at hmem
    cases hmem
  | some b =>
    rw [hb] at hmem
    obtain ⟨hwhich,hentries⟩ := hrows b (List.mem_of_getElem? hb)
    rw [Option.getD_some,Forest.freezeEntry,hwhich]
    exact hentries e₀ hmem

/-- The buffer takes what it is asked to. -/
theorem message_asks {s : Store Unit}
    (h : s.obj 0=.buffer {base := 0, itemsize := 1, nbytes := 4}) {i n : ℕ}
    (hasks : messageConfig.Asks i n) : (s.obj i).Takes n ∧ ¬messageConfig.Stores i := by
  obtain ⟨r,id,e,he,hfills | ⟨hwhich,-⟩⟩ := hasks
  · obtain ⟨-,hobj,-⟩ := message_rows he
    have hrow := hobj hfills.kind
    rw [if_pos hfills.into] at hrow
    obtain ⟨hslot,hcap⟩ := hrow
    have hi : i=0 := hfills.slot.symm.trans hslot
    have hn : n=4 := by
      have hsize := hfills.size
      rw [hcap] at hsize
      exact hsize.symm
    subst hi hn
    refine ⟨⟨_,h,⟨rfl,rfl,by decide⟩,rfl⟩,?_⟩
    rintro ⟨r',id',e',he',⟨hk,hinto,hat⟩ | ⟨hwhich,-⟩⟩
    · have hother := (message_rows he').2.1 hk
      rw [hinto,if_neg (by decide),hat] at hother
      cases hother
    · rw [(message_rows he').1] at hwhich
      cases hwhich
  · rw [(message_rows he).1] at hwhich
    cases hwhich

/-- The nested table is counted at slot 3, which is full when its word is the last one. -/
theorem message_full {s : Store Unit} (h : (s.word 3).toNat+1≠2^64) : ¬messageConfig.Full s := by
  rintro ⟨r,id,e,i,he,hk,hi,hfull⟩
  have hthree := (message_rows he).2.2 hk
  rw [hi] at hthree
  cases hthree
  exact h hfull

/-- What the decoder leaves of a text cut behind its first byte. -/
def cutText : Dec Unit :=
  leftBy (feed messageConfig [0x0A,0x1A,0x61]
    (Dec.fresh messageConfig (List.replicate 16 0) messageStore))

/-- What it leaves of a chunk that the reassembly buffer is too small for. -/
def refusedText : Dec Unit := leftBy (feed messageConfig (List.replicate 20 0) cutText)

/-- The rest of the text, a blob for the handler and the nested table. -/
def restOfMessage : List UInt8 := [0x62,0x63,0x4A,0x13,7,8,0x26,0x08,0x05,0x07]

/-- A text is cut while it is read into its buffer, a chunk is refused, and the decoder goes on
with the text all the same: the feed is safe, and it answers. -/
theorem feed_safe_resumed :
    (refusedText.pending=some (.fixlen .string 3) ∧ refusedText.resumeKind=.visit ∧
      refusedText.resumeEntry.map Entry.into=some true ∧ refusedText.held=[0x61]) ∧
    messageConfig.Sufficient messageStore.obj ∧
    Safe messageConfig.Full (feed messageConfig restOfMessage refusedText) ∧
    ∃ d, feed messageConfig restOfMessage refusedText=.ok .complete d ∧
      (List.range 3).map d.store.mem=[0x61,0x62,0x63] ∧
      (List.range 2).map (fun i => d.store.mem (8+i))=[7,8] ∧
      d.store.word 4=5 ∧ d.store.word 3=1 := by
  have hcut : feed messageConfig [0x0A,0x1A,0x61]
      (Dec.fresh messageConfig (List.replicate 16 0) messageStore)=.ok .incomplete cutText :=
    answered_left (by decide +kernel)
  have hrefused : feed messageConfig (List.replicate 20 0) cutText=
      .error (tooLong 16 21) refusedText := raised_left (by decide +kernel)
  have hsufficient : messageConfig.Sufficient messageStore.obj :=
    fun i n hasks => message_asks (s:=messageStore) rfl hasks
  have hroom : ¬messageConfig.Short refusedText.store := by
    rintro (hfull | ⟨i,n,hasks,hn⟩)
    · exact message_full (by decide +kernel) hfull
    · exact hn (message_asks (by decide +kernel) hasks).1
  have hreached : Dec.Reached messageConfig messageConfig.Short
      (Dec.fresh messageConfig (List.replicate 16 0) messageStore) refusedText :=
    .raised hrefused hroom (.answered hcut .start)
  have hsafe := feed_safe init_message (fun _ => offering_sufficient) hreached restOfMessage
  have hdone : feed messageConfig restOfMessage refusedText=.ok .complete
      (leftBy (feed messageConfig restOfMessage refusedText)) :=
    answered_left (by decide +kernel)
  exact ⟨by decide +kernel,hsufficient,hsafe.2 hsufficient,_,hdone,by decide +kernel,
    by decide +kernel,by decide +kernel,by decide +kernel⟩

end SofaBuffers
