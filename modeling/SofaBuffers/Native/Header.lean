import SofaBuffers.Native.Rows
import SofaBuffers.Walk.Drive

/-!
# The header walk of the compiled decoder

The compiled decoder reads every word of a header off its own varint reader, tests the words in
an order of its own, and sizes a fixlen array by a product of words. On the bytes left it reads
the tokens the interpreted engine reads, and drops a value as that drops it.
-/

set_option autoImplicit false

namespace SofaBuffers

open Resumable
open Dec

variable {V : Type}

namespace Native

namespace Decoder

/-- The varint at the cursor, as a number. -/
def word (swar : Bool) : DecM V ℕ := do
  let value ← varint swar
  pure value.toNat

/-- The rules a fixlen length word is held to, split on the subtype family. -/
def fixlenWord (word : ℕ) : Except Exn (FixlenSubtype × ℕ) :=
  let length := word/8
  let subtype := word%8
  if 2 ≤ subtype then
    if 3 < subtype then .error (.decode s!"invalid fixlen subtype {subtype}")
    else if fixlenMax < length then .error (.decode "fixlen length out of range")
    else .ok (if subtype=2 then .string else .blob,length)
  else if subtype=0 then
    if length≠4 then .error (.decode "fp32 fixlen length must be 4") else .ok (.fp32,length)
  else if length≠8 then .error (.decode "fp64 fixlen length must be 8")
  else .ok (.fp64,length)

/-- The rules a fixlen array's element word is held to. -/
def elementWord (word : ℕ) : Except Exn (FixlenSubtype × ℕ) :=
  let size := word/8
  let subtype := word%8
  if 1 < subtype then .error (.decode s!"invalid fixlen-array subtype {subtype}")
  else if subtype=0 ∧ size≠4 then
    .error (.decode "fp32 fixlen-array element size must be 4")
  else if subtype=1 ∧ size≠8 then
    .error (.decode "fp64 fixlen-array element size must be 8")
  else .ok (if subtype=0 then .fp32 else .fp64,size)

/-- The subtype and length behind a fixlen header. -/
def fixlenHeader (swar : Bool) : DecM V (FixlenSubtype × ℕ) := do
  let length ← word swar
  ofExcept (fixlenWord length)

/-- The count behind an array header, within the format's ceiling. -/
def arrayHeader (swar : Bool) : DecM V ℕ := do
  let count ← word swar
  if arrayMax < count then throw (.decode s!"array count {count} out of range")
  else pure count

/-- The count, subtype and element size behind a fixlen array header. -/
def farrayHeader (swar : Bool) : DecM V (ℕ × FixlenSubtype × ℕ) := do
  let count ← arrayHeader swar
  let elemHeader ← word swar
  let shape ← ofExcept (elementWord elemHeader)
  pure (count,shape)

/-- Parse the header at the cursor; `none` at a clean end. -/
def readHeader (swar : Bool) (c : Config V) : DecM V (Option WireType) := do
  let d ← get
  if d.n ≤ d.pos then
    if d.depth≠0 then suspend "truncated: unbalanced sequence"
    else pure none
  else
    let header ← word swar
    let id := header/8
    modify fun d => {d with curId := id, curSubtype := none}
    if idMax < id then throw (.decode s!"id {id} out of range")
    else
      let wtype := WireType.ofHeader header
      match wtype with
      | .fixlen =>
        let (subtype,length) ← fixlenHeader swar
        announce c (some subtype) (.fixlen subtype length)
      | .unsigned => announce c none (.scalar false)
      | .signed => announce c none (.scalar true)
      | .sequenceEnd =>
        let d ← get
        if d.depth ≤ 0 then throw (.decode "unbalanced sequence end")
        else modify fun d => {d with depth := d.depth-1}
      | .sequenceStart =>
        let d ← get
        if maxDepth ≤ d.depth then throw (.decode "nesting exceeds MAX_DEPTH=255")
        else modify fun d => {d with depth := d.depth+1}
      | .arrayUnsigned =>
        let count ← arrayHeader swar
        announce c none (.varray false count)
      | .arraySigned =>
        let count ← arrayHeader swar
        announce c none (.varray true count)
      | .arrayFixlen =>
        let (count,subtype,elemSize) ← farrayHeader swar
        announce c (some subtype) (.farray subtype count elemSize)
      pure (some wtype)

/-- Discard a value of which nothing was discarded yet. -/
def skipReal (swar : Bool) (real : Pending) : DecM V Unit :=
  match real with
  | .scalar _ => do
    let _ ← varint swar
    setPending none
  | .fixlen _ length => discard length 0
  | .farray _ count elemSize => do
    let nbytes ← farrayNbytes count elemSize
    discard nbytes 0
  | .varray _ count => discard 0 count
  | .limit .. | .discard .. => throw .assertion

/-- Discard the value the last header announced (`_skip_pending`). -/
def skipPending (swar : Bool) : DecM V Unit := do
  match (← get).pending with
  | none => throw .assertion
  | some (.discard nbytes nvarints vbytes) => drainDiscard nbytes nvarints vbytes
  | some (.limit _ real) =>
    -- unparked before the walk, so that a retry finds the cap gone
    setPending (some real)
    skipReal swar real
  | some real => skipReal swar real

/-- Parse one field header, discarding first a value nobody read. -/
def header (swar : Bool) (c : Config V) : DecM V (Option WireType) := do
  arm
  if (← get).pending.isSome then
    skipPending swar
    arm
  readHeader swar c

/-- Both engines hold a length word to the same rules. -/
theorem fixlenWord_eq (word : ℕ) : fixlenWord word=SofaBuffers.fixlenWord word := by
  have hlt : word%8 < 8 := Nat.mod_lt _ (by omega)
  rw [fixlenWord,SofaBuffers.fixlenWord]
  generalize word%8=subtype at hlt
  interval_cases subtype <;> rfl

/-- Both engines hold an element word to the same rules. -/
theorem elementWord_eq (word : ℕ) : elementWord word=SofaBuffers.elementWord word := by
  have hlt : word%8 < 8 := Nat.mod_lt _ (by omega)
  rw [elementWord,SofaBuffers.elementWord]
  generalize word%8=subtype at hlt
  interval_cases subtype <;> simp

section Words

variable (swar : Bool)

/-- A word is a varint. -/
theorem parses_word : Parses (word swar : DecM V ℕ) (Varint.read overlong) := by
  intro d hd hp
  have h := (parses_varint swar).bind
    ((Varint.stable_read overlong).bind fun raw => Stable.pure (BitVec.ofNat 64 raw))
    (fun value => parses_pure value.toNat) d hd hp
  have heq : (Varint.read overlong >>= fun raw => pure (BitVec.ofNat 64 raw) >>= fun value =>
      (pure value.toNat : Parser Exn UInt8 ℕ)) d.rest=Varint.read overlong d.rest := by
    cases hv : Varint.read overlong d.rest with
    | done raw rest =>
      rw [bind_done hv]
      show Parse.done (BitVec.ofNat 64 raw).toNat rest=_
      rw [BitVec.toNat_ofNat,Nat.mod_eq_of_lt (Varint.read_lt hv)]
    | more => rw [bind_more hv]
    | bad why => rw [bind_bad hv]
  rw [Parser.bind_assoc,heq] at h
  exact h

/-- The words behind a fixlen header. -/
theorem parses_fixlenHeader : Parses (fixlenHeader swar : DecM V (FixlenSubtype × ℕ))
    (Varint.read overlong >>= fun word => ofCheck (SofaBuffers.fixlenWord word)) := by
  rw [fixlenHeader]
  simp only [fixlenWord_eq]
  exact (parses_word swar).bind (Varint.stable_read overlong)
    fun word => parses_check (SofaBuffers.fixlenWord word)

/-- The word behind an array header. -/
theorem parses_arrayHeader : Parses (arrayHeader swar : DecM V ℕ)
    (Varint.read overlong >>= fun word => ofCheck (countWord word)) := by
  have h := (parses_word (V:=V) swar).bind (Varint.stable_read overlong)
    (fun word => parses_check (countWord word))
  have he : (arrayHeader swar : DecM V ℕ)=word swar >>= fun count => ofExcept (countWord count) := by
    rw [arrayHeader]
    congr 1
    funext count
    rw [countWord]
    split <;> rfl
  rwa [he]

/-- The words behind a fixlen array header. -/
theorem parses_farrayHeader : Parses (farrayHeader swar : DecM V (ℕ × FixlenSubtype × ℕ)) (do
    let word ← Varint.read overlong
    let count ← ofCheck (countWord word)
    let word ← Varint.read overlong
    let shape ← ofCheck (SofaBuffers.elementWord word)
    pure (count,shape)) := by
  have h := (parses_arrayHeader (V:=V) swar).bind
    ((Varint.stable_read overlong).bind fun word => stable_ofCheck (countWord word))
    (fun count => (parses_word (V:=V) swar).bind (Varint.stable_read overlong)
      (fun word => (parses_check (SofaBuffers.elementWord word)).bind (stable_ofCheck _)
        (fun shape => parses_pure (count,shape))))
  rw [Parser.bind_assoc] at h
  rw [farrayHeader]
  simp only [elementWord_eq]
  exact h

end Words

section Header

variable (swar : Bool) (c : Config V) {d : Dec V}

/-- At the end of the buffer a header is either owed or not. -/
theorem readHeader_end (hd : d.Filled) (h : d.rest=[]) :
    readHeader swar c d=
      if d.depth≠0 then
        .error (.incomplete "truncated: unbalanced sequence") {d with pos := d.keep}
      else .ok none d := by
  rw [readHeader,run_get_bind,if_pos ((restFrom_nil hd).mp h)]
  split <;> rfl

/-- Behind a header word the compiled parse reads what the word announces. -/
theorem readHeader_run (hd : d.Filled) (h : d.rest≠[]) :
    HeaderEnds c (readHeader swar c d) d (readToken d.rest) := by
  have hlt : d.pos < d.n := by
    by_cases hlt : d.n ≤ d.pos
    · exact absurd ((restFrom_nil hd).mpr hlt) h
    · omega
  rw [readHeader,run_get_bind,if_neg (by omega)]
  have hw := parses_word swar d hd (by omega)
  cases hx : Varint.read overlong d.rest with
  | more =>
    rw [hx] at hw
    obtain ⟨msg,hw⟩ := hw
    rw [run_bind_error hw,readToken,bind_more hx]
    exact ⟨msg,d.curId,d.curSubtype,rfl⟩
  | bad why =>
    rw [hx] at hw
    obtain ⟨pos,hw⟩ := hw
    rw [run_bind_error hw,readToken,bind_bad hx]
    exact ⟨pos,d.curId,d.curSubtype,rfl⟩
  | done header mid =>
    rw [hx] at hw
    rw [run_bind_ok hw,readToken,bind_done hx]
    dsimp only
    rw [run_modify_bind]
    dsimp only
    by_cases hid : idMax < header/8
    · have hcheck : idWord (header/8)=.error (.decode s!"id {header/8} out of range") := by
        rw [idWord,if_pos hid]
      rw [if_pos hid,hcheck]
      exact ⟨d.seek mid,header/8,none,rfl⟩
    · have hcheck : idWord (header/8)=.ok () := by rw [idWord,if_neg hid]
      have hmid : d.restFrom (d.seek mid)=mid :=
        restFrom_seek hd ((Varint.stable_read overlong).suffix hx)
      have hpos : d.seek mid ≤ d.n := by rw [seek]; omega
      rw [if_neg hid,hcheck]
      show HeaderEnds c _ d (readBehind header mid)
      rw [readBehind]
      generalize header/8=id
      cases WireType.ofHeader header with
      | unsigned => rfl
      | signed => rfl
      | fixlen =>
        have hv := headerEnds_value (c:=c) hd id hpos hmid (parses_fixlenHeader swar)
          (fun a => some a.1) (fun a => .fixlen a.1 a.2) (fun a => rfl)
        rw [Parser.bind_assoc] at hv
        exact hv
      | arrayUnsigned =>
        have hv := headerEnds_value (c:=c) hd id hpos hmid (parses_arrayHeader swar)
          (fun _ => none) (fun a => .varray false a) (fun a => rfl)
        rw [Parser.bind_assoc] at hv
        exact hv
      | arraySigned =>
        have hv := headerEnds_value (c:=c) hd id hpos hmid (parses_arrayHeader swar)
          (fun _ => none) (fun a => .varray true a) (fun a => rfl)
        rw [Parser.bind_assoc] at hv
        exact hv
      | arrayFixlen =>
        have hv := headerEnds_value (c:=c) hd id hpos hmid (parses_farrayHeader swar)
          (fun a => some a.2.1) (fun a => .farray a.2.1 a.1 a.2.2) (fun a => rfl)
        simp only [Parser.bind_assoc] at hv
        exact hv
      | sequenceStart =>
        show HeaderEnds c _ d (.done (.start id) mid)
        rw [HeaderEnds]
        dsimp only
        rw [run_get_bind]
        by_cases hdep : maxDepth ≤ d.depth
        · rw [if_pos hdep,if_pos hdep]
          exact ⟨d.seek mid,id,none,rfl⟩
        · rw [if_neg hdep,if_neg hdep]
          rfl
      | sequenceEnd =>
        show HeaderEnds c _ d (.done .stop mid)
        rw [HeaderEnds]
        dsimp only
        rw [run_get_bind]
        by_cases hdep : d.depth ≤ 0
        · rw [if_pos hdep,if_pos hdep]
          exact ⟨d.seek mid,id,none,rfl⟩
        · rw [if_neg hdep,if_neg hdep]
          exact ⟨id,rfl⟩

/-- The elements of an array a header announces are single or double precision. -/
theorem announced_size {st : FixlenSubtype} {count size : ℕ}
    (h : (Pending.farray st count size).Announced) : size ≤ 8 := by
  cases st with
  | fp32 => exact (show size=4 from h).le.trans (by omega)
  | fp64 => exact (show size=8 from h).le
  | string | blob => exact absurd h id

/-- A value of which nothing was dropped yet is dropped off the bytes left. -/
theorem skipReal_run (hd : d.Filled) (hp : d.pos ≤ d.n) (hk : d.keep=d.pos) {q : Pending}
    (ha : q.Announced) (hc : q.count ≤ arrayMax) (hq : d.pending=some q) :
    DropEnds (skipReal swar q d) d (dropReal q d.rest) := by
  have hseek : d.seek d.rest=d.pos := seek_restFrom hd hp
  cases q with
  | scalar signed =>
    have h := parses_varint swar d hd hp
    rw [skipReal,dropReal]
    cases hv : Varint.read overlong d.rest with
    | done raw rest =>
      rw [bind_done hv] at h
      rw [run_bind_ok h]
      rfl
    | more =>
      rw [bind_more hv] at h
      obtain ⟨msg,h⟩ := h
      refine ⟨msg,?_⟩
      rw [run_bind_error h,hseek,hk,←hq]
    | bad why =>
      rw [bind_bad hv] at h
      obtain ⟨pos,h⟩ := h
      rw [run_bind_error h]
      exact ⟨pos,d.pending,rfl⟩
  | fixlen st length => exact discard_run hd hp length 0
  | varray signed count => exact discard_run hd hp 0 count
  | farray st count size =>
    obtain ⟨hf,hmax⟩ := farrayNbytes_eq (V:=V) (show count ≤ arrayMax from hc) (announced_size ha)
    rw [skipReal,dropReal,hf,pure_bind,if_neg hmax]
    exact discard_run hd hp (count*size) 0
  | limit msg q => exact ⟨d.pos,d.pending,rfl⟩
  | discard a n v => exact ⟨d.pos,d.pending,rfl⟩

/-- The value the last header announced is dropped off the bytes left. -/
theorem skipPending_run (hd : d.Filled) (hp : d.pos ≤ d.n) (hk : d.keep=d.pos) {p : Pending}
    (hs : p.Sound ∨ ∃ a n v, p=.discard a n v) (hq : d.pending=some p) :
    DropEnds (skipPending swar d) d (p.drop d.rest) := by
  rw [skipPending,run_get_bind,hq]
  rcases hs with hs | ⟨a,n,v,rfl⟩
  · have ha := hs.announced
    have hc := hs.count
    cases p with
    | discard a n v => exact drainDiscard_run hd hp a n v
    | limit msg q =>
      have h := skipReal_run (d:={d with pending := some q}) swar hd hp hk ha.real
        ((announced_count ha).trans_le hc) rfl
      exact DropEnds.of_pending h
    | scalar signed => exact skipReal_run swar hd hp hk ha hc hq
    | fixlen st length => exact skipReal_run swar hd hp hk ha hc hq
    | varray signed count => exact skipReal_run swar hd hp hk ha hc hq
    | farray st count size => exact skipReal_run swar hd hp hk ha hc hq
  · exact drainDiscard_run hd hp a n v

end Header

end Decoder

end Native

end SofaBuffers
