import SofaBuffers.Walk.Buffer

/-!
# The header walk on the bytes left

Dropping a value, parsing a header and skipping a sub-tree, as the decoder
does them on its buffer, are the machine's steps on the bytes still to be
walked.
-/

set_option autoImplicit false

namespace SofaBuffers

open Resumable Dec

variable {V : Type} {α β : Type}

/-- How a read ends that is a parser on the bytes left. -/
def ParseEnds (r : EStateM.Result Exn (Dec V) α) (d : Dec V) (p : Parse Exn UInt8 α) : Prop :=
  match p with
  | .done a rest => r=.ok a {d with pos := d.seek rest}
  | .more => ∃ msg, r=.error (.incomplete msg) {d with pos := d.keep}
  | .bad why => ∃ pos, r=.error why {d with pos := pos}

/-- The method is a parser on the bytes left. -/
def Parses (m : DecM V α) (p : Parser Exn UInt8 α) : Prop :=
  ∀ d : Dec V, d.Filled → d.pos ≤ d.n → ParseEnds (m d) d (p d.rest)

/-- The varint reader parses a varint. -/
theorem parses_varint : Parses (varint : DecM V ℕ) (Varint.read overlong) := by
  intro d hd hp
  rw [varint_run hd]
  cases Varint.read overlong d.rest with
  | done v rest => rfl
  | more => exact ⟨_,rfl⟩
  | bad why => exact ⟨d.pos,rfl⟩

/-- A value in hand parses nothing. -/
theorem parses_pure (a : α) : Parses (pure a : DecM V α) (pure a) := by
  intro d hd hp
  show (.ok a d : EStateM.Result Exn (Dec V) α)=.ok a {d with pos := d.seek d.rest}
  rw [rest,seek_restFrom hd hp]

/-- A check of what was read parses nothing. -/
theorem parses_check (r : Except Exn α) : Parses (ofExcept r : DecM V α) (ofCheck r) := by
  cases r with
  | ok a => exact parses_pure a
  | error e => exact fun d _ _ => ⟨d.pos,rfl⟩

/-- Methods in sequence parse as the parsers do in sequence. -/
theorem Parses.bind {m : DecM V α} {p : Parser Exn UInt8 α} (hm : Parses m p) (hp : Stable p)
    {f : α → DecM V β} {g : α → Parser Exn UInt8 β} (hf : ∀ a, Parses (f a) (g a)) :
    Parses (m >>= f) (p >>= g) := by
  intro d hd hpos
  have h := hm d hd hpos
  cases hx : p d.rest with
  | done a rest =>
    rw [hx] at h
    have hrest : Dec.rest {d with pos := d.seek rest}=rest := restFrom_seek hd (hp.suffix hx)
    have h2 := hf a {d with pos := d.seek rest} hd (by show d.n-rest.length ≤ d.n; omega)
    rw [run_bind_ok h,bind_done hx]
    rw [hrest] at h2
    cases hy : g a rest with
    | done b mid => rw [hy] at h2; exact h2
    | more => rw [hy] at h2; exact h2
    | bad why => rw [hy] at h2; exact h2
  | more =>
    rw [hx] at h
    obtain ⟨msg,h⟩ := h
    rw [run_bind_error h,bind_more hx]
    exact ⟨msg,rfl⟩
  | bad why =>
    rw [hx] at h
    obtain ⟨pos,h⟩ := h
    rw [run_bind_error h,bind_bad hx]
    exact ⟨pos,rfl⟩

/-- The words behind a fixlen header. -/
theorem parses_fixlenHeader : Parses (fixlenHeader : DecM V (FixlenSubtype × ℕ))
    (Varint.read overlong >>= fun word => ofCheck (fixlenWord word)) := by
  intro d hd hp
  have h := (parses_varint (V:=V)).bind (Varint.stable_read overlong)
    (fun word => parses_check (fixlenWord word)) d hd hp
  rw [fixlenHeader,run_get_bind]
  split
  · next hlt =>
    rw [run_bind,inlineWord_run hd hlt,←run_bind]
    exact h
  · exact h

/-- The word behind an array header. -/
theorem parses_arrayHeader : Parses (arrayHeader : DecM V ℕ)
    (Varint.read overlong >>= fun word => ofCheck (countWord word)) := by
  have h := (parses_varint (V:=V)).bind (Varint.stable_read overlong)
    (fun word => parses_check (countWord word))
  have he : (arrayHeader : DecM V ℕ)=varint >>= fun word => ofExcept (countWord word) := by
    rw [arrayHeader]
    congr 1
    funext count
    rw [countWord]
    split <;> rfl
  rwa [he]

/-- The words behind a fixlen array header. -/
theorem parses_farrayHeader : Parses (farrayHeader : DecM V (ℕ × FixlenSubtype × ℕ)) (do
    let word ← Varint.read overlong
    let count ← ofCheck (countWord word)
    let word ← Varint.read overlong
    let shape ← ofCheck (elementWord word)
    pure (count,shape)) := by
  have h := (parses_arrayHeader (V:=V)).bind
    ((Varint.stable_read overlong).bind fun word => stable_ofCheck (countWord word))
    (fun count => (parses_varint (V:=V)).bind (Varint.stable_read overlong)
      (fun word => (parses_check (elementWord word)).bind (stable_ofCheck _)
        (fun shape => parses_pure (count,shape))))
  rw [Parser.bind_assoc] at h
  exact h

/-- A header's verdict leaves the storage and the buffer as they were. -/
def HeaderRefused (r : EStateM.Result Exn (Dec V) (Option WireType)) (d : Dec V) (why : Exn) :
    Prop :=
  ∃ pos id st, r=.error why {d with pos := pos, curId := id, curSubtype := st}

/-- How the header parse ends, by the token on the bytes left. -/
def HeaderEnds (c : Config V) (r : EStateM.Result Exn (Dec V) (Option WireType)) (d : Dec V) :
    Parse Exn UInt8 Token → Prop
  | .more => ∃ msg id st,
      r=.error (.incomplete msg) {d with pos := d.keep, curId := id, curSubtype := st}
  | .bad why => HeaderRefused r d why
  | .done (.value id p) rest =>
    r=.ok (some p.tag.1) {d with
      pos := d.seek rest, curId := id, curSubtype := p.tag.2, pending := some (park c p)}
  | .done (.start id) rest =>
    if maxDepth ≤ d.depth then HeaderRefused r d (.decode "nesting exceeds MAX_DEPTH=255")
    else r=.ok (some .sequenceStart) {d with
      pos := d.seek rest, curId := id, curSubtype := none, depth := d.depth+1}
  | .done .stop rest =>
    if d.depth ≤ 0 then HeaderRefused r d (.decode "unbalanced sequence end")
    else ∃ id, r=.ok (some .sequenceEnd) {d with
      pos := d.seek rest, curId := id, curSubtype := none, depth := d.depth-1}

/-- The words behind a value's header, then what it announces. -/
theorem headerEnds_value {c : Config V} {d : Dec V} (hd : d.Filled) (id : ℕ) {pos : ℕ}
    {mid : List UInt8} (hpos : pos ≤ d.n) (hmid : d.restFrom pos=mid) {m : DecM V α} {q : Parser Exn UInt8 α}
    (hm : Parses m q) (st : α → Option FixlenSubtype) (p : α → Pending) {t : WireType}
    (ht : ∀ a, (p a).tag=(t,st a)) :
    HeaderEnds c
      ((m >>= fun a => announce c (st a) (p a) >>= fun _ => (pure (some t) : DecM V _))
        {d with pos := pos, curId := id, curSubtype := none}) d
      ((q >>= fun a => (pure (.value id (p a)) : Parser Exn UInt8 Token)) mid) := by
  have h := hm {d with pos := pos, curId := id, curSubtype := none} hd hpos
  have hrest : Dec.rest {d with pos := pos, curId := id, curSubtype := none}=mid := hmid
  rw [hrest] at h
  cases hq : q mid with
  | done a rest =>
    rw [hq] at h
    rw [bind_done hq,run_bind_ok h]
    have ht1 := congrArg Prod.fst (ht a)
    have ht2 := congrArg Prod.snd (ht a)
    show _=EStateM.Result.ok (some (p a).tag.1) {d with
      pos := d.seek rest, curId := id, curSubtype := (p a).tag.2, pending := some (park c (p a))}
    rw [ht1,ht2]
    rfl
  | more =>
    rw [hq] at h
    obtain ⟨msg,h⟩ := h
    rw [bind_more hq,run_bind_error h]
    exact ⟨msg,id,none,rfl⟩
  | bad why =>
    rw [hq] at h
    obtain ⟨pos',h⟩ := h
    rw [bind_bad hq,run_bind_error h]
    exact ⟨pos',id,none,rfl⟩

/-- At the end of the buffer a header is either owed or not. -/
theorem readHeader_end (c : Config V) {d : Dec V} (hd : d.Filled) (h : d.rest=[]) :
    readHeader c d=
      if d.depth≠0 then
        .error (.incomplete "truncated: unbalanced sequence") {d with pos := d.keep}
      else .ok none d := by
  rw [readHeader,run_get_bind,if_pos ((restFrom_nil hd).mp h)]
  split <;> rfl

/-- The header parse reads a token off the bytes left. -/
theorem readHeader_run (c : Config V) {d : Dec V} (hd : d.Filled) (h : d.rest≠[]) : HeaderEnds c (readHeader c d) d (readToken d.rest) := by
  have hlt : d.pos < d.n := by
    by_cases hlt : d.n ≤ d.pos
    · exact absurd ((restFrom_nil hd).mpr hlt) h
    · omega
  rw [readHeader,run_get_bind,if_neg (by omega)]
  have hw : (inlineWord : DecM V ℕ) d=varint d := inlineWord_run hd hlt
  cases hx : Varint.read overlong d.rest with
  | more =>
    rw [run_bind_error (hw.trans (varint_more hd hx)),readToken,bind_more hx]
    exact ⟨_,d.curId,d.curSubtype,rfl⟩
  | bad why =>
    rw [run_bind_error (hw.trans (varint_bad hd hx)),readToken,bind_bad hx]
    exact ⟨d.pos,d.curId,d.curSubtype,rfl⟩
  | done header mid =>
    rw [run_bind_ok (hw.trans (varint_done hd hx)),readToken,bind_done hx]
    dsimp only
    rw [run_modify_bind]
    dsimp only
    by_cases hid : idMax < header/8
    · have hcheck : idWord (header/8)=.error (.decode s!"id {header/8} out of range") := by
        rw [idWord,if_pos hid]
      rw [if_pos hid,hcheck]
      exact ⟨d.seek mid,header/8,none,rfl⟩
    · have hcheck : idWord (header/8)=.ok () := by rw [idWord,if_neg hid]
      have hmid : d.restFrom (d.seek mid)=mid :=
        restFrom_seek hd ((Varint.stable_read overlong).suffix hx)
      have hpos : d.seek mid ≤ d.n := by rw [seek]; omega
      rw [if_neg hid,hcheck]
      show HeaderEnds c _ d (readBehind header mid)
      rw [readBehind]
      generalize header/8=id
      cases WireType.ofHeader header with
      | unsigned => rfl
      | signed => rfl
      | fixlen =>
        have hv := headerEnds_value (c:=c) hd id hpos hmid parses_fixlenHeader
          (fun a => some a.1) (fun a => .fixlen a.1 a.2) (fun a => rfl)
        rw [Parser.bind_assoc] at hv
        exact hv
      | arrayUnsigned =>
        have hv := headerEnds_value (c:=c) hd id hpos hmid parses_arrayHeader
          (fun _ => none) (fun a => .varray false a) (fun a => rfl)
        rw [Parser.bind_assoc] at hv
        exact hv
      | arraySigned =>
        have hv := headerEnds_value (c:=c) hd id hpos hmid parses_arrayHeader
          (fun _ => none) (fun a => .varray true a) (fun a => rfl)
        rw [Parser.bind_assoc] at hv
        exact hv
      | arrayFixlen =>
        have hv := headerEnds_value (c:=c) hd id hpos hmid parses_farrayHeader
          (fun a => some a.2.1) (fun a => .farray a.2.1 a.1 a.2.2) (fun a => rfl)
        simp only [Parser.bind_assoc] at hv
        exact hv
      | sequenceStart =>
        show HeaderEnds c _ d (.done (.start id) mid)
        rw [HeaderEnds]
        by_cases hdep : maxDepth ≤ d.depth
        · rw [if_pos hdep]
          refine ⟨d.seek mid,id,none,?_⟩
          dsimp only
          rw [run_get_bind,if_pos hdep]
          rfl
        · rw [if_neg hdep]
          dsimp only
          rw [run_get_bind,if_neg hdep]
          rfl
      | sequenceEnd =>
        show HeaderEnds c _ d (.done .stop mid)
        rw [HeaderEnds]
        by_cases hdep : d.depth ≤ 0
        · rw [if_pos hdep]
          refine ⟨d.seek mid,id,none,?_⟩
          dsimp only
          rw [run_get_bind,if_pos hdep]
          rfl
        · rw [if_neg hdep]
          refine ⟨id,?_⟩
          dsimp only
          rw [run_get_bind,if_neg hdep]
          rfl

/-- How dropping a value ends. -/
def DropEnds (r : EStateM.Result Exn (Dec V) Unit) (d : Dec V) : Drop → Prop
  | .gone rest => r=.ok () {d with pos := d.seek rest, pending := none}
  | .left p rest =>
    ∃ msg, r=.error (.incomplete msg) {d with pos := d.seek rest, pending := some p}
  | .bad why => ∃ pos p, r=.error why {d with pos := pos, pending := p}

/-- Varints are dropped off the bytes left. -/
theorem drainVarints_run {d : Dec V} (hd : d.Filled) (left vbytes : ℕ) {turns pos : ℕ}
    (hp : pos ≤ d.n) (ht : d.n-pos < turns) :
    match dropVarints left vbytes (d.restFrom pos) with
    | .gone rest => drainVarints turns left vbytes pos d=.ok () {d with pos := d.seek rest}
    | .left p rest => ∃ msg, drainVarints turns left vbytes pos d=
        .error (.incomplete msg) {d with pos := d.seek rest, pending := some p}
    | .bad why => drainVarints turns left vbytes pos d=.error why d := by
  induction turns generalizing left vbytes pos with
  | zero => omega
  | succ turns ih =>
    cases left with
    | zero =>
      rw [dropVarints]
      show (.ok () {d with pos := pos} : EStateM.Result Exn (Dec V) Unit)=_
      rw [seek_restFrom hd hp]
    | succ left =>
      rw [drainVarints,run_get_bind]
      cases hx : d.restFrom pos with
      | nil =>
        have hn := (restFrom_nil hd).mp hx
        have hpn : pos=d.n := by omega
        rw [if_pos hn,dropVarints]
        subst hpn
        exact ⟨_,rfl⟩
      | cons b t =>
        obtain ⟨hlt,hb,hrest⟩ := restFrom_cons hd hx
        rw [if_neg (by omega),run_bind_ok (byteAt_run hb),dropVarints,←hrest]
        by_cases h10 : vbytes+1=10
        · rw [if_pos h10,if_pos h10]
          by_cases h1 : 1 < b.toNat
          · rw [if_pos h1,if_pos h1]
            rfl
          · rw [if_neg h1,if_neg h1]
            exact ih _ _ (by omega) (by omega)
        · rw [if_neg h10,if_neg h10]
          by_cases h1 : b.toNat < 0x80
          · rw [if_pos h1,if_pos h1]
            exact ih _ _ (by omega) (by omega)
          · rw [if_neg h1,if_neg h1]
            exact ih _ _ (by omega) (by omega)

/-- A half-dropped construct is dropped on. -/
theorem drainDiscard_run {d : Dec V} (hd : d.Filled) (hp : d.pos ≤ d.n) (a n v : ℕ) :
    DropEnds (drainDiscard a n v d) d (dropDiscard a n v d.rest) := by
  have hl := restFrom_length hd d.pos
  rw [drainDiscard,run_get_bind,dropDiscard,rest,hl]
  by_cases ha : d.n-d.pos < a
  · rw [if_pos ha,if_pos ha]
    exact ⟨_,rfl⟩
  · rw [if_neg ha,if_neg ha,←restFrom_drop,setPos_bind]
    have h := drainVarints_run (d:={d with pos := d.pos+a}) hd n v (show d.pos+a ≤ d.n by omega)
      (show d.n-(d.pos+a) < d.n-(d.pos+a)+1 by omega)
    have hrest : Dec.restFrom {d with pos := d.pos+a} (d.pos+a)=d.restFrom (d.pos+a) := rfl
    rw [hrest] at h
    by_cases hn : n=0
    · subst hn
      rw [dropVarints,if_pos rfl]
      show (.ok () {d with pos := d.pos+a, pending := none} :
        EStateM.Result Exn (Dec V) Unit)=_
      rw [seek_restFrom hd (by omega)]
    · rw [if_neg hn]
      cases hx : dropVarints n v (d.restFrom (d.pos+a)) with
      | gone rest =>
        rw [hx] at h
        rw [run_bind_ok h]
        rfl
      | left p rest =>
        rw [hx] at h
        obtain ⟨msg,h⟩ := h
        rw [run_bind_error h]
        exact ⟨msg,rfl⟩
      | bad why =>
        rw [hx] at h
        rw [run_bind_error h]
        exact ⟨d.pos+a,d.pending,rfl⟩

/-- What happens to a construct does not depend on what was pending before. -/
theorem DropEnds.of_pending {r : EStateM.Result Exn (Dec V) Unit} {d : Dec V} {dr : Drop}
    {p : Option Pending} (h : DropEnds r {d with pending := p} dr) : DropEnds r d dr := by
  cases dr <;> exact h

/-- A construct committed to being discarded is dropped off the bytes left. -/
theorem discard_run {d : Dec V} (hd : d.Filled) (hp : d.pos ≤ d.n) (a n : ℕ) :
    DropEnds (discard a n d) d (dropDiscard a n 0 d.rest) := by
  have h := drainDiscard_run (d:={d with pending := some (.discard a n 0)}) hd hp a n 0
  exact DropEnds.of_pending h

/-- A value of which nothing was dropped yet is dropped off the bytes left. -/
theorem skipReal_run {d : Dec V} (hd : d.Filled) (hp : d.pos ≤ d.n) (hk : d.keep=d.pos)
    {q : Pending} (hq : d.pending=some q) : DropEnds (skipReal q d) d (dropReal q d.rest) := by
  have hseek : d.seek d.rest=d.pos := seek_restFrom hd hp
  cases q with
  | scalar signed =>
    rw [skipReal,dropReal]
    cases hv : Varint.read overlong d.rest with
    | done v rest =>
      rw [run_bind_ok (varint_done hd hv)]
      rfl
    | more =>
      refine ⟨"truncated varint",?_⟩
      rw [run_bind_error (varint_more hd hv),hseek,hk,←hq]
    | bad why =>
      rw [run_bind_error (varint_bad hd hv)]
      exact ⟨d.pos,d.pending,rfl⟩
  | fixlen st length => exact discard_run hd hp length 0
  | varray signed count => exact discard_run hd hp 0 count
  | farray st count size =>
    rw [skipReal,dropReal]
    by_cases hs : sysMaxsize < count*size
    · have hf : (farrayNbytes count size : DecM V ℕ) d=
          .error (.incomplete "truncated payload") {d with pos := d.keep} := by
        rw [farrayNbytes,if_pos hs]
        rfl
      rw [if_pos hs]
      refine ⟨"truncated payload",?_⟩
      rw [run_bind_error hf,hseek,hk,←hq]
    · have hf : (farrayNbytes count size : DecM V ℕ) d=.ok (count*size) d := by
        rw [farrayNbytes,if_neg hs]
        rfl
      rw [run_bind_ok hf,if_neg hs]
      exact discard_run hd hp (count*size) 0
  | limit msg q => exact ⟨d.pos,d.pending,rfl⟩
  | discard a n v => exact ⟨d.pos,d.pending,rfl⟩

/-- The value the last header announced is dropped off the bytes left. -/
theorem skipPending_run {d : Dec V} (hd : d.Filled) (hp : d.pos ≤ d.n) (hk : d.keep=d.pos)
    {p : Pending} (hpend : d.pending=some p) :
    DropEnds (skipPending d) d (p.drop d.rest) := by
  rw [skipPending,run_get_bind,hpend]
  cases p with
  | discard a n v => exact drainDiscard_run hd hp a n v
  | limit msg q =>
    have h := skipReal_run (d:={d with pending := some q}) hd hp hk rfl
    exact DropEnds.of_pending h
  | scalar signed => exact skipReal_run hd hp hk hpend
  | fixlen st length => exact skipReal_run hd hp hk hpend
  | varray signed count => exact skipReal_run hd hp hk hpend
  | farray st count size => exact skipReal_run hd hp hk hpend

end SofaBuffers
