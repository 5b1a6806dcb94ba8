import SofaBuffers.Walk.Header
import SofaBuffers.Walk.Progress

/-!
# The value reads on the bytes left

Each way the decoder reads a value is the plan of that value, read off the
bytes still to be walked.
-/

set_option autoImplicit false

namespace SofaBuffers

open Resumable Dec

variable {V : Type}

/-- What a walk never touches: the buffer, the reassembly and the outcome. -/
structure Frame where
  /-- The bytes being walked. -/
  buf : List UInt8
  /-- Whether they are the reassembly buffer. -/
  bufIsR : Bool
  /-- How many there are. -/
  n : ℕ
  /-- The reassembly buffer. -/
  rbuf : List UInt8
  /-- Start of its span in use. -/
  rstart : ℕ
  /-- End of its span in use. -/
  rend : ℕ
  /-- Outcome of the last feed. -/
  status : Status
  /-- The failure behind it. -/
  error : Option Exn
  /-- The rejection reached. -/
  limit : Option Exn

/-- The part of a decoder a walk never touches. -/
def Dec.frame (d : Dec V) : Frame :=
  ⟨d.buf,d.bufIsR,d.n,d.rbuf,d.rstart,d.rend,d.status,d.error,d.limit⟩

/-- The value is one a header can announce. -/
def Pending.Announced (p : Pending) : Prop :=
  match p.real with
  | .fixlen .fp32 length => length=4
  | .fixlen .fp64 length => length=8
  | .farray .fp32 _ size => size=4
  | .farray .fp64 _ size => size=8
  | .farray .. | .limit .. | .discard .. => False
  | _ => True

/-- Taking a parked cap off leaves an announced value. -/
theorem Pending.Announced.real {p : Pending} (h : p.Announced) : p.real.Announced := by
  cases p with
  | limit msg q => cases q <;> first | exact h | exact absurd h id
  | _ => exact h

/-- How a value read ends, by the reading of its plan; `p` is the value still
pending when it does not end well. -/
def ReadEnds (r : EStateM.Result Exn (Dec V) Unit) (d : Dec V) (p : Pending) :
    Reading V → Prop
  | .done s rest =>
    ∃ k, r=.ok () {d with keep := k, pos := d.seek rest, pending := none, store := s}
  | .more s =>
    ∃ msg k, r=.error (.incomplete msg) {d with keep := k, pending := some p, store := s}
  | .bad why s =>
    why.cls≠.incomplete ∧ ∃ d', r=.error why d' ∧ d'.store=s ∧ d'.frame=d.frame ∧
      (why.cls=.argument → ∃ k, d'={d with keep := k, pending := some p, store := s})

/-- The change blames neither the caller's request nor missing bytes. -/
def Effect.Quiet (f : Effect V) : Prop :=
  ∀ s s' e, f s=(s',some e) → e.cls≠.argument ∧ e.cls≠.incomplete

/-- A destination is refused for the caller's sake. -/
theorem writable_error {who : String} {o : Obj} {e : Exn} (h : writable who o=.error e) :
    e.cls=.argument := by
  rw [writable.eq_def] at h
  dsimp only at h
  split at h
  · split at h <;> cases h
    rfl
  · cases h
    rfl

/-- A view of single bytes is refused for the caller's sake. -/
theorem byteView_error {who what : String} {o : Obj} {size : ℕ} {e : Exn}
    (h : byteView who what o size=.error e) : e.cls≠.incomplete := by
  rw [byteView] at h
  cases hw : writable who o with
  | error e' =>
    rw [hw] at h
    cases h
    rw [writable_error hw]
    decide
  | ok view =>
    rw [hw] at h
    dsimp only at h
    split at h
    · cases h
      simp [Exn.cls]
    · split at h <;> cases h
      simp [Exn.cls]

section Quiet

/-- Changing nothing raises nothing. -/
theorem quiet_done : (Effect.done : Effect V).Quiet := by
  intro s s' e h
  cases h

/-- Updating raises nothing. -/
theorem quiet_update (f : Store V → Store V) : (Effect.update f).Quiet := by
  intro s s' e h
  cases h

/-- Raising what blames neither is quiet. -/
theorem quiet_raise {e : Exn} (he : e.cls≠.argument ∧ e.cls≠.incomplete) : (Effect.raise e : Effect V).Quiet := by
  intro s s' e' h
  cases h
  exact he

/-- Quiet changes in order are quiet. -/
theorem Effect.Quiet.andThen {f g : Effect V} (hf : f.Quiet) (hg : g.Quiet) :
    (f.andThen g).Quiet := by
  intro s s' e h
  rw [Effect.andThen] at h
  split at h
  · exact hg _ _ _ h
  · next heq =>
    cases h
    exact hf _ _ _ heq

/-- Storing a word is quiet. -/
theorem quiet_putWord (c : Config V) (i : ℕ) (w : BitVec 64) :
    (Effect.putWord c i w).Quiet := by
  rw [Effect.putWord]
  split
  · exact quiet_update _
  · exact quiet_raise (by simp [Exn.cls])

/-- Storing an object is quiet. -/
theorem quiet_putObj (c : Config V) (i : ℕ) (o : Obj) : (Effect.putObj c i o).Quiet := by
  rw [Effect.putObj]
  split
  · exact quiet_update _
  · exact quiet_raise (by simp [Exn.cls])

/-- Storing an element is quiet. -/
theorem quiet_put (c : Config V) (into : Sink) (i : ℕ) (x : ℤ) : (into.put c i x).Quiet := by
  have hi : (Effect.raise .index : Effect V).Quiet := quiet_raise (by simp [Exn.cls])
  have hv : (Effect.raise .value : Effect V).Quiet := quiet_raise (by simp [Exn.cls])
  cases into with
  | unsignedWords | signedWords =>
    rw [Sink.put]
    split
    · split
      · exact quiet_update _
      · exact hv
    · exact hi
  | buffer d =>
    rw [Sink.put]
    split
    · dsimp only
      split
      · exact quiet_update _
      · exact hv
    · exact hi

/-- A typed hook is quiet. -/
theorem quiet_deliver (c : Config V) (v : V) (id : ℕ) (value : Value) :
    (Effect.deliver c v id value).Quiet := by
  refine (quiet_update _).andThen ?_
  split
  · exact quiet_done
  · next r _ => cases r <;> exact quiet_raise (by simp [Refusal.toExn,Exn.cls])

/-- Copying a payload is quiet. -/
theorem quiet_copyInto (view : Dst) (data : List UInt8) : (copyInto view data : Effect V).Quiet := by
  rw [copyInto]
  split
  · exact quiet_raise (by simp [Exn.cls])
  · exact quiet_update _

/-- Going on with a text is as quiet as what is done with it. -/
theorem quiet_withText {data : List UInt8} {k : List ℕ → Effect V} (hk : ∀ t, (k t).Quiet) :
    (withText data k).Quiet := by
  rw [withText]
  split
  · exact hk _
  · exact quiet_raise (by simp [Exn.cls])

/-- Storing elements is quiet. -/
theorem quiet_fillFrom (c : Config V) (into : Option (Sink × ℕ)) (i : ℕ) (xs : List ℤ) :
    (fillFrom c into i xs).Quiet := by
  induction xs generalizing i with
  | nil => exact quiet_done
  | cons x xs ih =>
    cases into with
    | none => exact quiet_done
    | some target => exact (quiet_put _ _ _ _).andThen (ih _)

/-- Writing an arrival is quiet. -/
theorem quiet_countArrival (c : Config V) (e : Entry) (got : ℕ) :
    (countArrival c e got).Quiet := by
  rw [countArrival]
  split
  · exact quiet_done
  · exact quiet_putWord _ _ _

/-- Storing a slice of doubles is quiet. -/
theorem quiet_farrayPut (c : Config V) (into : FloatSink) (i : ℕ) (ws : List (BitVec 64)) :
    (into.put c i ws).Quiet := by
  have hv : (Effect.raise .value : Effect V).Quiet := quiet_raise (by simp [Exn.cls])
  cases into <;> rw [FloatSink.put] <;> split
  all_goals first
    | exact quiet_update _
    | exact hv

/-- Storing a fixlen array is quiet. -/
theorem quiet_unpackFarrayInto (c : Config V) (into : FloatSink) (base : ℕ) (data : List UInt8)
    (count width start turns off : ℕ) :
    (unpackFarrayInto c into base data count width start turns off).Quiet := by
  induction turns generalizing off with
  | zero => exact quiet_raise (by simp [Exn.cls])
  | succ turns ih =>
    rw [unpackFarrayInto]
    split
    · exact (quiet_farrayPut _ _ _ _).andThen (ih _)
    · exact quiet_done

/-- The second pass over booleans is quiet. -/
theorem quiet_normaliseBooleans (c : Config V) (count i : ℕ) :
    (normaliseBooleans c count i).Quiet := by
  induction count generalizing i with
  | zero => exact quiet_done
  | succ count ih =>
    intro s s' e h
    rw [normaliseBooleans] at h
    split at h
    · refine Effect.Quiet.andThen ?_ (ih _) s s' e h
      split
      · exact quiet_putWord _ _ _
      · exact quiet_done
    · cases h
      simp [Exn.cls]

end Quiet

/-- A change that goes well. -/
theorem perform_ok {f : Effect V} {d : Dec V} {s : Store V} (h : f d.store=(s,none)) :
    (perform f : DecM V Unit) d=.ok () {d with store := s} := by
  rw [perform_run,h]

/-- A change that raises. -/
theorem perform_error {f : Effect V} {d : Dec V} {s : Store V} {e : Exn}
    (h : f d.store=(s,some e)) : (perform f : DecM V Unit) d=.error e {d with store := s} := by
  rw [perform_run,h]

/-- Changes in order are carried out in order. -/
theorem perform_andThen (f g : Effect V) :
    (perform (f.andThen g) : DecM V Unit)=perform f >>= fun _ => perform g := by
  funext d
  rw [run_bind,perform_run,perform_run,Effect.andThen]
  obtain ⟨s,_ | e⟩ := f d.store <;> rfl

/-- Nothing to carry out. -/
theorem perform_done : (perform Effect.done : DecM V Unit)=pure () := by
  funext d
  rfl

/-- Nothing after a change. -/
@[simp] theorem Effect.andThen_done (f : Effect V) : f.andThen .done=f := by
  funext s
  rw [Effect.andThen]
  obtain ⟨s,_ | e⟩ := f s <;> rfl

/-- What follows a text follows what is done with it. -/
theorem withText_andThen (data : List UInt8) (k : List ℕ → Effect V) (g : Effect V) :
    (withText data k).andThen g=withText data fun text => (k text).andThen g := by
  rw [withText,withText]
  cases Utf8.decode data <;> rfl

/-- A change that goes on with what it came to. -/
theorem perform_count (f : Effect V) (n : ℕ) (g : ℕ → Effect V) :
    ((perform f >>= fun _ => pure n) >>= fun got => perform (g got) : DecM V Unit)=
      perform (f.andThen (g n)) := by
  rw [perform_andThen,bind_assoc]
  congr 1

/-- A read that has its bytes ends in what its effect ends in. -/
theorem readEnds_of {d : Dec V} {p : Pending} {f : Effect V} (hf : f.Quiet) {k : ℕ}
    (rest : List UInt8) :
    ReadEnds ((perform f : DecM V Unit) {d with keep := k, pos := d.seek rest, pending := none})
      d p (.of (f d.store) rest) := by
  rw [perform_run]
  dsimp only
  cases hs : f d.store with
  | mk s e =>
    cases e with
    | none => exact ⟨k,rfl⟩
    | some e => exact ⟨(hf _ _ _ hs).2,_,rfl,rfl,rfl,fun h => absurd h (hf _ _ _ hs).1⟩

section Reads

variable {c : Config V} {d : Dec V} {p : Pending}

/-- A read that suspends at once leaves the value pending. -/
theorem readEnds_more (hq : d.pending=some p) {msg : String} {k : ℕ} :
    ReadEnds (.error (.incomplete msg) {d with keep := k}) d p (.more d.store) :=
  ⟨msg,k,by rw [←hq]⟩

/-- A read that is refused at once leaves the value pending. -/
theorem readEnds_bad {why : Exn} (hw : why.cls≠.incomplete) (hq : d.pending=some p) {k : ℕ} :
    ReadEnds (.error why {d with keep := k}) d p (.bad why d.store) :=
  ⟨hw,_,rfl,rfl,rfl,fun _ => ⟨k,by rw [←hq]⟩⟩

/-- A value settled to be refused stays pending. -/
theorem readEnds_refused {q : Pending} {why : Exn} (hw : why.cls≠.incomplete) :
    ReadEnds (.error why {d with pending := some q}) d q (.bad why d.store) :=
  ⟨hw,_,rfl,rfl,rfl,fun _ => ⟨d.keep,rfl⟩⟩

/-- A scalar is read and then stored. -/
theorem reads_scalar (hd : d.Filled) (hq : d.pending=some p) {k : ℕ → Effect V}
    (hk : ∀ raw, (k raw).Quiet) :
    ReadEnds ((takeScalarMatched >>= fun raw => perform (k raw)) d) d p
      ((Plan.scalar k).read c d.store d.rest) := by
  rw [takeScalarMatched,bind_assoc,arm_bind,Plan.read]
  have hd' : Dec.Filled {d with keep := d.pos} := hd
  cases hv : Varint.read overlong d.rest with
  | done raw rest =>
    rw [bind_assoc,run_bind_ok (varint_done hd' hv)]
    exact readEnds_of (hk raw) rest
  | more =>
    rw [bind_assoc,run_bind_error (varint_more hd' hv)]
    exact readEnds_more hq
  | bad why =>
    rw [bind_assoc,run_bind_error (varint_bad hd' hv)]
    exact readEnds_bad (by rw [(Varint.read_bad_iff.mp hv).1]; intro h; cases h) hq

/-- A fixlen payload is read and then stored. -/
theorem reads_payload (hd : d.Filled) (hp : d.pos ≤ d.n) (hq : d.pending=some p) {n : ℕ}
    {k : List UInt8 → Effect V} (hk : ∀ data, (k data).Quiet) :
    ReadEnds ((takeFixlenMatched n >>= fun data => perform (k data)) d) d p
      ((Plan.payload n k).read c d.store d.rest) := by
  have h := readExact_run (d:={d with keep := d.pos}) hd hp n
  have hrest : Dec.rest {d with keep := d.pos}=d.rest := rfl
  rw [hrest] at h
  rw [takeFixlenMatched,bind_assoc,arm_bind,Plan.read,bind_assoc]
  by_cases hl : d.rest.length < n
  · rw [if_pos hl] at h ⊢
    rw [run_bind_error h]
    exact readEnds_more hq
  · rw [if_neg hl] at h ⊢
    rw [run_bind_ok h]
    exact readEnds_of (hk _) _

/-- A string's payload is read as text and then stored. -/
theorem reads_text (hd : d.Filled) (hp : d.pos ≤ d.n) (hq : d.pending=some p) {n : ℕ}
    {k : List ℕ → Effect V} (hk : ∀ text, (k text).Quiet) :
    ReadEnds ((takeTextMatched n >>= fun text => perform (k text)) d) d p
      ((Plan.payload n fun data => withText data k).read c d.store d.rest) := by
  have h := reads_payload (c:=c) hd hp hq (n:=n) (k:=fun data => withText data k)
    fun data => quiet_withText hk
  have hsame : (takeTextMatched n >>= fun text => perform (k text) : DecM V Unit)=
      takeFixlenMatched n >>= fun data => perform (withText data k) := by
    rw [takeTextMatched,takeFixlenMatched]
    simp only [bind_assoc,pure_bind]
    congr 1
    funext _
    congr 1
    funext data
    congr 1
    funext _
    rw [withText]
    cases Utf8.decode data <;> rfl
  rw [hsame]
  exact h

/-- A read that stores before it lets the value go. -/
theorem readEnds_stored {f g : Effect V} (hf : f.Quiet) (hg : g.Quiet) (k : ℕ) (rest : List UInt8) :
    ReadEnds ((perform f >>= fun _ => setPending none >>= fun _ => perform g)
      {d with keep := k, pos := d.seek rest}) d p (.of ((f.andThen g) d.store) rest) := by
  have hin : Dec.store {d with keep := k, pos := d.seek rest}=d.store := rfl
  rw [Effect.andThen]
  cases hs : f d.store with
  | mk s e =>
    rw [←hin] at hs
    cases e with
    | some e =>
      rw [run_bind_error (perform_error hs)]
      exact ⟨(hf _ _ _ hs).2,_,rfl,rfl,rfl,fun h => absurd h (hf _ _ _ hs).1⟩
    | none =>
      rw [run_bind_ok (perform_ok hs)]
      exact readEnds_of (d:={d with store := s}) hg rest

/-- A payload that is there is taken in place. -/
theorem readEnds_taken (hd : d.Filled) {size : ℕ} (hs : d.pos+size ≤ d.n) {f g : Effect V}
    (hf : f.Quiet) (hg : g.Quiet) :
    ReadEnds (((perform f >>= fun _ => setPos (d.pos+size) >>= fun _ => setPending none) >>=
      fun _ => perform g) {d with keep := d.pos}) d p
      (.of ((f.andThen g) d.store) (d.rest.drop size)) := by
  have hseek : d.seek (d.rest.drop size)=d.pos+size := by
    rw [rest,←restFrom_drop,seek_restFrom hd hs]
  have hin : Dec.store {d with keep := d.pos}=d.store := rfl
  rw [Effect.andThen,bind_assoc]
  cases hs : f d.store with
  | mk s e =>
    rw [←hin] at hs
    cases e with
    | some e =>
      rw [run_bind_error (perform_error hs)]
      exact ⟨(hf _ _ _ hs).2,_,rfl,rfl,rfl,fun h => absurd h (hf _ _ _ hs).1⟩
    | none =>
      have h := readEnds_of (d:={d with store := s}) (p:=p) hg (k:=d.pos) (d.rest.drop size)
      have hseek' : Dec.seek {d with store := s} (d.rest.drop size)=d.pos+size := hseek
      rw [hseek'] at h
      rw [run_bind_ok (perform_ok hs)]
      exact h

/-- The bytes of a payload that is there. -/
theorem slice_eq {size : ℕ} (hs : d.pos+size ≤ d.n) :
    (d.buf.drop d.pos).take size=d.rest.take size := by
  rw [rest,restFrom,List.drop_take,List.take_take]
  congr 1
  omega

/-- Copying a payload into a buffer that was looked at first. -/
theorem reads_blobInto (hd : d.Filled) (hp : d.pos ≤ d.n) (hq : d.pending=some p) (dst : Obj)
    (size : ℕ) (who : String) {g : Effect V} (hg : g.Quiet) :
    ReadEnds ((takeBlobInto dst size who >>= fun _ => perform g) d) d p
      ((bytesPlan (byteView who "blob" dst size) size fun view data =>
        (copyInto view data).andThen g).read c d.store d.rest) := by
  have hl : d.rest.length=d.n-d.pos := restFrom_length hd d.pos
  rw [takeBlobInto]
  cases hb : byteView who "blob" dst size with
  | error e => exact readEnds_bad (k:=d.keep) (byteView_error hb) hq
  | ok view =>
    show ReadEnds (((if d.n < d.pos+size then (suspend "truncated payload" : DecM V Unit) else _) >>=
      fun _ => perform g) {d with keep := d.pos}) d p _
    rw [bytesPlan.eq_def,Plan.read.eq_def]
    dsimp only
    by_cases h : d.n < d.pos+size
    · rw [if_pos h,if_pos (show d.rest.length < size by omega)]
      exact readEnds_more hq
    · have hin : d.pos+size ≤ d.n := by omega
      rw [if_neg h,if_neg (show ¬d.rest.length < size by omega),slice_eq hin]
      exact readEnds_taken hd (by omega) (quiet_copyInto _ _) hg

/-- Copying a string's payload into a buffer that was looked at first. -/
theorem reads_stringInto (hd : d.Filled) (hp : d.pos ≤ d.n) (hq : d.pending=some p) (dst : Obj)
    (size : ℕ) (who : String) {g : Effect V} (hg : g.Quiet) :
    ReadEnds ((takeStringInto dst size who >>= fun _ => perform g) d) d p
      ((bytesPlan (byteView who "string" dst size) size fun view data =>
        (copyText view data).andThen g).read c d.store d.rest) := by
  have hl : d.rest.length=d.n-d.pos := restFrom_length hd d.pos
  rw [takeStringInto]
  cases hb : byteView who "string" dst size with
  | error e => exact readEnds_bad (k:=d.keep) (byteView_error hb) hq
  | ok view =>
    show ReadEnds (((if d.n < d.pos+size then (suspend "truncated payload" : DecM V Unit)
      else if !utf8Valid d.buf d.pos size then throw (.decode "invalid UTF-8 in string field")
      else _) >>= fun _ => perform g) {d with keep := d.pos}) d p _
    rw [bytesPlan.eq_def,Plan.read.eq_def]
    dsimp only
    by_cases h : d.n < d.pos+size
    · rw [if_pos h,if_pos (show d.rest.length < size by omega)]
      exact readEnds_more hq
    · have hlen : d.pos+size ≤ d.buf.length := by
        have : d.n ≤ d.buf.length := hd
        omega
      have hin : d.pos+size ≤ d.n := by omega
      rw [if_neg h,if_neg (show ¬d.rest.length < size by omega),utf8Valid_eq hlen,slice_eq hin,
        copyText]
      cases hv : Utf8.valid (d.rest.take size) with
      | true =>
        exact readEnds_taken hd (by omega) (quiet_copyInto _ _) hg
      | false => exact readEnds_bad (by intro h; cases h) hq

/-- Copying a payload into a buffer, nothing being done after. -/
theorem reads_blob (hd : d.Filled) (hp : d.pos ≤ d.n) (hq : d.pending=some p) (dst : Obj)
    (size : ℕ) (who : String) :
    ReadEnds (takeBlobInto dst size who d) d p
      ((bytesPlan (byteView who "blob" dst size) size copyInto).read c d.store d.rest) := by
  have h := reads_blobInto (c:=c) hd hp hq dst size who quiet_done
  simpa only [perform_done,bind_pure_unit,Effect.andThen_done] using h

/-- Copying a string's payload into a buffer, nothing being done after. -/
theorem reads_string (hd : d.Filled) (hp : d.pos ≤ d.n) (hq : d.pending=some p) (dst : Obj)
    (size : ℕ) (who : String) :
    ReadEnds (takeStringInto dst size who d) d p
      ((bytesPlan (byteView who "string" dst size) size copyText).read c d.store d.rest) := by
  have h := reads_stringInto (c:=c) hd hp hq dst size who quiet_done
  simpa only [perform_done,bind_pure_unit,Effect.andThen_done] using h

/-- The payload of a fixlen array is claimed in place and then stored. -/
theorem reads_span (hd : d.Filled) (hp : d.pos ≤ d.n) (hq : d.pending=some p) {count size : ℕ}
    {k : List UInt8 × ℕ → Effect V} {k' : List UInt8 → Effect V} (hk : ∀ data, (k' data).Quiet)
    (heq : count*size ≤ d.rest.length → k (d.buf,d.pos)=k' (d.rest.take (count*size))) :
    ReadEnds ((takeFarray count size >>= fun span => perform (k span)) d) d p
      ((Plan.span count size k').read c d.store d.rest) := by
  rw [takeFarray,bind_assoc,arm_bind,Plan.span,bind_assoc,farrayNbytes]
  by_cases hs : sysMaxsize < count*size
  · rw [if_pos hs,if_pos hs]
    exact readEnds_more hq
  · rw [if_neg hs,if_neg hs,pure_bind,Plan.read,bind_assoc]
    have h := spanExact_run (d:={d with keep := d.pos}) hd hp (count*size)
    have hrest : Dec.rest {d with keep := d.pos}=d.rest := rfl
    rw [hrest] at h
    by_cases hl : d.rest.length < count*size
    · rw [if_pos hl] at h ⊢
      rw [run_bind_error h]
      exact readEnds_more hq
    · rw [if_neg hl] at h ⊢
      rw [run_bind_ok h,←heq (by omega)]
      exact readEnds_of (by rw [heq (by omega)]; exact hk _) _

/-- How a read ends does not depend on the storage and the value pending it
started from. -/
theorem ReadEnds.of_start {r : EStateM.Result Exn (Dec V) Unit} {s : Store V}
    {q : Option Pending} {rd : Reading V} (h : ReadEnds r {d with pending := q, store := s} p rd) :
    ReadEnds r d p rd := by
  cases rd <;> exact h

/-- A loop over elements `m₀` that scans the bytes left and stores what it scanned is a read; `m`
is what is done once the last is there. -/
theorem LoopEnds.reads (into : Option Sink) (base : ℕ) (hq : d.pending=some p) {count : ℕ}
    {bound : Bound} {zigzag : Bool} {k : List ℤ → Effect V} {m₀ : DecM V (List ℤ)}
    {m : List ℤ → DecM V Unit}
    (h : LoopEnds (m₀ {d with keep := d.pos}) {d with keep := d.pos}
      (if into.isSome then [] else (scan bound zigzag count d.rest).1)
      (fillFrom c (into.map (·,base)) 0 (scan bound zigzag count d.rest).1 d.store)
      (scan bound zigzag count d.rest).2)
    (hm : ∀ xs s rest, ReadEnds (m (if into.isSome then [] else xs)
      {d with keep := d.pos, pos := d.seek rest, store := s}) d p (.of (k xs s) rest)) :
    ReadEnds ((m₀ >>= m) {d with keep := d.pos}) d p
      ((Plan.elements count bound zigzag (into.map (·,base)) k).read c d.store d.rest) := by
  rw [Plan.read]
  have hbad : ∀ why, (scan bound zigzag count d.rest).2=.bad why →
      why.cls≠.argument ∧ why.cls≠.incomplete := fun why hw => by
    rcases scan_bad hw with rfl | rfl <;> simp [overlong,outsideWidth,Exn.cls]
  generalize scan bound zigzag count d.rest=r at h hbad ⊢
  cases hs : fillFrom c (into.map (·,base)) 0 r.1 d.store with
  | mk s e =>
    rw [hs] at h
    cases e with
    | some e =>
      obtain ⟨pos,h⟩ := h
      rw [run_bind_error h]
      have hcls := quiet_fillFrom _ _ _ _ _ _ _ hs
      exact ⟨hcls.2,_,rfl,rfl,rfl,fun hc => absurd hc hcls.1⟩
    | none =>
      obtain ⟨xs,tail⟩ := r
      cases tail with
      | done rest =>
        rw [run_bind_ok h]
        exact hm xs s rest
      | more =>
        rw [run_bind_error h]
        exact ⟨_,d.pos,by rw [←hq]⟩
      | bad why =>
        obtain ⟨pos,h⟩ := h
        rw [run_bind_error h]
        exact ⟨(hbad why rfl).2,_,rfl,rfl,rfl,fun hc => absurd hc (hbad why rfl).1⟩

/-- Elements are read one by one and stored as they are; `m` is what is done
once the last is there. -/
theorem reads_elements (hd : d.Filled) (hp : d.pos ≤ d.n) (hq : d.pending=some p)
    (into : Option Sink) {count base : ℕ} {lo hi : Option ℤ} {zigzag : Bool} {k : List ℤ → Effect V}
    {m : List ℤ → DecM V Unit}
    (hm : ∀ xs s rest, ReadEnds (m (if into.isSome then [] else xs)
      {d with keep := d.pos, pos := d.seek rest, store := s}) d p (.of (k xs s) rest)) :
    ReadEnds ((readVarints c count lo hi zigzag into base >>= m) {d with keep := d.pos}) d p
      ((Plan.elements count (.of lo hi zigzag) zigzag (into.map (·,base)) k).read c d.store
        d.rest) := by
  have h := readVarints_run c count lo hi zigzag into base (d:={d with keep := d.pos}) hd hp
  exact LoopEnds.reads into base hq h hm

/-- The payload a fixlen array takes is there, so its elements are. -/
theorem elements_span (hd : d.Filled) {count width : ℕ} (hl : count*width ≤ d.rest.length)
    {n off : ℕ} (hn : off+n ≤ count) :
    elements width n (d.buf.drop (d.pos+off*width))=
      elements width n ((d.rest.take (count*width)).drop (off*width)) := by
  have hlen : d.rest.length=d.n-d.pos := restFrom_length hd d.pos
  have hmul : off*width+n*width ≤ count*width := by
    rw [←Nat.add_mul]
    exact Nat.mul_le_mul_right width hn
  rw [List.drop_take,elements_take width (by omega),rest,restFrom,List.drop_drop,List.drop_take,
    elements_take width (by omega)]

/-- The elements of a fixlen array are moved off the buffer as off the payload. -/
theorem unpackFarrayInto_span (hd : d.Filled) {count width : ℕ}
    (hl : count*width ≤ d.rest.length) (into : FloatSink) (base turns off : ℕ) :
    unpackFarrayInto c into base d.buf count width d.pos turns off=
      unpackFarrayInto c into base (d.rest.take (count*width)) count width 0 turns off := by
  induction turns generalizing off with
  | zero => rfl
  | succ turns ih =>
    rw [unpackFarrayInto,unpackFarrayInto,Nat.zero_add]
    by_cases h : off < count
    · rw [if_pos h,if_pos h]
      dsimp only
      rw [elements_span hd hl (by omega),ih]
    · rw [if_neg h,if_neg h]

/-- A fixlen array is stored by its plan. -/
theorem reads_farray (hd : d.Filled) (hp : d.pos ≤ d.n) (hq : d.pending=some p) (into : FloatSink)
    (base count width : ℕ) {g : Effect V} (hg : g.Quiet) :
    ReadEnds ((takeFarray count width >>= fun span => perform
        ((unpackFarrayInto c into base span.1 count width span.2 (count+1) 0).andThen g)) d) d p
      ((Plan.span count width fun data =>
        (storeFarray c into base count width data).andThen g).read c d.store d.rest) := by
  refine reads_span hd hp hq (k:=fun span =>
    (unpackFarrayInto c into base span.1 count width span.2 (count+1) 0).andThen g)
    (fun _ => (quiet_unpackFarrayInto _ _ _ _ _ _ _ _ _).andThen hg) fun hl => ?_
  rw [unpackFarrayInto_span hd hl]
  rfl

end Reads

end SofaBuffers
