import SofaBuffers.Stream.Kept
import SofaBuffers.Walk.Caps

/-!
# Receiver caps and schema bounds

A feed that comes to a value with a length or a count holds it to what the
schema declares, or else to the receiver's cap where the decoder would build
it. The verdict is reached at the header and stands.
-/

set_option autoImplicit false

namespace SofaBuffers

open Resumable Dec

variable {V : Type}

/-- What a feed comes to that comes to a value with a length or a count, met in a state and
inside a skip or not. -/
structure FeedHeldTo (c : Config V) (d : Dec V) (data : List UInt8) (s : Walk V) (skip : Option ℕ)
    (id : ℕ) (p : Pending) (rest : List UInt8) : Prop where
  /-- Where nobody reads it, it is dropped whatever its length, and the walk goes on. -/
  skipped : s.reader c skip id p=.nobody → ∃ q σ, Reader.Only c s.store .nobody σ ∧
    Concluded (Walk.run c {s with mode := .header (some q) skip, store := σ} rest) d.rbuf.length
      (d.held=[]) data.length (feed c data d) ∧
    ∀ xs, q.drop xs=p.drop xs ∧ ∀ why, q.drop xs=.bad why → why=overlong
  /-- Past what the schema declares the message is invalid, and stays so. -/
  invalid : ∀ most, (s.reader c skip id p).declared c id p=some most → most < p.length →
    ∃ d', feed c data d=.ok .invalid d' ∧
      Reader.Only c s.store (s.reader c skip id p) d'.store ∧
      ∀ more, feed c more d'=.ok .invalid d'
  /-- Past the receiver's cap a limit is reached, and stays so, where the decoder would build
  the value and the schema declares nothing. -/
  limited : (s.reader c skip id p).declared c id p=none →
    (s.reader c skip id p).builds c id p=true → c.cap p < p.length →
    ∃ why d', why.cls=.limit ∧ feed c data d=.error why d' ∧
      Reader.Only c s.store (s.reader c skip id p) d'.store ∧
      ∀ more, feed c more d'=.error why d'
  /-- Any other value is read as if there were no cap, and not refused but for the caller's buffer.
  -/
  admitted : ∀ r, (s.reader c skip id p).route p=some r →
    (∀ most, (s.reader c skip id p).declared c id p=some most → p.length ≤ most) →
    ((s.reader c skip id p).declared c id p=none →
      (s.reader c skip id p).builds c id p=true → p.length ≤ c.cap p) →
    ∃ σ, Concluded (Walk.finish c (Walk.valueStep c {s with store := σ} id r p rest))
        d.rbuf.length (d.held=[]) data.length (feed c data d) ∧
      ∀ why, (prepare c s.visitor id r p σ).2.2=.refuse why → why.cls=.argument

section Capping

variable {c : Config V} {d : Dec V}

/-- A walk that is refused with a verdict ends its feed with it, for good. -/
theorem concluded_verdict {h : Halt (Walk V) UInt8 Exn} {room n : ℕ} {adopted : Prop}
    {res : EStateM.Result Exn (Dec V) Status} (hr : Concluded h room adopted n res) {why : Exn}
    {s : Walk V} {rest : List UInt8} (hh : h=.fail why s rest) :
    (why.cls=.decode → ∃ d', res=.ok .invalid d' ∧ d'.store=s.store ∧
      ∀ more, feed c more d'=.ok .invalid d') ∧
    (why.cls=.limit → ∃ d', res=.error why d' ∧ d'.store=s.store ∧
      ∀ more, feed c more d'=.error why d') := by
  subst hh
  cases hr with
  | suspended hh | lost hh | complete hh => cases hh
  | @invalid _ _ _ d' hh hcls hlim hstatus hstore =>
    cases hh
    refine ⟨fun _ => ⟨d',rfl,hstore,feed_invalid hlim hstatus⟩,fun h => ?_⟩
    rw [hcls] at h
    cases h
  | @limited _ _ _ d' hh hcls hlim hstore =>
    cases hh
    refine ⟨fun h => ?_,fun _ => ⟨d',rfl,hstore,feed_limited hlim⟩⟩
    rw [hcls] at h
    cases h
  | raised hh h1 h2 =>
    cases hh
    exact ⟨fun h => absurd h h1,fun h => absurd h h2⟩

/-- A decoder fed a stream is between two feeds as long as there is no verdict. -/
theorem Streamed.idle {r : Reassembly} {store : Store V} {d₀ : Dec V}
    (hi : Dec.init c r store=.ok d₀) (hd : Streamed c d₀ d) (hl : d.Live) : d.Idle := by
  obtain ⟨⟨rbuf,-,rfl⟩,-⟩ := init_ok hi
  have hrun : ∀ (s : Walk V) xs, True →
      (Walk.run c s xs).Holds (fun _ => True) fun _ _ => True := by
    intro s xs _
    cases Walk.run c s xs <;> exact trivial
  cases hd.standing hrun (.going ((fresh_at c rbuf store).going trivial)) with
  | going h => exact h.idle
  | invalid _ hs => exact absurd hs hl.status
  | limited _ hlim =>
    rw [hl.limit] at hlim
    cases hlim

/-- Receiver cap versus schema bound: whatever a decoder was fed, a feed that comes to a
value with a length or a count holds it to what the schema declares, or else to the
receiver's cap. -/
theorem feed_heldTo {r : Reassembly} {store : Store V} {d₀ : Dec V}
    (hi : Dec.init c r store=.ok d₀) (hd : Streamed c d₀ d) (hl : d.Live) {data : List UInt8}
    (hfit : d.held=[] ∨ d.held.length+data.length ≤ d.rbuf.length) {s : Walk V}
    {ys rest : List UInt8} (hs : Passes (Walk.step c) d.view (d.held++data) s ys)
    {skip : Option ℕ} (hm : s.mode=.header none skip) {id : ℕ} {p : Pending}
    (ht : readToken ys=.done (.value id p) rest) (hp : p.Sized) :
    FeedHeldTo c d data s skip id p rest := by
  have hends := feed_ends c (hd.idle hi hl) hl data
  rw [FeedEnds,if_neg (by rintro ⟨h1,h2⟩; rcases hfit with h | h; exact h1 h; omega),
    Walk.run_passes hs] at hends
  have hheld := Walk.run_heldTo (init_ok hi).2 hm ht hp
  constructor
  · intro hnone
    obtain ⟨q,σ,honly,hrun,hdrop⟩ := hheld.skipped hnone
    exact ⟨q,σ,honly,hrun ▸ hends,hdrop⟩
  · intro most hdecl hlt
    obtain ⟨why,t,hrun,hcls,honly⟩ := hheld.invalid most hdecl hlt
    obtain ⟨d',hr,hstore,hmore⟩ := (concluded_verdict (c:=c) hends hrun).1 hcls
    exact ⟨d',hr,hstore ▸ honly,hmore⟩
  · intro hdecl hb hlt
    obtain ⟨why,t,hrun,hcls,honly⟩ := hheld.limited hdecl hb hlt
    obtain ⟨d',hr,hstore,hmore⟩ := (concluded_verdict (c:=c) hends hrun).2 hcls
    exact ⟨why,d',hcls,hr,hstore ▸ honly,hmore⟩
  · intro r' hroute hle hcap
    obtain ⟨σ,hrun,hrefuse⟩ := hheld.admitted r' hroute hle hcap
    exact ⟨σ,hrun ▸ hends,hrefuse⟩

end Capping

/-- A listener that takes strings of two bytes. -/
def frugal : Config Unit := {listener with maxDynStringLen := 2}

/-- A string of three bytes meets its cap at its length, no byte of it being there. -/
theorem feed_heldTo_frugal : ∃ why d', why.cls=.limit ∧
    feed frugal [0x0A,0x1A] (Dec.fresh frugal (List.replicate 16 0) blank)=.error why d' := by
  have hheld : FeedHeldTo frugal (Dec.fresh frugal (List.replicate 16 0) blank) [0x0A,0x1A]
      (Dec.fresh frugal (List.replicate 16 0) blank).view none 1 (.fixlen .string 3) [] :=
    feed_heldTo (show Dec.init frugal (.size 16) blank=.ok _ from rfl) .start ⟨rfl,by decide⟩
      (Or.inl rfl) .here rfl rfl (Or.inl rfl)
  obtain ⟨why,d',hcls,hr,-⟩ := hheld.limited rfl rfl (by decide)
  exact ⟨why,d',hcls,hr⟩

end SofaBuffers
