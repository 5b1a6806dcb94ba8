import SofaBuffers.Stream.Chunking
import SofaBuffers.Walk.Ready

/-!
# The verdict is the grammar's

Fed a whole string, a decoder whose handler welcomes everything accepts exactly
the messages of the format, rejects exactly the malformed strings and asks for
more exactly on the truncated ones, unless what they end in outgrows the
reassembly buffer.
-/

set_option autoImplicit false

namespace SofaBuffers

open Resumable Dec

variable {V : Type}

section Verdict

variable {c : Config V} {r : Reassembly} {store : Store V} {d : Dec V}

/-- A decoder that could be built without a table has a handler, which is ready. -/
theorem ready_fresh (hc : c.Welcoming) (h : Dec.init c r store=.ok d) :
    d.view.Ready 0 ∧ d.At d.rbuf.length d.view [] := by
  have hv : c.visitor.isNone=false := by
    cases hn : c.visitor with
    | some v => rfl
    | none =>
      rw [Dec.init,hc.table,hn] at h
      cases h
  obtain ⟨⟨rbuf,-,rfl⟩,-⟩ := init_ok h
  obtain ⟨v,hv⟩ := Option.isSome_iff_exists.mp (Option.isNone_eq_false_iff.mp hv)
  have htable : c.forest.map (fun _ => 0)=none := by rw [hc.table]; rfl
  exact ⟨⟨rfl,rfl,⟨v,hv⟩,htable,rfl,.nil 0⟩,fresh_at c rbuf store⟩

/-- One feed of a fresh decoder walks the whole string. -/
theorem fresh_concluded (hc : c.Welcoming) (h : Dec.init c r store=.ok d) (s : List UInt8) :
    Concluded (Walk.run c d.view s) d.rbuf.length True s.length (feed c s d) := by
  obtain ⟨-,hat⟩ := ready_fresh hc h
  have hends := feed_ends c hat.idle hat.live s
  rw [FeedEnds,hat.held,if_neg (fun hn => hn.1 rfl),List.nil_append] at hends
  simpa using hends

/-- A message is accepted. -/
theorem feed_message (hc : c.Welcoming) (h : Dec.init c r store=.ok d) {s : List UInt8}
    (hs : Message s) : ∃ d', feed c s d=.ok .complete d' := by
  have hcon := fresh_concluded hc h s
  obtain ⟨hready,-⟩ := ready_fresh hc h
  obtain ⟨s',hready',hrun⟩ := hready.leads hc (message_iff.mp hs) []
  rw [List.append_nil,hready'.empty,if_pos rfl] at hrun
  rw [hrun] at hcon
  generalize feed c s d=res at hcon ⊢
  cases hcon with
  | complete hh hat => exact ⟨_,rfl⟩
  | suspended hh | lost hh | invalid hh | limited hh | raised hh => cases hh

/-- A malformed string is rejected. -/
theorem feed_malformed (hc : c.Welcoming) (h : Dec.init c r store=.ok d) {s : List UInt8}
    (hs : Malformed s) : ∃ d', feed c s d=.ok .invalid d' := by
  have hcon := fresh_concluded hc h s
  obtain ⟨hready,-⟩ := ready_fresh hc h
  obtain ⟨done,e,rest,rfl,hl,hb⟩ := hs
  obtain ⟨s',hready',hrun⟩ := hready.leads hc hl rest
  obtain ⟨why,s'',rest',hfail,hcls⟩ := hready'.broken hc hb
  rw [hrun,hfail] at hcon
  generalize feed c (done++rest) d=res at hcon ⊢
  cases hcon with
  | invalid hh => exact ⟨_,rfl⟩
  | limited hh hl => cases hh; rw [hcls] at hl; cases hl
  | raised hh h1 => cases hh; exact absurd hcls h1
  | suspended hh | lost hh | complete hh => cases hh

/-- A truncated string is left off in, if there is room for what it ends in. -/
theorem feed_truncated (hc : c.Welcoming) (h : Dec.init c r store=.ok d) {s : List UInt8} {n : ℕ}
    (hs : Truncated s n) :
    (n ≤ d.rbuf.length ∧ ∃ d', feed c s d=.ok .incomplete d') ∨
      (d.rbuf.length < n ∧ ∃ d', feed c s d=.error (tooLong d.rbuf.length n) d') := by
  have hcon := fresh_concluded hc h s
  obtain ⟨hready,-⟩ := ready_fresh hc h
  obtain ⟨done,e,rest,rfl,hl,hb⟩ := hs
  obtain ⟨s',hready',hrun⟩ := hready.leads hc hl rest
  obtain ⟨s'',rest',hwait,hlen⟩ : ∃ s'' rest', Walk.run c s' rest=.wait s'' rest' ∧
      rest'.length=n := by
    rcases hb with hb | ⟨rfl,he,rfl⟩
    · exact hready'.cutShort hc hb
    · refine ⟨s',[],?_,rfl⟩
      rw [hready'.empty,if_neg he]
  subst hlen
  rw [hrun,hwait] at hcon
  generalize feed c (done++rest) d=res at hcon ⊢
  cases hcon with
  | suspended hh hroom hat =>
    cases hh
    exact Or.inl ⟨hroom trivial,_,rfl⟩
  | lost hh _ hlost hat =>
    cases hh
    exact Or.inr ⟨hlost,_,rfl⟩
  | complete hh | invalid hh | limited hh | raised hh => cases hh

/-- The verdict on a string fed whole is the grammar's: a message is complete, a
malformed string invalid, and a truncated one incomplete, unless what it ends in is
longer than the reassembly buffer, which is what a feed is refused for. -/
theorem feed_grammar (hc : c.Welcoming) (h : Dec.init c r store=.ok d) (s : List UInt8) :
    ((∃ d', feed c s d=.ok .complete d') ↔ Message s) ∧
    ((∃ d', feed c s d=.ok .invalid d') ↔ Malformed s) ∧
    ((∃ d', feed c s d=.ok .incomplete d') ↔ ∃ n, Truncated s n ∧ n ≤ d.rbuf.length) ∧
    ∀ e, (∃ d', feed c s d=.error e d') ↔
      ∃ n, Truncated s n ∧ d.rbuf.length < n ∧ e=tooLong d.rbuf.length n := by
  have hall : (Message s ∧ ∃ d', feed c s d=.ok .complete d') ∨
      (Malformed s ∧ ∃ d', feed c s d=.ok .invalid d') ∨
      (∃ n, Truncated s n ∧ n ≤ d.rbuf.length ∧ ∃ d', feed c s d=.ok .incomplete d') ∨
      ∃ n, Truncated s n ∧ d.rbuf.length < n ∧
        ∃ d', feed c s d=.error (tooLong d.rbuf.length n) d' := by
    rcases string_cases s with hs | hs | ⟨n,hs⟩
    · exact Or.inl ⟨hs,feed_message hc h hs⟩
    · exact Or.inr (Or.inl ⟨hs,feed_malformed hc h hs⟩)
    · rcases feed_truncated hc h hs with ⟨hn,hf⟩ | ⟨hn,hf⟩
      · exact Or.inr (Or.inr (Or.inl ⟨n,hs,hn,hf⟩))
      · exact Or.inr (Or.inr (Or.inr ⟨n,hs,hn,hf⟩))
  refine ⟨⟨?_,feed_message hc h⟩,⟨?_,feed_malformed hc h⟩,⟨?_,?_⟩,fun e => ⟨?_,?_⟩⟩
  · rintro ⟨d',hf⟩
    rcases hall with ⟨hs,-⟩ | ⟨-,d₁,hg⟩ | ⟨n,-,-,d₁,hg⟩ | ⟨n,-,-,d₁,hg⟩
    · exact hs
    all_goals rw [hf] at hg; cases hg
  · rintro ⟨d',hf⟩
    rcases hall with ⟨-,d₁,hg⟩ | ⟨hs,-⟩ | ⟨n,-,-,d₁,hg⟩ | ⟨n,-,-,d₁,hg⟩
    · rw [hf] at hg; cases hg
    · exact hs
    all_goals rw [hf] at hg; cases hg
  · rintro ⟨d',hf⟩
    rcases hall with ⟨-,d₁,hg⟩ | ⟨-,d₁,hg⟩ | ⟨n,hs,hn,-⟩ | ⟨n,-,-,d₁,hg⟩
    · rw [hf] at hg; cases hg
    · rw [hf] at hg; cases hg
    · exact ⟨n,hs,hn⟩
    · rw [hf] at hg; cases hg
  · rintro ⟨n,hs,hn⟩
    rcases feed_truncated hc h hs with ⟨-,hf⟩ | ⟨hn',-⟩
    · exact hf
    · omega
  · rintro ⟨d',hf⟩
    rcases hall with ⟨-,d₁,hg⟩ | ⟨-,d₁,hg⟩ | ⟨n,-,-,d₁,hg⟩ | ⟨n,hs,hn,d₁,hg⟩
    · rw [hf] at hg; cases hg
    · rw [hf] at hg; cases hg
    · rw [hf] at hg; cases hg
    · rw [hf] at hg
      cases hg
      exact ⟨n,hs,hn,rfl⟩
  · rintro ⟨n,hs,hn,rfl⟩
    rcases feed_truncated hc h hs with ⟨hn',-⟩ | ⟨-,hf⟩
    · omega
    · exact hf

end Verdict

/-- A listener welcomes everything. -/
theorem listener_welcoming : listener.Welcoming :=
  ⟨rfl,rfl,rfl,rfl,fun _ => by constructor <;> simp [listener]⟩

/-- A blob of 100 bytes of which 17 are there. -/
def partialBlob : List UInt8 := [0x0A]++[0xA3,0x06]++List.replicate 17 0

/-- The partial blob ends inside its payload. -/
theorem partialBlob_truncated : Truncated partialBlob 17 := by
  have hhd : Header [0x0A] 1 .fixlen := ⟨.last (by decide) (Or.inl (by decide)),by decide⟩
  have hwd : Word [0xA3,0x06] (100*8+FixlenSubtype.blob.toNat) :=
    .group (by decide) (by decide) (.last (by decide) (Or.inl (by decide)))
  have ha := Announces.fixlen hhd hwd (show FixlenSubtype.blob.Allows 100 by
    rw [FixlenSubtype.Allows,fixlenMax]; omega)
  refine ⟨[],0,partialBlob,rfl,.nil 0,Or.inl ?_⟩
  exact .value ha (.fixlen .blob (show (List.replicate 17 (0 : UInt8)).length < 100 by decide))

/-- The leading words of a text of two bytes under the id 1. -/
theorem textLead : Announces [0x0A,0x12] (.value 1 (.fixlen .string 2)) := by
  have hhd : Header [0x0A] 1 .fixlen := ⟨.last (by decide) (Or.inl (by decide)),by decide⟩
  have hwd : Word [0x12] (2*8+FixlenSubtype.string.toNat) :=
    .last (by decide) (Or.inl (by decide))
  exact Announces.fixlen hhd hwd (show FixlenSubtype.string.Allows 2 by
    rw [FixlenSubtype.Allows,fixlenMax]; omega)

/-- A sequence with the field 2 holding 300 and a text of two bytes in it. -/
def nestedText : List UInt8 := [0x0E]++([0x10]++([0xAC,0x02]++([0x0A,0x12]++([0xC3,0xA9]++[]))))++
  ([0x07]++[])

/-- The sequence with a number and a text in it is a message. -/
theorem nestedText_message : Message nestedText := by
  have hstart : Announces [0x0E] (.start 1) :=
    .start ⟨.last (by decide) (Or.inl (by decide)),by decide⟩
  have hstop : Announces [0x07] .stop :=
    .stop (show Header [0x07] 0 .sequenceEnd from
      ⟨.last (by decide) (Or.inl (by decide)),by decide⟩)
  have hnumber : Announces [0x10] (.value 2 (.scalar false)) :=
    .scalar false ⟨.last (by decide) (Or.inl (by decide)),by decide⟩
  have hraw : Word [0xAC,0x02] 300 :=
    .group (by decide) (by decide) (.last (by decide) (Or.inl (by decide)))
  have hvalid : Utf8.valid [0xC3,0xA9]=true := by decide
  have htext : Fields 254 (.value 1 (.fixlen .string [0xC3,0xA9]) .nil)
      ([0x0A,0x12]++([0xC3,0xA9]++[])) :=
    .value textLead (.fixlen .string [0xC3,0xA9]) hvalid (.nil 254)
  have hinner := Fields.value hnumber (.scalar false hraw) trivial htext
  exact ⟨_,.sequence hstart hstop hinner (.nil 255)⟩

/-- A text whose second byte continues nothing is malformed. -/
theorem brokenText_malformed : Malformed ([0x0A,0x12]++([0xC3,0x28]++[0x07])) := by
  have hbad : Utf8.valid [0xC3,0x28]=false := by decide
  exact ⟨[],0,_,rfl,.nil 0,.value textLead (.text hbad [0x07])⟩

/-- A text of two bytes of which one is there is truncated. -/
theorem cutText_truncated : Truncated ([0x0A,0x12]++[0xC3]) 1 :=
  ⟨[],0,_,rfl,.nil 0,Or.inl (.value textLead (.fixlen .string (by decide)))⟩

/-- A message is complete, a malformed string invalid, and of two truncated ones the one that
fits the reassembly buffer is left off in and the other one refused. -/
theorem feed_grammar_verdicts :
    ((∃ d', feed listener nestedText (Dec.fresh listener (List.replicate 16 0) blank)=
      .ok .complete d') ∧ Message nestedText) ∧
    ((∃ d', feed listener ([0x0A,0x12]++([0xC3,0x28]++[0x07]))
      (Dec.fresh listener (List.replicate 16 0) blank)=.ok .invalid d') ∧
      Malformed ([0x0A,0x12]++([0xC3,0x28]++[0x07]))) ∧
    ((∃ d', feed listener ([0x0A,0x12]++[0xC3])
      (Dec.fresh listener (List.replicate 16 0) blank)=.ok .incomplete d') ∧
      Truncated ([0x0A,0x12]++[0xC3]) 1) ∧
    (∃ d', feed listener partialBlob (Dec.fresh listener (List.replicate 16 0) blank)=
      .error (tooLong 16 17) d') ∧ Truncated partialBlob 17 := by
  have hwhole := feed_grammar listener_welcoming init_listener nestedText
  have hbad := feed_grammar listener_welcoming init_listener ([0x0A,0x12]++([0xC3,0x28]++[0x07]))
  have hcut := feed_grammar listener_welcoming init_listener ([0x0A,0x12]++[0xC3])
  have hlong := feed_grammar listener_welcoming init_listener partialBlob
  refine ⟨⟨hwhole.1.mpr nestedText_message,nestedText_message⟩,
    ⟨hbad.2.1.mpr brokenText_malformed,brokenText_malformed⟩,
    ⟨hcut.2.2.1.mpr ⟨1,cutText_truncated,?_⟩,cutText_truncated⟩,?_,partialBlob_truncated⟩
  · decide
  · exact (hlong.2.2.2 (tooLong 16 17)).mpr ⟨17,partialBlob_truncated,by decide,rfl⟩

/-- A truncated string may outgrow the reassembly buffer: it is neither a message nor
malformed, and still the feed does not ask for more. -/
theorem feed_grammar_refused :
    ¬Message partialBlob ∧ ¬Malformed partialBlob ∧
      ¬∃ d', feed listener partialBlob (Dec.fresh listener (List.replicate 16 0) blank)=
        .ok .incomplete d' := by
  rcases feed_truncated listener_welcoming init_listener partialBlob_truncated with
    ⟨hn,-⟩ | ⟨-,d',hf⟩
  · exact absurd hn (by decide)
  · rw [hf]
    refine ⟨fun hs => ?_,fun hs => ?_,fun ⟨d₁,hg⟩ => by cases hg⟩
    · obtain ⟨d₁,hg⟩ := feed_message listener_welcoming init_listener hs
      rw [hf] at hg
      cases hg
    · obtain ⟨d₁,hg⟩ := feed_malformed listener_welcoming init_listener hs
      rw [hf] at hg
      cases hg

end SofaBuffers
