import Lzma.Proofs.Acquisition
import Lzma.Proofs.Calls
import Lzma.Proofs.Feeding
import Lzma.Proofs.HeaderCodec
import Lzma.Proofs.Pumping
import Lzma.Proofs.Scripted
import Mathlib.Data.List.Induction

/-!
# A decoder can be cut off anywhere

A decoder takes a payload in pieces that its caller chooses, and gives what it decodes to into
room that its caller chooses. A call may stop in the middle of a symbol for want of bytes, or
in the middle of a match for want of room, and the decoder may have taken more than what it
gave was made of. Nothing of this shows in the bytes: `Feeding.Resumes` says what any call
behind any others comes to, in terms of what the bytes in hand decode to in one piece.

The proof carries one invariant from call to call. A decoder is aligned (`Feeding.Aligned`) if
what was taken, with any bytes behind it, decodes to what was given and then to what the decoder
makes of those bytes. Passes compose (`Decoder.whole_pump_take`), so every call that succeeds
keeps it. A stream leaves that state in two ways, by the end marker and by a fault, and both
are final (`Feeding.Stands`).
-/

namespace Lzma

namespace Decoder

variable {d : Decoder} {input : List UInt8} {room : Nat}

/-- What a pass took brings the decoder to where the pass left it, whatever comes behind. -/
theorem whole_pumpFrom_take (d : Decoder) (input : List UInt8) (room used : Nat)
    (output : List UInt8) (hsound : (d.pumpFrom input room used output).outcome ≠ .corrupt)
    (rest : List UInt8) :
    (d.whole (input.take ((d.pumpFrom input room used output).used - used) ++ rest)).behind used
        output.reverse =
      ((d.pumpFrom input room used output).coder.whole rest).behind
        (d.pumpFrom input room used output).used
        (d.pumpFrom input room used output).output := by
  fun_induction pumpFrom d input room used output with
  | case1 | case3 | case6 => rw [Nat.sub_self, List.take_zero, List.nil_append]
  | case4 | case7 => exact absurd rfl hsound
  | case2 d input used output byte hview room ih =>
      rw [whole_gives hview, Pass.behind_behind, Nat.add_zero, ← List.reverse_cons]
      exact ih hsound
  | case5 d room used output hview byte input hbyte ih =>
      have hle := used_le_pumpFrom (d.feed byte) input room (used + 1) output
      have hcount : ((d.feed byte).pumpFrom input room (used + 1) output).used - used =
          ((d.feed byte).pumpFrom input room (used + 1) output).used - (used + 1) + 1 := by
        omega
      rw [hcount, List.take_succ_cons, List.cons_append,
        whole_cons hview (by simpa using hbyte), Pass.behind_behind, List.append_nil]
      exact ih hsound

theorem whole_pump_take (hsound : (d.pump input room).outcome ≠ .corrupt) (rest : List UInt8) :
    d.whole (input.take (d.pump input room).used ++ rest) =
      ((d.pump input room).coder.whole rest).behind (d.pump input room).used
        (d.pump input room).output := by
  simpa [pump] using d.whole_pumpFrom_take input room 0 [] hsound rest

theorem length_le_pumpFrom (d : Decoder) (input : List UInt8) (room used : Nat)
    (output : List UInt8) :
    output.length ≤ (d.pumpFrom input room used output).output.length := by
  fun_induction pumpFrom d input room used output with
  | case1 | case3 | case4 | case6 | case7 => simp
  | case2 d input used output byte hview room ih =>
      simp only [List.length_cons] at ih
      omega
  | case5 d room used output hview byte input hbyte ih => exact ih

/-- A pass that goes on without having moved anything leaves the decoder as it is. -/
theorem pumpFrom_still (d : Decoder) (input : List UInt8) (room used : Nat) (output : List UInt8)
    (hrun : (d.pumpFrom input room used output).outcome = .running)
    (hused : (d.pumpFrom input room used output).used = used)
    (hout : (d.pumpFrom input room used output).output.length = output.length) :
    (d.pumpFrom input room used output).coder = d := by
  fun_induction pumpFrom d input room used output with
  | case1 | case3 | case6 => rfl
  | case4 | case7 => cases hrun
  | case2 d input used output byte hview room ih =>
      have hgiven := length_le_pumpFrom (d.give byte) input room used (byte :: output)
      rw [List.length_cons] at hgiven
      omega
  | case5 d room used output hview byte input hbyte ih =>
      have htaken := used_le_pumpFrom (d.feed byte) input room (used + 1) output
      omega

/-- A pass that goes on is not all of a decoding that comes to the end. -/
theorem output_ne_of_running (hrun : (d.pump input room).outcome = .running)
    (hended : (d.whole input).outcome = .ended) :
    (d.whole input).output ≠ (d.pump input room).output := by
  intro hout
  have hwhole := d.whole_pump input room
  rcases pump_running hrun with ⟨⟨byte, hgives⟩, -⟩ | ⟨hwants, hall⟩
  · rw [whole_gives hgives, Pass.behind_behind] at hwhole
    have hlength := congrArg List.length (hout.symm.trans (congrArg Pass.output hwhole))
    simp at hlength
  · rw [hall, List.drop_length, whole_nil hwants] at hwhole
    rw [hwhole] at hended
    cases hended

theorem pump_still (hrun : (d.pump input room).outcome = .running)
    (hused : (d.pump input room).used = 0) (hout : (d.pump input room).output = []) :
    (d.pump input room).coder = d :=
  d.pumpFrom_still input room 0 [] hrun hused (congrArg List.length hout)

end Decoder

/-! ## One call -/

namespace Feeding

/-- A feeding behind a call that succeeded with a pass of its decoder. -/
def passed (x : Feeding Decoder) (p : Pass Decoder) (stage : Stage) (stalled : Bool) :
    Feeding Decoder :=
  ⟨x.stream.behindPass p stage stalled, x.left.drop p.used, x.consumed ++ x.left.take p.used,
    x.written ++ p.output⟩

/-- The answers that a call of a decoder can get, with what is behind it. -/
inductive Turn (x : Feeding Decoder) (room : Nat) (p : Pass Decoder) :
    Except IoError Decoded × Feeding Decoder → Prop
  | goesOn (stalled : Bool) (hstage : x.stream.stage = .running) (hrun : p.outcome = .running)
      (hstalled : stalled = true → p.used = 0 ∧ p.output = []) :
      Turn x room p (.ok ⟨p.used, p.output, if p.output.length = room then .outputFull
        else .needsInput⟩, x.passed p .running stalled)
  | stalls (hstage : x.stream.stage = .running) (hrun : p.outcome = .running)
      (hused : p.used = 0) (hout : p.output = []) (hstalled : x.stream.stalled = true) :
      Turn x room p (.error Fault.noProgress.toIoError, x)
  | ends (hstage : x.stream.stage = .running) (hended : p.outcome = .ended) :
      Turn x room p (.ok ⟨p.used, p.output, .finished⟩, x.passed p .ended false)
  | breaks (hstage : x.stream.stage = .running) (hcorrupt : p.outcome = .corrupt)
      (stream : Stream Decoder) (hbroken : stream.stage = .broken) :
      Turn x room p (.error Fault.corruptData.toIoError, { x with stream })
  | ended (hstage : x.stream.stage = .ended) : Turn x room p (.ok ⟨0, [], .finished⟩, x)
  | refused (hlive : x.stream.stage ≠ .running) (hended : x.stream.stage ≠ .ended) :
      Turn x room p (.error Fault.misuse.toIoError, x)

theorem turn (x : Feeding Decoder) (o : Offer) :
    x.Turn o.room (x.stream.coder.pump (x.slice o) o.room)
      ((x.stream.decode (x.slice o) o.room).1, x.offer o) := by
  have hcall := x.stream.called (.feed (x.slice o)) o.room
  have hpass : Coder.pass (.feed (x.slice o)) o.room x.stream.coder =
    x.stream.coder.pump (x.slice o) o.room := rfl
  have hstill := @Decoder.pump_still x.stream.coder (x.slice o) o.room
  rw [hpass] at hcall
  rw [Stream.decode, offer]
  generalize x.stream.coder.pump (x.slice o) o.room = p at hcall hstill ⊢
  generalize x.stream.call (.feed (x.slice o)) o.room = answer at hcall ⊢
  cases hcall with
  | goesOn stage hstage hrun hmoves =>
      obtain ⟨hs, rfl⟩ := Stage.running_of_feed hstage
      exact .goesOn false hs hrun (by simp)
  | idles stage hstage hrun hused hout hstalled =>
      obtain ⟨hs, rfl⟩ := Stage.running_of_feed hstage
      exact .goesOn true hs hrun fun _ => ⟨hused, hout⟩
  | stalls stage hstage hrun hused hout hstalled =>
      obtain ⟨hs, rfl⟩ := Stage.running_of_feed hstage
      have hsame : x.stream.behindPass p .running true = x.stream := by
        rw [Stream.behindPass, hstill hrun hused hout, hused, hout, ← hs, ← hstalled]
        rfl
      dsimp only
      rw [hsame]
      exact .stalls hs hrun hused hout hstalled
  | ends stage hstage hended =>
      exact .ends (Stage.running_of_feed hstage).1 hended
  | breaks stage hstage hcorrupt =>
      exact .breaks (Stage.running_of_feed hstage).1 hcorrupt _ rfl
  | ended hstage =>
      dsimp only
      rw [List.drop_zero, List.take_zero, List.append_nil, List.append_nil]
      exact .ended hstage
  | refused hlive hnone =>
      refine .refused ?_ hlive
      intro hs
      rw [hs] at hnone
      cases hnone

/-- Behind the end nothing happens any more. -/
theorem turn_of_ended {x : Feeding Decoder} (hended : x.stream.stage = .ended) (o : Offer) :
    (x.stream.decode (x.slice o) o.room).1 = .ok ⟨0, [], .finished⟩ ∧ x.offer o = x := by
  have hturn := x.turn o
  generalize (x.stream.decode (x.slice o) o.room).1 = result at hturn ⊢
  generalize x.offer o = y at hturn ⊢
  cases hturn with
  | ended => exact ⟨rfl, rfl⟩
  | refused _ hlive => exact absurd hended hlive
  | goesOn _ hstage | stalls hstage | ends hstage | breaks hstage => simp [hended] at hstage

/-- A stream that has met a fault refuses every call. -/
theorem turn_of_broken {x : Feeding Decoder} (hbroken : x.stream.stage = .broken) (o : Offer) :
    (x.stream.decode (x.slice o) o.room).1 = .error Fault.misuse.toIoError ∧ x.offer o = x := by
  have hturn := x.turn o
  generalize (x.stream.decode (x.slice o) o.room).1 = result at hturn ⊢
  generalize x.offer o = y at hturn ⊢
  cases hturn with
  | refused => exact ⟨rfl, rfl⟩
  | ended hstage | goesOn _ hstage | stalls hstage | ends hstage | breaks hstage =>
      simp [hbroken] at hstage

/-- The answer to a call behind some others. -/
def answer (x : Feeding Decoder) (os : List Offer) (o : Offer) : Except IoError Decoded :=
  ((x.offers os).stream.decode ((x.offers os).slice o) o.room).1

/-- What the bytes that a call has to go by decode to in one piece. -/
def oneShot (x : Feeding Decoder) (os : List Offer) (o : Offer) : Pass Decoder :=
  x.stream.coder.whole ((x.offers os).inHand o)

/-- The last of some calls moved nothing. -/
def Stalled (x : Feeding Decoder) (os : List Offer) : Prop :=
  ∃ before last, os = before ++ [last] ∧ (x.offers before).Still last

/-- One of some calls met a fault in the payload. -/
def Met (x : Feeding Decoder) (os : List Offer) : Prop :=
  ∃ before o after, os = before ++ o :: after ∧ (x.oneShot before o).outcome = .corrupt ∧
    x.answer before o = .error Fault.corruptData.toIoError

/-- How a call fails on account of the payload: it meets the fault, or an earlier one did. -/
inductive DataError (x : Feeding Decoder) (os : List Offer) (o : Offer) : IoError → Prop
  | found (hcorrupt : (x.oneShot os o).outcome = .corrupt) :
      DataError x os o Fault.corruptData.toIoError
  | fatal (hmet : x.Met os) : DataError x os o Fault.misuse.toIoError

/-- What a call comes to that is made behind some others in the course of a payload. -/
structure Resumes (x : Feeding Decoder) (os : List Offer) (o : Offer) : Prop where
  consumed : (x.offers (os ++ [o])).consumed <+: x.left
  written : (x.offers (os ++ [o])).written <+: (x.stream.coder.whole x.left).output
  needsInput (moved : Decoded) : x.answer os o = .ok moved → moved.status = .needsInput →
    moved.used = ((x.offers os).slice o).length ∧
      (x.offers (os ++ [o])).written = (x.oneShot os o).output
  finished : (∃ moved, x.answer os o = .ok moved ∧ moved.status = .finished) ↔
    (x.oneShot os o).outcome = .ended ∧
      (x.offers (os ++ [o])).written = (x.oneShot os o).output
  outputFull (moved : Decoded) : x.answer os o = .ok moved →
    (moved.status = .outputFull ↔ moved.status ≠ .finished ∧ moved.output.length = o.room)
  fails (e : IoError) : x.answer os o = .error e →
    x.DataError os o e ∨
      e = Fault.noProgress.toIoError ∧ x.Stalled os ∧
        ∀ more, x.offers (os ++ o :: more) = x.offers (os ++ more)

/-- A decoder that comes to the rest of a payload when it goes on with the rest of the bytes. -/
def Aligned (x y : Feeding Decoder) : Prop :=
  ∀ rest, x.stream.coder.whole (y.consumed ++ rest) =
    (y.stream.coder.whole rest).behind y.consumed.length y.written

/-- How a decoder stands after some calls. -/
inductive Stands (x : Feeding Decoder) (os : List Offer) : Prop
  | live (hstage : (x.offers os).stream.stage = .running) (haligned : x.Aligned (x.offers os))
      (hstalled : (x.offers os).stream.stalled = true → x.Stalled os) : Stands x os
  | ended (hstage : (x.offers os).stream.stage = .ended) (haligned : x.Aligned (x.offers os))
      (hview : (x.offers os).stream.coder.view = .ended) : Stands x os
  | broken (hstage : (x.offers os).stream.stage = .broken)
      (hcorrupt : (x.stream.coder.whole x.left).outcome = .corrupt)
      (hwritten : (x.offers os).written <+: (x.stream.coder.whole x.left).output)
      (hmet : x.Met os) : Stands x os

variable {x y : Feeding Decoder} {os : List Offer}

theorem Aligned.passed (h : x.Aligned y) (o : Offer)
    (hsound : (y.stream.coder.pump (y.slice o) o.room).outcome ≠ .corrupt) (stage : Stage)
    (stalled : Bool) :
    x.Aligned (y.passed (y.stream.coder.pump (y.slice o) o.room) stage stalled) := by
  intro rest
  have hused : (y.stream.coder.pump (y.slice o) o.room).used ≤ (y.slice o).length :=
    Coder.used_pass_le (.feed (y.slice o)) o.room y.stream.coder
  have htake : y.left.take (y.stream.coder.pump (y.slice o) o.room).used =
      (y.slice o).take (y.stream.coder.pump (y.slice o) o.room).used := by
    rw [slice, List.length_take] at hused
    rw [slice, List.take_take]
    congr 1
    omega
  have hlength : (y.left.take (y.stream.coder.pump (y.slice o) o.room).used).length =
      (y.stream.coder.pump (y.slice o) o.room).used := by
    rw [htake, List.length_take]
    omega
  calc x.stream.coder.whole
        (y.consumed ++ y.left.take (y.stream.coder.pump (y.slice o) o.room).used ++ rest)
      = (y.stream.coder.whole (y.left.take (y.stream.coder.pump (y.slice o) o.room).used ++
          rest)).behind y.consumed.length y.written := by rw [List.append_assoc, h]
    _ = _ := by
        rw [htake, Decoder.whole_pump_take hsound, Pass.behind_behind, Feeding.passed,
          List.length_append, hlength]
        rfl

theorem Aligned.oneShot (h : x.Aligned (x.offers os)) (o : Offer) :
    x.oneShot os o = ((x.offers os).stream.coder.whole ((x.offers os).slice o)).behind
      (x.offers os).consumed.length (x.offers os).written := h _

theorem Aligned.written_within {bytes : List UInt8} (h : x.Aligned y)
    (hall : y.consumed ++ y.left = bytes) :
    y.written <+: (x.stream.coder.whole bytes).output := by
  rw [← hall, h]
  exact List.prefix_append _ _

theorem Met.concat (h : x.Met os) (o : Offer) : x.Met (os ++ [o]) := by
  obtain ⟨before, last, after, rfl, hfails⟩ := h
  exact ⟨before, last, after ++ [o], by simp, hfails⟩

variable {d : Decoder} {p : List UInt8}

/-- What a call goes by is a part of the payload. -/
theorem inHand_start_within (os : List Offer) (o : Offer) :
    ((start d p).offers os).inHand o <+: p := by
  have hprefix := ((start d p).offers os).inHand_within o
  rwa [consumed_append_left] at hprefix

/-- A payload whose beginning stops the decoding is decoded like its beginning. -/
theorem whole_of_oneShot {o : Offer} (h : ((start d p).oneShot os o).outcome ≠ .running) :
    d.whole p = (start d p).oneShot os o := by
  obtain ⟨rest, hrest⟩ := inHand_start_within (d := d) (p := p) os o
  have hstop := Decoder.whole_append_of_stopped d _ rest h
  rwa [hrest] at hstop

/-- Each call leaves the decoder in one of its three stands. -/
theorem Stands.next (h : (start d p).Stands os) (o : Offer) : (start d p).Stands (os ++ [o]) := by
  cases h with
  | ended hstage haligned hview =>
      have hsame := (turn_of_ended hstage o).2
      rw [← offers_concat] at hsame
      exact .ended (hsame ▸ hstage) (hsame ▸ haligned) (hsame ▸ hview)
  | broken hstage hcorrupt hwritten hmet =>
      have hsame := (turn_of_broken hstage o).2
      rw [← offers_concat] at hsame
      exact .broken (hsame ▸ hstage) hcorrupt (hsame ▸ hwritten) (hmet.concat o)
  | live hstage haligned hidle =>
      have hturn := ((start d p).offers os).turn o
      rw [← offers_concat] at hturn
      generalize hanswer : (((start d p).offers os).stream.decode _ o.room).1 = result at hturn
      generalize hnext : (start d p).offers (os ++ [o]) = y at hturn
      cases hturn with
      | goesOn stalled _ hrun hstalled =>
          have haligned' := haligned.passed o (by simp [hrun]) .running stalled
          rw [← hnext] at haligned'
          refine .live (by rw [hnext]; rfl) haligned' ?_
          intro hy
          rw [hnext] at hy
          obtain ⟨hused, hout⟩ := hstalled hy
          refine ⟨os, o, rfl, ?_, ?_⟩ <;> rw [← offers_concat, hnext, passed]
          · simp [hused]
          · simp [hout]
      | stalls =>
          refine .live (by rw [hnext, hstage]) (by rwa [hnext]) ?_
          intro _
          refine ⟨os, o, rfl, ?_, ?_⟩ <;> rw [← offers_concat, hnext]
      | ends _ hended =>
          have haligned' := haligned.passed o (by simp [hended]) .ended false
          rw [← hnext] at haligned'
          refine .ended (by rw [hnext]; rfl) haligned' ?_
          rw [hnext]
          exact Decoder.pump_ended hended
      | breaks _ hcorrupt stream hbroken =>
          have hone : ((start d p).oneShot os o).outcome = .corrupt := by
            rw [haligned.oneShot, Pass.outcome_behind,
              (Decoder.pump_stopped o.room (by simp [hcorrupt])).1, hcorrupt]
          refine .broken (by rw [hnext, hbroken]) ?_ ?_ ⟨os, o, [], rfl, hone, hanswer⟩
          · show (d.whole p).outcome = .corrupt
            have hwhole : d.whole p = (start d p).oneShot os o := whole_of_oneShot (by simp [hone])
            rw [hwhole, hone]
          · rw [hnext]
            exact haligned.written_within (consumed_append_left _ _)
      | ended hended => simp [hstage] at hended
      | refused hlive => exact absurd hstage hlive

theorem stands (d : Decoder) (p : List UInt8) (os : List Offer) : (start d p).Stands os := by
  induction os using List.reverseRecOn with
  | nil =>
      refine .live rfl ?_ ?_
      · intro rest
        exact (Pass.behind_nil _).symm
      · intro hstalled
        cases hstalled
  | append_singleton os o ih => exact ih.next o

theorem consumed_within (d : Decoder) (p : List UInt8) (os : List Offer) :
    ((start d p).offers os).consumed <+: p := by
  have hall := consumed_append_left (start d p) os
  exact ⟨_, hall⟩

theorem written_within (d : Decoder) (p : List UInt8) (os : List Offer) :
    ((start d p).offers os).written <+: (d.whole p).output := by
  cases stands d p os with
  | live _ haligned | ended _ haligned =>
      exact haligned.written_within (consumed_append_left _ _)
  | broken _ _ hwritten => exact hwritten

/-! ## Calls of each kind -/

theorem resumes_of_ended (hstage : ((start d p).offers os).stream.stage = .ended)
    (haligned : (start d p).Aligned ((start d p).offers os))
    (hview : ((start d p).offers os).stream.coder.view = .ended) (o : Offer) :
    (start d p).Resumes os o := by
  obtain ⟨hanswer, hsame⟩ := turn_of_ended hstage o
  have hone := haligned.oneShot o
  rw [Decoder.whole_ended hview] at hone
  refine ⟨consumed_within d p _, written_within d p _, ?_, ?_, ?_, ?_⟩
  · intro moved hmoved hstatus
    cases hanswer.symm.trans hmoved
    cases hstatus
  · refine iff_of_true ⟨_, hanswer, rfl⟩ ?_
    rw [hone, offers_concat, hsame]
    exact ⟨rfl, (List.append_nil _).symm⟩
  · intro moved hmoved
    cases hanswer.symm.trans hmoved
    simp
  · intro e he
    cases hanswer.symm.trans he

theorem resumes_of_broken (hstage : ((start d p).offers os).stream.stage = .broken)
    (hcorrupt : (d.whole p).outcome = .corrupt) (hmet : (start d p).Met os) (o : Offer) :
    (start d p).Resumes os o := by
  obtain ⟨hanswer, hsame⟩ := turn_of_broken hstage o
  refine ⟨consumed_within d p _, written_within d p _, ?_, ?_, ?_, ?_⟩
  · intro moved hmoved
    cases hanswer.symm.trans hmoved
  · refine iff_of_false ?_ ?_
    · rintro ⟨moved, hmoved, -⟩
      cases hanswer.symm.trans hmoved
    · rintro ⟨hended, -⟩
      have hwhole : d.whole p = (start d p).oneShot os o := whole_of_oneShot (by simp [hended])
      rw [hwhole, hended] at hcorrupt
      cases hcorrupt
  · intro moved hmoved
    cases hanswer.symm.trans hmoved
  · intro e he
    cases hanswer.symm.trans he
    exact .inl (.fatal hmet)

theorem resumes_of_live (hstage : ((start d p).offers os).stream.stage = .running)
    (haligned : (start d p).Aligned ((start d p).offers os))
    (hidle : ((start d p).offers os).stream.stalled = true → (start d p).Stalled os) (o : Offer) :
    (start d p).Resumes os o := by
  have hone := haligned.oneShot o
  have hturn := ((start d p).offers os).turn o
  rw [← offers_concat] at hturn
  have hconsumed := consumed_within d p (os ++ [o])
  have hwritten := written_within d p (os ++ [o])
  generalize hanswer : (((start d p).offers os).stream.decode _ o.room).1 = result at hturn
  generalize hnext : (start d p).offers (os ++ [o]) = y at hturn hconsumed hwritten
  cases hturn with
  | goesOn stalled _ hrun _ =>
      refine ⟨hnext ▸ hconsumed, hnext ▸ hwritten, ?_, iff_of_false ?_ ?_, ?_, ?_⟩
      · intro moved hmoved hstatus
        cases hanswer.symm.trans hmoved
        have hspare : (((start d p).offers os).stream.coder.pump
            (((start d p).offers os).slice o) o.room).output.length ≠ o.room := by
          intro hfull
          simp [hfull] at hstatus
        have hwhole := Decoder.pump_spare hrun hspare
        rw [hnext, hone, hwhole]
        rcases Decoder.pump_running hrun with ⟨-, hfull⟩ | ⟨-, hall⟩
        · exact absurd hfull hspare
        · exact ⟨hall, rfl⟩
      · rintro ⟨moved, hmoved, hstatus⟩
        cases hanswer.symm.trans hmoved
        dsimp only at hstatus
        split at hstatus <;> cases hstatus
      · rw [hnext, hone]
        rintro ⟨hended, hall⟩
        exact Decoder.output_ne_of_running hrun hended (List.append_cancel_left hall).symm
      · intro moved hmoved
        cases hanswer.symm.trans hmoved
        dsimp only
        split <;> simp [*]
      · intro e he
        cases hanswer.symm.trans he
  | stalls _ hrun hused hout hstalled =>
      refine ⟨hnext ▸ hconsumed, hnext ▸ hwritten, ?_, iff_of_false ?_ ?_, ?_, ?_⟩
      · intro moved hmoved
        cases hanswer.symm.trans hmoved
      · rintro ⟨moved, hmoved, -⟩
        cases hanswer.symm.trans hmoved
      · rw [hnext, hone]
        rintro ⟨hended, hall⟩
        refine Decoder.output_ne_of_running hrun hended ?_
        rw [hout]
        exact (List.append_right_eq_self.mp hall.symm)
      · intro moved hmoved
        cases hanswer.symm.trans hmoved
      · intro e he
        cases hanswer.symm.trans he
        refine .inr ⟨rfl, hidle hstalled, fun more => ?_⟩
        rw [← List.singleton_append, ← List.append_assoc, offers_append, hnext, offers_append]
  | ends _ hended =>
      have hstop : (((start d p).offers os).stream.coder.pump
          (((start d p).offers os).slice o) o.room).outcome ≠ .running := by simp [hended]
      obtain ⟨houtcome, -, hout⟩ := Decoder.pump_stopped o.room hstop
      refine ⟨hnext ▸ hconsumed, hnext ▸ hwritten, ?_, iff_of_true ⟨_, hanswer, rfl⟩ ?_, ?_, ?_⟩
      · intro moved hmoved hstatus
        cases hanswer.symm.trans hmoved
        cases hstatus
      · rw [hnext, hone]
        exact ⟨houtcome.trans hended, congrArg _ hout.symm⟩
      · intro moved hmoved
        cases hanswer.symm.trans hmoved
        simp
      · intro e he
        cases hanswer.symm.trans he
  | breaks _ hcorrupt stream hbroken =>
      have hstop : (((start d p).offers os).stream.coder.pump
          (((start d p).offers os).slice o) o.room).outcome ≠ .running := by simp [hcorrupt]
      obtain ⟨houtcome, -⟩ := Decoder.pump_stopped o.room hstop
      refine ⟨hnext ▸ hconsumed, hnext ▸ hwritten, ?_, iff_of_false ?_ ?_, ?_, ?_⟩
      · intro moved hmoved
        cases hanswer.symm.trans hmoved
      · rintro ⟨moved, hmoved, -⟩
        cases hanswer.symm.trans hmoved
      · rw [hone, Pass.outcome_behind, houtcome, hcorrupt]
        simp
      · intro moved hmoved
        cases hanswer.symm.trans hmoved
      · intro e he
        cases hanswer.symm.trans he
        exact .inl (.found (by rw [hone, Pass.outcome_behind, houtcome, hcorrupt]))
  | ended hended => simp [hstage] at hended
  | refused hlive => exact absurd hstage hlive

theorem resumes (d : Decoder) (p : List UInt8) (os : List Offer) (o : Offer) :
    (start d p).Resumes os o := by
  cases stands d p os with
  | live hstage haligned hidle => exact resumes_of_live hstage haligned hidle o
  | ended hstage haligned hview => exact resumes_of_ended hstage haligned hview o
  | broken hstage hcorrupt _ hmet => exact resumes_of_broken hstage hcorrupt hmet o

end Feeding

/-! ## The decoder of a header -/

namespace Engine

section

variable {ω : Type} [Journal ω] [Provident]
variable {h : Header} {a : Allocator ω} {w w' : ω} {e : Engine Decoder ω}

/--
The decoder that a header gets is offered the bytes of any payload in order, in any pieces and
with any room. Whatever the calls before it were, a call then continues one decoding of the
whole payload: what was taken and what was given are beginnings of the payload and of what it
decodes to, the answer tells how the bytes in hand are decoded, and nothing but the payload
makes a call fail, except that there was none to do for the second time in a row.
-/
theorem decoder_resumes (he : acquireDecoder h a w = (.ok e, w')) :
    ∃ d, decoderFor h = .ok d ∧ e.stream = { coder := d } ∧
      ∀ p os o, ({ stream := e.stream, left := p } : Feeding Decoder).Resumes os o := by
  obtain ⟨d, hd, hstream⟩ := stream_of_acquire he
  refine ⟨d, hd, hstream, ?_⟩
  intro p os o
  rw [hstream]
  exact Feeding.resumes d p os o

end

/-- The decoder of a header with a small dictionary, in memory of the process itself. -/
theorem decoder_resumes_of_standard :
    let h : Header := { lc := 3, pb := 2, dictSize := 4096 }
    let a : Allocator (Exchange ScriptedSource ScriptedSink Unit) := .standard
    ∃ e w', acquireDecoder h a (Exchange.ofBytes 4 [] ()) = (.ok e, w') ∧
      ∃ d, decoderFor h = .ok d ∧ e.stream = { coder := d } ∧
        ∀ p os o, ({ stream := e.stream, left := p } : Feeding Decoder).Resumes os o := by
  intro h a
  have hw := Exchange.scene_ofBytes 4 [] () (by decide)
  have hd := decoderFor_ok (h := h) (by decide)
  obtain ⟨heap, w', hacquire, -⟩ := acquire_ok Allocator.grants_standard.lends hw
    (DecompressSession.provident h) (Decoder.start h.coding (dictionarySize h.dictSize.toNat))
  rw [← hd] at hacquire
  exact ⟨_, w', hacquire, decoder_resumes hacquire⟩

end Engine

end Lzma
