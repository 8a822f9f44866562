import Lzma.Coder.Progress

/-!
# What a call of a stream comes to

The rules of use leave a call seven ways to end, and each of them fixes the answer and the
stream behind it. `Stream.Called` lists them; a proof about calls goes through its cases and
opens neither the rules nor the count keeping again. Three of them do not get to the coder or do
nothing there: the call that is one idle call too many, the call behind the end, and misuse.

What an encoder has emitted is what its calls have given (`Stream.Emits`), whoever made them.
-/

namespace Lzma

/-- Input is taken only by a stream that may be given more of it. -/
theorem Stage.running_of_feed {stage stage' : Stage} {input : List UInt8}
    (h : stage.afterCall (.feed input) = some stage') : stage = .running ∧ stage' = .running := by
  cases stage <;> cases h
  exact ⟨rfl, rfl⟩

namespace Stream

variable {κ : Type} [Coder κ]

/-- The stream behind a pass of its coder. -/
def behindPass (s : Stream κ) (p : Pass κ) (stage : Stage) (stalled : Bool) : Stream κ :=
  ⟨p.coder, stage, stalled, s.totalIn + p.used, s.totalOut + p.output.length⟩

/-- The answers that a call can get, with the stream behind it. -/
inductive Called (s : Stream κ) (call : Call) (p : Pass κ) : Answer κ → Prop
  | goesOn (stage : Stage) (hstage : s.stage.afterCall call = some stage)
      (hrun : p.outcome = .running) (hmoves : ¬(p.used = 0 ∧ p.output = [])) :
      Called s call p ⟨.ok false, p.used, p.output, s.behindPass p stage false⟩
  | idles (stage : Stage) (hstage : s.stage.afterCall call = some stage)
      (hrun : p.outcome = .running) (hused : p.used = 0) (hout : p.output = [])
      (hstalled : s.stalled = false) :
      Called s call p ⟨.ok false, p.used, p.output, s.behindPass p stage true⟩
  | stalls (stage : Stage) (hstage : s.stage.afterCall call = some stage)
      (hrun : p.outcome = .running) (hused : p.used = 0) (hout : p.output = [])
      (hstalled : s.stalled = true) :
      Called s call p ⟨.error .noProgress, p.used, p.output, s.behindPass p stage true⟩
  | ends (stage : Stage) (hstage : s.stage.afterCall call = some stage)
      (hended : p.outcome = .ended) :
      Called s call p ⟨.ok true, p.used, p.output, s.behindPass p .ended false⟩
  | breaks (stage : Stage) (hstage : s.stage.afterCall call = some stage)
      (hcorrupt : p.outcome = .corrupt) :
      Called s call p ⟨.error .corruptData, p.used, p.output, s.behindPass p .broken s.stalled⟩
  | ended (hstage : s.stage = .ended) : Called s call p ⟨.ok true, 0, [], s⟩
  | refused (hlive : s.stage ≠ .ended) (hstage : s.stage.afterCall call = none) :
      Called s call p ⟨.error .misuse, 0, [], s⟩

theorem called (s : Stream κ) (call : Call) (room : Nat) :
    s.Called call (Coder.pass call room s.coder) (s.call call room) := by
  obtain ⟨coder, stage, stalled, totalIn, totalOut⟩ := s
  rw [Stream.call]
  split
  · next hended => exact .ended hended
  · next hlive =>
      split
      · next hnone => exact .refused hlive hnone
      · next stage' hstage =>
          rw [advance]
          generalize Coder.pass call room coder = p
          obtain ⟨coder', used, output, outcome⟩ := p
          cases outcome with
          | running =>
              dsimp only
              split
              · next hidle =>
                  rw [Bool.and_eq_true, beq_iff_eq, List.isEmpty_iff] at hidle
                  cases stalled with
                  | true => exact .stalls stage' hstage rfl hidle.1 hidle.2 rfl
                  | false => exact .idles stage' hstage rfl hidle.1 hidle.2 rfl
              · next hmoves =>
                  rw [Bool.and_eq_true, beq_iff_eq, List.isEmpty_iff] at hmoves
                  exact .goesOn stage' hstage rfl hmoves
          | ended => exact .ends stage' hstage rfl
          | corrupt => exact .breaks stage' hstage rfl

/-- Whatever a call comes to, it takes no more than there is. -/
theorem used_call_le (s : Stream κ) (call : Call) (room : Nat) :
    (s.call call room).used ≤ call.input.length := by
  have hcall := s.called call room
  have hle := Coder.used_pass_le call room s.coder
  generalize s.call call room = answer at hcall ⊢
  cases hcall with
  | goesOn | idles | stalls | ends | breaks => exact hle
  | ended | refused => exact Nat.zero_le _

/-- Whatever a call comes to, it gives no more than there is room for. -/
theorem length_call_le (s : Stream κ) (call : Call) (room : Nat) :
    (s.call call room).output.length ≤ room := by
  have hcall := s.called call room
  have hle := Coder.length_pass_le call room s.coder
  generalize s.call call room = answer at hcall ⊢
  cases hcall with
  | goesOn | idles | stalls | ends | breaks => exact hle
  | ended | refused => exact Nat.zero_le _

/-- The counts of a stream go on by what a call moved, whether it succeeded or not. -/
theorem totals_call (s : Stream κ) (call : Call) (room : Nat) :
    (s.call call room).stream.totalIn = s.totalIn + (s.call call room).used ∧
      (s.call call room).stream.totalOut = s.totalOut + (s.call call room).output.length := by
  have hcall := s.called call room
  generalize s.call call room = answer at hcall ⊢
  cases hcall with
  | goesOn | idles | stalls | ends | breaks | ended | refused => exact ⟨rfl, rfl⟩

end Stream

/-! ## The calls of an encoder -/

namespace Stream

/-- Calls of an encoder that succeed, one after the other: what they took, and what they gave. -/
inductive Emits : Stream Encoder → List UInt8 → List UInt8 → Stream Encoder → Prop
  | refl (s : Stream Encoder) : Emits s [] [] s
  | step {s s₁ s' : Stream Encoder} {call : Call} {room : Nat} {moved : Encoded}
      {data out : List UInt8} (hcall : s.encodeCall call room = (.ok moved, s₁))
      (hrest : Emits s₁ data out s') :
      Emits s (call.input.take moved.used ++ data) (moved.output ++ out) s'

variable {s s₁ s' : Stream Encoder} {call : Call} {room : Nat} {moved : Encoded}
variable {data more out out' : List UInt8}

theorem totals_encodeCall (h : s.encodeCall call room = (.ok moved, s')) :
    s'.totalIn = s.totalIn + moved.used ∧ s'.totalOut = s.totalOut + moved.output.length ∧
      moved.used ≤ call.input.length := by
  obtain ⟨hused, houtput, rfl⟩ := eq_of_encodeCall h
  obtain ⟨hin, hout⟩ := s.totals_call call room
  rw [hused, houtput]
  exact ⟨hin, hout, s.used_call_le call room⟩

theorem stage_of_ended (h : s.encodeCall call room = (.ok moved, s'))
    (hended : moved.ended = true) :
    s'.stage = .ended := by
  have hcall := s.called call room
  rw [encodeCall] at h
  generalize s.call call room = answer at h hcall
  cases hcall with
  | goesOn | idles =>
      cases h
      cases hended
  | ends =>
      cases h
      rfl
  | ended hstage =>
      cases h
      exact hstage
  | stalls | breaks | refused => cases h

namespace Emits

theorem trans (h : s.Emits data out s₁) (h' : s₁.Emits more out' s') :
    s.Emits (data ++ more) (out ++ out') s' := by
  induction h with
  | refl => exact h'
  | step hcall _ ih =>
      rw [List.append_assoc, List.append_assoc]
      exact .step hcall (ih h')

/-- The stream has counted all of it. -/
theorem totals (h : s.Emits data out s') :
    s'.totalIn = s.totalIn + data.length ∧ s'.totalOut = s.totalOut + out.length := by
  induction h with
  | refl => exact ⟨rfl, rfl⟩
  | step hcall _ ih =>
      obtain ⟨hin, hout, hused⟩ := totals_encodeCall hcall
      rw [ih.1, ih.2, hin, hout, List.length_append, List.length_append, List.length_take]
      omega

end Emits

end Stream

end Lzma
