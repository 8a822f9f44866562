import Lzma.Payload.Progress

/-!
# Decoding in one piece

`Decoder.pump` works in whatever pieces its caller has room for. What it works
towards does not depend on them: it is what the decoder comes to when it is
given all of its input at once and all the room it wants. `Decoder.whole` is
that. It needs no bound on its room, for a decoder that takes nothing can give
only so much (`pending_give_lt`).

Two laws tie the pieces to the whole. Input may be cut anywhere
(`whole_append`): a decoder that has used up the first part goes on with the
second, and one that stopped before is not touched by it. And a pass with
limited room leaves a decoder that still comes to the rest of the whole
(`whole_pump`), so a run may stop and go on wherever its room ends.
-/

namespace Lzma

/-- A pass behind one that took `used` bytes and gave `output`. -/
def Pass.behind {κ : Type} (p : Pass κ) (used : Nat) (output : List UInt8) : Pass κ :=
  { p with used := used + p.used, output := output ++ p.output }

namespace Pass

variable {κ : Type} (p : Pass κ) (used used' : Nat) (output output' : List UInt8)

@[simp] theorem coder_behind : (p.behind used output).coder = p.coder := rfl

@[simp] theorem used_behind : (p.behind used output).used = used + p.used := rfl

@[simp] theorem output_behind : (p.behind used output).output = output ++ p.output := rfl

@[simp] theorem outcome_behind : (p.behind used output).outcome = p.outcome := rfl

@[simp] theorem behind_nil : p.behind 0 [] = p := by
  rw [behind, Nat.zero_add, List.nil_append]

@[simp] theorem behind_behind :
    (p.behind used' output').behind used output = p.behind (used + used') (output ++ output') := by
  simp only [behind, Nat.add_assoc, List.append_assoc]

end Pass

namespace Decoder

/-- The decoding of some input in one piece, with all the room that it takes. -/
def whole (d : Decoder) (input : List UInt8) : Pass Decoder :=
  match _ : d.view with
  | .gives byte => ((d.give byte).whole input).behind 0 [byte]
  | .wants =>
      match input with
      | [] => ⟨d, 0, [], .running⟩
      | byte :: input =>
          if d.refuses byte then ⟨{ d with phase := .corrupt }, 0, [], .corrupt⟩
          else ((d.feed byte).whole input).behind 1 []
  | .ended => ⟨d, 0, [], .ended⟩
  | .broken => ⟨d, 0, [], .corrupt⟩
termination_by (input.length, d.pending)
decreasing_by
  · exact Prod.Lex.right _ (pending_give_lt ‹_›)
  · exact Prod.Lex.left _ _ (Nat.lt_succ_self _)

variable {d : Decoder} {byte : UInt8} {input : List UInt8} {room : Nat}

theorem whole_gives (h : d.view = .gives byte) :
    d.whole input = ((d.give byte).whole input).behind 0 [byte] := by
  rw [whole.eq_def]
  split <;> rename_i heq <;> rw [h] at heq <;> cases heq
  rfl

theorem whole_nil (h : d.view = .wants) : d.whole [] = ⟨d, 0, [], .running⟩ := by
  rw [whole.eq_def]
  split <;> rename_i heq <;> rw [h] at heq <;> cases heq

theorem whole_refused (h : d.view = .wants) (hbyte : d.refuses byte = true) :
    d.whole (byte :: input) = ⟨{ d with phase := .corrupt }, 0, [], .corrupt⟩ := by
  rw [whole.eq_def]
  split <;> rename_i heq <;> rw [h] at heq <;> cases heq
  exact if_pos hbyte

theorem whole_cons (h : d.view = .wants) (hbyte : d.refuses byte = false)
    (input : List UInt8) :
    d.whole (byte :: input) = ((d.feed byte).whole input).behind 1 [] := by
  rw [whole.eq_def]
  split <;> rename_i heq <;> rw [h] at heq <;> cases heq
  exact if_neg (by rw [hbyte]; exact Bool.false_ne_true)

theorem whole_ended (h : d.view = .ended) : d.whole input = ⟨d, 0, [], .ended⟩ := by
  rw [whole.eq_def]
  split <;> rename_i heq <;> rw [h] at heq <;> cases heq

theorem whole_broken (h : d.view = .broken) : d.whole input = ⟨d, 0, [], .corrupt⟩ := by
  rw [whole.eq_def]
  split <;> rename_i heq <;> rw [h] at heq <;> cases heq

/-- A decoding that has not stopped has used its input up and wants more. -/
theorem whole_running (d : Decoder) (input : List UInt8)
    (h : (d.whole input).outcome = .running) :
    (d.whole input).used = input.length ∧ (d.whole input).coder.view = .wants := by
  fun_induction whole d input with
  | case1 d input byte hview ih =>
      rw [Pass.used_behind, Nat.zero_add]
      exact ih h
  | case2 d hview => exact ⟨rfl, hview⟩
  | case3 | case5 | case6 => cases h
  | case4 d hview byte input _ ih =>
      rw [Pass.used_behind, List.length_cons, Nat.add_comm, (ih h).1]
      exact ⟨rfl, (ih h).2⟩

theorem used_whole_le (d : Decoder) (input : List UInt8) :
    (d.whole input).used ≤ input.length := by
  fun_induction whole d input with
  | case1 d input byte hview ih =>
      rw [Pass.used_behind, Nat.zero_add]
      exact ih
  | case2 | case3 | case5 | case6 => exact Nat.zero_le _
  | case4 d hview byte input _ ih =>
      rw [Pass.used_behind, List.length_cons, Nat.add_comm]
      omega

/-! ## Cutting the input -/

theorem whole_append (d : Decoder) (xs ys : List UInt8) :
    d.whole (xs ++ ys) =
      if (d.whole xs).outcome = .running then
        ((d.whole xs).coder.whole ys).behind xs.length (d.whole xs).output
      else d.whole xs := by
  fun_induction whole d xs with
  | case1 d xs byte hview ih =>
      rw [whole_gives hview, ih]
      split <;> rename_i h
      · simp [h]
      · simp [h]
  | case2 d hview => simp
  | case3 d hview byte xs hbyte =>
      rw [List.cons_append, whole_refused hview hbyte]
      rfl
  | case4 d hview byte xs hbyte ih =>
      rw [List.cons_append, whole_cons hview (by simpa using hbyte), ih]
      split <;> rename_i h
      · simp [h, Nat.add_comm]
      · simp [h]
  | case5 d xs hview =>
      rw [whole_ended hview]
      rfl
  | case6 d xs hview =>
      rw [whole_broken hview]
      rfl

/-- A decoding that is running goes on with what comes behind its input. -/
theorem whole_append_of_running {xs : List UInt8} (ys : List UInt8)
    (h : (d.whole xs).outcome = .running) :
    d.whole (xs ++ ys) =
      ((d.whole xs).coder.whole ys).behind xs.length (d.whole xs).output := by
  rw [whole_append, if_pos h]

/-- A decoding that has stopped does not see what comes behind its input. -/
theorem whole_append_of_stopped (d : Decoder) (xs ys : List UInt8)
    (h : (d.whole xs).outcome ≠ .running) : d.whole (xs ++ ys) = d.whole xs := by
  rw [whole_append, if_neg h]

/-- If the first `n` bytes bring a decoding to a stop, the others are left over. -/
theorem whole_of_take_stopped {input : List UInt8} {n : Nat}
    (h : (d.whole (input.take n)).outcome ≠ .running) :
    d.whole input = d.whole (input.take n) ∧
      (d.whole input).used + (input.drop n).length ≤ input.length := by
  have hwhole := whole_append_of_stopped d (input.take n) (input.drop n) h
  rw [List.take_append_drop] at hwhole
  have hused := d.used_whole_le (input.take n)
  rw [← hwhole, List.length_take] at hused
  refine ⟨hwhole, ?_⟩
  simp only [List.length_drop]
  omega

/-- A decoder that wants a byte does not find the end without one. -/
theorem used_pos_of_ended (input : List UInt8) (hview : d.view = .wants)
    (h : (d.whole input).outcome = .ended) : 0 < (d.whole input).used := by
  cases input with
  | nil =>
      rw [whole_nil hview] at h
      cases h
  | cons byte input =>
      cases hbyte : d.refuses byte with
      | true =>
          rw [whole_refused hview hbyte] at h
          cases h
      | false =>
          rw [whole_cons hview hbyte, Pass.behind]
          exact Nat.add_pos_left Nat.one_pos _

/-- The end is found in the bytes up to it, whatever follows them. -/
theorem whole_take_append (rest : List UInt8) (h : (d.whole input).outcome = .ended) :
    d.whole (input.take (d.whole input).used ++ rest) = d.whole input := by
  have hcut := d.whole_append (input.take (d.whole input).used) (input.drop (d.whole input).used)
  rw [List.take_append_drop] at hcut
  by_cases hrun : (d.whole (input.take (d.whole input).used)).outcome = .running
  · rw [if_pos hrun] at hcut
    have hpos := used_pos_of_ended (input.drop (d.whole input).used)
      (d.whole_running _ hrun).2 (by rw [hcut] at h; exact h)
    have hused := congrArg Pass.used hcut
    rw [Pass.used_behind, List.length_take, Nat.min_eq_left (d.used_whole_le input)] at hused
    omega
  · rw [if_neg hrun] at hcut
    rw [whole_append_of_stopped _ _ rest hrun, ← hcut]

/-- Short of the end a decoding is running, and has given a part of the output. -/
theorem whole_take_of_lt {j : Nat} (hlt : j < (d.whole input).used) :
    (d.whole (input.take j)).outcome = .running ∧
      (d.whole (input.take j)).output <+: (d.whole input).output := by
  have hcut := d.whole_append (input.take j) (input.drop j)
  rw [List.take_append_drop] at hcut
  by_cases hrun : (d.whole (input.take j)).outcome = .running
  · rw [if_pos hrun] at hcut
    refine ⟨hrun, ?_⟩
    rw [hcut]
    exact List.prefix_append _ _
  · rw [if_neg hrun] at hcut
    have hle := d.used_whole_le (input.take j)
    rw [← hcut, List.length_take] at hle
    omega

/-! ## Limited room -/

theorem whole_pumpFrom (d : Decoder) (input : List UInt8) (room used : Nat)
    (output : List UInt8) :
    (d.whole input).behind used output.reverse =
      ((d.pumpFrom input room used output).coder.whole
        (input.drop ((d.pumpFrom input room used output).used - used))).behind
        (d.pumpFrom input room used output).used
        (d.pumpFrom input room used output).output := by
  fun_induction pumpFrom d input room used output with
  | case1 | case3 | case6 | case7 => rw [Nat.sub_self, List.drop_zero]
  | case2 d input used output byte hview room ih =>
      rw [whole_gives hview, Pass.behind_behind, Nat.add_zero, ← List.reverse_cons]
      exact ih
  | case4 d room used output hview byte input hbyte =>
      rw [Nat.sub_self, List.drop_zero, whole_refused hview hbyte, whole_broken rfl]
  | case5 d room used output hview byte input hbyte ih =>
      have hle := used_le_pumpFrom (d.feed byte) input room (used + 1) output
      rw [whole_cons hview (by simpa using hbyte), Pass.behind_behind, List.append_nil, ih,
        ← Nat.sub_add_cancel (Nat.le_sub_of_add_le (Nat.add_comm _ _ ▸ hle) :
          1 ≤ ((d.feed byte).pumpFrom input room (used + 1) output).used - used),
        List.drop_succ_cons, Nat.sub_add_eq]

/-- A pass leaves a decoder that comes to the rest of the whole. -/
theorem whole_pump (d : Decoder) (input : List UInt8) (room : Nat) :
    d.whole input = ((d.pump input room).coder.whole (input.drop (d.pump input room).used)).behind
      (d.pump input room).used (d.pump input room).output := by
  simpa [pump] using d.whole_pumpFrom input room 0 []

/-- A pass that can go on has no room for the next byte, or no input that it wants. -/
theorem pumpFrom_running (d : Decoder) (input : List UInt8) (room used : Nat)
    (output : List UInt8) (h : (d.pumpFrom input room used output).outcome = .running) :
    (∃ byte, (d.pumpFrom input room used output).coder.view = .gives byte) ∧
        (d.pumpFrom input room used output).output.length = output.length + room ∨
      (d.pumpFrom input room used output).coder.view = .wants ∧
        (d.pumpFrom input room used output).used = used + input.length := by
  fun_induction pumpFrom d input room used output with
  | case1 d input used output byte hview =>
      exact .inl ⟨⟨byte, hview⟩, List.length_reverse⟩
  | case2 d input used output byte hview room ih =>
      simp only [List.length_cons, Nat.add_right_comm] at ih
      exact ih h
  | case3 d room used output hview => exact .inr ⟨hview, rfl⟩
  | case4 | case6 | case7 => cases h
  | case5 d room used output hview byte input _ ih =>
      rw [List.length_cons, Nat.add_comm input.length, ← Nat.add_assoc]
      exact ih h

theorem pump_running (h : (d.pump input room).outcome = .running) :
    (∃ byte, (d.pump input room).coder.view = .gives byte) ∧
        (d.pump input room).output.length = room ∨
      (d.pump input room).coder.view = .wants ∧ (d.pump input room).used = input.length := by
  simpa [pump] using d.pumpFrom_running input room 0 [] h

theorem pumpFrom_ended (d : Decoder) (input : List UInt8) (room used : Nat)
    (output : List UInt8) (h : (d.pumpFrom input room used output).outcome = .ended) :
    (d.pumpFrom input room used output).coder.view = .ended := by
  fun_induction pumpFrom d input room used output with
  | case1 | case3 | case4 | case7 => cases h
  | case2 d input used output byte hview room ih => exact ih h
  | case5 d room used output hview byte input _ ih => exact ih h
  | case6 d input room used output hview => exact hview

theorem pump_ended (h : (d.pump input room).outcome = .ended) :
    (d.pump input room).coder.view = .ended := d.pumpFrom_ended input room 0 [] h

theorem pumpFrom_corrupt (d : Decoder) (input : List UInt8) (room used : Nat)
    (output : List UInt8) (h : (d.pumpFrom input room used output).outcome = .corrupt) :
    (d.pumpFrom input room used output).coder.view = .broken := by
  fun_induction pumpFrom d input room used output with
  | case1 | case3 | case6 => cases h
  | case2 d input used output byte hview room ih => exact ih h
  | case4 => rfl
  | case5 d room used output hview byte input _ ih => exact ih h
  | case7 d input room used output hview => exact hview

theorem pump_corrupt (h : (d.pump input room).outcome = .corrupt) :
    (d.pump input room).coder.view = .broken := d.pumpFrom_corrupt input room 0 [] h

end Decoder

end Lzma
