import Lzma.Payload.Encoder

/-!
# An encoder that gets no input gives only so much output

What an encoder gives out is either settled already, or it advances for it, and it
can advance only as often as there is data that is not written yet. So a pass that
takes no input and gives something out leaves less to do (`Encoder.less_pass`).
-/

namespace Lzma

namespace Encoder

/-- What is left to do before the encoder needs input: to advance, and to give out. -/
def remains (e : Encoder) : Nat × Nat := (e.backlog, e.queue.length)

/-- Less is left in one encoder than in another. -/
def Less (e e' : Encoder) : Prop := Prod.Lex (· < ·) (· < ·) e.remains e'.remains

theorem Less.trans {e₁ e₂ e₃ : Encoder} (h : e₁.Less e₂) (h' : e₂.Less e₃) : e₁.Less e₃ := by
  rw [Less] at *
  simp only [Prod.lex_def] at *
  omega

theorem less_emitFrom (e : Encoder) (last : Bool) (room : Nat) (output : List UInt8) :
    (e.emitFrom last room output).1.Less e ∨
      e.emitFrom last room output = (e, output.reverse) := by
  fun_induction emitFrom e last room output with
  | case1 | case3 => exact .inr rfl
  | case2 e output byte queue hqueue room ih =>
      have hless : ({ e with queue } : Encoder).Less e := by
        refine Prod.Lex.right _ ?_
        rw [hqueue]
        exact Nat.lt_succ_self _
      rcases ih with ih | ih
      · exact .inl (ih.trans hless)
      · exact .inl (ih ▸ hless)
  | case4 e room output _ hwaits ih =>
      have hless : e.advance.Less e := Prod.Lex.left _ _ (backlog_advance_lt (by
        cases hclosed : e.closed <;> simp [waits, hclosed] at hwaits ⊢))
      rcases ih with ih | ih
      · exact .inl (ih.trans hless)
      · exact .inl (ih ▸ hless)

theorem less_emit {e : Encoder} {last : Bool} {room : Nat} (h : (e.emit last room).2 ≠ []) :
    (e.emit last room).1.Less e := by
  rcases e.less_emitFrom last room [] with hless | heq
  · exact hless
  · exact absurd (congrArg Prod.snd heq) h

/-- Unless some input is taken, nothing happens beyond what was given before. -/
theorem feedFrom_eq_of_used {e : Encoder} {input : List UInt8} {room used : Nat}
    {output : List UInt8} (h : (e.feedFrom input room used output).used = used) :
    e.feedFrom input room used output = ⟨e, used, output, .running⟩ := by
  have hle {e : Encoder} {input : List UInt8} {room used : Nat} {output : List UInt8} :
      used ≤ (e.feedFrom input room used output).used := by
    fun_induction feedFrom e input room used output with
    | case1 => exact Nat.le_refl _
    | case2 _ _ _ _ _ _ _ _ _ _ ih => omega
  rw [feedFrom] at h ⊢
  dsimp only at h ⊢
  split
  · rfl
  · next hmoves =>
      rw [if_neg hmoves] at h
      exact absurd (Nat.le_trans hle (Nat.le_of_eq h)) (by omega)

/-- A pass that takes no input and gives something out leaves less. -/
theorem less_pass {e : Encoder} {call : Call} {room : Nat}
    (hused : (Coder.pass call room e).used = 0) (hout : (Coder.pass call room e).output ≠ []) :
    (Coder.pass call room e).coder.Less e := by
  cases call with
  | feed input =>
      change (e.feed input room).used = 0 at hused
      change (e.feed input room).output ≠ [] at hout
      change (e.feed input room).coder.Less e
      rw [feed] at hused hout ⊢
      by_cases hnone : input = [] ∨ room = 0
      · rw [if_pos hnone] at hout
        exact absurd rfl hout
      · rw [if_neg hnone] at hused hout ⊢
        by_cases hhungry : e.hungry = true
        · rw [if_pos hhungry] at hused hout
          rw [feedFrom_eq_of_used hused] at hout
          exact absurd rfl hout
        · rw [if_neg hhungry] at hused hout ⊢
          dsimp only at hused hout ⊢
          rw [feedFrom_eq_of_used hused] at hout ⊢
          exact less_emit hout
  | finish =>
      change (e.finish room).output ≠ [] at hout
      change (e.finish room).coder.Less e
      rw [finish] at hout ⊢
      by_cases hnone : room = 0
      · rw [if_pos hnone] at hout
        exact absurd rfl hout
      · rw [if_neg hnone] at hout ⊢
        exact less_emit hout

end Encoder

end Lzma
