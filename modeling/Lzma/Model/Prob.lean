/-!
# Adaptive probabilities

The format predicts every bit from the bits that were coded in the same context
before. A prediction is the probability of a 0 in 2048ths, and each coded bit
moves it a thirty-second of the way towards what was seen. Because the step is
rounded down, a prediction that starts at one half never comes closer to
certainty than 31 steps; the type records that, so the coder's interval always
has room for both bits.
-/

namespace Lzma

/-- The probability of a 0, in 2048ths. -/
abbrev Prob := { p : Nat // 31 ≤ p ∧ p ≤ 2017 }

namespace Prob

def half : Prob := ⟨1024, by decide⟩

instance : Inhabited Prob := ⟨half⟩

/-- The prediction after a bit was seen. -/
@[inline] def after (p : Prob) : Bool → Prob
  | false => ⟨p.val + (2048 - p.val) / 32, by have := p.property; omega⟩
  | true => ⟨p.val - p.val / 32, by have := p.property; omega⟩

/-- The part of an interval of width `range` that stands for a 0. -/
@[inline] def share (p : Prob) (range : Nat) : Nat := range / 2048 * p.val

theorem share_pos (p : Prob) {range : Nat} (h : 2048 ≤ range) : 0 < p.share range := by
  have hp := p.property
  have hq : 1 ≤ range / 2048 := by omega
  exact Nat.mul_pos hq (by omega)

theorem share_lt (p : Prob) {range : Nat} (h : 2048 ≤ range) : p.share range < range := by
  have hp := p.property
  have hq : 1 ≤ range / 2048 := by omega
  have hle : range / 2048 * p.val ≤ range / 2048 * 2017 := Nat.mul_le_mul_left _ hp.2
  rw [share]
  omega

end Prob

end Lzma
