import Lzma.Range.Writer

/-!
# Reading decisions from bytes

`RangeReader` is the reader's side of the interval: its width, and how far above
its lower end the number that is being read lies. `Coding.descend` takes as many
decisions as the bytes at hand settle. Where the interval has become narrow it
stops with the rest of the tree, and the walk goes on when the next byte is in.

No well-formed payload puts the number outside the interval, but a malformed one
can, and then the comparison of an even decision is one of 32-bit words; the
arithmetic here is that of words throughout.
-/

namespace Lzma

structure RangeReader where
  range : Nat := fullRange
  /-- The distance of the number from the interval's lower end. -/
  code : Nat := 0
  deriving DecidableEq, Inhabited

namespace RangeReader

/-- Whether the next decision has to wait for a byte. -/
@[inline] def starved (r : RangeReader) : Bool := r.range < minRange

/-- One more byte of the number is known, before the interval is used. -/
def load (r : RangeReader) (byte : UInt8) : RangeReader :=
  { r with code := (r.code * 256 + byte.toNat) % 4294967296 }

def shift (r : RangeReader) (byte : UInt8) : RangeReader :=
  { r.load byte with range := r.range * 256 }

/-- The outcome of a predicted decision, and the interval narrowed to it. -/
@[inline] def bit (r : RangeReader) (p : Prob) : Bool × RangeReader :=
  let share := p.share r.range
  if r.code < share then (false, { r with range := share })
  else (true, { range := r.range - share, code := r.code - share })

/-- The outcome of an even decision, and the interval narrowed to it. -/
@[inline] def even (r : RangeReader) : Bool × RangeReader :=
  let half := r.range / 2
  let above := (4294967296 + r.code - half) % 4294967296
  if above < 2147483648 then (true, { range := half, code := above })
  else (false, { r with range := half })

theorem le_range_of_fed {r : RangeReader} (h : r.starved = false) : minRange ≤ r.range :=
  Nat.le_of_not_lt (of_decide_eq_false h)

theorem range_bit_lt {r : RangeReader} (p : Prob) (h : r.starved = false) :
    (r.bit p).2.range < r.range := by
  have hwide : 2048 ≤ r.range := Nat.le_trans (by decide) (le_range_of_fed h)
  have hlt := p.share_lt hwide
  have hpos := p.share_pos hwide
  rw [bit]
  by_cases hc : r.code < p.share r.range
  · rw [if_pos hc]
    exact hlt
  · rw [if_neg hc]
    exact Nat.sub_lt (Nat.lt_trans hpos hlt) hpos

theorem range_even_le (r : RangeReader) : r.even.2.range ≤ r.range := by
  have hhalf : r.range / 2 ≤ r.range := Nat.div_le_self _ _
  simp only [even]
  generalize (4294967296 + r.code - r.range / 2) % 4294967296 = above
  by_cases hc : above < 2147483648
  · rw [if_pos hc]
    exact hhalf
  · rw [if_neg hc]
    exact hhalf

end RangeReader

/-- A range reader and the predictions it reads by. -/
structure CodeReader where
  reader : RangeReader := {}
  model : Model
  deriving Inhabited

/-- Takes every decision that needs no further byte; the rest of the tree is left. -/
def Coding.descend {α : Type} : Coding α → CodeReader → Coding α × CodeReader
  | .done a, s => (.done a, s)
  | .bit context next, s =>
      if s.reader.starved then (.bit context next, s)
      else
        let (b, reader) := s.reader.bit (s.model.prob context)
        (next b).descend ⟨reader, s.model.learn context b⟩
  | .even next, s =>
      if s.reader.starved then (.even next, s)
      else
        let (b, reader) := s.reader.even
        (next b).descend { s with reader }

end Lzma
