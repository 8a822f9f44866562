import Lzma.Symbol.Coding

/-!
# Writing decisions as bytes

The range coder writes a walk down a `Coding` as a number: it keeps an interval
and narrows it to the share of each decision. `RangeWriter` holds the lower end
of the interval as the bytes that have left it and a remainder, and its width.

A carry out of the remainder runs back through bytes that are all ones to the
byte in front of them, and never further. So that one and the ones behind it are
held back, and what is before them is settled: nothing that is written later can
change it. The first byte held back is a 0, and no carry gets past it.

The interval is widened by a byte not when it has become narrow but before the
next decision that finds it so. The reader does the same, so neither is ever a
byte ahead of the other.
-/

namespace Lzma

/-- The widest interval; a reader and a writer start with it. -/
def fullRange : Nat := 4294967295

/-- An interval narrower than this is widened before it is used. -/
def minRange : Nat := 16777216

/-- The interval that stands for the decisions so far. -/
structure RangeWriter where
  /-- The bytes that no carry can reach any more, the latest first. -/
  settled : List UInt8 := []
  /-- The byte behind them, which a carry may still raise. -/
  held : UInt8 := 0
  /-- How many bytes of all ones follow that byte. -/
  ones : Nat := 0
  /-- The rest of the lower end: 32 bits, and above them the carry. -/
  low : Nat := 0
  range : Nat := fullRange
  deriving Inhabited

namespace RangeWriter

/--
Moves the top byte of the remainder out, and widens the interval by a byte. A byte
of all ones joins those that are held back. Any other byte settles them, for it
will stop the next carry, and so does a carry, for there will be no second one.
-/
def shift (w : RangeWriter) : RangeWriter :=
  let top := w.low / minRange
  let low := w.low % minRange * 256
  let range := w.range * 256
  if top = 255 then { w with ones := w.ones + 1, low, range }
  else
    let carry := UInt8.ofNat (top / 256)
    { settled := List.replicate w.ones (255 + carry) ++ (w.held + carry) :: w.settled
      held := UInt8.ofNat top
      ones := 0
      low
      range }

def normalize (w : RangeWriter) : RangeWriter := if w.range < minRange then w.shift else w

/-- Narrows the interval to the share of a predicted decision. -/
def bit (w : RangeWriter) (p : Prob) (b : Bool) : RangeWriter :=
  let w := w.normalize
  let share := p.share w.range
  if b then { w with low := w.low + share, range := w.range - share }
  else { w with range := share }

/-- Narrows the interval to one half. -/
def even (w : RangeWriter) (b : Bool) : RangeWriter :=
  let w := w.normalize
  let half := w.range / 2
  if b then { w with low := w.low + half, range := half } else { w with range := half }

/-- Writes the lower end to its last byte, which tells the interval from every other one. -/
def close (w : RangeWriter) : RangeWriter := w.normalize.shift.shift.shift.shift.shift

def output (w : RangeWriter) : List UInt8 := w.settled.reverse

/-- The writer after its settled bytes have been taken away. -/
def drained (w : RangeWriter) : RangeWriter := { w with settled := [] }

end RangeWriter

/-- A range writer and the predictions it writes by. -/
structure CodeWriter where
  writer : RangeWriter := {}
  model : Model
  deriving Inhabited

/-- Writes the walk that takes the given decisions. -/
def Coding.write {α : Type} : Coding α → List Bool → CodeWriter → CodeWriter
  | .bit context next, b :: bits, i =>
      (next b).write bits
        ⟨i.writer.bit (i.model.prob context) b, i.model.learn context b⟩
  | .even next, b :: bits, i => (next b).write bits { i with writer := i.writer.even b }
  | _, _, i => i

end Lzma
