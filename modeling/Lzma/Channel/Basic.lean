import Lzma.Event

/-!
# The world of a run

A run talks to the world it is in: it reads, it writes, and it notes what it
does. `Channel ω` says that a world of type `ω` can be talked to like that.

Nothing is assumed of what a source or a sink answers. A source may claim more
bytes than it placed, or more than there was room for; a sink may claim any
count. The one law is about time: a source has only so many bytes to give before
it ends or fails, and no other call makes it have more. Loops over a channel
terminate by it, whatever the channel holds.

A run also has a state, which it sets anew as it goes on. What becomes of the states
before is left open (`Register`), so that a run can be looked at with all of them.
-/

namespace Lzma

/-- What a source says it did: the bytes it placed, and the count it reports. -/
structure Reading where
  placed : List UInt8
  count : Nat
  deriving DecidableEq, Repr, Inhabited

/-- A world that can be read from, written to and told of events. -/
class Channel (ω : Type) extends Journal ω where
  /-- Reads into a buffer of so many bytes; a count of 0 is the end. -/
  read : Nat → ω → Except IoError Reading × ω
  /-- Offers bytes, and learns how many of them were taken. -/
  write : List UInt8 → ω → Except IoError Nat × ω
  /-- A bound on the reads that still bring bytes. -/
  credit : ω → Nat
  credit_read_lt {room : Nat} {w : ω} {r : Reading} :
    (read room w).1 = .ok r → 0 < r.count → r.count ≤ room → credit (read room w).2 < credit w
  credit_write_le (bytes : List UInt8) (w : ω) : credit (write bytes w).2 ≤ credit w
  credit_note_le (event : Event) (w : ω) : credit (note event w) ≤ credit w

/-- Something that a run keeps its state in. -/
class Register (σ ρ : Type) where
  set : σ → ρ → ρ

/-- Only the latest state is kept. -/
@[default_instance] instance Register.latest {σ : Type} : Register σ σ where
  set state _ := state

/-- All states are kept, the latest first. -/
instance Register.history {σ : Type} : Register σ (List σ) where
  set := .cons

end Lzma
