import Lzma.Error
import Lzma.Options

/-!
# What a run reports about itself

An `Event` is one line of a run's journal. How a line is worded is another
module's business (`Lzma.Text.Event`).
-/

namespace Lzma

/-- One line of a run's journal. -/
inductive Event where
  /-- An allocation callback gave less memory than it was asked for. -/
  | shortBlock (requested got : Nat)
  /-- The coder was refused a piece of memory of this size. -/
  | engineRefused (size : Nat)
  | compressionStarting (header : Header) (level : Level)
  | encodingChunk (count : Nat)
  | compressionFinished (totalIn totalOut : Nat)
  | compressionFailed (error : Error)
  | decompressionStarting (header : Header)
  | decodingChunk (count : Nat)
  /-- A chunk went on after the end marker. -/
  | trailingData (count : Nat)
  | decompressionFinished (totalIn totalOut : Nat)
  | decompressionFailed (error : Error)

class Journal (ω : Type) where
  note : Event → ω → ω

end Lzma
