import Lzma.Coder.Pass
import Lzma.IoError

/-!
# Streams

A `Stream` wraps a coder in rules of use and counts what it moves.

* Once `finish` was asked for, the coder takes no more input; asking it to is
  misuse and leaves the stream as it was.
* After the end of the stream every call answers "ended" and moves nothing.
* A malformed stream stays malformed: every later call is misuse.
* A pass that moves nothing is tolerated once. If the pass before it moved
  nothing either, the call is answered by `noProgress`, and the stream may be
  used again.

The counts follow what the coder used also where the call fails.
-/

namespace Lzma

inductive Fault where
  | outOfMemory
  /-- The coder was asked for something that it does not do. -/
  | unsupportedOptions
  | unsupportedPreset (number : UInt32)
  | corruptData
  | noProgress
  | misuse
  deriving DecidableEq, Repr

def Fault.toIoError : Fault → IoError
  | .outOfMemory => .ofKind .outOfMemory
  | .unsupportedOptions => ⟨.invalidInput, "unsupported lzma options"⟩
  | .unsupportedPreset number => ⟨.invalidInput, "unsupported preset " ++ toString number⟩
  | .corruptData => ⟨.invalidData, "corrupt lzma data"⟩
  | .noProgress => .other "lzma stream made no progress"
  | .misuse => .other "liblzma error 11"

/-- Where a stream is in its life. -/
inductive Stage where
  | running
  /-- The coder was told that there is no more input. -/
  | finishing
  | ended
  | broken
  deriving DecidableEq, Repr

/-- The stage that a call brings a live stream to; `none` if the call is misuse. -/
def Stage.afterCall : Stage → Call → Option Stage
  | .running, .feed _ => some .running
  | .running, .finish | .finishing, .finish => some .finishing
  | _, _ => none

/-- A coder and the record of its use. -/
structure Stream (κ : Type) where
  coder : κ
  stage : Stage := .running
  /-- The last pass of the coder moved nothing. -/
  stalled : Bool := false
  totalIn : Nat := 0
  totalOut : Nat := 0

/-- The answer to a call: whether the stream is at its end, and what was taken and given out. -/
structure Stream.Answer (κ : Type) where
  verdict : Except Fault Bool
  used : Nat
  output : List UInt8
  stream : Stream κ

namespace Stream

variable {κ : Type} [Coder κ]

/-- Takes the coder through one pass and keeps the record. -/
def advance (s : Stream κ) (call : Call) (room : Nat) (stage : Stage) : Answer κ :=
  let ⟨coder, _, stalled, totalIn, totalOut⟩ := s
  let ⟨coder, used, output, outcome⟩ := Coder.pass call room coder
  let totalIn := totalIn + used
  let totalOut := totalOut + output.length
  match outcome with
  | .running =>
      if used == 0 && output.isEmpty then
        if stalled then ⟨.error .noProgress, used, output, ⟨coder, stage, true, totalIn, totalOut⟩⟩
        else ⟨.ok false, used, output, ⟨coder, stage, true, totalIn, totalOut⟩⟩
      else ⟨.ok false, used, output, ⟨coder, stage, false, totalIn, totalOut⟩⟩
  | .ended => ⟨.ok true, used, output, ⟨coder, .ended, false, totalIn, totalOut⟩⟩
  | .corrupt => ⟨.error .corruptData, used, output, ⟨coder, .broken, stalled, totalIn, totalOut⟩⟩

def call (s : Stream κ) (call : Call) (room : Nat) : Answer κ :=
  if s.stage = .ended then ⟨.ok true, 0, [], s⟩
  else match s.stage.afterCall call with
    | none => ⟨.error .misuse, 0, [], s⟩
    | some stage => s.advance call room stage

theorem call_eq_advance {s : Stream κ} {call : Call} {stage : Stage}
    (h : s.stage.afterCall call = some stage) (room : Nat) :
    s.call call room = s.advance call room stage := by
  have hlive : s.stage ≠ .ended := by
    intro hended
    rw [hended] at h
    cases h
  rw [Stream.call, if_neg hlive, h]

end Stream

end Lzma
