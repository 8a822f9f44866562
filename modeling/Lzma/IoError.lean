/-!
# Failures of a source, a sink or the coder

An `IoError` is what the world around a run reports: a kind, which a caller may
act on, and a message, which a person may read. An error made from its kind
alone carries the kind's standard text.
-/

namespace Lzma

/-- What sort of failure an `IoError` reports. -/
inductive IoKind where
  | notFound
  | permissionDenied
  | connectionReset
  | brokenPipe
  | wouldBlock
  | invalidInput
  | invalidData
  | timedOut
  | writeZero
  | interrupted
  | unsupported
  | unexpectedEof
  | outOfMemory
  | other
  deriving DecidableEq, Repr, Inhabited

def IoKind.text : IoKind → String
  | .notFound => "entity not found"
  | .permissionDenied => "permission denied"
  | .connectionReset => "connection reset"
  | .brokenPipe => "broken pipe"
  | .wouldBlock => "operation would block"
  | .invalidInput => "invalid input parameter"
  | .invalidData => "invalid data"
  | .timedOut => "timed out"
  | .writeZero => "write zero"
  | .interrupted => "operation interrupted"
  | .unsupported => "unsupported"
  | .unexpectedEof => "unexpected end of file"
  | .outOfMemory => "out of memory"
  | .other => "other error"

/-- A failure of the world around a run. -/
structure IoError where
  kind : IoKind
  message : String
  deriving DecidableEq, Repr, Inhabited

def IoError.ofKind (kind : IoKind) : IoError := ⟨kind, kind.text⟩

def IoError.other (message : String) : IoError := ⟨.other, message⟩

/-- A source claimed to have placed more bytes than it had room for. -/
def IoError.overReported : IoError :=
  ⟨.invalidData, "source reported more bytes than the buffer holds"⟩

/-- The source ended after `count` of the `size` bytes of a header. -/
def IoError.shortHeader (count size : Nat) : IoError :=
  ⟨.unexpectedEof, "stream ended after " ++ toString count ++ " of " ++ toString size
    ++ " header bytes"⟩

/-- A writer took nothing of what was left of a buffer. -/
def IoError.writeStalled : IoError := ⟨.writeZero, "failed to write whole buffer"⟩

end Lzma
