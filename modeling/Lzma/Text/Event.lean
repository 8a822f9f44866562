import Lzma.Text.Record

/-!
# Journals as text

A line of a journal is a severity, a sentence and the values it is about.
-/

namespace Lzma

/-- How much attention an event asks for. -/
inductive Severity where
  | trace
  | debug
  | warn
  deriving DecidableEq, Repr

def Severity.text : Severity → String
  | .trace => "TRACE"
  | .debug => "DEBUG"
  | .warn => "WARN"

namespace Event

/-- How much attention an event asks for. -/
def severity : Event → Severity
  | .encodingChunk _ | .decodingChunk _ => .trace
  | .trailingData _ => .warn
  | _ => .debug

/-- What an event says. -/
def sentence : Event → String
  | .shortBlock .. => "allocator returned a short block"
  | .engineRefused _ => "engine allocation refused"
  | .compressionStarting .. => "starting compression"
  | .encodingChunk _ => "encoding chunk"
  | .compressionFinished .. => "compression finished"
  | .compressionFailed _ => "compression failed"
  | .decompressionStarting _ => "starting decompression"
  | .decodingChunk _ => "decoding chunk"
  | .trailingData _ => "ignoring data after the end marker"
  | .decompressionFinished .. => "decompression finished"
  | .decompressionFailed _ => "decompression failed"

/-- The values an event is about, each with its name. -/
def values : Event → List (String × String)
  | .shortBlock requested got => [("requested", toString requested), ("got", toString got)]
  | .engineRefused size => [("len", toString size)]
  | .compressionStarting header level =>
      [("header", header.describe), ("level", level.describe)]
  | .encodingChunk count | .decodingChunk count => [("read", toString count)]
  | .compressionFinished totalIn totalOut | .decompressionFinished totalIn totalOut =>
      [("total_in", toString totalIn), ("total_out", toString totalOut)]
  | .compressionFailed error | .decompressionFailed error =>
      [("code", error.code.text), ("error", error.message)]
  | .decompressionStarting header =>
      [("header", header.describe),
        ("declared_size", Text.optional (header.declaredSize.map fun n => toString n.toNat))]
  | .trailingData count => [("trailing", toString count)]

/-- What a coder asks for is its own affair, so the size of a refused piece is not shown. -/
def shown : Event → List (String × String)
  | .engineRefused _ => []
  | e => e.values

def line (e : Event) : String :=
  " ".intercalate (e.severity.text :: e.sentence :: e.shown.map fun (name, value) =>
    name ++ "=" ++ value)

end Event

end Lzma
