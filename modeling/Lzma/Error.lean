import Lzma.Format
import Lzma.IoError

/-!
# How a run can fail

An `Error` names the party that failed: the caller, the coder, the source, the
sink or the stream itself. What the party reported is kept inside. Each cause
has one code, a number that is part of the interface, and success has the code
0.
-/

namespace Lzma

/-- The failure of a run, or of a call that starts none. -/
inductive Error where
  /-- A handle was used against its life cycle. -/
  | badParams (reason : String)
  /-- The coder does not accept the configured properties. -/
  | encodingProperties (cause : IoError)
  /-- Compression failed: the source, the coder, or memory for it. -/
  | compress (cause : IoError)
  /-- The container asked for is not written here. -/
  | unsupportedFormat (format : Format)
  /-- The sink failed or did not take exactly what it was offered. -/
  | output (expected written : Nat) (cause : Option IoError)
  /-- The source of a decompression failed, or ended inside the header. -/
  | input (cause : IoError)
  /-- The header is not one of this format. -/
  | corruptHeader (reason : String)
  /-- The source ended before the end marker. -/
  | insufficientInput
  /-- Decompression failed: the coder, or memory for it. -/
  | decompress (cause : IoError)
  deriving DecidableEq, Repr

/-- The outcome of a run as one of a few causes. -/
inductive ErrorCode where
  | ok
  | badParams
  | encodingProperties
  | compress
  | unsupportedFormat
  | output
  | input
  | corruptHeader
  | insufficientInput
  | decompress
  deriving DecidableEq, Repr

def ErrorCode.number : ErrorCode → Nat
  | .ok => 0
  | .badParams => 10
  | .encodingProperties => 11
  | .compress => 12
  | .unsupportedFormat => 13
  | .output => 14
  | .input => 15
  | .corruptHeader => 16
  | .insufficientInput => 17
  | .decompress => 18

def ErrorCode.text : ErrorCode → String
  | .ok => "ok"
  | .badParams => "bad parameters"
  | .encodingProperties => "encoding properties error"
  | .compress => "compress error"
  | .unsupportedFormat => "unsupported format"
  | .output => "output error"
  | .input => "input error"
  | .corruptHeader => "corrupt header"
  | .insufficientInput => "insufficient input"
  | .decompress => "decompress error"

namespace Error

def code : Error → ErrorCode
  | .badParams _ => .badParams
  | .encodingProperties _ => .encodingProperties
  | .compress _ => .compress
  | .unsupportedFormat _ => .unsupportedFormat
  | .output .. => .output
  | .input _ => .input
  | .corruptHeader _ => .corruptHeader
  | .insufficientInput => .insufficientInput
  | .decompress _ => .decompress

/-- The text of an error, without the text of its cause. -/
def message : Error → String
  | .badParams reason => "bad parameters: " ++ reason
  | .encodingProperties _ => "encoder rejected the configured properties"
  | .compress _ => "compression failed"
  | .unsupportedFormat format => "unsupported container format: " ++ format.text
  | .output expected written _ =>
      "sink accepted " ++ toString written ++ " of " ++ toString expected ++ " bytes"
  | .input _ => "could not read input"
  | .corruptHeader reason => "corrupt LZMA-Alone header: " ++ reason
  | .insufficientInput => "compressed stream ended before its end marker"
  | .decompress _ => "decompression failed"

/-- What the failing party reported, if it is known. -/
def cause : Error → Option IoError
  | .encodingProperties cause | .compress cause | .input cause | .decompress cause => some cause
  | .output _ _ cause => cause
  | _ => none

/-- The kind of failure this is for a caller who asks no more than that. -/
def kind (e : Error) : IoKind :=
  match e.code with
  | .badParams | .encodingProperties => .invalidInput
  | .unsupportedFormat => .unsupported
  | .output => .writeZero
  | .insufficientInput => .unexpectedEof
  | .corruptHeader | .decompress => .invalidData
  | _ => .other

end Error

def resultCode {α : Type} : Except Error α → ErrorCode
  | .ok _ => .ok
  | .error e => e.code

end Lzma
