import Lzma.Bytes.Cursor
import Lzma.Compressor
import Lzma.Decompressor

/-!
# Values as text

A value is shown as its type's name with its fields in braces. A value that
keeps some of its fields to itself ends in two dots, and a value that may be
missing is `None` or stands in `Some`.
-/

namespace Lzma

namespace Text

def fields (named : List (String × String)) : List String :=
  named.map fun (name, value) => name ++ ": " ++ value

/-- A record that shows all of its fields. -/
def record (name : String) (named : List (String × String)) : String :=
  name ++ " \x7b " ++ ", ".intercalate (fields named) ++ " \x7d"

/-- A record that shows some of its fields. -/
def partialRecord (name : String) (named : List (String × String)) : String :=
  name ++ " \x7b " ++ ", ".intercalate (fields named ++ [".."]) ++ " \x7d"

def truth (b : Bool) : String := if b then "true" else "false"

/-- A value that may be missing. -/
def optional : Option String → String
  | none => "None"
  | some text => "Some(" ++ text ++ ")"

def bytes (bs : List UInt8) : String :=
  "[" ++ ", ".intercalate (bs.map fun b => toString b.toNat) ++ "]"

end Text

def Header.describe (h : Header) : String :=
  Text.record "Header" [
    ("pb", toString h.pb.toNat), ("lp", toString h.lp.toNat), ("lc", toString h.lc.toNat),
    ("is_streamed", Text.truth h.streamed),
    ("uncompressed_size", toString h.uncompressedSize.toNat),
    ("dict_size", toString h.dictSize.toNat)]

def Level.describe : Level → String
  | .fastest => "Fastest"
  | .best => "Best"
  | .standard => "Default"
  | .preset number => "Precise(" ++ toString number.toNat ++ ")"

def Format.describe : Format → String
  | .lzip => "Lzip"
  | .lzma => "Lzma"

def Options.describe (o : Options) : String :=
  Text.record "CompressOptions" [
    ("lc", toString o.lc.toNat), ("lp", toString o.lp.toNat), ("pb", toString o.pb.toNat),
    ("level", o.level.describe), ("dict_size", toString o.dictSize.toNat),
    ("format", o.format.describe), ("uncompressed_size", toString o.uncompressedSize.toNat)]

/-- An allocator as text: its callbacks are not shown. -/
def Allocator.describe {ω : Type} (a : Allocator ω) : String :=
  Text.partialRecord "Allocator" [("custom", Text.truth a.custom)]

/-- A block as text: what it holds is not shown. -/
def Block.describe {ω : Type} (b : Block ω) : String :=
  Text.partialRecord "Block" [("len", toString b.size)]

def CompressState.describe : CompressState → String
  | .created => "Created"
  | .configured => "Configured"
  | .headerWritten => "HeaderWritten"
  | .encoding => "Encoding"
  | .done => "Done"
  | .failed => "Failed"

def DecompressState.describe : DecompressState → String
  | .created => "Created"
  | .headerRead => "HeaderRead"
  | .allocated => "Allocated"
  | .decoding => "Decoding"
  | .finished => "FinishedWithMark"
  | .failed => "Failed"

def Compressor.describe {ω : Type} (c : Compressor ω) : String :=
  Text.record "Compressor" [
    ("allocator", c.allocator.describe), ("options", c.options.describe),
    ("state", c.state.describe), ("total_in", toString c.totalIn),
    ("total_out", toString c.totalOut)]

def Decompressor.describe {ω : Type} (c : Decompressor ω) : String :=
  Text.record "Decompressor" [
    ("allocator", c.allocator.describe), ("state", c.state.describe),
    ("header", Text.optional (c.header.map Header.describe)),
    ("total_in", toString c.totalIn), ("total_out", toString c.totalOut)]

/-- A stream as text, under the name of its coder: only its counts are shown. -/
def Stream.describe {κ : Type} (s : Stream κ) (name : String) : String :=
  Text.record name [("stream", Text.partialRecord "RawStream"
    [("total_in", toString s.totalIn), ("total_out", toString s.totalOut)])]

def Stream.describeEncoder (s : Stream Encoder) : String := s.describe "LzmaEncoder"

def Stream.describeDecoder (s : Stream Decoder) : String := s.describe "LzmaDecoder"

def Cursor.describe (c : Cursor) : String :=
  Text.record "PartialBuffer" [("buffer", Text.bytes c.toList), ("index", toString c.index)]

end Lzma
