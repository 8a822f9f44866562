import Lzma.Header

/-!
# What a compression run can be asked for

Options are only recorded here. Which of them are acceptable is the coder's
decision, taken when a run starts, so that a handle can be configured in any
order and reports all that is wrong with its options at one place.
-/

namespace Lzma

inductive Level where
  | fastest
  | best
  | standard
  /-- A numbered preset, given as the coder understands it. -/
  | preset (number : UInt32)
  deriving DecidableEq, Repr

instance : Inhabited Level := ⟨.standard⟩

def Level.number : Level → UInt32
  | .fastest => 0
  | .best => 9
  | .standard => 5
  | .preset number => number

structure Options where
  /-- How many high bits of the previous byte select the coding of a literal. -/
  lc : UInt8 := 3
  /-- How many low bits of the position select the coding of a literal. -/
  lp : UInt8 := 0
  /-- How many low bits of the position select the coding of the rest. -/
  pb : UInt8 := 2
  level : Level := .standard
  dictSize : UInt32 := 16777216
  format : Format := .lzma
  /-- The size to declare in the header; 0 stands for a size that is not known. -/
  uncompressedSize : UInt64 := 0
  deriving DecidableEq, Repr, Inhabited

def Options.header (o : Options) : Header where
  pb := o.pb
  lp := o.lp
  lc := o.lc
  streamed := o.uncompressedSize == 0
  uncompressedSize := o.uncompressedSize
  dictSize := o.dictSize

end Lzma
