import Lzma.Range.Writer
import Lzma.Symbol.Bits

/-!
# Writing a payload

A payload is written symbol by symbol: each symbol's bits are written along the
tree that a decoder will walk at that place. `payload` closes the symbols with
the end marker and the bytes of the final interval.

A `Transcript` is a payload in the middle of being written. The bytes that are
settled can be taken from it at any time (`Transcript.take`); what is written
later does not depend on them.
-/

namespace Lzma

/-- A payload in the middle of being written. -/
structure Transcript where
  code : CodeWriter
  past : Past := {}

namespace Transcript

def start (props : Properties) : Transcript := { code := { model := Model.fresh props } }

/-- How many bytes the symbols so far stand for. -/
def position (t : Transcript) : Nat := t.past.produced.size

/-- Writes some decisions at the place of the next symbol. -/
def write (t : Transcript) (props : Properties) (dictSize : Nat) (bits : List Bool) :
    Transcript :=
  let ⟨code, past⟩ := t
  ⟨(past.context props dictSize).coding.write bits code, past⟩

def add (props : Properties) (dictSize : Nat) (t : Transcript) (s : Symbol) : Transcript :=
  let ⟨code, past⟩ := t.write props dictSize s.bits
  ⟨code, past.append s⟩

/-- Writes the end marker and closes the interval. -/
def finish (t : Transcript) (props : Properties) (dictSize : Nat) : Transcript :=
  let ⟨⟨writer, model⟩, past⟩ := t.write props dictSize endMarkerBits
  ⟨⟨writer.close, model⟩, past⟩

def output (t : Transcript) : List UInt8 := t.code.writer.output

def take (t : Transcript) : List UInt8 × Transcript :=
  let ⟨⟨writer, model⟩, past⟩ := t
  (writer.output, ⟨⟨writer.drained, model⟩, past⟩)

@[simp] theorem position_write (t : Transcript) (props : Properties) (dictSize : Nat)
    (bits : List Bool) : (t.write props dictSize bits).position = t.position := rfl

theorem position_add (props : Properties) (dictSize : Nat) (t : Transcript) (s : Symbol) :
    (t.add props dictSize s).position = t.position + s.length :=
  t.past.size_append s

@[simp] theorem position_take (t : Transcript) : t.take.2.position = t.position := rfl

end Transcript

/-- The payload that carries the given symbols. -/
def payload (props : Properties) (dictSize : Nat) (symbols : List Symbol) : List UInt8 :=
  ((symbols.foldl (Transcript.add props dictSize) (.start props)).finish props dictSize).output

end Lzma
