import Lzma.Symbol.Basic

/-!
# The past of a payload, and what symbols stand for

`Past` is everything a payload has determined so far: the bytes it stands for
and what is remembered of its symbols. `Past.append` adds the bytes of one more
symbol; copies are made byte by byte, so a copy that is longer than its distance
repeats itself. `expand` is the meaning of a whole sequence of symbols.
-/

namespace Lzma

/-- What a payload has determined so far. -/
structure Past where
  recent : Recent := {}
  produced : Array UInt8 := #[]
  deriving Inhabited

namespace Past

/-- The byte at a distance back; before the first byte there is nothing but 0. -/
def byteAt (p : Past) (distance : Nat) : UInt8 :=
  p.produced.getD (p.produced.size - distance) 0

/-- One more byte was produced. -/
def push (p : Past) (byte : UInt8) : Past := { p with produced := p.produced.push byte }

/-- One more symbol was taken in; its bytes are still to be produced. -/
def note (p : Past) (s : Symbol) : Past := { p with recent := p.recent.after s }

/-- `count` more bytes, each from the latest distance back. -/
def copy (p : Past) : (count : Nat) → Past
  | 0 => p
  | count + 1 => (p.push (p.byteAt p.recent.latest)).copy count

/-- The past after one more symbol. -/
def append (p : Past) (s : Symbol) : Past :=
  match s with
  | .literal byte => (p.note s).push byte
  | _ => (p.note s).copy s.length

theorem size_copy (p : Past) (count : Nat) :
    (p.copy count).produced.size = p.produced.size + count := by
  induction count generalizing p with
  | zero => rfl
  | succ count ih =>
      rw [copy, ih, push, Array.size_push]
      omega

/-- A symbol produces as many bytes as it stands for. -/
theorem size_append (p : Past) (s : Symbol) :
    (p.append s).produced.size = p.produced.size + s.length := by
  cases s with
  | literal byte => exact Array.size_push byte
  | fresh | again | single => exact size_copy _ _

end Past

/-- The bytes that a sequence of symbols stands for. -/
def expand (symbols : List Symbol) : List UInt8 :=
  (symbols.foldl Past.append {}).produced.toList

end Lzma
