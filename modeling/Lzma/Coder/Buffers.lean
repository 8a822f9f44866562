import Lzma.Bytes.Cursor
import Lzma.Coder.Engine

/-!
# Calls over buffers

A caller hands a coder buffers with cursors: what lies behind the cursor of one is to be read,
and what lies behind the cursor of the other is to be written. A coder does not say how far it
came. That is told by the counts of its stream, from how they differ before and after the call,
and only a call that succeeds moves the cursors. What a failed call wrote lies behind the
cursor, where the next call writes over it.
-/

namespace Lzma

structure Buffers where
  input : Cursor
  output : Cursor
  deriving DecidableEq, Repr

namespace Stream

/-- A call that writes behind a cursor; tells whether the stream ended, and how much was taken. -/
def process {κ : Type} [Coder κ] (s : Stream κ) (call : Call) (output : Cursor) :
    Except IoError (Bool × Nat) × Cursor × Stream κ :=
  let ⟨verdict, _, bytes, s'⟩ := s.call call output.behind.length
  let output := output.put bytes
  match verdict with
  | .error fault => (.error fault.toIoError, output, s')
  | .ok ended =>
      (.ok (ended, s'.totalIn - s.totalIn), output.advance (s'.totalOut - s.totalOut), s')

def decodeInto (s : Stream Decoder) (b : Buffers) :
    Except IoError DecodeStatus × Buffers × Stream Decoder :=
  match s.process (.feed b.input.behind) b.output with
  | (.error e, output, s) => (.error e, { b with output }, s)
  | (.ok (ended, used), output, s) =>
      let status :=
        if ended then .finished
        else if output.isFull then .outputFull else .needsInput
      (.ok status, ⟨b.input.advance used, output⟩, s)

/-- Answers of a decoder can be compared. -/
instance : DecidableEq (Except IoError DecodeStatus)
  | .ok a, .ok b => if h : a = b then isTrue (h ▸ rfl) else isFalse fun heq => h (by cases heq; rfl)
  | .error a, .error b =>
      if h : a = b then isTrue (h ▸ rfl) else isFalse fun heq => h (by cases heq; rfl)
  | .ok _, .error _ | .error _, .ok _ => isFalse nofun

def encodeInto (s : Stream Encoder) (b : Buffers) :
    Except IoError Unit × Buffers × Stream Encoder :=
  match s.process (.feed b.input.behind) b.output with
  | (.error e, output, s) => (.error e, { b with output }, s)
  | (.ok (_, used), output, s) => (.ok (), ⟨b.input.advance used, output⟩, s)

/-- Gives out what is left to encode; tells whether that was the last of it. -/
def finishInto (s : Stream Encoder) (b : Buffers) :
    Except IoError Bool × Buffers × Stream Encoder :=
  match s.process .finish b.output with
  | (.error e, output, s) => (.error e, { b with output }, s)
  | (.ok (ended, _), output, s) => (.ok ended, { b with output }, s)

end Stream

end Lzma
