/-!
# Buffers with a cursor

A `Cursor` is a buffer split at a position: what lies before it has been dealt
with, what lies behind it has not. The two parts are all there is to it, so the
position is inside the buffer by construction, and moving it loses nothing.
-/

namespace Lzma

/-- A buffer split at a position. -/
structure Cursor where
  before : List UInt8 := []
  behind : List UInt8
  deriving DecidableEq, Repr

namespace Cursor

def ofList (bytes : List UInt8) : Cursor := { behind := bytes }

def toList (c : Cursor) : List UInt8 := c.before ++ c.behind

def index (c : Cursor) : Nat := c.before.length

def isFull (c : Cursor) : Bool := c.behind.isEmpty

/-- The cursor `count` bytes further on, or at the end if that is nearer. -/
def advance (c : Cursor) (count : Nat) : Cursor :=
  ⟨c.before ++ c.behind.take count, c.behind.drop count⟩

/-- The buffer with bytes written behind the cursor, as far as there is room. -/
def put (c : Cursor) (bytes : List UInt8) : Cursor :=
  { c with behind := bytes.take c.behind.length ++ c.behind.drop bytes.length }

@[simp] theorem toList_advance (c : Cursor) (count : Nat) :
    (c.advance count).toList = c.toList := by
  simp [advance, toList]

end Cursor

end Lzma
