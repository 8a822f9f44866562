import Lzma.Event

/-!
# Memory handed in from outside

All memory of a run comes from an `Allocator`, a pair of callbacks over a world
`ω`. A `Block` is memory that was handed out; it keeps the release callback of
the binding it came from, so a block finds its way back however often its
allocator is bound anew in the meantime.

Callbacks are not trusted. Too short a buffer counts as a refusal and goes back
at once; too long a buffer is cut to the size that was asked for.
-/

namespace Lzma

/-- A piece of memory: where it lies, how long it is and what it holds. -/
structure Buffer where
  /-- Told by the callback that made the buffer; of no meaning here. -/
  address : Nat := 0
  size : Nat
  /-- What the first bytes hold. -/
  held : List UInt8 := []
  /-- What every byte behind those holds. -/
  fill : UInt8 := 0

namespace Buffer

/-- The buffer without what lies behind its first `size` bytes. -/
def truncate (b : Buffer) (size : Nat) : Buffer := { b with size := min b.size size }

/-- The first bytes of the buffer, `count` of them or all that there are. -/
def first (b : Buffer) (count : Nat) : List UInt8 :=
  let count := min count b.size
  b.held.take count ++ List.replicate (count - b.held.length) b.fill

def bytes (b : Buffer) : List UInt8 := b.first b.size

@[simp] theorem length_first (b : Buffer) (count : Nat) :
    (b.first count).length = min count b.size := by
  simp [first]
  omega

/-- The buffer with some of its bytes replaced; what would lie outside is dropped. -/
def write (b : Buffer) (start : Nat) (bytes : List UInt8) : Buffer :=
  let bytes := bytes.take (b.size - start)
  { b with held := b.first start ++ bytes ++ b.held.drop (start + bytes.length) }

end Buffer

/-- How a callback fails to give memory. -/
inductive Denial where
  | refused
  /-- The callback itself broke down. -/
  | aborted
  deriving DecidableEq, Repr

/-- Gives a zeroed buffer of the size asked for, or none. -/
abbrev AllocCallback (ω : Type) := Nat → ω → Except Denial Buffer × ω

/-- Takes back a buffer that the callback's partner gave. -/
abbrev FreeCallback (ω : Type) := Buffer → ω → ω

structure Allocator (ω : Type) where
  alloc : AllocCallback ω
  free : FreeCallback ω
  /-- Whether a callback was supplied from outside. -/
  custom : Bool

/-- The most that the process is given in one piece. -/
def maxBufferSize : Nat := 68719476736

structure Block (ω : Type) where
  buffer : Buffer
  /-- The release callback that was bound when the block was made. -/
  free : FreeCallback ω

namespace Block

variable {ω : Type}

def size (b : Block ω) : Nat := b.buffer.size

def release (b : Block ω) (w : ω) : ω := b.free b.buffer w

def write (b : Block ω) (start : Nat) (bytes : List UInt8) : Block ω :=
  { b with buffer := b.buffer.write start bytes }

end Block

namespace Allocator

variable {ω : Type}

/-- Memory of the process itself: zeroed, and as much of it as there is. -/
def standardAlloc : AllocCallback ω := fun size w =>
  (if size ≤ maxBufferSize then .ok { size } else .error .refused, w)

/-- Memory of the process itself needs no one to be told that it is free. -/
def standardFree : FreeCallback ω := fun _ w => w

def standard : Allocator ω := ⟨standardAlloc, standardFree, false⟩

instance : Inhabited (Allocator ω) := ⟨standard⟩

/-- A binding of the given callbacks; the process stands in for a missing one. -/
def bind (alloc : Option (AllocCallback ω)) (free : Option (FreeCallback ω)) : Allocator ω where
  alloc := alloc.getD standardAlloc
  free := free.getD standardFree
  custom := alloc.isSome || free.isSome

/-- A block of exactly `size` bytes, or the reason why there is none. -/
def request [Journal ω] (a : Allocator ω) (size : Nat) (w : ω) : Except Denial (Block ω) × ω :=
  match a.alloc size w with
  | (.error denial, w) => (.error denial, w)
  | (.ok buffer, w) =>
      if buffer.size < size then
        (.error .refused, a.free buffer (Journal.note (.shortBlock size buffer.size) w))
      else
        (.ok { buffer := buffer.truncate size, free := a.free }, w)

end Allocator

end Lzma
