import Lzma.Memory.Allocator

/-!
# The memory of a coder

A coder asks for memory piece by piece and may give pieces back in any order, or
never. A `Heap` stands between it and an allocator: it keeps every block it got
under a key, so a key that was given back twice, or never given out, releases
nothing, and what the coder forgets is released with the heap.

Blocks come with no promise about their alignment, so each request is for some
bytes more than the coder asked for.
-/

namespace Lzma

/-- The alignment a coder may rely on. -/
def heapAlignment : Nat := 16

/-- One more than the largest size that can be asked for. -/
def sizeLimit : Nat := 18446744073709551616

/-- The memory that one coder holds. -/
structure Heap (ω : Type) where
  allocator : Allocator ω
  blocks : List (Nat × Block ω) := []
  /-- The key of the next block. -/
  fresh : Nat := 0

namespace Heap

variable {ω : Type}

/-- The size asked of the allocator for a piece of `size` bytes. -/
def padded (size : Nat) : Nat := max size 1 + (heapAlignment - 1)

/-- Asks for a piece of memory, and gives its key. -/
def request [Journal ω] (h : Heap ω) (size : Nat) (w : ω) : Option Nat × Heap ω × ω :=
  if sizeLimit ≤ padded size then (none, h, w)
  else match h.allocator.request (padded size) w with
    | (.ok block, w) =>
        (some h.fresh,
          { h with blocks := (h.fresh, block) :: h.blocks, fresh := h.fresh + 1 }, w)
    | (.error .refused, w) => (none, h, Journal.note (.engineRefused size) w)
    | (.error .aborted, w) => (none, h, w)

/-- Gives a piece of memory back. A key that stands for none changes nothing. -/
def release (h : Heap ω) (key : Nat) (w : ω) : Heap ω × ω :=
  match h.blocks.lookup key with
  | some block =>
      ({ h with blocks := h.blocks.filter fun entry => entry.1 != key }, block.release w)
  | none => (h, w)

def close (h : Heap ω) (w : ω) : ω := h.blocks.foldl (fun w entry => entry.2.release w) w

end Heap

end Lzma
