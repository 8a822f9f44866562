/-!
# Tallies

A log of what happened, in which equal entries in a row are counted.
-/

namespace Lzma

/-- The entries with how often each came in a row, the latest first. -/
structure Tally (α : Type) where
  entries : List (α × Nat) := []

namespace Tally

variable {α : Type} [DecidableEq α]

def add (t : Tally α) (entry : α) : Tally α :=
  match t.entries with
  | (last, count) :: rest =>
      if last = entry then ⟨(last, count + 1) :: rest⟩ else ⟨(entry, 1) :: t.entries⟩
  | [] => ⟨[(entry, 1)]⟩

def toList (t : Tally α) : List (α × Nat) := t.entries.reverse

end Tally

end Lzma
