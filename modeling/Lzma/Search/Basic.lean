import Lzma.Search.Effort
import Lzma.Search.View

/-!
# Matches

A match is an earlier occurrence of some of the bytes ahead. `Search` holds what
stays the same while some data is searched for matches.
-/

namespace Lzma

/-- The bytes ahead, as many as `length` tells, also stand `distance` back. -/
structure Match where
  length : Nat
  distance : Nat
  deriving DecidableEq, Repr, Inhabited

/-- No copy is longer than this. -/
def maxLength : Nat := 273

/-- Data to be searched for matches. -/
structure Search where
  view : View
  effort : Effort
  /-- The largest distance of a match. -/
  window : Nat
  /-- The bits of the longest key. -/
  mask : Nat

namespace Search

@[inline] def byte (s : Search) (position : Nat) : UInt8 := s.view.byte position

/-- How many bytes there are from a position on. -/
def remaining (s : Search) (position : Nat) : Nat := s.view.size - position

/-- Of two places that agree on `length` bytes: how many they agree on, up to a limit. -/
def agreement (s : Search) (early late limit length : Nat) : Nat :=
  if length < limit then
    if s.byte (early + length) = s.byte (late + length) then
      s.agreement early late limit (length + 1)
    else length
  else length
termination_by limit - length

/-- The two places do agree on the bytes from `length` to their agreement. -/
theorem byte_eq_of_lt_agreement (s : Search) (early late limit length i : Nat)
    (hle : length ≤ i) (hlt : i < s.agreement early late limit length) :
    s.byte (early + i) = s.byte (late + i) := by
  fun_induction agreement s early late limit length with
  | case1 length _ hbyte ih =>
      rcases Nat.eq_or_lt_of_le hle with rfl | hgt
      · exact hbyte
      · exact ih hgt hlt
  | case2 | case3 => omega

end Search

end Lzma
