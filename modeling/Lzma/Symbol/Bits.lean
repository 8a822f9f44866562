import Lzma.Symbol.Coding

/-!
# The bits of a symbol

`Symbol.bits` spells a symbol as the decisions that lead to it. The spelling
does not depend on what came before; only the contexts in which its bits are
predicted do, and those are the tree's business.
-/

namespace Lzma

/-- The lowest `n` bits of a number, highest first. -/
def bitsOf : (n value : Nat) → List Bool
  | 0, _ => []
  | n + 1, value => value.testBit n :: bitsOf n value

/-- The lowest `n` bits of a number, lowest first. -/
def reverseBitsOf : (n value : Nat) → List Bool
  | 0, _ => []
  | n + 1, value => (value % 2 == 1) :: reverseBitsOf n (value / 2)

def lengthBits (length : Nat) : List Bool :=
  if length < 10 then false :: bitsOf 3 (length - 2)
  else if length < 18 then true :: false :: bitsOf 3 (length - 10)
  else true :: true :: bitsOf 8 (length - 18)

/-- The magnitude of a distance less one: for 4 and up, its length in bits and its second bit. -/
def magnitudeOf (distance : Nat) : Nat :=
  if distance < 4 then distance
  else 2 * distance.log2 + (distance >>> (distance.log2 - 1)) % 2

def distanceBits (distance : Nat) : List Bool :=
  let magnitude := magnitudeOf distance
  let count := magnitude / 2 - 1
  let low := distance - Coding.magnitudeStart magnitude
  bitsOf 6 magnitude ++
    if magnitude < 4 then []
    else if magnitude < 14 then reverseBitsOf count low
    else bitsOf (count - 4) (low / 16) ++ reverseBitsOf 4 (low % 16)

/-- The bits that say which recent distance a copy uses. -/
def Rank.bits : Rank → List Bool
  | .latest => [false, true]
  | .second => [true, false]
  | .third => [true, true, false]
  | .fourth => [true, true, true]

/-- The decisions that lead to a symbol. -/
def Symbol.bits : Symbol → List Bool
  | .literal byte => false :: bitsOf 8 byte.toNat
  | .fresh length distance => true :: false :: (lengthBits length ++ distanceBits (distance - 1))
  | .again length rank => true :: true :: (rank.bits ++ lengthBits length)
  | .single => [true, true, false, false]

/-- The decisions that lead to the end marker: a copy of two bytes from nowhere. -/
def endMarkerBits : List Bool := true :: false :: (lengthBits 2 ++ distanceBits endDistance)

end Lzma
