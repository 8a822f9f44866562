/-!
# Presets

A numbered preset settles how much work goes into finding earlier occurrences of
the data ahead. Presets 0 to 3 are quick: places are kept in chains, and a choice
looks one byte ahead. Presets 4 to 9 are thorough: places are kept in search
trees, and choices are weighed by what they cost. The topmost bit of a preset asks
for thoroughness at any number.
-/

namespace Lzma

-- A power of numbers is the core library's, whatever stands beside this module.
attribute [local instance (high)] instPowNat

/-- The work that goes into finding matches. -/
structure Effort where
  /-- Search trees and weighed choices, instead of chains and a look ahead. -/
  thorough : Bool
  /-- How many bytes must agree for two places to be put together. -/
  width : Nat
  /-- A match of this length is good enough to be taken at once. -/
  nice : Nat
  depth : Nat
  deriving DecidableEq, Repr, Inhabited

namespace Effort

/-- A thorough effort that tries as many places as suit its nice length. -/
def thoroughUpTo (nice : Nat) : Effort := ⟨true, 4, nice, 16 + nice / 2⟩

def ofPreset (number : UInt32) : Effort :=
  let level := number.toNat % 2147483648
  if 2147483648 ≤ number.toNat then
    if level = 3 ∨ level = 5 then thoroughUpTo 192 else ⟨true, 4, 273, 512⟩
  else match level with
    | 0 => ⟨false, 3, 128, 4⟩
    | 1 => ⟨false, 4, 128, 8⟩
    | 2 => ⟨false, 4, 273, 24⟩
    | 3 => ⟨false, 4, 273, 48⟩
    | 4 => thoroughUpTo 16
    | 5 => thoroughUpTo 32
    | _ => thoroughUpTo 64

/--
The bits of the longest key: half as many values as the window has places,
rounded up to a power of two, but no fewer than 2^16 and no more than about 2^24.
-/
def keyMask (e : Effort) (window : Nat) : Nat :=
  let spread := (2 ^ ((window - 1).log2 + 1) - 1) / 2
  let mask := max spread 65535
  if mask ≤ 16777216 then mask else if e.width = 3 then 16777215 else mask / 2

end Effort

end Lzma
