import Lzma.Search.Basic
import Lzma.Symbol.Bits

/-!
# What choices cost

A decision costs the more the less it was expected. Prices are counted in
sixteenths of a bit. The price of a symbol is that of its walk down the tree of
decisions (`Coding.price`), under the predictions of the moment.

Prices of lengths and distances are looked up for many symbols at a place, so
they are kept in tables. The tables are renewed only now and then, after a number
of uses, and are a little out of date in between.
-/

namespace Lzma

-- A power of numbers is the core library's, whatever stands beside this module.
attribute [local instance (high)] instPowNat

def evenPrice : Nat := 16

/-- Squares a number and halves it until it is below 2^16; also tells how often it was halved. -/
def squareDown (w : Nat) : Nat × Nat :=
  let square := w * w
  let halved := square.log2 + 1 - 16
  (square / 2 ^ halved, halved)

/--
The price of a decision that is expected with the given probability in 2048ths:
sixteen times its negative logarithm, from the bits that four squarings uncover.
-/
def priceOf (w : Nat) : Nat :=
  let step := fun (acc : Nat × Nat) (_ : Nat) =>
    let (w, halved) := squareDown acc.1
    (w, 2 * acc.2 + halved)
  161 - ((List.range 4).foldl step (w, 0)).2

/-- The prices at the middle of each range of sixteen probabilities. -/
def decisionPrices : Array Nat := ((List.range 128).map fun i => priceOf (16 * i + 8)).toArray

def Prob.price (p : Prob) (bit : Bool) : Nat :=
  decisionPrices.getD ((if bit then 2047 - p.val else p.val) / 16) 0

/-- The price of a walk that takes the given decisions. -/
def Coding.price {α : Type} (m : Model) : Coding α → List Bool → (sum : Nat) → Nat
  | .bit context next, b :: bits, sum => (next b).price m bits (sum + (m.prob context).price b)
  | .even next, b :: bits, sum => (next b).price m bits (sum + evenPrice)
  | _, _, sum => sum

/-- Prices of lengths from 2 on, by the low bits of the position. -/
structure LengthPrices where
  base : Nat
  count : Nat
  table : Array (Array Nat)
  /-- How many uses are left until the prices are renewed. -/
  left : Array Nat

namespace LengthPrices

/-- The current prices of all lengths. -/
def current (m : Model) (base count slot : Nat) : Array Nat :=
  let tree : Coding Nat := Coding.length base slot .done
  ((List.range count).map fun i => tree.price m (lengthBits (2 + i)) 0).toArray

/-- The prices of lengths up to `nice`, in `slots` tables. -/
def start (m : Model) (base nice slots : Nat) : LengthPrices where
  base
  count := nice - 1
  table := ((List.range slots).map (current m base (nice - 1))).toArray
  left := Array.replicate slots (nice - 1)

def price (p : LengthPrices) (slot length : Nat) : Nat :=
  (p.table.getD slot #[]).getD (length - 2) 0

def used (p : LengthPrices) (m : Model) (slot : Nat) : LengthPrices :=
  let left := p.left.getD slot 0
  if left ≤ 1 then
    { p with
      table := p.table.setIfInBounds slot (current m p.base p.count slot)
      left := p.left.setIfInBounds slot p.count }
  else { p with left := p.left.setIfInBounds slot (left - 1) }

end LengthPrices

/-- Prices of distances, by the class of the length that goes with them. -/
structure DistancePrices where
  /-- Magnitudes, with the even decisions that follow them. -/
  magnitudes : Array (Array Nat) := #[]
  /-- Distances up to 128. -/
  near : Array (Array Nat) := #[]
  /-- The last four bits of large distances. -/
  ends : Array Nat := #[]
  /-- Copies at a new distance since the prices were renewed. -/
  copies : Nat := 128
  /-- Large distances since the prices of their last bits were renewed. -/
  large : Nat := 16

namespace DistancePrices

/-- A length of each class that distances are priced for. -/
def lengths : List Nat := [2, 3, 4, 5]

/-- The current price of a magnitude and the even decisions behind it. -/
def magnitudePrice (m : Model) (lengthClass magnitude : Nat) : Nat :=
  let tree : Coding Nat := Coding.tree (Layout.magnitude lengthClass) 6 1 .done
  tree.price m (bitsOf 6 magnitude) (if 14 ≤ magnitude then (magnitude / 2 - 5) * evenPrice else 0)

/-- Prices of all distances but for their ends. -/
def renew (p : DistancePrices) (m : Model) : DistancePrices :=
  { p with
    magnitudes := (lengths.map fun length =>
      ((List.range 64).map (magnitudePrice m (length - 2))).toArray).toArray
    near := (lengths.map fun length =>
      let tree : Coding Nat := Coding.distance length .done
      ((List.range 128).map fun i => tree.price m (distanceBits i) 0).toArray).toArray
    copies := 0 }

/-- Prices of the ends of large distances. -/
def renewEnds (p : DistancePrices) (m : Model) : DistancePrices :=
  let tree : Coding Nat := Coding.reverseTree Layout.alignBits 4 1 1 0 .done
  { p with
    ends := ((List.range 16).map fun i => tree.price m (reverseBitsOf 4 i) 0).toArray
    large := 0 }

/-- Renews what has been used often enough. -/
def refresh (p : DistancePrices) (m : Model) : DistancePrices :=
  let p := if 128 ≤ p.copies then p.renew m else p
  if 16 ≤ p.large then p.renewEnds m else p

def price (p : DistancePrices) (length distance : Nat) : Nat :=
  let lengthClass := min (length - 2) 3
  let distance := distance - 1
  if distance < 128 then (p.near.getD lengthClass #[]).getD distance 0
  else (p.magnitudes.getD lengthClass #[]).getD (magnitudeOf distance) 0 +
    p.ends.getD (distance % 16) 0

def used (p : DistancePrices) (distance : Nat) : DistancePrices :=
  { p with
    copies := p.copies + 1
    large := if 14 ≤ magnitudeOf (distance - 1) then p.large + 1 else p.large }

end DistancePrices

structure Prices where
  freshLengths : LengthPrices
  againLengths : LengthPrices
  distances : DistancePrices := {}

namespace Prices

def start (props : Properties) (nice : Nat) : Prices :=
  let model := Model.fresh props
  { freshLengths := .start model Layout.freshLength nice (2 ^ props.pb)
    againLengths := .start model Layout.repeatLength nice (2 ^ props.pb) }

def refresh (p : Prices) (m : Model) : Prices :=
  let ⟨freshLengths, againLengths, distances⟩ := p
  ⟨freshLengths, againLengths, distances.refresh m⟩

/-- A symbol is to be coded at a place with the given low bits; `m` is yet to learn it. -/
def used (p : Prices) (m : Model) (slot : Nat) (symbol : Symbol) : Prices :=
  let ⟨freshLengths, againLengths, distances⟩ := p
  match symbol with
  | .literal _ | .single => ⟨freshLengths, againLengths, distances⟩
  | .again _ _ => ⟨freshLengths, againLengths.used m slot, distances⟩
  | .fresh _ distance => ⟨freshLengths.used m slot, againLengths, distances.used distance⟩

end Prices

end Lzma
