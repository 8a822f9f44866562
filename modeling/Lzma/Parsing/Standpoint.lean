import Lzma.Parsing.Price
import Lzma.Symbol.Coding

/-!
# Places that choices lead to

A plan for the next symbols is made with the predictions that hold at its start;
what its own symbols would change about them is left out of account. A
`Standpoint` is a place ahead that some way leads to, and it tells what it costs
to go on from there.
-/

namespace Lzma

/-- What the symbols to be chosen are weighed by. -/
structure Terms where
  search : Search
  props : Properties
  model : Model
  prices : Prices
  start : Nat

namespace Terms

/-- The decisions at a position, with what is remembered there. -/
def coding (t : Terms) (r : Recent) (position : Nat) : Coding Token :=
  let c : Context := {
    props := t.props
    recent := r
    position
    previous := if position = 0 then 0 else t.search.byte (position - 1)
    expected := if position < r.latest then 0 else t.search.byte (position - r.latest)
    reach := position }
  c.coding

end Terms

/-- A place that some way leads to. -/
structure Standpoint where
  terms : Terms
  /-- What is remembered at the place. -/
  recent : Recent
  /-- How far the place is ahead of the start. -/
  offset : Nat
  cost : Nat

namespace Standpoint

def search (v : Standpoint) : Search := v.terms.search

def position (v : Standpoint) : Nat := v.terms.start + v.offset

def byte (v : Standpoint) : UInt8 := v.search.byte v.position

/-- The byte that the latest copy would have continued with. -/
def expected (v : Standpoint) : UInt8 := v.search.byte (v.position - v.recent.latest)

/-- The low bits of the position that predictions depend on. -/
def slot (v : Standpoint) : Nat := lowBits v.terms.props.pb v.position

/-- The price of the way and of some decisions behind it. -/
def costOf (v : Standpoint) (bits : List Bool) : Nat :=
  (v.terms.coding v.recent v.position).price v.terms.model bits v.cost

def literal (v : Standpoint) : Symbol := .literal v.byte

/-- The price of the way and of a recent distance behind it. -/
def rankCost (v : Standpoint) (rank : Rank) : Nat := v.costOf (true :: true :: rank.bits)

/-- The price of a length that goes with a recent distance. -/
def againPrice (v : Standpoint) (length : Nat) : Nat :=
  v.terms.prices.againLengths.price v.slot length

/-- The price of a length and a new distance. -/
def freshPrice (v : Standpoint) (length distance : Nat) : Nat :=
  v.terms.prices.freshLengths.price v.slot length + v.terms.prices.distances.price length distance

def behind (v : Standpoint) (symbol : Symbol) (cost : Nat) : Standpoint :=
  { v with recent := v.recent.after symbol, offset := v.offset + symbol.length, cost }

def behindLiteral (v : Standpoint) : Standpoint := v.behind v.literal (v.costOf v.literal.bits)

end Standpoint

end Lzma
