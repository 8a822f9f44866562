import Lzma.Model.Layout
import Lzma.Symbol.Past

/-!
# The decisions behind a symbol

A symbol is coded as a walk down a tree of yes-or-no decisions, most of them
predicted in a context, some of them even. `Coding` is such a tree, and
`Context.coding` is the tree of the next symbol. The tree is the format: the
reader walks it by the bits it finds, the writer by the bits of the symbol it
wants (`Symbol.bits`), and since both take their contexts from the same tree,
their predictions cannot drift apart.

The leaves are symbols, the end marker, and `invalid`: a repetition where
nothing has been produced yet, or a distance that reaches behind what is kept.
-/

namespace Lzma

-- A power of numbers is the core library's, whatever stands beside this module.
attribute [local instance (high)] instPowNat

inductive Coding (α : Type) where
  | done (result : α)
  /-- A decision predicted in a context. -/
  | bit (context : Nat) (next : Bool → Coding α)
  /-- A decision that could go either way. -/
  | even (next : Bool → Coding α)

namespace Coding

variable {α : Type}

/-- The result of a walk that takes the given decisions, and the decisions left over. -/
def follow : Coding α → List Bool → Option (α × List Bool)
  | .done a, bits => some (a, bits)
  | .bit _ next, b :: bits | .even next, b :: bits => (next b).follow bits
  | .bit .., [] | .even .., [] => none

/-- A number below `2 ^ n`, highest bit first; `node` is where the walk stands in its tree. -/
def tree (base : Nat) : (n node : Nat) → (Nat → Coding α) → Coding α
  | 0, node, k => k node
  | n + 1, node, k => .bit (base + node) fun b => tree base n (2 * node + b.toNat) k

/-- A number below `2 ^ n`, lowest bit first, added to `sum` with `weight` for its lowest bit. -/
def reverseTree (base : Nat) : (n node weight sum : Nat) → (Nat → Coding α) → Coding α
  | 0, _, _, sum, k => k sum
  | n + 1, node, weight, sum, k =>
      .bit (base + node) fun b =>
        reverseTree base n (2 * node + b.toNat) (2 * weight) (sum + b.toNat * weight) k

/-- `n` even bits, highest first, behind those of `value`. -/
def evenBits : (n value : Nat) → (Nat → Coding α) → Coding α
  | 0, value, k => k value
  | n + 1, value, k => .even fun b => evenBits n (2 * value + b.toNat) k

/--
A byte that follows a copy. As long as it agrees with the byte that the copy
would have continued with, that byte selects the context; once it differs, the
plain tree goes on.
-/
def matchedTree (base : Nat) (expected : UInt8) : (n node : Nat) → (Nat → Coding α) → Coding α
  | 0, node, k => k node
  | n + 1, node, k =>
      let guess := expected.toNat.testBit n
      .bit (base + 256 * (1 + guess.toNat) + node) fun b =>
        if b = guess then matchedTree base expected n (2 * node + b.toNat) k
        else tree base n (2 * node + b.toNat) k

def length (base slot : Nat) (k : Nat → Coding α) : Coding α :=
  .bit (Layout.aboveShort base) fun b =>
    if b then
      .bit (Layout.aboveMiddle base) fun b =>
        if b then tree (Layout.longLength base) 8 1 fun node => k (node - 256 + 18)
        else tree (Layout.middleLength base slot) 3 1 fun node => k (node - 8 + 10)
    else tree (Layout.shortLength base slot) 3 1 fun node => k (node - 8 + 2)

/-- The smallest number of a magnitude: a 4 and up is two leading bits and a count of others. -/
def magnitudeStart (magnitude : Nat) : Nat := (2 + magnitude % 2) * 2 ^ (magnitude / 2 - 1)

/-- A distance less one, for a copy of the given length. -/
def distance (length : Nat) (k : Nat → Coding α) : Coding α :=
  tree (Layout.magnitude (min (length - 2) 3)) 6 1 fun node =>
    let magnitude := node - 64
    if magnitude < 4 then k magnitude
    else
      let start := magnitudeStart magnitude
      let count := magnitude / 2 - 1
      if magnitude < 14 then
        reverseTree (Layout.lowBits (start - magnitude)) count 1 1 start k
      else
        evenBits (count - 4) 0 fun high =>
          reverseTree Layout.alignBits 4 1 1 (start + 16 * high) k

end Coding

/-- What the next decisions add up to. -/
inductive Token where
  | symbol (s : Symbol)
  | endMarker
  | invalid
  deriving DecidableEq, Repr

/-- The distance, less one, that marks the end of the payload. -/
def endDistance : Nat := 4294967295

/-- All that the coding of the next symbol depends on. -/
structure Context where
  props : Properties
  recent : Recent
  /-- How many bytes have been produced. -/
  position : Nat
  /-- The byte just produced. -/
  previous : UInt8
  /-- The byte that the latest copy would have continued with. -/
  expected : UInt8
  /-- The largest distance that can be reached. -/
  reach : Nat

/-- The context of the next symbol, in a dictionary of the given size. -/
def Past.context (p : Past) (props : Properties) (dictSize : Nat) : Context where
  props := props
  recent := p.recent
  position := p.produced.size
  previous := p.byteAt 1
  expected := p.byteAt p.recent.latest
  reach := min p.produced.size dictSize

namespace Context

/-- The low bits of the position that predictions depend on. -/
def slot (c : Context) : Nat := lowBits c.props.pb c.position

/--
Which of the literal trees applies: it is told by low bits of the position and, behind
them, high bits of the previous byte.
-/
def neighbourhood (c : Context) : Nat :=
  (lowBits c.props.lp c.position * 256 + c.previous.toNat) >>> (8 - c.props.lc)

def literal (c : Context) : Coding Token :=
  let base := Layout.literal c.neighbourhood
  let k := fun node => .done (.symbol (.literal (UInt8.ofNat (node - 256))))
  if c.recent.afterLiteral then Coding.tree base 8 1 k
  else Coding.matchedTree base c.expected 8 1 k

def fresh (c : Context) : Coding Token :=
  Coding.length Layout.freshLength c.slot fun length =>
    Coding.distance length fun distance =>
      .done <|
        if distance = endDistance then .endMarker
        else if c.reach ≤ distance then .invalid
        else .symbol (.fresh length (distance + 1))

def again (c : Context) : Coding Token :=
  let copy := fun rank =>
    Coding.length Layout.repeatLength c.slot fun length => .done (.symbol (.again length rank))
  let state := c.recent.state
  .bit (Layout.notLatest state) fun b =>
    if b then
      .bit (Layout.notSecond state) fun b =>
        if b then
          .bit (Layout.notThird state) fun b => if b then copy .fourth else copy .third
        else copy .second
    else
      .bit (Layout.hasLength state c.slot) fun b =>
        if b then copy .latest else .done (.symbol .single)

def coding (c : Context) : Coding Token :=
  .bit (Layout.isCopy c.recent.state c.slot) fun b =>
    if b then
      .bit (Layout.isRepeat c.recent.state) fun b =>
        if b then
          if c.reach = 0 then .done .invalid else c.again
        else c.fresh
    else c.literal

end Context

end Lzma
