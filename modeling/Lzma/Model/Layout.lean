import Lzma.Model.Prob

/-!
# The contexts of the format

A model is one array of predictions. This module gives every context its place
in that array. A context is named by the decision it predicts and by what the
format lets that decision depend on: the coding state (0 to 11), the low bits of
the position, the bits of the same number already known, the previous byte.

Numbers of several bits are coded as a walk down a binary tree, one context to a
node. A tree of `n` bits with base `b` has its nodes at `b + 1` to
`b + 2 ^ n - 1`: the node is the bits so far with a 1 in front.
-/

namespace Lzma

-- A power of numbers is the core library's, whatever stands beside this module.
attribute [local instance (high)] instPowNat

/-- The properties of a stream that its contexts depend on. -/
structure Properties where
  lc : Nat
  lp : Nat
  pb : Nat
  deriving DecidableEq, Repr, Inhabited

/-- The properties the coder works with. -/
def Properties.Supported (p : Properties) : Prop :=
  p.lc ≤ 4 ∧ p.lp ≤ 4 ∧ p.lc + p.lp ≤ 4 ∧ p.pb ≤ 4

instance (p : Properties) : Decidable p.Supported := by
  unfold Properties.Supported; infer_instance

/-- The number that the lowest `n` bits of a number make. -/
def lowBits : (n value : Nat) → Nat
  | 0, _ => 0
  | n + 1, value => 2 * lowBits n (value / 2) + value % 2

namespace Layout

/-- Is the next symbol a literal or a copy? -/
def isCopy (state slot : Nat) : Nat := state * 16 + slot

/-- Does a copy reuse a recent distance? -/
def isRepeat (state : Nat) : Nat := 192 + state

/-- Is it another one than the latest distance? -/
def notLatest (state : Nat) : Nat := 204 + state

/-- Is it another one than the second latest? -/
def notSecond (state : Nat) : Nat := 216 + state

/-- Is it another one than the third latest? -/
def notThird (state : Nat) : Nat := 228 + state

/-- Does a repetition of the latest distance have a length? -/
def hasLength (state slot : Nat) : Nat := 240 + state * 16 + slot

/-- The tree of six bits for the magnitude of a distance, by the length of the copy. -/
def magnitude (lengthClass : Nat) : Nat := 432 + lengthClass * 64

/-- The trees for the low bits of a middling distance, by its magnitude. -/
def lowBits (start : Nat) : Nat := 688 + start

/-- The tree for the last four bits of a large distance. -/
def alignBits : Nat := 816

/-- The contexts for the length of a copy at a new distance. -/
def freshLength : Nat := 832

/-- The contexts for the length of a copy at a recent distance. -/
def repeatLength : Nat := 1346

/-- Within the contexts of a length: is it above 9? -/
def aboveShort (lengths : Nat) : Nat := lengths

/-- Within the contexts of a length: is it above 17? -/
def aboveMiddle (lengths : Nat) : Nat := lengths + 1

/-- The tree of three bits for the lengths 2 to 9. -/
def shortLength (lengths slot : Nat) : Nat := lengths + 2 + slot * 8

/-- The tree of three bits for the lengths 10 to 17. -/
def middleLength (lengths slot : Nat) : Nat := lengths + 130 + slot * 8

/-- The tree of eight bits for the lengths 18 to 273. -/
def longLength (lengths : Nat) : Nat := lengths + 258

/-- The three trees of eight bits for a literal, by its neighbourhood. -/
def literal (neighbourhood : Nat) : Nat := 1860 + neighbourhood * 768

/-- How many contexts a stream with these properties has. -/
def size (p : Properties) : Nat := literal (2 ^ (p.lc + p.lp))

end Layout

structure Model where
  probs : Array Prob
  deriving Inhabited

namespace Model

def fresh (p : Properties) : Model := ⟨Array.replicate (Layout.size p) Prob.half⟩

@[inline] def prob (m : Model) (context : Nat) : Prob := m.probs.getD context Prob.half

/-- The predictions after a bit was seen in a context. -/
@[inline] def learn (m : Model) (context : Nat) (bit : Bool) : Model :=
  ⟨m.probs.setIfInBounds context ((m.prob context).after bit)⟩

end Model

end Lzma
