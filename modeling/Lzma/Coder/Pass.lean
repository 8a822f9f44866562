/-!
# Coders

A coder turns one stream of bytes into another, piece by piece. One `Pass` of it
is offered some input and some room, uses a part of each and tells how it
stands. The class holds coders to what they were offered.
-/

namespace Lzma

/-- What a coder is asked for. -/
inductive Call where
  /-- Take some input; there may be more of it later. -/
  | feed (input : List UInt8)
  /-- Give out what is left; there is no more input. -/
  | finish

def Call.input : Call → List UInt8
  | .feed input => input
  | .finish => []

/-- How a pass of a coder ended. -/
inductive Outcome where
  | running
  | ended
  | corrupt
  deriving DecidableEq, Repr

/-- A pass of a coder: what it took, what it gave, and the coder after it. -/
structure Pass (κ : Type) where
  coder : κ
  used : Nat
  output : List UInt8
  outcome : Outcome

/-- A coder takes no more input than there is, and gives no more output than there is room for. -/
class Coder (κ : Type) where
  pass : (call : Call) → (room : Nat) → κ → Pass κ
  used_pass_le (call : Call) (room : Nat) (k : κ) : (pass call room k).used ≤ call.input.length
  length_pass_le (call : Call) (room : Nat) (k : κ) : (pass call room k).output.length ≤ room

end Lzma
