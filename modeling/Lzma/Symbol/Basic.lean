/-!
# Symbols

The payload is a sequence of symbols. A symbol is a byte, or a copy of bytes
that came before: at a distance of its own, at one of the four distances used
last, or of the single byte at the latest one. A distance counts back from the
next byte, so the previous byte is at distance 1.

Which of the kinds came last decides how the next symbol is predicted. That
part, twelve states, and the four recent distances make up `Recent`.
-/

namespace Lzma

/-- One of the four distances used last, the latest first. -/
inductive Rank where
  | latest
  | second
  | third
  | fourth
  deriving DecidableEq, Repr

/-- A step of the payload. -/
inductive Symbol where
  | literal (byte : UInt8)
  /-- Copy `length` bytes from `distance` back. -/
  | fresh (length distance : Nat)
  /-- Copy `length` bytes from a recent distance back. -/
  | again (length : Nat) (rank : Rank)
  /-- Copy one byte from the latest distance back. -/
  | single
  deriving DecidableEq, Repr

structure Recent where
  state : Nat := 0
  latest : Nat := 1
  second : Nat := 1
  third : Nat := 1
  fourth : Nat := 1
  deriving DecidableEq, Repr, Inhabited

namespace Recent

def distance (r : Recent) : Rank → Nat
  | .latest => r.latest
  | .second => r.second
  | .third => r.third
  | .fourth => r.fourth

/-- The recent distances after one of them was used. -/
def promote (r : Recent) : Rank → Recent
  | .latest => r
  | .second => { r with latest := r.second, second := r.latest }
  | .third => { r with latest := r.third, second := r.latest, third := r.second }
  | .fourth =>
      { r with latest := r.fourth, second := r.latest, third := r.second, fourth := r.third }

/-- Whether the last symbol was a literal. -/
def afterLiteral (r : Recent) : Bool := r.state < 7

/-- What is remembered after one more symbol. -/
def after (r : Recent) : Symbol → Recent
  | .literal _ =>
      { r with state := if r.state < 4 then 0 else if r.state < 10 then r.state - 3
                        else r.state - 6 }
  | .fresh _ distance =>
      { state := if r.afterLiteral then 7 else 10
        latest := distance, second := r.latest, third := r.second, fourth := r.third }
  | .again _ rank => { r.promote rank with state := if r.afterLiteral then 8 else 11 }
  | .single => { r with state := if r.afterLiteral then 9 else 11 }

end Recent

def Symbol.length : Symbol → Nat
  | .literal _ | .single => 1
  | .fresh length _ | .again length _ => length

end Lzma
