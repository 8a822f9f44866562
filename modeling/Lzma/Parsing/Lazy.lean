import Lzma.Parsing.Ahead

/-!
# Choosing with a look at the next byte

The quick way to parse takes the longest match, with some preferences: for
a recent distance, for a much nearer match that is a byte shorter, and for
a literal where the place behind it has a better match.
-/

namespace Lzma

namespace Lazy

/-- A distance is so much larger than another one that it costs about a byte more. -/
def muchFarther (far near : Nat) : Bool := near - 1 < (far - 1) / 128

/-- Gives up a byte of length for a much nearer match. -/
def preferNear : List Match → List Match
  | m :: n :: shorter =>
      if m.length = n.length + 1 ∧ muchFarther m.distance n.distance then preferNear (n :: shorter)
      else m :: n :: shorter
  | found => found

/-- A copy at a recent distance is better than a match. -/
def betterRepeated (length : Nat) (m : Match) : Bool :=
  2 ≤ length &&
    (m.length ≤ length + 1 || m.length ≤ length + 2 && 512 < m.distance - 1 ||
      m.length ≤ length + 3 && 32768 < m.distance - 1)

/-- A match at the next place is better than a match here. -/
def betterNext (next m : Match) : Bool :=
  2 ≤ next.length &&
    (m.length ≤ next.length && next.distance < m.distance ||
      next.length == m.length + 1 && !muchFarther next.distance m.distance ||
      m.length + 1 < next.length ||
      m.length ≤ next.length + 1 && 3 ≤ m.length && muchFarther m.distance next.distance)

/-- A match of two bytes is worth no more than a literal if it is far. -/
def discount (m : Match) : Match :=
  if m.length = 2 ∧ 128 < m.distance then { m with length := 1 } else m

def choose (s : Search) (r : Recent) (position : Nat) (a : Ahead) : Symbol × Ahead :=
  let nice := s.effort.nice
  let (found, finder) := a.look s
  let limit := min (s.remaining position) maxLength
  if limit < 2 then s.take finder 1 (s.literal position)
  else
    let repetitions := s.repetitions r position limit
    match repetitions.find? (nice ≤ ·.length) with
    | some again => s.take finder 1 again.symbol
    | none =>
        if nice ≤ (longest found).length then s.take finder 1 (longest found).symbol
        else
          let main := discount (longest (preferNear found))
          let again := longestRepetition repetitions
          if betterRepeated again.length main then s.take finder 1 again.symbol
          else if main.length < 2 ∨ limit ≤ 2 then s.take finder 1 (s.literal position)
          else
            let (next, finder) := finder.next s
            let wanted := max 2 (main.length - 1)
            let repeats := (s.repetitions r (position + 1) wanted).any (wanted ≤ ·.length)
            if betterNext (longest next) main || repeats then
              (s.literal position, { finder, found := some next })
            else s.take finder 2 main.symbol

end Lazy

end Lzma
