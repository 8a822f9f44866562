import Lzma.Search.Finder
import Lzma.Symbol.Basic

/-!
# What a choice is made from

The next symbol is chosen among a literal, the matches of the place, and copies
at the recent distances. The finder is at the place of the next symbol, or one
place further if its matches have been looked for already.
-/

namespace Lzma

/-- A finder, and the matches of the next symbol's place if the finder has passed it. -/
structure Ahead where
  finder : Finder
  found : Option (List Match) := none

/-- The matches of the next symbol's place, and a finder that has passed it. -/
def Ahead.look (s : Search) (a : Ahead) : List Match × Finder :=
  match a.found with
  | some found => (found, a.finder)
  | none => a.finder.next s

/-- A chosen symbol, and a finder behind it that had passed some of its places already. -/
def Search.take (s : Search) (finder : Finder) (passed : Nat) (symbol : Symbol) :
    Symbol × Ahead :=
  (symbol, { finder := finder.skip s (symbol.length - passed) })

def Match.symbol (m : Match) : Symbol := .fresh m.length m.distance

/-- The longest of some matches that are listed the longest first. -/
def longest : List Match → Match
  | [] => ⟨0, 1⟩
  | m :: _ => m

/-- A copy at a recent distance; one of less than two bytes counts as none. -/
structure Repetition where
  rank : Rank
  length : Nat

def Repetition.symbol (r : Repetition) : Symbol := .again r.length r.rank

namespace Search

def literal (s : Search) (position : Nat) : Symbol := .literal (s.byte position)

/-- The copies that can be made at the recent distances. -/
def repetitions (s : Search) (r : Recent) (position limit : Nat) : List Repetition :=
  [Rank.latest, .second, .third, .fourth].map fun rank =>
    let length := s.agreement (position - r.distance rank) position limit 0
    ⟨rank, if length < 2 then 0 else length⟩

end Search

/-- The first of the longest copies. -/
def longestRepetition (rs : List Repetition) : Repetition :=
  rs.foldl (fun best r => if best.length < r.length then r else best) ⟨.latest, 0⟩

end Lzma
