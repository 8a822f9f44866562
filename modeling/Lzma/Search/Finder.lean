import Std.Data.HashMap
import Lzma.Search.Keys

/-!
# Finding matches

A finder moves through the data and remembers the places it has passed by their
keys. Of each short key it knows the latest place; the places of one long key are
linked, in one of two ways.

* In a chain every place links to the one before it. Following the links tries
  the nearest places first.
* In a tree the places are ordered by the bytes that follow them, and a later
  place is never below an earlier one. A new place becomes the root: the walk
  down to where its bytes belong splits the tree into what comes before and what
  comes after it, and passes the best matches on its way.

A place is recorded as its position plus 1, so that 0 stands for none.
-/

namespace Lzma

/-- The places that a search has passed. -/
structure Finder where
  position : Nat := 0
  /-- The latest place of each key of two bytes. -/
  pairs : Array Nat := Array.replicate 1024 0
  /-- The latest place of each key of three bytes. -/
  triples : Array Nat := Array.replicate 65536 0
  /-- The latest place of each long key. -/
  wholes : Std.HashMap Nat Nat := {}
  /-- One link for each place of a chain, two for each place of a tree. -/
  links : Array Nat := #[]

namespace Search

/-- Whether a recorded place can be reached from a position. -/
def reaches (s : Search) (place position : Nat) : Bool :=
  place != 0 && position + 1 - place ≤ s.window

/-- The matches with the latest places of the short keys, the longest first. -/
def shortMatches (s : Search) (position limit pair triple : Nat) : List Match :=
  let usable := fun place =>
    s.reaches place position && s.byte (place - 1) == s.byte position
  let match? := fun (place length : Nat) =>
    if usable place then [Match.mk length (position + 1 - place)] else []
  let found :=
    (if pair = triple then [] else match? triple 3) ++ match? pair 2
  match found with
  | [] => []
  | m :: shorter =>
      ⟨s.agreement (position - m.distance) position limit m.length, m.distance⟩ :: shorter

/--
Follows a chain from a place on, at most `depth` steps far, and adds the matches
that are longer than `best`.
-/
def followChain (s : Search) (links : Array Nat) (position limit : Nat) :
    (depth place best : Nat) → List Match → List Match
  | 0, _, _, found => found
  | depth + 1, place, best, found =>
      if s.reaches place position then
        let early := place - 1
        let next := links.getD early 0
        if s.byte (early + best) = s.byte (position + best) ∧ s.byte early = s.byte position then
          let length := s.agreement early position limit 1
          if best < length then
            let found := ⟨length, position - early⟩ :: found
            if length = limit then found
            else s.followChain links position limit depth next length found
          else s.followChain links position limit depth next best found
        else s.followChain links position limit depth next best found
      else found

/-- Where a tree is being split: what is left of it goes to two open links. -/
structure Split where
  links : Array Nat
  /-- The link that takes what comes before the new place. -/
  before : Nat
  /-- The link that takes what comes after the new place. -/
  after : Nat
  /-- The agreement with the last place that went to `before`. -/
  agreedBefore : Nat := 0
  /-- The agreement with the last place that went to `after`. -/
  agreedAfter : Nat := 0

/-- Closes the open links with what belongs there. -/
def Split.close (t : Split) (before after : Nat) : Array Nat :=
  (t.links.setIfInBounds t.before before).setIfInBounds t.after after

/--
Splits a tree at a position, at most `depth` places deep; what lies deeper is
dropped. Adds the matches that are longer than `best`.
-/
def splitTree (s : Search) (position limit : Nat) :
    (depth place best : Nat) → Split → List Match → List Match × Array Nat
  | 0, _, _, t, found => (found, t.close 0 0)
  | depth + 1, place, best, t, found =>
      if s.reaches place position then
        let early := place - 1
        let length := s.agreement early position limit (min t.agreedBefore t.agreedAfter)
        let found := if best < length then ⟨length, position - early⟩ :: found else found
        if length = limit then
          let before := t.links.getD (2 * early) 0
          let after := t.links.getD (2 * early + 1) 0
          (found, t.close before after)
        else if s.byte (early + length) < s.byte (position + length) then
          let next := t.links.getD (2 * early + 1) 0
          let ⟨links, before, after, _, agreedAfter⟩ := t
          s.splitTree position limit depth next (max best length)
            ⟨links.setIfInBounds before place, 2 * early + 1, after, length, agreedAfter⟩ found
        else
          let next := t.links.getD (2 * early) 0
          let ⟨links, before, after, agreedBefore, _⟩ := t
          s.splitTree position limit depth next (max best length)
            ⟨links.setIfInBounds after place, before, 2 * early, agreedBefore, length⟩ found
      else (found, t.close 0 0)

end Search

namespace Finder

/--
Passes the place at the finder's position. The matches are those found on the
way, the longest first; where `look` is false they may be missing.
-/
def pass (s : Search) (look : Bool) (f : Finder) : List Match × Finder :=
  let ⟨position, pairs, triples, wholes, links⟩ := f
  let remaining := s.remaining position
  if remaining < s.effort.width then ([], ⟨position + 1, pairs, triples, wholes, links⟩)
  else
    let limit := min s.effort.nice remaining
    let keys := s.keys position
    let place := wholes.getD keys.whole 0
    let triple := if s.effort.width = 3 then 0 else triples.getD keys.triple 0
    let short := s.shortMatches position limit (pairs.getD keys.pair 0) triple
    let best := match short with
      | [] => 0
      | m :: _ => m.length
    let search := look && best < limit
    let best := max best (s.effort.width - 1)
    let (found, links) :=
      if s.effort.thorough then
        let links := (links.push 0).push 0
        let t := { links, before := 2 * position, after := 2 * position + 1 }
        let (found, links) := s.splitTree position limit s.effort.depth place best t short
        (if search then found else short, links)
      else
        let found :=
          if search then s.followChain links position limit s.effort.depth place best short
          else short
        (found, links.push place)
    (found, {
      position := position + 1
      pairs := pairs.setIfInBounds keys.pair (position + 1)
      triples := triples.setIfInBounds keys.triple (position + 1)
      wholes := wholes.insert keys.whole (position + 1)
      links })

def skip (s : Search) : (count : Nat) → Finder → Finder
  | 0, f => f
  | count + 1, f => skip s count (f.pass s false).2

/--
The matches of the place at the finder's position, the longest first. The longest
match is followed to its end where it is nice; the others end at what was tried.
-/
def next (s : Search) (f : Finder) : List Match × Finder :=
  let position := f.position
  let (found, f) := f.pass s true
  match found with
  | [] => ([], f)
  | m :: shorter =>
      if m.length = s.effort.nice then
        let limit := min (s.remaining position) maxLength
        let length := s.agreement (position - m.distance) position limit m.length
        (⟨length, m.distance⟩ :: shorter, f)
      else (found, f)

end Finder

end Lzma
