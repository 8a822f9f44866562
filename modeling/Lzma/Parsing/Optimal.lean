import Lzma.Parsing.Ahead
import Lzma.Parsing.Standpoint

/-!
# Choosing by price

The thorough way to parse looks for the cheapest way to a place some distance
ahead. The places from the next symbol on are the nodes of a graph whose edges are
symbols, or a few symbols that go well together: a literal and a copy at the
latest distance, or a copy, a literal and a copy at the same distance. Places are
taken up in order, and each of them offers ways to the places behind it.

A plan ends where all ways meet, where a match is good enough to be taken
without weighing it, or at the horizon.
-/

namespace Lzma

/-- The cheapest known way to a place. -/
structure Way where
  price : Nat
  /-- The place that the last part of the way starts from. -/
  origin : Nat := 0
  steps : List Symbol := []
  /-- What is remembered behind the way; settled when its place is taken up. -/
  recent : Recent := {}
  deriving Inhabited

/-- The ways to the places of a plan, by their distance from its start. -/
abbrev Chart := Array Way

namespace Chart

/-- More than any way costs. -/
def unreached : Nat := 1073741824

/-- Adds places up to one. -/
def extend (c : Chart) (target : Nat) : Chart :=
  (target + 1 - c.size).fold (fun _ _ c => c.push { price := unreached }) c

def way (c : Chart) (place : Nat) : Way := c.getD place { price := unreached }

def put (c : Chart) (target price origin : Nat) (steps : List Symbol) : Chart :=
  c.setIfInBounds target { price, origin, steps }

/-- Offers a way to a place; it is taken if it is cheaper than the known one. -/
def offer (c : Chart) (target price origin : Nat) (steps : List Symbol) : Chart :=
  let c := c.extend target
  if price < (c.way target).price then c.put target price origin steps else c

/-- The symbols of the way to a place; each part of it brings one closer to the start. -/
def symbolsTo (c : Chart) : (fuel place : Nat) → List Symbol → List Symbol
  | 0, _, behind => behind
  | fuel + 1, place, behind =>
      if place = 0 then behind
      else
        let way := c.way place
        c.symbolsTo fuel way.origin (way.steps ++ behind)

end Chart

namespace Standpoint

/-- Offers copies at a recent distance, of all lengths from 2 to the given one. -/
def offerAgain (v : Standpoint) (rank : Rank) (length : Nat) (c : Chart) : Chart :=
  if length < 2 then c
  else
    let cost := v.rankCost rank
    (List.range' 2 (length - 1)).foldl
      (fun c n => c.offer (v.offset + n) (cost + v.againPrice n) v.offset [.again n rank]) c

/-- Offers some steps that lead to `w` and a copy at the latest distance behind them. -/
def offerLatest (v w : Standpoint) (steps : List Symbol) (length : Nat) (c : Chart) : Chart :=
  c.offer (w.offset + length) (w.rankCost .latest + w.againPrice length) v.offset
    (steps ++ [.again length .latest])

/--
Offers a copy that is interrupted by a literal and goes on at the same distance, if
it goes on for two bytes or more.
-/
def offerInterrupted (v : Standpoint) (copy : Symbol) (cost distance room : Nat) (c : Chart) :
    Chart :=
  let length := copy.length
  let limit := min room (length + 1 + v.search.effort.nice)
  let resumed :=
    v.search.agreement (v.position - distance) v.position limit (length + 1) - (length + 1)
  if resumed < 2 then c
  else
    let w := v.behind copy cost
    v.offerLatest w.behindLiteral [copy, w.literal] resumed c

/--
Offers copies at new distances, of lengths from `length` on, each at the distance of
the shortest match that allows it. Matches are listed the shortest first, and
`atEnd` is told the price of each of them in full.
-/
def offerMatches (v : Standpoint) (cost : Nat) (atEnd : Match → (cost : Nat) → Chart → Chart) :
    (length : Nat) → List Match → Chart → Chart
  | _, [], c => c
  | length, m :: longer, c =>
      if m.length < length then v.offerMatches cost atEnd length longer c
      else
        let costFor := fun n => cost + v.freshPrice n m.distance
        let c := (List.range' length (m.length + 1 - length)).foldl
          (fun c n => c.offer (v.offset + n) (costFor n) v.offset [.fresh n m.distance]) c
        v.offerMatches cost atEnd (m.length + 1) longer (atEnd m (costFor m.length) c)

/-- Matches cut to a limit, the shortest first. -/
def cut (limit : Nat) (found : List Match) : List Match :=
  found.takeWhile (·.length < limit) ++
    match found.dropWhile (·.length < limit) with
    | [] => []
    | m :: _ => [{ m with length := limit }]

/--
The shortest match that is offered beside copies at the latest distance, which are
listed first. A copy that is no longer than `slight` does not count.
-/
def shortestOffered (slight : Nat) : List Repetition → Nat
  | [] => 2
  | latest :: _ => if latest.length ≤ slight then 2 else latest.length + 1

/-- Offers all that can be reached with one symbol from the start of a plan. -/
def offerFirst (v : Standpoint) (found : List Match) (repetitions : List Repetition) : Chart :=
  let c : Chart := #[{ price := 0, recent := v.recent }]
  let c := c.offer 1 (v.costOf v.literal.bits) 0 [v.literal]
  let c := if v.byte = v.expected then c.offer 1 (v.costOf Symbol.single.bits) 0 [.single] else c
  let c := repetitions.foldl (fun c again => v.offerAgain again.rank again.length c) c
  v.offerMatches (v.costOf [true, false]) (fun _ _ c => c) (shortestOffered 2 repetitions)
    found.reverse c

/-- Offers ways by one symbol of one byte; tells whether the literal was taken. -/
def offerByte (v : Standpoint) (c : Chart) : Chart × Bool :=
  let target := v.offset + 1
  let known := c.way target
  let literal := v.costOf v.literal.bits
  let taken := literal < known.price
  let c := c.offer target literal v.offset [v.literal]
  let repeated := match known.steps.getLast? with
    | some (.again _ .latest) => !taken
    | _ => false
  if v.byte = v.expected && !repeated then
    let single := v.costOf Symbol.single.bits
    if single ≤ (c.way target).price then (c.put target single v.offset [.single], taken)
    else (c, taken)
  else (c, taken)

/-- Offers ways by two symbols and more. `room` is how far they may lead. -/
def offerCopies (v : Standpoint) (found : List Match) (room : Nat) (literalTaken : Bool)
    (c : Chart) : Chart :=
  let limit := min room v.search.effort.nice
  let c :=
    if !literalTaken && v.byte != v.expected then
      let limit := min room (v.search.effort.nice + 1)
      let length :=
        v.search.agreement (v.position - v.recent.latest) v.position limit 1 - 1
      if 2 ≤ length then v.offerLatest v.behindLiteral [v.literal] length c else c
    else c
  let repetitions := v.search.repetitions v.recent v.position limit
  let c := repetitions.foldl (fun c again =>
    if again.length < 2 then c
    else
      let c := v.offerAgain again.rank again.length c
      let cost := v.rankCost again.rank + v.againPrice again.length
      v.offerInterrupted (.again again.length again.rank) cost
        (v.recent.distance again.rank) room c) c
  v.offerMatches (v.costOf [true, false])
    (fun m cost c => v.offerInterrupted (.fresh m.length m.distance) cost m.distance room c)
    (shortestOffered 1 repetitions) (cut limit found.reverse) c

end Standpoint

namespace Optimal

/-- A plan looks less than this far ahead. -/
def horizon : Nat := 4096

/-- Takes up a place: offers all ways that go on from there, at most `room` bytes far. -/
def takeUp (t : Terms) (place : Nat) (found : List Match) (room : Nat) (c : Chart) : Chart :=
  let way := c.way place
  let recent := way.steps.foldl Recent.after (c.way way.origin).recent
  let c := c.setIfInBounds place { way with recent }
  let v : Standpoint := ⟨t, recent, place, way.price⟩
  let (c, taken) := v.offerByte c
  if room < 2 then c else v.offerCopies found room taken c

/--
Takes up places, `left` of them before the horizon is reached. The matches of the
place where it stops are kept if they have been looked for.
-/
def explore (t : Terms) : (left place : Nat) → Finder → Chart → List Symbol × Ahead
  | 0, place, finder, c => (c.symbolsTo place place [], { finder })
  | left + 1, place, finder, c =>
      if place + 1 < c.size then
        let (found, finder) := finder.next t.search
        if t.search.effort.nice ≤ (longest found).length then
          (c.symbolsTo place place [], { finder, found := some found })
        else
          let room := min (t.search.remaining (t.start + place)) (left + 1)
          let c := takeUp t place found room c
          explore t left (place + 1) finder c
      else (c.symbolsTo place place [], { finder })

def choose (t : Terms) (r : Recent) (a : Ahead) : List Symbol × Ahead :=
  let s := t.search
  let v : Standpoint := ⟨t, r, 0, 0⟩
  let nice := s.effort.nice
  let (found, finder) := a.look s
  let alone := fun symbol =>
    let (symbol, a) := s.take finder 1 symbol
    ([symbol], a)
  let main := longest found
  let limit := min (s.remaining v.position) maxLength
  if limit < 2 then alone v.literal
  else
    let repetitions := s.repetitions r v.position limit
    let again := longestRepetition repetitions
    if nice ≤ again.length then alone again.symbol
    else if nice ≤ main.length then alone main.symbol
    else if main.length < 2 ∧ again.length < 2 ∧ v.byte ≠ v.expected then alone v.literal
    else explore t (horizon - 2) 1 finder (v.offerFirst found repetitions)

end Optimal

end Lzma
