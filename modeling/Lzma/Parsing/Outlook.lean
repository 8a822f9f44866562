import Lzma.Parsing.Lazy
import Lzma.Parsing.Optimal

/-!
# From one choice to the next

An `Outlook` is what a chooser remembers: how far it has searched the data, the
symbols that it has planned ahead, and the prices it weighs them by. It proposes
one symbol at a time, and what it proposes depends on no more of the data than
`lookahead` bytes from the symbol's place on.
-/

namespace Lzma

structure Settings where
  props : Properties
  dictSize : Nat
  effort : Effort
  /-- The bits of the longest key. -/
  mask : Nat := effort.keyMask dictSize

/--
How far a choice may look: a plan ends before the horizon, and a match that begins
there is followed to its end.
-/
def lookahead : Nat := Optimal.horizon + 1 + maxLength

/-- A search of the data as far as a symbol at the given position may depend on it. -/
def Settings.search (t : Settings) (data : Array UInt8) (position : Nat) : Search where
  view := .upTo data (position + lookahead)
  effort := t.effort
  window := t.dictSize
  mask := t.mask

/-- What is remembered from one choice to the next. -/
structure Outlook where
  ahead : Ahead := { finder := {} }
  /-- What is left of the last plan. -/
  planned : List Symbol := []
  prices : Prices

namespace Outlook

def start (t : Settings) : Outlook := { prices := .start t.props t.effort.nice }

/-- How far the data has been searched. -/
def searched (o : Outlook) : Nat := o.ahead.finder.position

/-- Proposes the next symbol. The first byte is a literal: there is nothing before it. -/
def propose (o : Outlook) (s : Search) (props : Properties) (model : Model) (recent : Recent)
    (position : Nat) : Symbol × Outlook :=
  let ⟨ahead, planned, prices⟩ := o
  match planned with
  | symbol :: planned => (symbol, ⟨ahead, planned, prices⟩)
  | [] =>
      if position = 0 then
        let (symbol, ahead) := s.take ahead.finder 0 (s.literal 0)
        (symbol, ⟨ahead, [], prices⟩)
      else if s.effort.thorough then
        let prices := if ahead.found.isNone then prices.refresh model else prices
        let (symbols, ahead) := Optimal.choose ⟨s, props, model, prices, position⟩ recent ahead
        (symbols.headD (s.literal position), ⟨ahead, symbols.tail, prices⟩)
      else
        let (symbol, ahead) := Lazy.choose s recent position ahead
        (symbol, ⟨ahead, [], prices⟩)

/-- A symbol is to be written at the given position, and `model` is yet to learn it. -/
def note (o : Outlook) (props : Properties) (model : Model) (position : Nat) (symbol : Symbol) :
    Outlook :=
  let ⟨ahead, planned, prices⟩ := o
  ⟨ahead, planned, prices.used model (lowBits props.pb position) symbol⟩

/-- What was planned did not suit. -/
def discard (o : Outlook) : Outlook :=
  let ⟨ahead, _, prices⟩ := o
  ⟨ahead, [], prices⟩

end Outlook

end Lzma
