import Lzma.Coder.Pass
import Lzma.Parsing.Choice

/-!
# Encoding a payload

An `Encoder` drafts a payload while its data is still coming in. It goes on as
long as it can see far enough ahead and is hungry otherwise. So none of its
choices depends on how the data was cut into pieces, and what it gives out in the
end is the payload of the symbols that are chosen with all of the data in view
(`payload`, `symbolsFor`).

Data is taken into a window that slides over it. Only a hungry encoder takes any,
as much as there is space for, and before it takes more it gives out all that is
settled. The window has space for half a megabyte more than the dictionary needs.
So an encoder that is fed small pieces gives nothing until it has seen a few
thousand bytes, and one that is fed a large piece takes it in several parts.
-/

namespace Lzma

/-- How much of the data a window keeps behind the place that was reached. -/
def windowBehind (dictSize : Nat) : Nat := dictSize + Optimal.horizon

def windowSize (dictSize : Nat) : Nat :=
  windowBehind dictSize + dictSize / 2 + (Optimal.horizon + lookahead) / 2 + 524288 + lookahead

structure Encoder where
  settings : Settings
  data : Array UInt8 := #[]
  /-- Where the window begins in the data. -/
  base : Nat := 0
  draft : Draft
  /-- The part of the payload that is settled and has not been given out. -/
  queue : List UInt8 := []
  /-- The payload is written to its end. -/
  closed : Bool := false

namespace Encoder

def start (t : Settings) : Encoder := { settings := t, draft := .start t }

def hungry (e : Encoder) : Bool := e.draft.hungry e.data.size

/-- Where the window begins after it has made space; it moves by multiples of 16. -/
def slid (e : Encoder) : Nat :=
  let dictSize := e.settings.dictSize
  let reached := e.draft.reached - e.base
  if reached < windowSize dictSize - lookahead then e.base
  else e.base + (reached - windowBehind dictSize) / 16 * 16

/-- How much data there is space for in a window that has slid. -/
def space (e : Encoder) : Nat := e.slid + windowSize e.settings.dictSize - e.data.size

/-- A hungry encoder has space for more. -/
theorem space_pos {e : Encoder} (h : e.hungry = true) : 0 < e.space := by
  have hle : e.data.size ≤ e.draft.reached + lookahead := of_decide_eq_true h
  unfold space slid windowSize
  dsimp only
  split <;> omega

def take (e : Encoder) (input : List UInt8) : Encoder :=
  let base := e.slid
  let ⟨settings, data, _, draft, queue, closed⟩ := e
  ⟨settings, data ++ input, base, draft, queue, closed⟩

/-- Writes the next symbol, or closes the payload if all of the data is written. -/
def advance (e : Encoder) : Encoder :=
  let ⟨settings, data, base, draft, queue, _⟩ := e
  if draft.position < data.size then
    let (_, draft) := draft.step settings data
    let (bytes, draft) := draft.take
    ⟨settings, data, base, draft, queue ++ bytes, false⟩
  else
    let (bytes, draft) := (draft.finish settings).take
    ⟨settings, data, base, draft, queue ++ bytes, true⟩

/-- A bound on how often the encoder can advance. -/
def backlog (e : Encoder) : Nat := if e.closed then 0 else e.data.size - e.draft.position + 1

theorem backlog_advance_lt {e : Encoder} (h : e.closed = false) :
    e.advance.backlog < e.backlog := by
  obtain ⟨settings, data, base, draft, queue, closed⟩ := e
  obtain rfl : closed = false := h
  simp only [advance]
  split
  · next hlt =>
      have hpos := draft.length_step_pos settings data
      have hstep := draft.position_step settings data
      simp only [backlog, Draft.position_take, Bool.false_eq_true, if_false]
      omega
  · exact Nat.succ_pos _

/-- Whether there is nothing to do, where `last` tells that there will be no more data. -/
def waits (e : Encoder) (last : Bool) : Bool := e.closed || !last && e.hungry

/-- `emit`, behind the given output, latest first. -/
def emitFrom (e : Encoder) (last : Bool) (room : Nat) (output : List UInt8) :
    Encoder × List UInt8 :=
  match _ : e.queue with
  | byte :: queue =>
      match room with
      | 0 => (e, output.reverse)
      | room + 1 => emitFrom { e with queue } last room (byte :: output)
  | [] =>
      if _ : e.waits last = true then (e, output.reverse)
      else emitFrom e.advance last room output
termination_by (e.backlog, e.queue.length)
decreasing_by
  · rename_i hqueue
    rw [hqueue]
    exact Prod.Lex.right _ (Nat.lt_succ_self _)
  · rename_i hwaits
    exact Prod.Lex.left _ _ (backlog_advance_lt (by
      cases hclosed : e.closed <;> simp [waits, hclosed] at hwaits ⊢))

/--
Gives out what is settled, and goes on until there is nothing to do or a byte that
there is no room for.
-/
def emit (e : Encoder) (last : Bool) (room : Nat) : Encoder × List UInt8 := e.emitFrom last room []

/-- `feed`, behind `used` bytes of input and the given output. Takes data before it emits. -/
def feedFrom (e : Encoder) (input : List UInt8) (room used : Nat) (output : List UInt8) :
    Pass Encoder :=
  let count := min input.length e.space
  if room = 0 ∨ count = 0 then ⟨e, used, output, .running⟩
  else
    let (e, bytes) := (e.take (input.take count)).emit false room
    feedFrom e (input.drop count) (room - bytes.length) (used + count) (output ++ bytes)
termination_by input.length
decreasing_by
  rename_i h
  rw [List.length_drop]
  omega

/-- Takes data and gives out what it settles. Without input or room nothing happens. -/
def feed (e : Encoder) (input : List UInt8) (room : Nat) : Pass Encoder :=
  if input = [] ∨ room = 0 then ⟨e, 0, [], .running⟩
  else if e.hungry then e.feedFrom input room 0 []
  else
    let (e, bytes) := e.emit false room
    e.feedFrom input (room - bytes.length) 0 bytes

/-- Gives out the rest of the payload; its last byte ends the stream. -/
def finish (e : Encoder) (room : Nat) : Pass Encoder :=
  if room = 0 then ⟨e, 0, [], .running⟩
  else
    let (e, bytes) := e.emit true room
    ⟨e, 0, bytes, if e.closed && e.queue.isEmpty then .ended else .running⟩

theorem length_emitFrom_le (e : Encoder) (last : Bool) (room : Nat) (output : List UInt8) :
    (e.emitFrom last room output).2.length ≤ output.length + room := by
  fun_induction emitFrom e last room output with
  | case1 | case3 => simp
  | case2 e output byte queue _ room ih =>
      simp only [List.length_cons] at ih
      omega
  | case4 e room output _ _ ih => exact ih

theorem length_emit_le (e : Encoder) (last : Bool) (room : Nat) :
    (e.emit last room).2.length ≤ room := by
  simpa [emit] using e.length_emitFrom_le last room []

theorem feedFrom_bounds (e : Encoder) (input : List UInt8) (room used : Nat)
    (output : List UInt8) :
    (e.feedFrom input room used output).used ≤ used + input.length ∧
      (e.feedFrom input room used output).output.length ≤ output.length + room := by
  fun_induction feedFrom e input room used output with
  | case1 => simp
  | case2 e input room used output count hmoves e' bytes hemit ih =>
      have hle := (e.take (input.take count)).length_emit_le false room
      rw [hemit] at hle
      dsimp only at hle
      simp only [List.length_drop, List.length_append] at ih
      omega

theorem used_feed_le (e : Encoder) (input : List UInt8) (room : Nat) :
    (e.feed input room).used ≤ input.length := by
  dsimp only [feed]
  split
  · exact Nat.zero_le _
  · split
    · simpa using (e.feedFrom_bounds input room 0 []).1
    · simpa using ((e.emit false room).1.feedFrom_bounds input _ 0 _).1

theorem length_feed_le (e : Encoder) (input : List UInt8) (room : Nat) :
    (e.feed input room).output.length ≤ room := by
  dsimp only [feed]
  split
  · exact Nat.zero_le _
  · split
    · simpa using (e.feedFrom_bounds input room 0 []).2
    · have hle := e.length_emit_le false room
      have hfeed := ((e.emit false room).1.feedFrom_bounds input
        (room - (e.emit false room).2.length) 0 (e.emit false room).2).2
      omega

theorem used_finish (e : Encoder) (room : Nat) : (e.finish room).used = 0 := by
  rw [finish]
  split <;> rfl

theorem length_finish_le (e : Encoder) (room : Nat) : (e.finish room).output.length ≤ room := by
  rw [finish]
  split
  · exact Nat.zero_le _
  · exact e.length_emit_le true room

/-- An encoder learns from its caller where the data ends. -/
instance : Coder Encoder where
  pass call room e := match call with
    | .feed input => e.feed input room
    | .finish => e.finish room
  used_pass_le call room e := by
    cases call with
    | feed input => exact e.used_feed_le input room
    | finish => exact Nat.le_of_eq (e.used_finish room)
  length_pass_le call room e := by
    cases call with
    | feed input => exact e.length_feed_le input room
    | finish => exact e.length_finish_le room

end Encoder

end Lzma
