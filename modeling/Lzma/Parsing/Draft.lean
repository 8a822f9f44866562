import Lzma.Parsing.Outlook
import Lzma.Parsing.Vet
import Lzma.Payload.Transcript

/-!
# Drafting a payload

A `Draft` is a payload in the middle of being written together with the outlook on
the data ahead of it. `Draft.step` chooses the next symbol and writes it. A step
depends on the data only as far as its view reaches (`step_append`), so it can be
taken as soon as that much of the data is known.
-/

namespace Lzma

/-- A payload in the middle of being written, and the outlook on what comes next. -/
structure Draft where
  transcript : Transcript
  outlook : Outlook

namespace Draft

def start (t : Settings) : Draft := { transcript := .start t.props, outlook := .start t }

def position (d : Draft) : Nat := d.transcript.position

/-- How much of the data has been written or at least been searched. -/
def reached (d : Draft) : Nat := max d.position d.outlook.searched

/-- Whether there is too little data for a step that must not depend on what is still to come. -/
def hungry (d : Draft) (size : Nat) : Bool := size ≤ d.reached + lookahead

/--
Chooses the next symbol. The LZMA encoders in use write down what they propose, and check
nothing. Here a proposal is vetted, and one that did not suit would be replaced by a literal:
so what is written spells the data, whatever is proposed.
-/
def choose (t : Settings) (s : Search) (past : Past) (model : Model) (o : Outlook) :
    Symbol × Outlook :=
  let position := past.produced.size
  let (symbol, o) := o.propose s t.props model past.recent position
  if s.vets past symbol then (symbol, o) else (s.literal position, o.discard)

def step (t : Settings) (data : Array UInt8) (d : Draft) : Symbol × Draft :=
  let ⟨⟨⟨writer, model⟩, past⟩, outlook⟩ := d
  let position := past.produced.size
  let (symbol, outlook) := choose t (t.search data position) past model outlook
  let outlook := outlook.note t.props model position symbol
  (symbol, ⟨Transcript.add t.props t.dictSize ⟨⟨writer, model⟩, past⟩ symbol, outlook⟩)

theorem step_fst (t : Settings) (data : Array UInt8) (d : Draft) :
    (d.step t data).1 = (choose t (t.search data d.position) d.transcript.past
      d.transcript.code.model d.outlook).1 := rfl

theorem transcript_step (t : Settings) (data : Array UInt8) (d : Draft) :
    (d.step t data).2.transcript =
      d.transcript.add t.props t.dictSize (d.step t data).1 := rfl

/-- A step does not depend on data that is out of its view. -/
theorem step_append (t : Settings) {data : Array UInt8} (more : Array UInt8) {d : Draft}
    (h : d.hungry data.size = false) : d.step t (data ++ more) = d.step t data := by
  have hview : View.upTo (data ++ more) (d.position + lookahead) =
      .upTo data (d.position + lookahead) := by
    refine View.upTo_append ?_
    have hlt := of_decide_eq_false h
    have hle : d.position ≤ d.reached := Nat.le_max_left _ _
    omega
  rw [position, Transcript.position] at hview
  simp only [step, Settings.search]
  rw [hview]

/-- What a step chooses fits, and what it stands for follows. -/
theorem follows_step {t : Settings} {data : Array UInt8} {d : Draft}
    (h : d.transcript.past.Follows data) (hlt : d.position < data.size) :
    (d.step t data).1.Fits d.transcript.past t.dictSize ∧
      (d.step t data).2.transcript.past.Follows data := by
  rw [transcript_step, step_fst]
  show _ ∧ (d.transcript.past.append _).Follows data
  simp only [choose]
  split
  · next hvets => exact h.append rfl hvets
  · exact ⟨trivial, (h.note _).push hlt
      (View.byte_upTo (Nat.lt_add_of_pos_right (by decide)))⟩

theorem length_step_pos (t : Settings) (data : Array UInt8) (d : Draft) :
    0 < (d.step t data).1.length := by
  rw [step_fst]
  simp only [choose]
  split
  · next hvets =>
      simp only [Search.vets, Bool.and_eq_true, decide_eq_true_eq] at hvets
      exact hvets.1.1.length_pos
  · exact Nat.one_pos

theorem position_step (t : Settings) (data : Array UInt8) (d : Draft) :
    (d.step t data).2.position = d.position + (d.step t data).1.length := by
  rw [position, position, transcript_step, Transcript.position_add]

def take (d : Draft) : List UInt8 × Draft :=
  let ⟨transcript, outlook⟩ := d
  let (bytes, transcript) := transcript.take
  (bytes, ⟨transcript, outlook⟩)

@[simp] theorem position_take (d : Draft) : d.take.2.position = d.position := rfl

def finish (t : Settings) (d : Draft) : Draft :=
  let ⟨transcript, outlook⟩ := d
  ⟨transcript.finish t.props t.dictSize, outlook⟩

end Draft

end Lzma
