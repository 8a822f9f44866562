import Lzma.Parsing.Choice

/-!
# What a draft comes to

Settled bytes may be taken from a draft at any time. They are never looked at
again: to have more of them in front changes nothing that is written later
(`Draft.behind`). So a draft from which bytes were taken comes to the rest of what
it would have come to (`completed_take`), and a step changes nothing about where a
draft is going (`completed_step`).
-/

namespace Lzma

/-! ## More settled bytes in front -/

/-- The writer with some bytes settled before its own. -/
def RangeWriter.behind (w : RangeWriter) (bytes : List UInt8) : RangeWriter :=
  { w with settled := w.settled ++ bytes.reverse }

namespace RangeWriter

variable (w : RangeWriter) (bytes : List UInt8)

@[simp] theorem output_behind : (w.behind bytes).output = bytes ++ w.output := by
  simp [output, behind]

@[simp] theorem behind_drained : w.drained.behind w.output = w := by
  simp [output, drained, behind]

@[simp] theorem shift_behind : (w.behind bytes).shift = w.shift.behind bytes := by
  obtain ⟨settled, held, ones, low, range⟩ := w
  unfold shift behind
  dsimp only
  split
  · rfl
  · rw [List.append_assoc]
    rfl

@[simp] theorem normalize_behind : (w.behind bytes).normalize = w.normalize.behind bytes := by
  show (if w.range < minRange then (w.behind bytes).shift else w.behind bytes) = _
  rw [shift_behind, normalize]
  split <;> rfl

@[simp] theorem bit_behind (p : Prob) (b : Bool) :
    (w.behind bytes).bit p b = (w.bit p b).behind bytes := by
  rw [bit, normalize_behind]
  cases b <;> rfl

@[simp] theorem even_behind (b : Bool) : (w.behind bytes).even b = (w.even b).behind bytes := by
  rw [even, normalize_behind]
  cases b <;> rfl

@[simp] theorem close_behind : (w.behind bytes).close = w.close.behind bytes := by
  simp [close]

end RangeWriter

/-- The same of a writer and its predictions. -/
def CodeWriter.behind (c : CodeWriter) (bytes : List UInt8) : CodeWriter :=
  { c with writer := c.writer.behind bytes }

@[simp] theorem Coding.write_behind {α : Type} (t : Coding α) (bits : List Bool) (c : CodeWriter)
    (bytes : List UInt8) : t.write bits (c.behind bytes) = (t.write bits c).behind bytes := by
  induction t generalizing bits c with
  | done a => cases bits <;> rfl
  | bit context next ih =>
      cases bits with
      | nil => rfl
      | cons b bits =>
          show (next b).write bits ⟨(c.writer.behind bytes).bit (c.model.prob context) b, _⟩ = _
          rw [RangeWriter.bit_behind]
          exact ih b bits ⟨c.writer.bit (c.model.prob context) b, c.model.learn context b⟩
  | even next ih =>
      cases bits with
      | nil => rfl
      | cons b bits =>
          show (next b).write bits ⟨(c.writer.behind bytes).even b, c.model⟩ = _
          rw [RangeWriter.even_behind]
          exact ih b bits ⟨c.writer.even b, c.model⟩

namespace Transcript

/-- The same of a transcript. -/
def behind (t : Transcript) (bytes : List UInt8) : Transcript :=
  { t with code := t.code.behind bytes }

variable (t : Transcript) (bytes : List UInt8) (props : Properties) (dictSize : Nat)

@[simp] theorem output_behind : (t.behind bytes).output = bytes ++ t.output :=
  t.code.writer.output_behind bytes

@[simp] theorem write_behind (bits : List Bool) :
    (t.behind bytes).write props dictSize bits =
      (t.write props dictSize bits).behind bytes := by
  simp [write, behind]

@[simp] theorem add_behind (s : Symbol) :
    (t.behind bytes).add props dictSize s = (t.add props dictSize s).behind bytes := by
  rw [add, write_behind]
  rfl

@[simp] theorem finish_behind :
    (t.behind bytes).finish props dictSize = (t.finish props dictSize).behind bytes := by
  rw [finish, finish, write_behind]
  obtain ⟨⟨writer, model⟩, past⟩ := t.write props dictSize endMarkerBits
  show (⟨⟨(writer.behind bytes).close, model⟩, past⟩ : Transcript) = _
  rw [RangeWriter.close_behind]
  rfl

theorem foldl_behind (symbols : List Symbol) :
    symbols.foldl (add props dictSize) (t.behind bytes) =
      (symbols.foldl (add props dictSize) t).behind bytes := by
  induction symbols generalizing t with
  | nil => rfl
  | cons s symbols ih =>
      rw [List.foldl_cons, add_behind, ih]
      rfl

end Transcript

namespace Draft

/-- The same of a draft. -/
def behind (d : Draft) (bytes : List UInt8) : Draft :=
  { d with transcript := d.transcript.behind bytes }

variable (t : Settings) (data : Array UInt8) (d : Draft) (bytes : List UInt8)

theorem behind_take : d.take.2.behind d.take.1 = d := by
  obtain ⟨⟨⟨writer, model⟩, past⟩, outlook⟩ := d
  simp [take, Transcript.take, behind, Transcript.behind, CodeWriter.behind]

@[simp] theorem position_behind : (d.behind bytes).position = d.position := rfl

/-- A step does not see what is settled. -/
theorem step_behind :
    (d.behind bytes).step t data = ((d.step t data).1, (d.step t data).2.behind bytes) := by
  obtain ⟨⟨⟨writer, model⟩, past⟩, outlook⟩ := d
  refine Prod.ext rfl ?_
  show (⟨Transcript.add _ _ (Transcript.behind ⟨⟨writer, model⟩, past⟩ bytes) _, _⟩ : Draft) = _
  rw [Transcript.add_behind]
  rfl

theorem symbols_behind : (d.behind bytes).symbols t data = d.symbols t data := by
  fun_induction symbols t data d with
  | case1 d hlt ih =>
      rw [symbols, position_behind, if_pos hlt, step_behind, ih]
  | case2 d hge => rw [symbols, position_behind, if_neg hge]

/-! ## What a draft comes to -/

/-- The bytes that a draft comes to if it goes on to the end of the data. -/
def completed : List UInt8 :=
  (((d.symbols t data).foldl (Transcript.add t.props t.dictSize) d.transcript).finish
    t.props t.dictSize).output

theorem completed_start :
    (start t).completed t data = payload t.props t.dictSize (symbolsFor t data) := rfl

theorem completed_behind : (d.behind bytes).completed t data = bytes ++ d.completed t data := by
  rw [completed, completed, symbols_behind]
  show ((List.foldl _ (d.transcript.behind bytes) _).finish _ _).output = _
  rw [Transcript.foldl_behind, Transcript.finish_behind, Transcript.output_behind]

/-- What was taken is a part of what the draft comes to, and the rest is still to come. -/
theorem completed_take : d.take.1 ++ d.take.2.completed t data = d.completed t data := by
  rw [← completed_behind, behind_take]

/-- A step is on the way to the same end. -/
theorem completed_step {d : Draft} (hlt : d.position < data.size) :
    (d.step t data).2.completed t data = d.completed t data := by
  rw [completed, completed, symbols.eq_def t data d, if_pos hlt, List.foldl_cons, transcript_step]

/-- With all of the data written, only the end marker is missing. -/
theorem completed_of_le {d : Draft} (hle : data.size ≤ d.position) :
    d.completed t data = (d.finish t).take.1 := by
  rw [completed, symbols, if_neg (Nat.not_lt.mpr hle)]
  rfl

end Draft

end Lzma
