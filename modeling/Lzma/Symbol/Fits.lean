import Lzma.Symbol.Past

/-!
# Well-formed sequences of symbols

A symbol fits a past if a decoder accepts it there: its length can be written, and
what it copies has been produced and is still kept. A sequence is well-formed if
each of its symbols fits what the ones before it produced.
-/

namespace Lzma

/-- Whether a symbol may follow a past, in a dictionary of the given size. -/
def Symbol.Fits (p : Past) (dictSize : Nat) : Symbol → Prop
  | .literal _ => True
  | .fresh length distance =>
      (2 ≤ length ∧ length ≤ 273) ∧ 1 ≤ distance ∧ distance ≤ min p.produced.size dictSize
  | .again length _ => (2 ≤ length ∧ length ≤ 273) ∧ 0 < p.produced.size
  | .single => 0 < p.produced.size

instance (p : Past) (dictSize : Nat) (s : Symbol) : Decidable (s.Fits p dictSize) := by
  cases s <;> unfold Symbol.Fits <;> infer_instance

/-- A symbol that fits stands for a byte or more. -/
theorem Symbol.Fits.length_pos {p : Past} {dictSize : Nat} {s : Symbol} (h : s.Fits p dictSize) :
    0 < s.length := by
  cases s with
  | literal | single => exact Nat.one_pos
  | fresh length | again length => exact Nat.lt_of_lt_of_le Nat.two_pos h.1.1

/-- Whether each of some symbols may follow what comes before it. -/
def Past.Admits (dictSize : Nat) : Past → List Symbol → Prop
  | _, [] => True
  | p, s :: rest => s.Fits p dictSize ∧ Past.Admits dictSize (p.append s) rest

namespace Past

/-- A test for `Admits`. -/
def admits (dictSize : Nat) : Past → List Symbol → Bool
  | _, [] => true
  | p, s :: rest => if s.Fits p dictSize then admits dictSize (p.append s) rest else false

theorem admits_iff {dictSize : Nat} {p : Past} {symbols : List Symbol} :
    admits dictSize p symbols = true ↔ p.Admits dictSize symbols := by
  induction symbols generalizing p with
  | nil => simp [admits, Admits]
  | cons s rest ih =>
      by_cases h : s.Fits p dictSize
      · simp [admits, Admits, h, ih]
      · simp [admits, Admits, h]

instance (dictSize : Nat) (p : Past) (symbols : List Symbol) :
    Decidable (p.Admits dictSize symbols) :=
  decidable_of_iff _ admits_iff

end Past

/-- Whether some symbols make a payload for a dictionary of the given size. -/
def WellFormed (dictSize : Nat) (symbols : List Symbol) : Prop :=
  Past.Admits dictSize {} symbols

instance (dictSize : Nat) (symbols : List Symbol) : Decidable (WellFormed dictSize symbols) :=
  inferInstanceAs (Decidable (Past.Admits dictSize {} symbols))

end Lzma
