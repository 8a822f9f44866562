import Lzma.Payload.Transcript
import Lzma.Symbol.Fits

/-!
# The size of the dictionary is not written

A header may declare a dictionary that is not the one the payload was written for:
sizes are rounded up when memory is asked for them. That does no harm. The size of
the dictionary decides only which distances a reader accepts, which is a matter of
the leaves of a tree, and a writer looks at no leaf. What a writer sees of a tree is
its `Coding.outline`.
-/

namespace Lzma

namespace Coding

variable {α : Type}

/-- A tree without what its leaves say. -/
def outline : Coding α → Coding Unit
  | .done _ => .done ()
  | .bit context next => .bit context fun b => (next b).outline
  | .even next => .even fun b => (next b).outline

theorem write_outline (t : Coding α) (bits : List Bool) (i : CodeWriter) :
    t.outline.write bits i = t.write bits i := by
  induction t generalizing bits i with
  | done => cases bits <;> rfl
  | bit context next ih =>
      cases bits with
      | nil => rfl
      | cons b bits => exact ih b bits _
  | even next ih =>
      cases bits with
      | nil => rfl
      | cons b bits => exact ih b bits _

/-- Trees of one outline are written alike. -/
theorem write_eq_of_outline_eq {β : Type} {t : Coding α} {t' : Coding β}
    (h : t.outline = t'.outline) : t.write = t'.write := by
  funext bits i
  rw [← write_outline t, h, write_outline]

theorem outline_tree (base n node : Nat) (k : Nat → Coding α) :
    (tree base n node k).outline = tree base n node fun v => (k v).outline := by
  induction n generalizing node with
  | zero => rfl
  | succ n ih => exact congrArg (Coding.bit _) (funext fun b => ih _)

theorem outline_reverseTree (base n node weight sum : Nat) (k : Nat → Coding α) :
    (reverseTree base n node weight sum k).outline =
      reverseTree base n node weight sum fun v => (k v).outline := by
  induction n generalizing node weight sum with
  | zero => rfl
  | succ n ih => exact congrArg (Coding.bit _) (funext fun b => ih _ _ _)

theorem outline_evenBits (n value : Nat) (k : Nat → Coding α) :
    (evenBits n value k).outline = evenBits n value fun v => (k v).outline := by
  induction n generalizing value with
  | zero => rfl
  | succ n ih => exact congrArg Coding.even (funext fun b => ih _)

theorem outline_length (base slot : Nat) (k : Nat → Coding α) :
    (length base slot k).outline = length base slot fun v => (k v).outline := by
  rw [length]
  apply congrArg (Coding.bit _)
  funext b
  cases b with
  | false => exact outline_tree _ _ _ _
  | true =>
      apply congrArg (Coding.bit _)
      funext b
      cases b <;> exact outline_tree _ _ _ _

theorem outline_distance (length : Nat) (k : Nat → Coding α) :
    (distance length k).outline = distance length fun v => (k v).outline := by
  rw [distance, outline_tree]
  apply congrArg (tree _ 6 1)
  funext node
  dsimp only
  split
  · rfl
  · split
    · exact outline_reverseTree _ _ _ _ _ _
    · rw [outline_evenBits]
      exact congrArg (evenBits _ 0) (funext fun high => outline_reverseTree _ _ _ _ _ _)

end Coding

namespace Context

variable {c : Context}

/-- How far a copy may reach is told by the leaves alone. -/
theorem outline_fresh (reach : Nat) :
    { c with reach }.fresh.outline = c.fresh.outline := by
  rw [fresh, fresh]
  simp only [Coding.outline_length, Coding.outline_distance]
  rfl

theorem outline_coding {reach : Nat} (hreach : reach = 0 ↔ c.reach = 0) :
    { c with reach }.coding.outline = c.coding.outline := by
  have hliteral : { c with reach }.literal = c.literal := rfl
  have hagain : { c with reach }.again = c.again := rfl
  rw [coding, hliteral, hagain]
  simp only [Coding.outline]
  apply congrArg (Coding.bit _)
  funext b
  cases b with
  | false => simp only [Bool.false_eq_true, if_false]
  | true =>
      simp only [if_true, Coding.outline]
      apply congrArg (Coding.bit _)
      funext b
      cases b with
      | false => simpa only [Bool.false_eq_true, if_false] using outline_fresh reach
      | true => simp only [if_true, hreach]

end Context

/-! ## Payloads -/

variable {d d' : Nat}

theorem Past.write_coding (hd : 0 < d) (hd' : 0 < d') (p : Past) (props : Properties) :
    (p.context props d).coding.write = (p.context props d').coding.write := by
  have hcontext : p.context props d =
      { p.context props d' with reach := min p.produced.size d } := rfl
  have hreach : min p.produced.size d = 0 ↔ (p.context props d').reach = 0 := by
    show min p.produced.size d = 0 ↔ min p.produced.size d' = 0
    omega
  rw [hcontext]
  exact Coding.write_eq_of_outline_eq (Context.outline_coding hreach)

theorem Transcript.write_dictSize (hd : 0 < d) (hd' : 0 < d') (t : Transcript)
    (props : Properties) (bits : List Bool) : t.write props d bits = t.write props d' bits := by
  obtain ⟨code, past⟩ := t
  simp only [Transcript.write]
  rw [past.write_coding hd hd']

/-- Some symbols make the same payload for any two dictionaries. -/
theorem payload_dictSize (hd : 0 < d) (hd' : 0 < d') (props : Properties)
    (symbols : List Symbol) : payload props d symbols = payload props d' symbols := by
  have hadd : Transcript.add props d = Transcript.add props d' := by
    funext t s
    rw [Transcript.add, Transcript.add, t.write_dictSize hd hd']
  simp only [payload, Transcript.finish]
  rw [hadd, Transcript.write_dictSize hd hd']

theorem Symbol.Fits.mono {p : Past} {s : Symbol} (h : s.Fits p d) (hle : d ≤ d') :
    s.Fits p d' := by
  cases s with
  | literal | single | again => exact h
  | fresh length distance =>
      obtain ⟨hlength, hpos, hreach⟩ := h
      exact ⟨hlength, hpos, Nat.le_trans hreach (by omega)⟩

/-- What a dictionary accepts a larger one does. -/
theorem WellFormed.mono {symbols : List Symbol} (h : WellFormed d symbols) (hle : d ≤ d') :
    WellFormed d' symbols := by
  rw [WellFormed] at h ⊢
  generalize ({} : Past) = p at h ⊢
  induction symbols generalizing p with
  | nil => trivial
  | cons s symbols ih => exact ⟨h.1.mono hle, ih _ h.2⟩

end Lzma
