import Lzma.Channel.Exchange

/-!
# Sources that need not end for good

A source that ends may have more to give later, and one that fails may fail and give
for ever after. No run asks for more: the first end and the first failure are the last
answer that it takes. A `Tap` is such a source up to there, with a bound on what it brings
before; it is a `Source` whatever lies behind.
-/

namespace Lzma

/-- A source of which nothing is known. -/
class RawSource (σ : Type) where
  read : Nat → σ → Except IoError Reading × σ

namespace RawSource

variable {σ : Type} [RawSource σ]

/-- At most so many reads bring something before one ends or fails. -/
def Lasts : Nat → σ → Prop
  | 0, s => ∀ room r, (read room s).1 = .ok r → 0 < r.count → room < r.count
  | n + 1, s => ∀ room r, (read room s).1 = .ok r → 0 < r.count → r.count ≤ room →
      Lasts n (read room s).2

theorem Lasts.next {n room : Nat} {s : σ} {r : Reading} (h : Lasts n s)
    (hread : (read room s).1 = .ok r) (hpos : 0 < r.count) (hle : r.count ≤ room) :
    0 < n ∧ Lasts (n - 1) (read room s).2 := by
  cases n with
  | zero => exact absurd (h room r hread hpos) (Nat.not_lt_of_le hle)
  | succ n => exact ⟨Nat.succ_pos n, h room r hread hpos hle⟩

end RawSource

/-- A source that has not ended yet, with a bound on the reads that it still serves. -/
structure Tap (σ : Type) [RawSource σ] where
  source : σ
  left : Nat
  lasts : RawSource.Lasts left source

namespace Tap

variable {σ : Type} [RawSource σ]

/-- The tap after a read; `none` once a read has ended or failed. -/
def after (t : Tap σ) (room : Nat) : Option (Tap σ) :=
  match h : (RawSource.read room t.source).1 with
  | .error _ => none
  | .ok r =>
      if hr : 0 < r.count ∧ r.count ≤ room then
        some ⟨(RawSource.read room t.source).2, t.left - 1, (t.lasts.next h hr.1 hr.2).2⟩
      else none

/-- A closed tap gives nothing. -/
instance : Source (Option (Tap σ)) where
  read room
    | none => (.ok ⟨[], 0⟩, none)
    | some t => ((RawSource.read room t.source).1, t.after room)
  credit t := t.elim 0 Tap.left
  credit_read_lt {room t r} hread hpos hle := by
    cases t with
    | none =>
        cases hread
        exact absurd hpos (Nat.lt_irrefl 0)
    | some t =>
        have hleft := (t.lasts.next hread hpos hle).1
        have hafter : (t.after room).elim 0 Tap.left = t.left - 1 := by
          rw [after]
          split
          · next h => rw [hread] at h; cases h
          · next h => rw [hread] at h; cases h; rw [dif_pos ⟨hpos, hle⟩]; rfl
        show (t.after room).elim 0 Tap.left < t.left
        omega

end Tap

end Lzma
