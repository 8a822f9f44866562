import Lzma.Search.Basic
import Lzma.Symbol.Fits

/-!
# Vetting a symbol

Nothing is asked of those who choose symbols but a proposal. It is vetted before
it is used: whether it fits the past, and whether the bytes it stands for are those
that the data goes on with (`Past.Follows.append`). An encoder that trusts its
searches needs no such check. It is made here so that nothing has to be known of
the searches for what is written to spell the data.
-/

namespace Lzma

/-- What was produced is what the data begins with. -/
def Past.Follows (p : Past) (data : Array UInt8) : Prop :=
  p.produced.size ≤ data.size ∧
    ∀ i, i < p.produced.size → p.produced.getD i 0 = data.getD i 0

/-- Whether a symbol may come next in a payload for the data of a search. -/
def Search.vets (s : Search) (p : Past) (symbol : Symbol) : Bool :=
  let position := p.produced.size
  decide (symbol.Fits p s.window) && decide (position + symbol.length ≤ s.view.size) &&
    match symbol with
    | .literal byte => byte == s.byte position
    | _ =>
        let distance := (p.recent.after symbol).latest
        decide (1 ≤ distance ∧ distance ≤ position) &&
          s.agreement (position - distance) position symbol.length 0 == symbol.length

namespace Past.Follows

variable {p : Past} {data : Array UInt8}

theorem note (h : p.Follows data) (s : Symbol) : (p.note s).Follows data := h

/-- One more byte of the data follows. -/
theorem push (h : p.Follows data) (hlt : p.produced.size < data.size) {byte : UInt8}
    (hbyte : byte = data.getD p.produced.size 0) : (p.push byte).Follows data := by
  refine ⟨Nat.le_trans (Nat.le_of_eq (Array.size_push byte)) hlt, fun i hi => ?_⟩
  simp only [Past.push, Array.size_push, Array.getD_eq_getD_getElem?, Array.getElem?_push] at hi ⊢
  split
  · next heq => simp [hbyte, heq, Array.getD_eq_getD_getElem?]
  · have := h.2 i (by omega)
    simpa [Array.getD_eq_getD_getElem?] using this

/-- A copy follows if the data repeats itself at its distance. -/
theorem copy {count : Nat} (h : p.Follows data) (hle : p.produced.size + count ≤ data.size)
    (hpos : 1 ≤ p.recent.latest) (hreach : p.recent.latest ≤ p.produced.size)
    (hagree : ∀ i, i < count →
      data.getD (p.produced.size - p.recent.latest + i) 0 = data.getD (p.produced.size + i) 0) :
    (p.copy count).Follows data := by
  induction count generalizing p with
  | zero => exact h
  | succ count ih =>
      have hbyte : p.byteAt p.recent.latest = data.getD p.produced.size 0 := by
        rw [byteAt, h.2 _ (by omega)]
        exact hagree 0 (Nat.succ_pos _)
      have hsize : (p.push (p.byteAt p.recent.latest)).produced.size = p.produced.size + 1 :=
        Array.size_push _
      refine ih (h.push (by omega) hbyte) (by omega) hpos ?_ fun i hi => ?_
      · rw [hsize]
        exact Nat.le_succ_of_le hreach
      · have hnext := hagree (i + 1) (by omega)
        rw [hsize]
        show data.getD (p.produced.size + 1 - p.recent.latest + i) 0 = _
        rw [show p.produced.size + 1 - p.recent.latest + i =
          p.produced.size - p.recent.latest + (i + 1) by omega, hnext]
        congr 1
        omega

/-- A vetted symbol fits, and what it stands for follows. -/
theorem append {s : Search} {bound : Nat} {symbol : Symbol} (h : p.Follows data)
    (hview : s.view = .upTo data bound) (hvets : s.vets p symbol = true) :
    symbol.Fits p s.window ∧ (p.append symbol).Follows data := by
  have hbyte {i : Nat} (hi : i < s.view.size) : s.byte i = data.getD i 0 := by
    rw [hview, View.size_upTo] at hi
    rw [Search.byte]
    rw [hview]
    exact View.byte_upTo (by omega)
  have hview : s.view.size ≤ data.size := by
    rw [hview]
    exact Nat.min_le_left _ _
  simp only [Search.vets, Bool.and_eq_true, decide_eq_true_eq] at hvets
  obtain ⟨⟨hfits, hsize⟩, hbytes⟩ := hvets
  refine ⟨hfits, ?_⟩
  have hcopy (hbytes : (1 ≤ (p.recent.after symbol).latest ∧
        (p.recent.after symbol).latest ≤ p.produced.size) ∧
      s.agreement (p.produced.size - (p.recent.after symbol).latest) p.produced.size
        symbol.length 0 = symbol.length) :
      ((p.note symbol).copy symbol.length).Follows data := by
    obtain ⟨⟨hone, hreach⟩, hagree⟩ := hbytes
    apply (h.note symbol).copy (Nat.le_trans hsize hview) hone hreach
    intro i hi
    have heq := s.byte_eq_of_lt_agreement _ _ _ 0 i (Nat.zero_le i) (hagree.symm ▸ hi)
    rwa [hbyte (by omega), hbyte (by omega)] at heq
  cases symbol with
  | literal byte =>
      have hlt : p.produced.size < s.view.size := Nat.lt_of_succ_le hsize
      exact (h.note _).push (Nat.lt_of_lt_of_le hlt hview) ((eq_of_beq hbytes).trans (hbyte hlt))
  | fresh | again | single =>
      simp only [Bool.and_eq_true, decide_eq_true_eq, beq_iff_eq] at hbytes
      exact hcopy hbytes

end Past.Follows

end Lzma
