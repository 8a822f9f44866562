import Lzma.Bytes.LittleEndian
import Lzma.Range.Reader

/-!
# The interval that a payload lies in

A range writer's bytes and remainder spell the lower end of an interval, and all
that it does narrows the interval or looks at it more closely. What is written in
the end is a number inside all the intervals on the way. A reader that knows the
number as far as the writer had got knows in which part of the interval it lies,
and so which way the writer went.

* `RangeWriter.Sound` is the invariant of a writer: a carry always finds a byte
  that it can raise.
* `RangeWriter.Holds` says that a payload lies in a writer's interval. It is
  carried from the closed payload backwards.
* `RangeReader.Sync` says that a reader is where a writer was. It is carried
  forwards, and needs no more than that the payload lies in the next interval.
-/

namespace Lzma

/-- The number spelled by bytes of which the first is the most significant. -/
def ofBE (bytes : List UInt8) : Nat := ofLE bytes.reverse

theorem ofBE_append_singleton (bytes : List UInt8) (byte : UInt8) :
    ofBE (bytes ++ [byte]) = 256 * ofBE bytes + byte.toNat := by
  rw [ofBE, List.reverse_append]
  exact Nat.add_comm _ _

/-- A carry runs through the ones to the byte in front of them. -/
theorem ofLE_carry (ones : Nat) {held : UInt8} (h : held ≠ 255) (settled : List UInt8) :
    ofLE (List.replicate ones (255 + 1) ++ (held + 1) :: settled) =
      ofLE (List.replicate ones 255 ++ held :: settled) + 1 := by
  induction ones with
  | zero =>
      have hne : held.toNat ≠ 255 := fun heq => h (UInt8.toNat_inj.mp heq)
      have hlt := held.toNat_lt
      show (held + 1).toNat + 256 * ofLE settled = held.toNat + 256 * ofLE settled + 1
      rw [UInt8.toNat_add]
      show (held.toNat + 1) % 256 + _ = _
      omega
  | succ ones ih =>
      show 0 + 256 * ofLE (List.replicate ones (255 + 1) ++ (held + 1) :: settled) =
        255 + 256 * ofLE (List.replicate ones 255 ++ held :: settled) + 1
      omega

namespace RangeWriter

/-- The bytes that have left the remainder, the latest first. -/
def emitted (w : RangeWriter) : List UInt8 := List.replicate w.ones 255 ++ w.held :: w.settled

/-- How many bytes have left it, but for the first. -/
def count (w : RangeWriter) : Nat := w.settled.length + w.ones

/-- The lower end of the interval. -/
def lower (w : RangeWriter) : Nat := ofLE w.emitted * 4294967296 + w.low

theorem length_emitted (w : RangeWriter) : w.emitted.length = w.count + 1 := by
  rw [emitted, List.length_append, List.length_replicate, List.length_cons, count]
  omega

/-! ## What a writer keeps to -/

/-- A carry that is in the remainder can still be taken in. -/
structure Steady (w : RangeWriter) : Prop where
  low : w.low < 8589934592
  held : w.held = 255 → w.low < 4294967296

/-- Wherever in the interval the lower end moves, its carry can be taken in. -/
structure Sound (w : RangeWriter) : Prop where
  low : w.low + w.range ≤ 8589934592
  held : w.held = 255 → w.low + w.range ≤ 4294967296
  wide : 65536 ≤ w.range
  full : w.range ≤ fullRange

theorem sound_start : ({} : RangeWriter).Sound where
  low := by decide
  held := by simp
  wide := by decide
  full := by decide

theorem Sound.steady {w : RangeWriter} (h : w.Sound) : w.Steady := by
  have hwide := h.wide
  have hlow := h.low
  refine ⟨by omega, ?_⟩
  intro hheld
  have := h.held hheld
  omega

/-! ## Widening -/

theorem low_shift (w : RangeWriter) : w.shift.low = w.low % minRange * 256 := by
  simp only [shift]
  split <;> rfl

theorem range_shift (w : RangeWriter) : w.shift.range = w.range * 256 := by
  simp only [shift]
  split <;> rfl

theorem count_shift (w : RangeWriter) : w.shift.count = w.count + 1 := by
  simp only [shift]
  split
  · rfl
  · show (List.replicate w.ones _ ++ _ :: w.settled).length + 0 = w.settled.length + w.ones + 1
    simp only [List.length_append, List.length_replicate, List.length_cons]
    omega

theorem emitted_shift_of_eq {w : RangeWriter} (h : w.low / minRange = 255) :
    w.shift.emitted = 255 :: w.emitted := by
  simp only [shift]
  rw [if_pos h]
  rfl

theorem emitted_shift_of_ne {w : RangeWriter} (h : w.low / minRange ≠ 255) :
    w.shift.emitted = UInt8.ofNat (w.low / minRange) ::
      (List.replicate w.ones (255 + UInt8.ofNat (w.low / minRange / 256)) ++
        (w.held + UInt8.ofNat (w.low / minRange / 256)) :: w.settled) := by
  simp only [shift]
  rw [if_neg h]
  rfl

/-- Without a carry the bytes that were held back are settled as they are. -/
theorem settled_shift_of_lt {w : RangeWriter} (h : w.low / minRange < 255) :
    w.shift.settled = w.emitted := by
  simp only [shift]
  rw [if_neg (Nat.ne_of_lt h), Nat.div_eq_of_lt (Nat.lt_succ_of_lt h)]
  show List.replicate w.ones (255 + 0) ++ (w.held + 0) :: w.settled = w.emitted
  rw [UInt8.add_zero, UInt8.add_zero]
  rfl

theorem steady_of_lt {w : RangeWriter} (h : w.low < 4294967296) : w.Steady :=
  ⟨by omega, fun _ => h⟩

/-- Widening looks at the interval in parts 256 times as fine, and changes nothing else. -/
theorem lower_shift {w : RangeWriter} (h : w.Steady) : w.shift.lower = 256 * w.lower := by
  have hlow := h.low
  rw [lower, lower, low_shift]
  by_cases hones : w.low / minRange = 255
  · rw [emitted_shift_of_eq hones]
    show (255 + 256 * ofLE w.emitted) * 4294967296 + _ = _
    rw [minRange] at hones ⊢
    omega
  · rw [emitted_shift_of_ne hones, ofLE, UInt8.toNat_ofNat']
    by_cases hcarry : w.low / minRange < 256
    · rw [Nat.div_eq_of_lt hcarry]
      show (_ + 256 * ofLE (List.replicate w.ones (255 + 0) ++ (w.held + 0) :: w.settled)) *
        4294967296 + _ = _
      rw [UInt8.add_zero, UInt8.add_zero]
      show (w.low / minRange % 256 + 256 * ofLE w.emitted) * 4294967296 + _ = _
      rw [minRange] at hcarry ⊢
      omega
    · have hheld : w.held ≠ 255 := by
        intro hheld
        have := h.held hheld
        rw [minRange] at hcarry
        omega
      have hone : w.low / minRange / 256 = 1 := by
        rw [minRange] at hcarry ⊢
        omega
      rw [hone]
      show (_ + 256 * ofLE (List.replicate w.ones (255 + 1) ++ (w.held + 1) :: w.settled)) *
        4294967296 + _ = _
      rw [ofLE_carry _ hheld]
      show (w.low / minRange % 256 + 256 * (ofLE w.emitted + 1)) * 4294967296 + _ = _
      rw [minRange] at hcarry ⊢
      omega

theorem held_shift {w : RangeWriter} (h : w.shift.held = 255) :
    w.held = 255 ∧ w.low / minRange = 255 ∨ w.low / minRange % 256 = 255 ∧
      w.low / minRange ≠ 255 := by
  simp only [shift] at h
  split at h
  · next hones => exact .inl ⟨h, hones⟩
  · next hones =>
      refine .inr ⟨?_, hones⟩
      have := congrArg UInt8.toNat h
      rwa [UInt8.toNat_ofNat'] at this

theorem Sound.shift {w : RangeWriter} (h : w.Sound) (hnarrow : w.range < minRange) :
    w.shift.Sound := by
  have hlow := h.low
  have hwide := h.wide
  rw [minRange] at hnarrow
  constructor
  · rw [low_shift, range_shift, minRange]
    omega
  · intro hheld
    rw [low_shift, range_shift]
    rcases held_shift hheld with ⟨hheld, hones⟩ | ⟨hones, hne⟩
    · have := h.held hheld
      rw [minRange] at hones ⊢
      omega
    · rw [minRange] at hones hne ⊢
      omega
  · rw [range_shift]
    omega
  · rw [range_shift, fullRange]
    omega

theorem Sound.normalize {w : RangeWriter} (h : w.Sound) :
    w.normalize.Sound ∧ minRange ≤ w.normalize.range := by
  have hwide := h.wide
  rw [RangeWriter.normalize]
  split
  · next hnarrow =>
      refine ⟨h.shift hnarrow, ?_⟩
      rw [range_shift, minRange]
      omega
  · next hwide => exact ⟨h, Nat.le_of_not_lt hwide⟩

/-! ## Narrowing -/

/-- The part of the interval from `offset` on that is `width` wide. -/
def narrow (w : RangeWriter) (offset width : Nat) : RangeWriter :=
  { w with low := w.low + offset, range := width }

theorem lower_narrow (w : RangeWriter) (offset width : Nat) :
    (w.narrow offset width).lower = w.lower + offset := by
  show ofLE w.emitted * 4294967296 + (w.low + offset) = _
  rw [← Nat.add_assoc]
  rfl

theorem bit_eq (w : RangeWriter) (p : Prob) (b : Bool) :
    w.bit p b = if b then
        w.normalize.narrow (p.share w.normalize.range)
          (w.normalize.range - p.share w.normalize.range)
      else w.normalize.narrow 0 (p.share w.normalize.range) := by
  cases b <;> rfl

theorem even_eq (w : RangeWriter) (b : Bool) :
    w.even b = w.normalize.narrow (if b then w.normalize.range / 2 else 0)
      (w.normalize.range / 2) := by
  cases b <;> rfl

theorem normalize_normalize {w : RangeWriter} (h : w.Sound) :
    w.normalize.normalize = w.normalize :=
  if_neg (Nat.not_lt.mpr h.normalize.2)

theorem bit_normalize {w : RangeWriter} (h : w.Sound) (p : Prob) (b : Bool) :
    w.normalize.bit p b = w.bit p b := by
  rw [bit_eq, bit_eq, normalize_normalize h]

theorem even_normalize {w : RangeWriter} (h : w.Sound) (b : Bool) :
    w.normalize.even b = w.even b := by
  rw [even_eq, even_eq, normalize_normalize h]

@[simp] theorem count_bit (w : RangeWriter) (p : Prob) (b : Bool) :
    (w.bit p b).count = w.normalize.count := by
  cases b <;> rfl

@[simp] theorem count_even (w : RangeWriter) (b : Bool) :
    (w.even b).count = w.normalize.count := by
  cases b <;> rfl

theorem Sound.narrow {w : RangeWriter} (h : w.Sound) {offset width : Nat}
    (hle : offset + width ≤ w.range) (hwide : 65536 ≤ width) : (w.narrow offset width).Sound where
  low := by
    have := h.low
    show w.low + offset + width ≤ _
    omega
  held hheld := by
    have := h.held hheld
    show w.low + offset + width ≤ _
    omega
  wide := hwide
  full := by
    have := h.full
    show width ≤ _
    omega

/-- Both shares of a wide interval are wide enough. -/
theorem share_bounds (p : Prob) {range : Nat} (h : minRange ≤ range) :
    65536 ≤ p.share range ∧ p.share range + 65536 ≤ range := by
  have hp := p.property
  rw [minRange] at h
  have hlow : range / 2048 * 31 ≤ p.share range := Nat.mul_le_mul_left _ hp.1
  have hhigh : p.share range ≤ range / 2048 * 2017 := Nat.mul_le_mul_left _ hp.2
  omega

theorem Sound.bit {w : RangeWriter} (h : w.Sound) (p : Prob) (b : Bool) : (w.bit p b).Sound := by
  obtain ⟨hw, hwide⟩ := h.normalize
  obtain ⟨hshare, hrest⟩ := share_bounds p hwide
  rw [bit_eq]
  split
  · exact hw.narrow (by omega) (by omega)
  · exact hw.narrow (by omega) hshare

theorem Sound.even {w : RangeWriter} (h : w.Sound) (b : Bool) : (w.even b).Sound := by
  obtain ⟨hw, hwide⟩ := h.normalize
  rw [minRange] at hwide
  rw [even_eq]
  refine hw.narrow ?_ (by omega)
  split <;> omega

/-! ## Payloads in an interval -/

/-- As far as the writer has got, the number that the bytes spell lies in the interval. -/
structure Holds (w : RangeWriter) (bytes : List UInt8) : Prop where
  length : 5 + w.count ≤ bytes.length
  lower : w.lower ≤ ofBE (bytes.take (5 + w.count))
  upper : ofBE (bytes.take (5 + w.count)) < w.lower + w.range

theorem Holds.of_narrow {w : RangeWriter} {bytes : List UInt8} {offset width : Nat}
    (h : (w.narrow offset width).Holds bytes) (hle : offset + width ≤ w.range) :
    w.Holds bytes := by
  have hlow := h.lower
  have hhigh := h.upper
  rw [lower_narrow] at hlow hhigh
  refine ⟨h.length, Nat.le_trans (Nat.le_add_right _ _) hlow, Nat.lt_of_lt_of_le hhigh ?_⟩
  show w.lower + offset + width ≤ _
  omega

/-- The first bytes of some, and the one behind them. -/
theorem ofBE_take_succ {bytes : List UInt8} {n : Nat} (h : n < bytes.length) :
    ofBE (bytes.take (n + 1)) = 256 * ofBE (bytes.take n) + bytes[n].toNat := by
  rw [List.take_succ_eq_append_getElem h, ofBE_append_singleton]

theorem Holds.of_shift {w : RangeWriter} {bytes : List UInt8} (h : w.shift.Holds bytes)
    (hw : w.Steady) : w.Holds bytes := by
  obtain ⟨hlen, hlow, hhigh⟩ := h
  rw [count_shift, ← Nat.add_assoc] at hlen hlow hhigh
  have hbyte := bytes[5 + w.count].toNat_lt
  rw [ofBE_take_succ hlen, lower_shift hw] at hlow hhigh
  rw [range_shift] at hhigh
  exact ⟨Nat.le_of_succ_le hlen, by omega, by omega⟩

theorem Holds.of_normalize {w : RangeWriter} {bytes : List UInt8} (h : w.normalize.Holds bytes)
    (hw : w.Steady) : w.Holds bytes := by
  rw [RangeWriter.normalize] at h
  split at h
  · exact h.of_shift hw
  · exact h

theorem Holds.of_bit {w : RangeWriter} {bytes : List UInt8} {p : Prob} {b : Bool}
    (h : (w.bit p b).Holds bytes) (hw : w.Sound) : w.normalize.Holds bytes := by
  obtain ⟨hshare, hrest⟩ := share_bounds p hw.normalize.2
  rw [bit_eq] at h
  split at h <;> exact h.of_narrow (by omega)

theorem Holds.of_even {w : RangeWriter} {bytes : List UInt8} {b : Bool}
    (h : (w.even b).Holds bytes) : w.normalize.Holds bytes := by
  rw [even_eq] at h
  refine h.of_narrow ?_
  split <;> omega

/-- What a writer closes to is the lower end of its interval, to the last byte. -/
theorem holds_close {w : RangeWriter} (hw : w.Sound) :
    w.normalize.Holds w.close.output ∧ w.close.output.length = 5 + w.normalize.count ∧
      ofBE w.close.output = w.normalize.lower := by
  obtain ⟨hn, hwide⟩ := hw.normalize
  generalize hw₀ : w.normalize = w₀ at *
  have hlow₀ := hn.steady.low
  have hlow₁ := low_shift w₀
  have hlow₂ := low_shift w₀.shift
  have hlow₃ := low_shift w₀.shift.shift
  have hlow₄ := low_shift w₀.shift.shift.shift
  -- no carry is left behind the first shift, and no remainder behind the fourth
  rw [minRange] at hlow₁ hlow₂ hlow₃ hlow₄
  have hzero : w₀.shift.shift.shift.shift.low = 0 := by omega
  have hlower : w₀.shift.shift.shift.shift.lower = 4294967296 * w₀.lower := by
    rw [lower_shift (steady_of_lt (by omega)), lower_shift (steady_of_lt (by omega)),
      lower_shift (steady_of_lt (by omega)), lower_shift hn.steady]
    omega
  have hout : w.close.output = w₀.shift.shift.shift.shift.emitted.reverse := by
    rw [output, close, hw₀, settled_shift_of_lt (by rw [hzero]; decide)]
  have hlen : w.close.output.length = 5 + w₀.count := by
    rw [hout, List.length_reverse, length_emitted, count_shift, count_shift, count_shift,
      count_shift]
    omega
  have hvalue : ofBE w.close.output = w₀.lower := by
    rw [RangeWriter.lower, hzero] at hlower
    rw [hout, ofBE, List.reverse_reverse]
    omega
  have htake : w.close.output.take (5 + w₀.count) = w.close.output :=
    List.take_of_length_le (Nat.le_of_eq hlen)
  refine ⟨⟨Nat.le_of_eq hlen.symm, ?_, ?_⟩, hlen, hvalue⟩
  · exact Nat.le_of_eq (by rw [htake, hvalue])
  · rw [htake, hvalue]
    rw [minRange] at hwide
    omega

end RangeWriter

namespace RangeReader

/-- A reader of some bytes is where a writer was: it has read as far and sees the same interval. -/
structure Sync (r : RangeReader) (w : RangeWriter) (bytes : List UInt8) : Prop where
  range : r.range = w.range
  code : w.lower + r.code = ofBE (bytes.take (5 + w.count))

namespace Sync

variable {r : RangeReader} {w : RangeWriter} {bytes : List UInt8}

theorem code_lt (h : r.Sync w bytes) (hholds : w.Holds bytes) : r.code < w.range := by
  have hcode := h.code
  have hhigh := hholds.upper
  omega

theorem starved_iff (h : r.Sync w bytes) : r.starved = true ↔ w.range < minRange := by
  rw [starved, h.range, decide_eq_true_eq]

theorem not_starved (h : r.Sync w bytes) (hwide : minRange ≤ w.range) :
    ¬ r.starved = true := by
  rw [h.starved_iff]
  omega

/-- A narrow interval is widened with the next byte. -/
theorem shift (h : r.Sync w bytes) (hw : w.Steady) (hnarrow : w.range < minRange)
    (hholds : w.shift.Holds bytes) :
    ∃ byte, bytes.drop (5 + w.count) = byte :: bytes.drop (5 + w.shift.count) ∧
      (r.shift byte).Sync w.shift bytes := by
  have hlen := hholds.length
  have hcode := h.code_lt (hholds.of_shift hw)
  rw [RangeWriter.count_shift, ← Nat.add_assoc] at hlen
  refine ⟨bytes[5 + w.count], ?_, ?_, ?_⟩
  · rw [RangeWriter.count_shift, ← Nat.add_assoc]
    exact List.drop_eq_getElem_cons hlen
  · rw [RangeWriter.range_shift, ← h.range]
    rfl
  · have hbyte := bytes[5 + w.count].toNat_lt
    rw [minRange] at hnarrow
    rw [RangeWriter.lower_shift hw, RangeWriter.count_shift, ← Nat.add_assoc,
      RangeWriter.ofBE_take_succ hlen, ← h.code]
    show 256 * w.lower + (r.code * 256 + _) % 4294967296 = _
    omega

/-- A reader takes the decision of a writer if that is where the payload lies. -/
theorem bit (h : r.Sync w bytes) (hwide : minRange ≤ w.range) {p : Prob} {b : Bool}
    (hholds : (w.bit p b).Holds bytes) :
    ∃ r', r.bit p = (b, r') ∧ r'.Sync (w.bit p b) bytes := by
  have hnorm : w.normalize = w := if_neg (Nat.not_lt.mpr hwide)
  rw [RangeWriter.bit_eq, hnorm] at hholds ⊢
  have hcode := h.code
  have hrange := h.range
  cases b with
  | false =>
      have hhigh : ofBE (bytes.take (5 + w.count)) < w.lower + p.share w.range := hholds.upper
      refine ⟨{ r with range := p.share r.range }, if_pos (by rw [hrange]; omega), ?_, h.code⟩
      exact congrArg p.share hrange
  | true =>
      have hlow := hholds.lower
      rw [if_pos rfl, RangeWriter.lower_narrow] at hlow
      change w.lower + p.share w.range ≤ ofBE (bytes.take (5 + w.count)) at hlow
      refine ⟨{ range := r.range - p.share r.range, code := r.code - p.share r.range },
        if_neg (by rw [hrange]; omega), ?_, ?_⟩
      · rw [hrange]
        rfl
      · rw [if_pos rfl, RangeWriter.lower_narrow, hrange]
        show w.lower + p.share w.range + (r.code - p.share w.range) =
          ofBE (bytes.take (5 + w.count))
        omega

theorem even (h : r.Sync w bytes) (hw : w.Sound) (hwide : minRange ≤ w.range) {b : Bool}
    (hholds : (w.even b).Holds bytes) :
    ∃ r', r.even = (b, r') ∧ r'.Sync (w.even b) bytes := by
  have hnorm : w.normalize = w := if_neg (Nat.not_lt.mpr hwide)
  have hlt := h.code_lt (hnorm ▸ hholds.of_even)
  rw [RangeWriter.even_eq, hnorm] at hholds ⊢
  have hcode := h.code
  have hrange := h.range
  have hfull := hw.full
  have hlow := hholds.lower
  rw [RangeWriter.lower_narrow] at hlow
  rw [fullRange] at hfull
  cases b with
  | false =>
      have hhigh : ofBE (bytes.take (5 + w.count)) < w.lower + w.range / 2 := hholds.upper
      refine ⟨{ r with range := r.range / 2 }, if_neg ?_, by rw [hrange]; rfl, h.code⟩
      rw [hrange]
      omega
  | true =>
      change w.lower + w.range / 2 ≤ ofBE (bytes.take (5 + w.count)) at hlow
      have habove : (4294967296 + r.code - r.range / 2) % 4294967296 = r.code - w.range / 2 := by
        rw [hrange]
        omega
      refine ⟨{ range := r.range / 2, code := r.code - w.range / 2 }, ?_, by rw [hrange]; rfl, ?_⟩
      · simp only [RangeReader.even]
        rw [habove]
        exact if_pos (by omega)
      · rw [RangeWriter.lower_narrow]
        show w.lower + w.range / 2 + (r.code - w.range / 2) = ofBE (bytes.take (5 + w.count))
        omega

end Sync

end RangeReader

end Lzma
