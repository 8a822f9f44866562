import Lzma.Symbol.Bits
import Lzma.Symbol.Fits
import Mathlib.Algebra.Group.Nat.Defs

/-!
# A symbol's bits lead to it

The bits of a symbol are given without the tree that they are a walk down. Here
the two are brought together: in any context that a symbol fits, its bits lead
from the root of the tree to the symbol and no further. The end marker is at its
place in every tree.

The lemmas follow the tree from the leaves up: plain numbers first, then lengths
and distances, then the kinds of symbols.
-/

namespace Lzma

namespace Coding

variable {α : Type} {k : Nat → Coding α} {rest : List Bool}

/-! ## Numbers -/

/-- One more bit in front of a number that is being read highest bit first. -/
theorem node_testBit (node n value : Nat) :
    (2 * node + (value.testBit n).toNat) * 2 ^ n + value % 2 ^ n =
      node * 2 ^ (n + 1) + value % 2 ^ (n + 1) := by
  rw [Nat.toNat_testBit, Nat.mod_pow_succ, Nat.add_mul, Nat.pow_succ, Nat.mul_comm (2 ^ n) 2,
    ← Nat.mul_assoc, Nat.mul_comm node 2, Nat.mul_comm (2 ^ n)]
  omega

theorem follow_tree (base n node value : Nat) :
    (tree base n node k).follow (bitsOf n value ++ rest) =
      (k (node * 2 ^ n + value % 2 ^ n)).follow rest := by
  induction n generalizing node with
  | zero => rw [Nat.pow_zero, Nat.mod_one, Nat.mul_one]; rfl
  | succ n ih =>
      show (tree base n (2 * node + (value.testBit n).toNat) k).follow (bitsOf n value ++ rest) = _
      rw [ih, node_testBit]

theorem follow_evenBits (n high value : Nat) :
    (evenBits n high k).follow (bitsOf n value ++ rest) =
      (k (high * 2 ^ n + value % 2 ^ n)).follow rest := by
  induction n generalizing high with
  | zero => rw [Nat.pow_zero, Nat.mod_one, Nat.mul_one]; rfl
  | succ n ih =>
      show (evenBits n (2 * high + (value.testBit n).toNat) k).follow (bitsOf n value ++ rest) = _
      rw [ih, node_testBit]

/-- Both ways on from a node stand at the same place of the number. -/
theorem follow_matchedTree (base : Nat) (expected : UInt8) (n node value : Nat) :
    (matchedTree base expected n node k).follow (bitsOf n value ++ rest) =
      (k (node * 2 ^ n + value % 2 ^ n)).follow rest := by
  induction n generalizing node with
  | zero => rw [Nat.pow_zero, Nat.mod_one, Nat.mul_one]; rfl
  | succ n ih =>
      show (if value.testBit n = expected.toNat.testBit n then
          matchedTree base expected n (2 * node + (value.testBit n).toNat) k
        else tree base n (2 * node + (value.testBit n).toNat) k).follow
          (bitsOf n value ++ rest) = _
      split
      · rw [ih, node_testBit]
      · rw [follow_tree, node_testBit]

theorem follow_reverseTree (base n node weight sum value : Nat) :
    (reverseTree base n node weight sum k).follow (reverseBitsOf n value ++ rest) =
      (k (sum + weight * (value % 2 ^ n))).follow rest := by
  induction n generalizing node weight sum value with
  | zero => rw [Nat.pow_zero, Nat.mod_one]; rfl
  | succ n ih =>
      have hbit : (value % 2 == 1).toNat = value % 2 := by
        rcases Nat.mod_two_eq_zero_or_one value with h | h <;> rw [h] <;> rfl
      show (reverseTree base n (2 * node + (value % 2 == 1).toNat) (2 * weight)
        (sum + (value % 2 == 1).toNat * weight) k).follow (reverseBitsOf n (value / 2) ++ rest) = _
      rw [ih, hbit, Nat.pow_succ, Nat.mul_comm (2 ^ n) 2, Nat.mod_mul, Nat.mul_add,
        Nat.mul_assoc 2, Nat.mul_left_comm 2, Nat.mul_comm (value % 2), Nat.add_assoc]

/-! ## Lengths and distances -/

theorem follow_length (base slot : Nat) {length : Nat} (hlow : 2 ≤ length) (hhigh : length ≤ 273) :
    (Coding.length base slot k).follow (lengthBits length ++ rest) = (k length).follow rest := by
  rw [lengthBits]
  split
  · show (tree (Layout.shortLength base slot) 3 1 fun node => k (node - 8 + 2)).follow
      (bitsOf 3 (length - 2) ++ rest) = _
    rw [follow_tree, show 1 * 2 ^ 3 + (length - 2) % 2 ^ 3 - 8 + 2 = length by omega]
  · split
    · show (tree (Layout.middleLength base slot) 3 1 fun node => k (node - 8 + 10)).follow
        (bitsOf 3 (length - 10) ++ rest) = _
      rw [follow_tree, show 1 * 2 ^ 3 + (length - 10) % 2 ^ 3 - 8 + 10 = length by omega]
    · show (tree (Layout.longLength base) 8 1 fun node => k (node - 256 + 18)).follow
        (bitsOf 8 (length - 18) ++ rest) = _
      rw [follow_tree, show 1 * 2 ^ 8 + (length - 18) % 2 ^ 8 - 256 + 18 = length by omega]

/-- A distance is the start of its magnitude and so many bits as the magnitude says. -/
theorem magnitudeOf_spec {distance : Nat} (hlow : 4 ≤ distance) (hhigh : distance ≤ endDistance) :
    4 ≤ magnitudeOf distance ∧ magnitudeOf distance < 64 ∧
      magnitudeStart (magnitudeOf distance) ≤ distance ∧
      distance - magnitudeStart (magnitudeOf distance) <
        2 ^ (magnitudeOf distance / 2 - 1) := by
  have hne : distance ≠ 0 := by omega
  have hlog : 2 ≤ distance.log2 := (Nat.le_log2 hne).mpr hlow
  have hlog' : distance.log2 < 32 := (Nat.log2_lt hne).mpr (Nat.lt_succ_of_le hhigh)
  obtain ⟨e, he⟩ : ∃ e, distance.log2 = e + 1 := Nat.exists_eq_add_of_le' (Nat.le_of_succ_le hlog)
  have hpow := Nat.log2_self_le hne
  have hpow' := @Nat.lt_log2_self distance
  rw [he, Nat.pow_succ] at hpow
  rw [he, Nat.pow_succ, Nat.pow_succ] at hpow'
  have hpos := Nat.two_pow_pos e
  -- the two leading bits are a 2 or a 3
  have htop : 2 ≤ distance / 2 ^ e := (Nat.le_div_iff_mul_le hpos).mpr (by omega)
  have htop' : distance / 2 ^ e < 4 := (Nat.div_lt_iff_lt_mul hpos).mpr (by omega)
  have hmagnitude : magnitudeOf distance = 2 * (e + 1) + distance / 2 ^ e % 2 := by
    rw [magnitudeOf, if_neg (Nat.not_lt.mpr hlow), he, Nat.add_sub_cancel,
      Nat.shiftRight_eq_div_pow]
  have hhalf : magnitudeOf distance / 2 - 1 = e := by omega
  have hstart : magnitudeStart (magnitudeOf distance) = distance / 2 ^ e * 2 ^ e := by
    rw [magnitudeStart, hhalf]
    congr 1
    omega
  have hdiv := Nat.div_add_mod' distance (2 ^ e)
  have hmod := Nat.mod_lt distance hpos
  rw [hstart, hhalf]
  omega

theorem follow_distance (length : Nat) {distance : Nat} (hhigh : distance ≤ endDistance) :
    (Coding.distance length k).follow (distanceBits distance ++ rest) =
      (k distance).follow rest := by
  simp only [Coding.distance, distanceBits]
  rw [List.append_assoc, follow_tree]
  by_cases hlow : distance < 4
  · have hmagnitude : magnitudeOf distance = distance := if_pos hlow
    rw [hmagnitude, if_pos (by omega), if_pos hlow]
    show (k _).follow rest = _
    rw [show 1 * 2 ^ 6 + distance % 2 ^ 6 - 64 = distance by omega]
  · obtain ⟨h4, h64, hle, hlt⟩ := magnitudeOf_spec (Nat.le_of_not_lt hlow) hhigh
    generalize magnitudeOf distance = magnitude at *
    rw [show 1 * 2 ^ 6 + magnitude % 2 ^ 6 - 64 = magnitude by omega,
      if_neg (Nat.not_lt.mpr h4), if_neg (Nat.not_lt.mpr h4)]
    split
    · rw [follow_reverseTree, Nat.mod_eq_of_lt hlt, Nat.one_mul, Nat.add_sub_cancel' hle]
    · next h14 =>
        have hcount : magnitude / 2 - 1 = magnitude / 2 - 1 - 4 + 4 := by omega
        rw [hcount, Nat.pow_succ, Nat.pow_succ, Nat.pow_succ, Nat.pow_succ] at hlt
        have hhigh' : (distance - magnitudeStart magnitude) / 16 <
            2 ^ (magnitude / 2 - 1 - 4) := by omega
        rw [List.append_assoc, follow_evenBits, follow_reverseTree, Nat.zero_mul, Nat.zero_add,
          Nat.mod_eq_of_lt hhigh']
        congr 2
        omega

end Coding

/-! ## Symbols -/

namespace Context

variable {c : Context} {rest : List Bool}

theorem follow_literal (byte : UInt8) :
    c.coding.follow ((Symbol.literal byte).bits ++ rest) =
      some (.symbol (.literal byte), rest) := by
  have hbyte : UInt8.ofNat (1 * 2 ^ 8 + byte.toNat % 2 ^ 8 - 256) = byte := by
    have hlt := byte.toNat_lt
    rw [show 1 * 2 ^ 8 + byte.toNat % 2 ^ 8 - 256 = byte.toNat by omega]
    exact UInt8.ofNat_toNat
  show c.literal.follow (bitsOf 8 byte.toNat ++ rest) = _
  simp only [literal]
  split
  · rw [Coding.follow_tree, hbyte]
    rfl
  · rw [Coding.follow_matchedTree, hbyte]
    rfl

theorem follow_fresh {length distance : Nat} (hlow : 2 ≤ length) (hhigh : length ≤ 273)
    (hpos : 1 ≤ distance) (hreach : distance ≤ c.reach) (hend : distance ≤ endDistance) :
    c.coding.follow ((Symbol.fresh length distance).bits ++ rest) =
      some (.symbol (.fresh length distance), rest) := by
  show c.fresh.follow (lengthBits length ++ distanceBits (distance - 1) ++ rest) = _
  rw [fresh]
  rw [List.append_assoc, Coding.follow_length _ _ hlow hhigh,
    Coding.follow_distance _ (Nat.le_trans (Nat.sub_le _ _) hend), if_neg (by omega),
    if_neg (by omega), Nat.sub_add_cancel hpos]
  rfl

theorem follow_endMarker (c : Context) (rest : List Bool) :
    c.coding.follow (endMarkerBits ++ rest) = some (.endMarker, rest) := by
  show c.fresh.follow (lengthBits 2 ++ distanceBits endDistance ++ rest) = _
  rw [fresh]
  rw [List.append_assoc, Coding.follow_length _ _ (Nat.le_refl 2) (by decide),
    Coding.follow_distance _ (Nat.le_refl _), if_pos rfl]
  rfl

theorem follow_again {length : Nat} (hlow : 2 ≤ length) (hhigh : length ≤ 273) (rank : Rank)
    (hreach : 0 < c.reach) :
    c.coding.follow ((Symbol.again length rank).bits ++ rest) =
      some (.symbol (.again length rank), rest) := by
  have hcopy : (Coding.length Layout.repeatLength c.slot fun length =>
      .done (Token.symbol (.again length rank))).follow (lengthBits length ++ rest) =
        some (.symbol (.again length rank), rest) := Coding.follow_length _ _ hlow hhigh
  show (if c.reach = 0 then .done .invalid else c.again : Coding Token).follow
    (rank.bits ++ lengthBits length ++ rest) = _
  rw [if_neg (Nat.ne_of_gt hreach), List.append_assoc]
  cases rank <;> exact hcopy

theorem follow_single (hreach : 0 < c.reach) :
    c.coding.follow (Symbol.single.bits ++ rest) = some (.symbol .single, rest) := by
  show (if c.reach = 0 then .done .invalid else c.again : Coding Token).follow
    ([false, false] ++ rest) = _
  rw [if_neg (Nat.ne_of_gt hreach)]
  rfl

end Context

/-- In a context that it fits, a symbol's bits lead to it. -/
theorem Symbol.Fits.follow {p : Past} {dictSize : Nat} {s : Symbol} (h : s.Fits p dictSize)
    (hdict : 0 < dictSize) (hend : dictSize ≤ endDistance) (props : Properties)
    (rest : List Bool) :
    (p.context props dictSize).coding.follow (s.bits ++ rest) = some (.symbol s, rest) := by
  cases s with
  | literal byte => exact Context.follow_literal byte
  | fresh length distance =>
      obtain ⟨⟨hlow, hhigh⟩, hpos, hreach⟩ := h
      exact Context.follow_fresh hlow hhigh hpos hreach
        (Nat.le_trans (Nat.le_trans hreach (Nat.min_le_right _ _)) hend)
  | again length rank =>
      obtain ⟨⟨hlow, hhigh⟩, hpos⟩ := h
      exact Context.follow_again hlow hhigh rank (Nat.lt_min.mpr ⟨hpos, hdict⟩)
  | single => exact Context.follow_single (Nat.lt_min.mpr ⟨h, hdict⟩)

end Lzma
