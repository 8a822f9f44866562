import Lzma.Payload.Decoder

/-!
# A decoder that gets no input gives only so much output

A run that drains a decoder must come to an end also when no further input is
offered. It does, because every decision narrows the interval, and an interval
that has become narrow needs a byte: `Decoder.pending` counts the bytes still to
be given of the symbol at hand, and the most that could follow from the interval
as it is. `pending_give_lt` says that giving a byte lowers it.
-/

namespace Lzma

-- A power of numbers is the core library's, whatever stands beside this module.
attribute [local instance (high)] instPowNat

namespace Coding

variable {α : Type}

/-- All leaves of a tree have a property. -/
def Holds (P : α → Prop) : Coding α → Prop
  | .done a => P a
  | .bit _ next | .even next => ∀ b, (next b).Holds P

variable {P : α → Prop}

theorem holds_tree {base : Nat} {k : Nat → Coding α} :
    ∀ {n node : Nat}, (∀ v, v < (node + 1) * 2 ^ n → (k v).Holds P) →
      (tree base n node k).Holds P
  | 0, node, h => h node (by simp)
  | n + 1, node, h => fun b => holds_tree fun v hv => h v (by
      have hb : b.toNat ≤ 1 := Bool.toNat_le b
      have hle : (2 * node + b.toNat + 1) * 2 ^ n ≤ (node + 1) * 2 * 2 ^ n :=
        Nat.mul_le_mul_right _ (by omega)
      rw [Nat.pow_succ]
      calc v < (2 * node + b.toNat + 1) * 2 ^ n := hv
        _ ≤ (node + 1) * 2 * 2 ^ n := hle
        _ = (node + 1) * (2 ^ n * 2) := by rw [Nat.mul_assoc, Nat.mul_comm 2])

theorem holds_reverseTree {base : Nat} {k : Nat → Coding α} (h : ∀ v, (k v).Holds P) :
    ∀ {n node weight sum : Nat}, (reverseTree base n node weight sum k).Holds P
  | 0, _, _, sum => h sum
  | _ + 1, _, _, _ => fun _ => holds_reverseTree h

theorem holds_evenBits {k : Nat → Coding α} (h : ∀ v, (k v).Holds P) :
    ∀ {n value : Nat}, (evenBits n value k).Holds P
  | 0, value => h value
  | _ + 1, _ => fun _ => holds_evenBits h

theorem holds_matchedTree {base : Nat} {expected : UInt8} {k : Nat → Coding α}
    (h : ∀ v, (k v).Holds P) : ∀ {n node : Nat}, (matchedTree base expected n node k).Holds P
  | 0, node => h node
  | n + 1, node => fun b => by
      show Holds P (if _ then _ else _)
      split
      · exact holds_matchedTree h
      · exact holds_tree fun v _ => h v

theorem holds_length {base slot : Nat} {k : Nat → Coding α}
    (h : ∀ v, v ≤ 273 → (k v).Holds P) : (length base slot k).Holds P := by
  rintro (_ | _)
  · exact holds_tree fun v hv => h _ (by omega)
  · rintro (_ | _)
    · exact holds_tree fun v hv => h _ (by omega)
    · exact holds_tree fun v hv => h _ (by omega)

theorem holds_distance {length : Nat} {k : Nat → Coding α} (h : ∀ v, (k v).Holds P) :
    (distance length k).Holds P := by
  apply holds_tree
  intro v _
  dsimp only
  split
  · exact h _
  · split
    · exact holds_reverseTree h
    · exact holds_evenBits fun _ => holds_reverseTree h

/-- Decisions never widen the interval. -/
theorem range_descend_le (t : Coding α) (s : CodeReader) :
    (t.descend s).2.reader.range ≤ s.reader.range := by
  induction t generalizing s with
  | done a => exact Nat.le_refl _
  | bit context next ih =>
      cases hs : s.reader.starved with
      | true => simp [descend, hs]
      | false =>
          simp only [descend, hs, Bool.false_eq_true, if_false]
          exact Nat.le_trans (ih _ _) (Nat.le_of_lt (RangeReader.range_bit_lt _ hs))
  | even next ih =>
      cases hs : s.reader.starved with
      | true => simp [descend, hs]
      | false =>
          simp only [descend, hs, Bool.false_eq_true, if_false]
          exact Nat.le_trans (ih _ _) (RangeReader.range_even_le _)

/-- A tree with a decision in it is not walked to its end without narrowing the interval. -/
theorem range_descend_bit_lt {context : Nat} {next : Bool → Coding α} {s s' : CodeReader} {a : α}
    (h : (Coding.bit context next).descend s = (.done a, s')) :
    s'.reader.range < s.reader.range := by
  cases hs : s.reader.starved with
  | true => simp [descend, hs] at h
  | false =>
      simp only [descend, hs, Bool.false_eq_true, if_false] at h
      have hle := congrArg (fun r => r.2.reader.range) h
      dsimp only at hle
      rw [← hle]
      exact Nat.lt_of_le_of_lt (range_descend_le _ _) (RangeReader.range_bit_lt _ hs)

theorem Holds.descend {t : Coding α} (ht : t.Holds P) (s : CodeReader) :
    (t.descend s).1.Holds P := by
  induction t generalizing s with
  | done a => exact ht
  | bit context next ih =>
      rw [Coding.descend]
      split
      · exact ht
      · exact ih _ (ht _) _
  | even next ih =>
      rw [Coding.descend]
      split
      · exact ht
      · exact ih _ (ht _) _

/-- A walk ends in a leaf of its tree. -/
theorem holds_of_descend {t : Coding α} {s s' : CodeReader} {a : α}
    (ht : t.Holds P) (h : t.descend s = (.done a, s')) : P a := by
  have hholds := ht.descend s
  rwa [h] at hholds

/-- A walk ends in a leaf, or where the interval has become narrow. -/
theorem descend_stops (t : Coding α) (s : CodeReader) :
    (∃ a, (t.descend s).1 = .done a) ∨ (t.descend s).2.reader.range < minRange := by
  induction t generalizing s with
  | done a => exact .inl ⟨a, rfl⟩
  | bit context next ih =>
      rw [descend]
      split
      · next hs => exact .inr (of_decide_eq_true hs)
      · exact ih _ _
  | even next ih =>
      rw [descend]
      split
      · next hs => exact .inr (of_decide_eq_true hs)
      · exact ih _ _

end Coding

/-- The token stands for no more than 273 bytes. -/
def Token.Short : Token → Prop
  | .symbol s => s.length ≤ 273
  | .endMarker | .invalid => True

namespace Context

variable (c : Context)

theorem short_literal : c.literal.Holds Token.Short := by
  have hone (v : Nat) : (Coding.done (Token.symbol (.literal (UInt8.ofNat (v - 256))))).Holds
      Token.Short := show 1 ≤ 273 by decide
  simp only [literal]
  split
  · exact Coding.holds_tree fun v _ => hone v
  · exact Coding.holds_matchedTree hone

theorem short_fresh : c.fresh.Holds Token.Short := by
  refine Coding.holds_length fun v hv => Coding.holds_distance fun d => ?_
  show Token.Short (if _ then _ else _)
  by_cases hend : d = endDistance
  · rw [if_pos hend]
    trivial
  · rw [if_neg hend]
    split
    · trivial
    · exact hv

theorem short_again : c.again.Holds Token.Short := by
  have hcopy (rank : Rank) : (Coding.length Layout.repeatLength c.slot fun length =>
      .done (.symbol (.again length rank))).Holds Token.Short :=
    Coding.holds_length fun v hv => hv
  intro b
  cases b with
  | false =>
      intro b
      cases b with
      | false => exact (show 1 ≤ 273 by decide)
      | true => exact hcopy .latest
  | true =>
      intro b
      cases b with
      | false => exact hcopy .second
      | true =>
          intro b
          cases b with
          | false => exact hcopy .third
          | true => exact hcopy .fourth

theorem short_coding : c.coding.Holds Token.Short := by
  intro b
  cases b with
  | false => exact c.short_literal
  | true =>
      intro b
      cases b with
      | false => exact c.short_fresh
      | true =>
          simp only [if_true]
          split
          · trivial
          · exact c.short_again

end Context

namespace Decoder

/-- A bound on what the decoder can give without further input. -/
def pending (d : Decoder) : Nat :=
  (match d.phase with
    | .holding _ => 1
    | .copying count => max count 1
    | _ => 0) + 273 * d.scan.reader.range

theorem pending_verdict (d : Decoder) (r : RangeReader) :
    ({ d with phase := verdict r } : Decoder).pending = 273 * d.scan.reader.range := by
  simp only [pending, verdict]
  by_cases h : r.code = 0
  · rw [if_pos h, Nat.zero_add]
  · rw [if_neg h, Nat.zero_add]

theorem pending_next_le (d : Decoder) : d.next.pending ≤ 273 * d.scan.reader.range := by
  have hle := Coding.range_descend_le (d.past.context d.props d.dictSize).coding d.scan
  have hdone {a : Token} {s : CodeReader}
      (h : (d.past.context d.props d.dictSize).coding.descend d.scan = (.done a, s)) :
      s.reader.range < d.scan.reader.range ∧ a.Short :=
    ⟨Coding.range_descend_bit_lt h, Coding.holds_of_descend (Context.short_coding _) h⟩
  rw [next, walk]
  split <;> rename_i hres <;> rw [hres] at hle <;> dsimp only at hle
  · obtain ⟨hlt, hshort⟩ := hdone hres
    rename_i s scan
    cases s <;> simp only [pending, Token.Short, Symbol.length] at hshort ⊢ <;> omega
  · rename_i scan
    cases hs : scan.reader.starved with
    | true =>
        simp only [pending, if_true]
        omega
    | false =>
        simp only [Bool.false_eq_true, if_false]
        rw [pending_verdict { d with scan }]
        exact Nat.mul_le_mul_left _ hle
  · simp only [pending]
    omega
  · simp only [pending]
    omega

/-- Giving a byte lowers what is left to give. -/
theorem pending_give_lt {d : Decoder} {byte : UInt8} (h : d.view = .gives byte) :
    (d.give byte).pending < d.pending := by
  have hnext : ({ d with past := d.past.push byte } : Decoder).next.pending ≤
    273 * d.scan.reader.range := pending_next_le _
  rw [view] at h
  simp only [give]
  split
  · rename_i count hphase
    simp only [pending, hphase]
    omega
  · refine Nat.lt_of_le_of_lt hnext ?_
    cases hphase : d.phase with
    | holding _ | copying _ =>
        simp only [pending, hphase]
        omega
    | opening _ | reading _ | closing | finished | corrupt => simp [hphase] at h

theorem used_le_pumpFrom (d : Decoder) (input : List UInt8) (room used : Nat)
    (output : List UInt8) : used ≤ (d.pumpFrom input room used output).used := by
  fun_induction pumpFrom d input room used output with
  | case1 | case3 | case4 | case6 | case7 => exact Nat.le_refl _
  | case2 d input used output byte hview room ih => exact ih
  | case5 d room used output hview byte input _ ih => exact Nat.le_of_succ_le ih

theorem pending_pumpFrom_le (d : Decoder) (input : List UInt8) (room used : Nat)
    (output : List UInt8) (h : (d.pumpFrom input room used output).used = used) :
    (d.pumpFrom input room used output).coder.pending +
      (d.pumpFrom input room used output).output.length ≤ d.pending + output.length := by
  fun_induction pumpFrom d input room used output with
  | case1 | case3 | case6 | case7 => simp
  | case4 d room used output hview byte input _ =>
      simp only [pending, List.length_reverse]
      omega
  | case2 d input used output byte hview room ih =>
      have hlt := pending_give_lt hview
      have hrec := ih h
      simp only [List.length_cons] at hrec
      omega
  | case5 d room used output hview byte input _ ih =>
      have hle := used_le_pumpFrom (d.feed byte) input room (used + 1) output
      omega

/-- A pass that takes nothing lowers what is left by what it gives. -/
theorem pending_pump_le (d : Decoder) (input : List UInt8) (room : Nat)
    (h : (d.pump input room).used = 0) :
    (d.pump input room).coder.pending + (d.pump input room).output.length ≤ d.pending := by
  simpa [pump] using pending_pumpFrom_le d input room 0 [] h

end Decoder

end Lzma
