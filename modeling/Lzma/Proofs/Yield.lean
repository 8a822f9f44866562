import Lzma.Proofs.Trace

/-!
# What a byte of input can yield

Decisions narrow the interval, and only a byte of input widens it again. So wherever a
decoder stands, it gives no more than `Decoder.mostPending` bytes before it needs
another one (`Decoder.Steady`).

The calls of a run are paid for by that. A piece that is given lowers what is left to
give, or a byte was taken, and what is left can rise only to the bound; so each byte
pays for at most `mostPending + 1` pieces (`Stream.decode_paid`, `Decoding.Paid`).
-/

namespace Lzma

/-- Where a byte is needed the interval is narrow, and what is read or copied is short. -/
def Phase.Steady (range : Nat) : Phase → Prop
  | .reading rest => range < minRange ∧ rest.Holds Token.Short
  | .closing => range < minRange
  | .copying count => count ≤ 273
  | _ => True

/-- A byte widens a narrow interval to no more than it was at first. -/
theorem RangeReader.range_shift_le {r : RangeReader} (h : r.range < minRange) (byte : UInt8) :
    (r.shift byte).range ≤ fullRange := by
  show r.range * 256 ≤ fullRange
  rw [minRange] at h
  rw [fullRange]
  omega

namespace Decoder

variable {d : Decoder}

structure Steady (d : Decoder) : Prop where
  range : d.scan.reader.range ≤ fullRange
  phase : d.phase.Steady d.scan.reader.range

/-- The most that a decoder can give before it needs a byte. -/
def mostPending : Nat := 273 * (fullRange + 1)

theorem Steady.pending_le (h : d.Steady) : d.pending ≤ mostPending := by
  have hpending : d.pending ≤ 273 * (d.scan.reader.range + 1) := by
    have hphase := h.phase
    rw [pending]
    cases hd : d.phase with
    | copying count =>
        have hcount : count ≤ 273 := by rwa [hd] at hphase
        dsimp only
        omega
    | _ =>
        dsimp only
        omega
  exact Nat.le_trans hpending (Nat.mul_le_mul_left 273 (Nat.succ_le_succ h.range))

theorem steady_verdict (r : RangeReader) (range : Nat) : (verdict r).Steady range := by
  rw [verdict]
  split <;> trivial

theorem steady_walk (hrange : d.scan.reader.range ≤ fullRange) {tree : Coding Token}
    (htree : tree.Holds Token.Short) : (d.walk tree).Steady := by
  have hle := Coding.range_descend_le tree d.scan
  have hholds := htree.descend d.scan
  have hstops := tree.descend_stops d.scan
  rw [walk]
  rcases hres : tree.descend d.scan with ⟨rest, scan⟩
  rw [hres] at hle hholds hstops
  have hrange' : scan.reader.range ≤ fullRange := Nat.le_trans hle hrange
  rcases rest with (s | _ | _) | _ | _
  · refine ⟨hrange', ?_⟩
    cases s with
    | literal byte => trivial
    | fresh | again | single => exact hholds
  · refine ⟨hrange', ?_⟩
    dsimp only
    split
    · next hs => exact (of_decide_eq_true hs : scan.reader.range < minRange)
    · exact steady_verdict _ _
  · exact ⟨hrange', trivial⟩
  · exact ⟨hrange', hstops.resolve_left (by simp), hholds⟩
  · exact ⟨hrange', hstops.resolve_left (by simp), hholds⟩

theorem steady_next (hrange : d.scan.reader.range ≤ fullRange) : d.next.Steady :=
  steady_walk hrange (Context.short_coding _)

theorem Steady.feed (h : d.Steady) (byte : UInt8) : (d.feed byte).Steady := by
  obtain ⟨hrange, hphase⟩ := h
  rw [Decoder.feed]
  split
  · dsimp only
    split
    · exact steady_next hrange
    · exact ⟨hrange, trivial⟩
  · next hd =>
      rw [hd] at hphase
      exact steady_walk (RangeReader.range_shift_le hphase.1 byte) hphase.2
  · next hd =>
      rw [hd] at hphase
      exact ⟨RangeReader.range_shift_le hphase byte, steady_verdict _ _⟩
  · exact ⟨hrange, hphase⟩

theorem Steady.give (h : d.Steady) (byte : UInt8) : (d.give byte).Steady := by
  obtain ⟨hrange, hphase⟩ := h
  rw [Decoder.give]
  dsimp only
  split
  · next count hd =>
      rw [hd] at hphase
      exact ⟨hrange, Nat.le_of_succ_le hphase⟩
  · exact steady_next hrange

theorem Steady.pumpFrom (h : d.Steady) (input : List UInt8) (room used : Nat)
    (output : List UInt8) : (d.pumpFrom input room used output).coder.Steady := by
  fun_induction Decoder.pumpFrom d input room used output with
  | case1 | case3 | case6 | case7 => exact h
  | case2 d input used output byte hview room ih => exact ih (h.give byte)
  | case4 d room used output hview byte input _ => exact ⟨h.range, trivial⟩
  | case5 d room used output hview byte input _ ih => exact ih (h.feed byte)

/-- A decoder begins with the widest interval and five bytes to wait for. -/
theorem steady_start (props : Properties) (dictSize : Nat) : (start props dictSize).Steady :=
  ⟨Nat.le_refl _, trivial⟩

/-- How many pieces an output makes for the sink. -/
def pieces (output : List UInt8) : Nat := if output = [] then 0 else 1

/-- A pass pays for what it gives: with the bytes that it takes, or with what is left to give. -/
theorem Steady.pump_paid (h : d.Steady) (input : List UInt8) (room : Nat) :
    pieces (d.pump input room).output + (d.pump input room).coder.pending ≤
      (mostPending + 1) * (d.pump input room).used + d.pending := by
  have hpieces : pieces (d.pump input room).output ≤ 1 := by
    rw [pieces]
    split <;> decide
  -- Without input what is left goes down by the output; after a byte it is within the bound.
  by_cases hused : (d.pump input room).used = 0
  · have hless := d.pending_pump_le input room hused
    have hlength : pieces (d.pump input room).output ≤ (d.pump input room).output.length := by
      rw [pieces]
      split
      · exact Nat.zero_le _
      · next hne => exact List.length_pos_iff.mpr hne
    omega
  · have hpending := (h.pumpFrom input room 0 []).pending_le
    have hmost := Nat.le_mul_of_pos_right (mostPending + 1) (Nat.pos_of_ne_zero hused)
    calc pieces (d.pump input room).output + (d.pump input room).coder.pending
        ≤ 1 + mostPending := Nat.add_le_add hpieces hpending
      _ = mostPending + 1 := Nat.add_comm _ _
      _ ≤ (mostPending + 1) * (d.pump input room).used + d.pending :=
          Nat.le_trans hmost (Nat.le_add_right _ _)

end Decoder

theorem Deed.length_emitted (input : List UInt8) (room : Nat) (moved : Decoded) :
    (Deed.decode input room (.ok moved)).emitted.length = Decoder.pieces moved.output := by
  rw [emitted, Decoder.pieces]
  split <;> rfl

namespace Stream

open Decoder

/-- A bound on what a stream can give without further input. -/
def left (s : Stream Decoder) : Nat := if s.stage = .running then s.coder.pending else 0

theorem left_le {s : Stream Decoder} (h : s.coder.Steady) : s.left ≤ mostPending := by
  rw [left]
  split
  · exact h.pending_le
  · exact Nat.zero_le _

theorem call_paid {s : Stream Decoder} (h : s.coder.Steady) (input : List UInt8) (room : Nat) :
    (s.call (.feed input) room).stream.coder.Steady ∧
      match (s.call (.feed input) room).verdict with
      | .error _ => (s.call (.feed input) room).stream.left ≤ s.left
      | .ok _ => pieces (s.call (.feed input) room).output +
          (s.call (.feed input) room).stream.left ≤
            (mostPending + 1) * (s.call (.feed input) room).used + s.left := by
  obtain ⟨coder, stage, stalled, totalIn, totalOut⟩ := s
  cases stage with
  | running =>
      rw [call_eq_advance rfl, advance]
      have hsteady := h.pumpFrom input room 0 []
      have hpaid := h.pump_paid input room
      have hless := coder.pending_pump_le input room
      dsimp only [left, Coder.pass, Call.input, Decoder.pump] at hsteady hpaid hless ⊢
      generalize coder.pumpFrom input room 0 [] = p at hsteady hpaid hless ⊢
      obtain ⟨coder', used, output, outcome⟩ := p
      cases outcome with
      | running =>
          dsimp only
          split
          · next hidle =>
            rw [Bool.and_eq_true, beq_iff_eq, List.isEmpty_iff] at hidle
            split
            · exact ⟨hsteady, Nat.le_trans (Nat.le_add_right _ _) (hless hidle.1)⟩
            · exact ⟨hsteady, hpaid⟩
          · exact ⟨hsteady, hpaid⟩
      | ended => exact ⟨hsteady, Nat.le_trans (Nat.add_le_add_left (Nat.zero_le _) _) hpaid⟩
      | corrupt => exact ⟨hsteady, Nat.zero_le _⟩
  | ended => exact ⟨h, Nat.zero_le _⟩
  | finishing | broken => exact ⟨h, Nat.le_refl _⟩

theorem decode_paid {s s' : Stream Decoder} {input : List UInt8} {room : Nat}
    {result : Except IoError Decoded} (hs : s.coder.Steady)
    (h : s.decode input room = (result, s')) :
    s'.coder.Steady ∧ (Deed.decode input room result).emitted.length + s'.left ≤
      (mostPending + 1) * (Deed.decode input room result).consumed.length + s.left := by
  obtain ⟨hsteady, hpaid⟩ := call_paid hs input room
  cases result with
  | error e =>
      rw [decode] at h
      split at h <;> rename_i hcall <;> cases h
      rw [hcall] at hsteady hpaid
      exact ⟨hsteady, by simpa using hpaid⟩
  | ok moved =>
      have hle := used_decode_le h
      rw [decode] at h
      split at h <;> rename_i hcall <;> cases h
      rw [hcall] at hsteady hpaid
      refine ⟨hsteady, ?_⟩
      rw [Deed.consumed, List.length_take, Nat.min_eq_left hle, Deed.length_emitted]
      exact hpaid

end Stream

namespace Decoding

open Record

variable {ω : Type} [Channel ω]

/-- What a run was given pays for what it gave. -/
structure Paid (t : Traced (Decoding ω)) : Prop where
  steady : t.world.stream.coder.Steady
  paid : (emitted t.deeds).length + t.world.stream.left ≤
    (Decoder.mostPending + 1) * (consumed t.deeds).length + Decoder.mostPending

theorem paid_kept : Pump.Keeps (Paid (ω := ω)) where
  note event t h := ⟨h.steady, by simpa [Journal.note] using h.paid⟩
  read room t h := ⟨h.steady, by simpa [Channel.read] using h.paid⟩
  write bytes t h := ⟨h.steady, by simpa [Channel.write] using h.paid⟩
  decode input room t h := by
    obtain ⟨⟨world, stream⟩, deeds⟩ := t
    obtain ⟨hsteady, hpaid⟩ := h
    dsimp only at hsteady hpaid
    rcases hdecode : stream.decode input room with ⟨result, stream'⟩
    obtain ⟨hsteady', hcall⟩ := Stream.decode_paid hsteady hdecode
    simp only [Pump.decode, decode_eq, hdecode]
    refine ⟨hsteady', ?_⟩
    simp only [emitted_append, consumed_append, emitted_singleton, consumed_singleton,
      List.length_append, Nat.mul_add]
    omega

end Decoding

end Lzma
