import Lzma.Coder.Engine
import Lzma.Payload.Backlog
import Lzma.Payload.Progress

/-!
# Calls that move something bring a stream closer to its end

Runs call a stream again and again. What bounds such a loop is, on the side of a
decoder, what it can still give without input, and on the side of an encoder,
what it has still to do for the data it was given.
-/

namespace Lzma

namespace Stream

variable {κ : Type} [Coder κ]

/-- A call moves what its pass moved, or nothing. -/
theorem call_cases (s : Stream κ) (call : Call) (room : Nat) :
    (s.call call room).used = 0 ∧ (s.call call room).output = [] ∨
      (s.call call room).used = (Coder.pass call room s.coder).used ∧
      (s.call call room).output = (Coder.pass call room s.coder).output ∧
      (s.call call room).stream.coder = (Coder.pass call room s.coder).coder := by
  obtain ⟨coder, stage, stalled, totalIn, totalOut⟩ := s
  rw [Stream.call]
  split
  · exact .inl ⟨rfl, rfl⟩
  · split
    · exact .inl ⟨rfl, rfl⟩
    · refine .inr ?_
      simp only [advance]
      split
      · split
        · split <;> exact ⟨rfl, rfl, rfl⟩
        · exact ⟨rfl, rfl, rfl⟩
      · exact ⟨rfl, rfl, rfl⟩
      · exact ⟨rfl, rfl, rfl⟩

theorem eq_of_decode {s s' : Stream Decoder} {input : List UInt8} {room : Nat} {r : Decoded}
    (h : s.decode input room = (.ok r, s')) :
    r.used = (s.call (.feed input) room).used ∧
      r.output = (s.call (.feed input) room).output ∧
      s' = (s.call (.feed input) room).stream := by
  rw [decode] at h
  split at h <;> rename_i hcall <;> cases h
  rw [hcall]
  exact ⟨rfl, rfl, rfl⟩

theorem used_decode_le {s s' : Stream Decoder} {input : List UInt8} {room : Nat} {r : Decoded}
    (h : s.decode input room = (.ok r, s')) : r.used ≤ input.length := by
  rw [(eq_of_decode h).1]
  rcases call_cases s (.feed input) room with ⟨hu, _⟩ | ⟨hu, _, _⟩
  · rw [hu]
    omega
  · rw [hu]
    exact Coder.used_pass_le (.feed input) room s.coder

theorem length_decode_le {s s' : Stream Decoder} {input : List UInt8} {room : Nat} {r : Decoded}
    (h : s.decode input room = (.ok r, s')) : r.output.length ≤ room := by
  rw [(eq_of_decode h).2.1]
  rcases call_cases s (.feed input) room with ⟨_, ho⟩ | ⟨_, ho, _⟩
  · rw [ho]
    exact Nat.zero_le _
  · rw [ho]
    exact Coder.length_pass_le (.feed input) room s.coder

/-- A decoder that gives something without taking anything has less left to give. -/
theorem pending_decode_lt {s s' : Stream Decoder} {input : List UInt8} {room : Nat} {r : Decoded}
    (h : s.decode input room = (.ok r, s')) (hused : r.used = 0) (hout : r.output ≠ []) :
    s'.coder.pending < s.coder.pending := by
  obtain ⟨hu, ho, rfl⟩ := eq_of_decode h
  rw [hu] at hused
  rw [ho] at hout
  rcases call_cases s (.feed input) room with ⟨_, hnil⟩ | ⟨hu, ho, hcoder⟩
  · exact absurd hnil hout
  · rw [hu] at hused
    rw [ho] at hout
    rw [hcoder]
    have hle := Decoder.pending_pump_le s.coder input room hused
    exact Nat.lt_of_lt_of_le (Nat.lt_add_of_pos_right (List.length_pos_iff.mpr hout)) hle

theorem eq_of_encodeCall {s s' : Stream Encoder} {call : Call} {room : Nat} {r : Encoded}
    (h : s.encodeCall call room = (.ok r, s')) :
    r.used = (s.call call room).used ∧ r.output = (s.call call room).output ∧
      s' = (s.call call room).stream := by
  rw [encodeCall] at h
  split at h <;> rename_i hcall <;> cases h
  rw [hcall]
  exact ⟨rfl, rfl, rfl⟩

/-- An encoder that gives something without taking anything has less left to do. -/
theorem less_encodeCall {s s' : Stream Encoder} {call : Call} {room : Nat} {r : Encoded}
    (h : s.encodeCall call room = (.ok r, s')) (hused : r.used = 0) (hout : r.output ≠ []) :
    s'.coder.Less s.coder := by
  obtain ⟨hu, ho, rfl⟩ := eq_of_encodeCall h
  rw [hu] at hused
  rw [ho] at hout
  rcases call_cases s call room with ⟨_, hnil⟩ | ⟨hu, ho, hcoder⟩
  · exact absurd hnil hout
  · rw [hu] at hused
    rw [ho] at hout
    rw [hcoder]
    exact Encoder.less_pass hused hout

theorem used_finish {s s' : Stream Encoder} {room : Nat} {r : Encoded}
    (h : s.finish room = (.ok r, s')) : r.used = 0 := by
  rw [(eq_of_encodeCall h).1]
  rcases call_cases s .finish room with ⟨hu, _⟩ | ⟨hu, _, _⟩
  · exact hu
  · rw [hu]
    exact Nat.le_zero.mp (Coder.used_pass_le .finish room s.coder)

end Stream

end Lzma
