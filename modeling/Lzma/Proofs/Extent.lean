import Lzma.Proofs.Expansion
import Lzma.Proofs.Scripted

/-!
# The extent of a stream

A payload says itself where it ends, so a stream that can be decompressed has an
extent: the header and the payload up to and with its end marker. Whatever comes
behind the extent is not looked at. Cut short of it, the stream is found to be
incomplete, at whatever byte the cut is made, and never to be malformed.
-/

namespace Lzma

namespace Extraction

variable {bytes : List UInt8} {ending : Ending}

/-- What there must be for a run to succeed. -/
theorem of_result_ok (h : (of bytes ending).result = .ok ()) :
    ∃ header d, headerSize ≤ bytes.length ∧ Header.parse (bytes.take headerSize) = .ok header ∧
      Engine.decoderFor header = .ok d ∧ (d.whole (bytes.drop headerSize)).outcome = .ended := by
  cases hparse : Header.ofStream bytes ending with
  | error e =>
      rw [of_error hparse] at h
      cases h
  | ok header =>
      have hle : headerSize ≤ bytes.length := by
        apply Nat.le_of_not_lt
        intro hlt
        rw [Header.ofStream_of_lt hlt] at hparse
        cases hparse
      cases hdecoder : Engine.decoderFor header with
      | error fault =>
          rw [of_refused hparse hdecoder] at h
          cases h
      | ok d =>
          rw [of_ok hparse hdecoder] at h
          rw [Header.ofStream_of_le hle] at hparse
          refine ⟨header, d, hle, hparse, hdecoder, ?_⟩
          dsimp only at h
          cases hout : (d.whole (bytes.drop headerSize)).outcome with
          | ended => rfl
          | corrupt =>
              rw [hout] at h
              cases h
          | running =>
              rw [hout] at h
              cases h

end Extraction

namespace Decompressor

variable {bytes : List UInt8} {header : Header} {d : Decoder}

theorem everyRun_extended (hle : headerSize ≤ bytes.length)
    (hparse : Header.parse (bytes.take headerSize) = .ok header)
    (hdecoder : Engine.decoderFor header = .ok d)
    (hended : (d.whole (bytes.drop headerSize)).outcome = .ended) (rest : List UInt8)
    (ending : Ending) :
    EveryRun (bytes.take (headerSize + (d.whole (bytes.drop headerSize)).used) ++ rest) ending
      fun result header' out => result = .ok () ∧ header' = some header ∧
        out = (d.whole (bytes.drop headerSize)).output := by
  rw [List.take_add, List.append_assoc]
  have hlen : (bytes.take headerSize).length = headerSize := by
    rw [List.length_take, Nat.min_eq_left hle]
  have hx := Extraction.of_parsed (bytes.take headerSize ++ ((bytes.drop headerSize).take
      (d.whole (bytes.drop headerSize)).used ++ rest))
    (by rw [List.length_append, hlen]; exact Nat.le_add_right _ _)
    (by rw [List.take_left' hlen]; exact hparse) hdecoder ending
  rw [List.drop_left' hlen, Decoder.whole_take_append rest hended, hended] at hx
  apply everyRun_of
  intro out _ hall
  rw [hx] at hall ⊢
  exact ⟨rfl, rfl, hall (by simp [Extraction.Settled, Outcome.result])⟩

theorem everyRun_cut (hle : headerSize ≤ bytes.length)
    (hparse : Header.parse (bytes.take headerSize) = .ok header)
    (hdecoder : Engine.decoderFor header = .ok d) {j : Nat} (hj : headerSize ≤ j)
    (hlt : j < headerSize + (d.whole (bytes.drop headerSize)).used) :
    EveryRun (bytes.take j) .ended fun result _ out => result = .error .insufficientInput ∧
      out <+: (d.whole (bytes.drop headerSize)).output := by
  obtain ⟨i, rfl⟩ := Nat.exists_eq_add_of_le hj
  obtain ⟨hrunning, hprefix⟩ := Decoder.whole_take_of_lt (d := d) (Nat.lt_of_add_lt_add_left hlt)
  have hx := Extraction.of_parsed (bytes.take (headerSize + i))
    (by rw [List.length_take]; omega)
    (by rw [List.take_take, Nat.min_eq_left hj]; exact hparse) hdecoder .ended
  rw [List.drop_take, Nat.add_sub_cancel_left, hrunning] at hx
  apply everyRun_of
  intro out hout _
  rw [hx] at hout ⊢
  exact ⟨rfl, hout.trans hprefix⟩

theorem everyRun_short {j : Nat} (hj : j < headerSize) :
    EveryRun (bytes.take j) .ended fun result header' out =>
      (∃ e, result = .error (.input e) ∧ e.kind = .unexpectedEof) ∧ header' = none ∧ out = [] := by
  have hlt : (bytes.take j).length < headerSize := by
    simp only [List.length_take]
    omega
  apply everyRun_of
  intro out hout _
  rw [Extraction.of_error (Header.ofStream_of_lt hlt .ended)] at hout ⊢
  exact ⟨⟨_, rfl, rfl⟩, rfl, List.prefix_nil.mp hout⟩

section

variable {ω : Type} [Channel ω] [Fair ω] [Provident]

/--
Where a run has succeeded, every run over the extent of its stream does, whatever comes
behind it, and none over a part of the extent does.
-/
theorem extent_exact {a : Allocator ω} (ha : a.Grants) {w w' : ω} {c : Decompressor ω}
    {ending : Ending} (hw : Fair.scene w = some ⟨bytes, some ending, []⟩)
    (hrun : ({ allocator := a } : Decompressor ω).run w = (.ok (), c, w')) :
    ∃ header d s, c.header = some header ∧ Fair.scene w' = some s ∧
      Header.parse (bytes.take headerSize) = .ok header ∧ Engine.decoderFor header = .ok d ∧
      let k := headerSize + (d.whole (bytes.drop headerSize)).used
      k ≤ bytes.length ∧
      (∀ rest ending, EveryRun (bytes.take k ++ rest) ending fun result header' out =>
        result = .ok () ∧ header' = some header ∧ out = s.delivered) ∧
      (∀ j, headerSize ≤ j → j < k → EveryRun (bytes.take j) .ended fun result _ out =>
        result = .error .insufficientInput ∧ out <+: s.delivered) ∧
      ∀ j, j < headerSize → EveryRun (bytes.take j) .ended fun result header' out =>
        (∃ e, result = .error (.input e) ∧ e.kind = .unexpectedEof) ∧ header' = none ∧
          out = [] := by
  obtain ⟨c₁, w₁, rest, ending₁, out, hrun₁, hw₁, hheader, -, -, -, hall, -⟩ := run_spec ha hw
  rw [hrun] at hrun₁
  obtain ⟨hok, hrest⟩ := Prod.mk.inj hrun₁
  obtain ⟨rfl, rfl⟩ := Prod.mk.inj hrest
  obtain ⟨header, d, hle, hparse, hdecoder, hended⟩ := Extraction.of_result_ok hok.symm
  rw [Extraction.of_parsed bytes hle hparse hdecoder] at hheader hall
  obtain rfl : out = _ := hall fun e he => by rw [hended] at he; cases he
  have hused := Decoder.used_whole_le d (bytes.drop headerSize)
  simp only [List.length_drop] at hused
  exact ⟨header, d, _, hheader, hw₁, hparse, hdecoder, by omega,
    everyRun_extended hle hparse hdecoder hended,
    fun j hj hlt => everyRun_cut hle hparse hdecoder hj hlt, fun j hj => everyRun_short hj⟩

end

/-- Two bytes and a copy of them: an extent, whatever comes behind it and wherever it is cut. -/
theorem extent_exact_of_copy :
    let h : Header := { lc := 3, pb := 2, dictSize := 4096 }
    let bytes := h.stream [.literal 97, .literal 98, .fresh 6 2]
    ∃ c w', ({ allocator := .standard } : Decompressor _).run (Exchange.ofBytes 4 bytes ()) =
        (.ok (), c, w') ∧
      ∃ header d s, c.header = some header ∧ Fair.scene w' = some s ∧
        Header.parse (bytes.take headerSize) = .ok header ∧ Engine.decoderFor header = .ok d ∧
        let k := headerSize + (d.whole (bytes.drop headerSize)).used
        k ≤ bytes.length ∧
        (∀ rest ending, EveryRun (bytes.take k ++ rest) ending fun result header' out =>
          result = .ok () ∧ header' = some header ∧ out = s.delivered) ∧
        (∀ j, headerSize ≤ j → j < k → EveryRun (bytes.take j) .ended fun result _ out =>
          result = .error .insufficientInput ∧ out <+: s.delivered) ∧
        (∀ j, j < headerSize → EveryRun (bytes.take j) .ended fun result header' out =>
          (∃ e, result = .error (.input e) ∧ e.kind = .unexpectedEof) ∧ header' = none ∧
            out = []) ∧
        s.delivered = [97, 98, 97, 98, 97, 98, 97, 98] := by
  intro h bytes
  have hw := Exchange.scene_ofBytes 4 bytes () (by decide)
  have hx := Extraction.of_stream (h := h) [.literal 97, .literal 98, .fresh 6 2] (by decide)
    (by decide) (by decide) [] .ended
  rw [List.append_nil] at hx
  obtain ⟨c, w', rest, ending, out, hrun, hw', -, -, -, -, hall, -⟩ :=
    run_spec Allocator.grants_standard hw
  rw [hx] at hrun hall
  have hout : out = [97, 98, 97, 98, 97, 98, 97, 98] := hall (by simp [Extraction.Settled])
  obtain ⟨header, d, s, hheader, hscene, hparse, hdecoder, hk, hbehind, hcut, hshort⟩ :=
    extent_exact Allocator.grants_standard hw hrun
  refine ⟨c, w', hrun, header, d, s, hheader, hscene, hparse, hdecoder, hk, hbehind, hcut, hshort,
    ?_⟩
  rw [hw'] at hscene
  obtain rfl := Option.some.inj hscene
  exact hout

end Decompressor

end Lzma
