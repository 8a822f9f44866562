import Lzma.Proofs.Acceptance
import Lzma.Proofs.Gathering

/-!
# A declared size and its reader

That a size is not known is said in three ways: by a 0 in the options, by a flag in a header, and
by a size field of all ones in a header's bytes. The flag has no bytes of its own, so the largest
size of all is written as the other streams are written whose size is not known, and is read as
one of these. Every other size is read as it was declared (`Options.readBack_declares`).

A reader needs no more than a header for that. Whatever becomes of its run, it reports the header
as soon as it has read the bytes (`Decompressor.header_of_brought`).
-/

namespace Lzma

/-- What a header says of the `size` that was declared: two stand for one that is not known. -/
structure Header.Declares (h : Header) (size : UInt64) : Prop where
  declared : h.declaredSize = if size = 0 ∨ size = unknownSize then none else some size
  streamed : h.streamed = true ↔ size = 0 ∨ size = unknownSize

namespace Options

variable (o : Options)

/-- The size field is all ones for a size that is not known, and for one more. -/
theorem sizeField_header :
    o.header.sizeField = unknownSize ↔
      o.uncompressedSize = 0 ∨ o.uncompressedSize = unknownSize := by
  rw [Header.sizeField, header]
  by_cases hzero : o.uncompressedSize = 0 <;> simp [hzero]

theorem sizeField_of_known (hsize : o.uncompressedSize ≠ 0) :
    o.header.sizeField = o.uncompressedSize := by
  rw [Header.sizeField, header, if_neg]
  simpa using hsize

theorem readBack_declares : o.header.readBack.Declares o.uncompressedSize := by
  constructor
  · rw [Header.declaredSize_readBack]
    by_cases hlost : o.uncompressedSize = 0 ∨ o.uncompressedSize = unknownSize
    · rw [if_pos (o.sizeField_header.mpr hlost), if_pos hlost]
    · have hsize : o.uncompressedSize ≠ 0 := fun hzero => hlost (.inl hzero)
      rw [if_neg (mt o.sizeField_header.mp hlost), if_neg hlost, o.sizeField_of_known hsize]
  · rw [Header.readBack, beq_iff_eq]
    exact o.sizeField_header

end Options

open Record

/-- A run that the bytes of a header have come to reports it, whatever else becomes of the run. -/
theorem Decompressor.header_of_brought {ω : Type} [Channel ω] [Provident] {c : Decompressor ω}
    {w : ω} (hfresh : c.state = .created) (hplaced : Placed (c.deeds w)) {first : List UInt8}
    (hfirst : first <+: brought (c.deeds w)) {header : Header}
    (hparse : Header.parse first = .ok header) : (c.run w).2.1.header = some header := by
  have hgathered : gathered headerSize (c.deeds w) = first := by
    obtain ⟨later, hlater⟩ := hfirst
    rw [gathered_placed hfresh hplaced, ← hlater,
      List.take_left' (Header.length_of_parse hparse)]
  apply header_of_parse hfresh
  rw [hgathered]
  exact hparse

namespace Compressor

section

variable {ω : Type} [Channel ω] [Provident] {c : Compressor ω} {w : ω}

/-- What is written declares the size that it was to declare, to whoever reads it. -/
theorem written_declares (h : (c.run w).1 = .ok ()) (hdict : c.options.dictSize ≤ maxDictSize) :
    Header.parse ((c.written w).take headerSize) = .ok c.options.header.readBack ∧
      Decompressor.EveryRun (c.written w) .ended fun result header _ =>
        result = .ok () ∧ header = some c.options.header.readBack := by
  obtain ⟨hok, data, hdata⟩ := written_of_run h
  rw [hdata]
  constructor
  · rw [hok.parse_stream, if_neg (UInt32.not_lt.mpr hdict)]
  · apply Decompressor.everyRun_of
    intro out _ _
    rw [Extraction.of_options hok.coding hok.le_dictSize (UInt32.le_iff_toNat_le.mp hdict)]
    exact ⟨rfl, rfl⟩

/--
A size other than the two that stand for an unknown one survives to the reader; these two are read
as unknown. So it is reported by every run over the whole stream, and by each run of a new handle
that is brought the bytes of the header, with whatever comes after them.
-/
theorem declared_size_survives (h : (c.run w).1 = .ok ())
    (hdict : c.options.dictSize ≤ maxDictSize) :
    ∃ header : Header, header.Declares c.options.uncompressedSize ∧
      (Decompressor.EveryRun (c.written w) .ended fun result read _ =>
        result = .ok () ∧ read = some header) ∧
      ∀ {ω' : Type} [Channel ω'] (d : Decompressor ω') (w' : ω'), d.state = .created →
        Placed (d.deeds w') → (c.written w).take headerSize <+: brought (d.deeds w') →
        (d.run w').2.1.header = some header := by
  obtain ⟨hparse, hevery⟩ := written_declares h hdict
  refine ⟨c.options.header.readBack, c.options.readBack_declares, hevery, ?_⟩
  intro ω' _ d w' hfresh hplaced hfirst
  exact Decompressor.header_of_brought hfresh hplaced hfirst hparse

end

/-- The largest size but one, read back three bytes at a time. -/
theorem declared_size_survives_of_large :
    let c : Compressor (Exchange ScriptedSource ScriptedSink Unit) :=
      { options := { lc := 0, lp := 4, dictSize := 268435456,
                     uncompressedSize := 18446744073709551614 } }
    let w := Exchange.ofBytes 2 [97, 98, 97, 98, 97] ()
    let d : Decompressor (Exchange ScriptedSource ScriptedSink Unit) := {}
    (c.run w).1 = .ok () ∧ c.options.dictSize ≤ maxDictSize ∧
      ∃ header, (d.run (Exchange.ofBytes 3 (c.written w) ())).2.1.header = some header ∧
        header.declaredSize = some 18446744073709551614 ∧ header.streamed = false := by
  intro c w d
  have hrun : (c.run w).1 = .ok () := by
    obtain ⟨c', w', ending, hrun, -⟩ := run_spec (c := c) rfl Allocator.grants_standard (by decide)
      (by decide) (by decide) rfl (Exchange.scene_ofBytes 2 [97, 98, 97, 98, 97] () (by decide))
    rw [hrun]
  have hdict : c.options.dictSize ≤ maxDictSize := by decide
  obtain ⟨header, hdeclares, hevery, -⟩ := declared_size_survives hrun hdict
  obtain ⟨result, d', w', s, hrun', -, -, hheader⟩ := hevery _ Allocator.standard
    (Exchange.ofBytes 3 (c.written w) ()) Allocator.grants_standard
    (Exchange.scene_ofBytes 3 (c.written w) () (by decide))
  refine ⟨hrun, hdict, header, ?_, hdeclares.declared, ?_⟩
  · rw [show d.run _ = _ from hrun']
    exact hheader
  · rw [← Bool.not_eq_true, hdeclares.streamed]
    decide

/-- The largest size is written and taken for an unknown one. -/
theorem largest_size_lost :
    let c : Compressor (Exchange ScriptedSource ScriptedSink Unit) :=
      { options := { level := .fastest, dictSize := 65536,
                     uncompressedSize := 18446744073709551615 } }
    let w := Exchange.ofBytes 3 [97, 98, 99] ()
    let d : Decompressor (Exchange ScriptedSource ScriptedSink Unit) := {}
    let read := d.run (Exchange.ofBytes 65536 (c.written w) ())
    (c.run w).1 = .ok () ∧ c.options.dictSize ≤ maxDictSize ∧ read.1 = .ok () ∧
      ∃ header, read.2.1.header = some header ∧ header.declaredSize = none ∧
        header.streamed = true := by
  intro c w d read
  have hrun : (c.run w).1 = .ok () := by
    obtain ⟨c', w', ending, hrun, -⟩ := run_spec (c := c) rfl Allocator.grants_standard (by decide)
      (by decide) (by decide) rfl (Exchange.scene_ofBytes 3 [97, 98, 99] () (by decide))
    rw [hrun]
  have hdict : c.options.dictSize ≤ maxDictSize := by decide
  obtain ⟨result, d', w', s, hrun', -, hresult, hheader⟩ :=
    (written_declares hrun hdict).2 _ Allocator.standard
      (Exchange.ofBytes 65536 (c.written w) ()) Allocator.grants_standard
      (Exchange.scene_ofBytes 65536 (c.written w) () (by decide))
  have hread : read = (result, d', w') := hrun'
  rw [hread]
  exact ⟨hrun, hdict, hresult, _, hheader, rfl, rfl⟩

end Compressor

end Lzma
