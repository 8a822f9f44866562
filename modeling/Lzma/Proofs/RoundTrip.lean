import Lzma.Proofs.Compression
import Lzma.Proofs.Expansion
import Lzma.Proofs.Outline
import Lzma.Proofs.Scripted
import Mathlib.Algebra.Group.Nat.Defs

/-!
# What was compressed is decompressed again

The stream of a compression run is a header and the payload of symbols that spell
the data, so it is well-formed, and a run over it delivers the data. The payload was
written for the dictionary that was asked for and is read with the one that memory
was asked for, which is as large or larger; neither the bytes nor what they stand
for depend on that.
-/

namespace Lzma

variable {o : Options}

/-- A stream that options ask for is that of their header and the chosen symbols. -/
theorem Options.stream_eq (hdict : 0 < o.dictSize.toNat) (data : List UInt8) :
    o.stream data = o.header.stream (symbolsFor o.settings data.toArray) := by
  have hle := le_dictionarySize o.dictSize.toNat
  rw [Options.stream, Header.stream]
  rw [payload_dictSize hdict (show 0 < dictionarySize o.dictSize.toNat by omega)]
  rfl

/-- It comes to the data, and its extent is all of it. -/
theorem Extraction.of_options (hs : o.coding.Supported) (hlow : 4096 ≤ o.dictSize.toNat)
    (hhigh : o.dictSize.toNat ≤ 2 ^ 28) (data : List UInt8) :
    of (o.stream data) .ended =
      { result := .ok ()
        header := some o.header.readBack
        output := data
        extent := (o.stream data).length } := by
  obtain ⟨hwell, hexpand⟩ := spells_symbolsFor o.settings data.toArray
  have hlarger : o.dictSize.toNat ≤ dictionarySize o.dictSize.toNat :=
    Nat.le_trans (Nat.le_max_left _ _) (le_dictionarySize _)
  have hx := of_stream (h := o.header) (symbolsFor o.settings data.toArray) hs
    (UInt32.le_iff_toNat_le.mpr hhigh) (hwell.mono hlarger) [] .ended
  rwa [List.append_nil, ← Options.stream_eq (Nat.lt_of_lt_of_le (by decide) hlow),
    hexpand] at hx

namespace Compressor

section

variable {ω ω' : Type} [Channel ω] [Fair ω] [Channel ω'] [Fair ω'] [Provident]

/--
A run whose options are accepted succeeds, however its data comes, and every run over the
stream it writes, however that comes, succeeds, delivers the data, finds the options in the
header, and takes the stream to its last byte and needs all of it.
-/
theorem round_trip {c : Compressor ω} (hfresh : c.isFresh = true) (ha : c.allocator.Grants)
    (hpreset : presetSupported c.options.level.number = true)
    (hlclp : c.options.lc.toNat + c.options.lp.toNat ≤ 4) (hpb : c.options.pb.toNat ≤ 4)
    (hlow : 4096 ≤ c.options.dictSize.toNat) (hhigh : c.options.dictSize.toNat ≤ 2 ^ 28)
    (hformat : c.options.format = .lzma) {w : ω} {data : List UInt8}
    (hw : Fair.scene w = some ⟨data, some .ended, []⟩) {a : Allocator ω'} (ha' : a.Grants) :
    ∃ c' w' ending stream, c.run w = (.ok (), c', w') ∧
      Fair.scene w' = some ⟨[], ending, stream⟩ ∧
      c'.totalIn = data.length ∧ c'.totalOut = stream.length ∧
      ∀ v : ω', Fair.scene v = some ⟨stream, some .ended, []⟩ →
        ∃ d v' ending' header, ({ allocator := a } : Decompressor ω').run v = (.ok (), d, v') ∧
          Fair.scene v' = some ⟨[], ending', data⟩ ∧
          d.header = some header ∧ header.lc = c.options.lc ∧ header.lp = c.options.lp ∧
          header.pb = c.options.pb ∧ header.dictSize = c.options.dictSize ∧
          d.totalIn = c'.totalOut ∧ d.totalOut = data.length ∧
          (Extraction.of stream .ended).extent = d.totalIn := by
  have hs : c.options.coding.Supported := Properties.supported_of_sum_le hlclp hpb
  have hdict : encoderDictSupported c.options.dictSize.toNat = true := by
    rw [encoderDictSupported, Bool.and_eq_true, decide_eq_true_eq, decide_eq_true_eq]
    exact ⟨hlow, Nat.le_trans hhigh (by decide)⟩
  obtain ⟨c', w', ending, hrun, hw', hin, hout⟩ := run_spec hfresh ha hpreset hs hdict hformat hw
  refine ⟨c', w', ending, c.options.stream data, hrun, hw', hin, hout, ?_⟩
  intro v hv
  have hx := Extraction.of_options hs hlow hhigh data
  obtain ⟨d, v', rest, ending', out, hrun', hv', hheader, htaken, hgiven, -, hall, hextent⟩ :=
    Decompressor.run_spec ha' hv
  rw [hx] at hrun' hheader hall hextent
  obtain rfl : out = data := hall (by simp [Extraction.Settled])
  have hle : headerSize ≤ (c.options.stream out).length := by
    rw [Options.stream, List.length_append, Header.length_toBytes]
    omega
  have hneeds := hextent hle
  dsimp only at hneeds
  obtain rfl : rest = [] := List.eq_nil_of_length_eq_zero (by omega)
  rw [List.length_nil, Nat.add_zero] at htaken
  refine ⟨d, v', ending', c.options.header.readBack, hrun', hv', hheader, rfl, rfl, rfl, rfl, ?_,
    hgiven, ?_⟩
  · rw [htaken, hout]
  · rw [hx, htaken]

end

/-- Data in reads of two bytes, and its stream in reads of seven. -/
theorem round_trip_of_chunks :
    let data : List UInt8 := [97, 98, 97, 98, 97]
    ∃ c' w' ending stream,
      ({ options := { lc := 1, lp := 3, pb := 0, dictSize := 5000, uncompressedSize := 12 } } :
        Compressor _).run (Exchange.ofBytes 2 data ()) = (.ok (), c', w') ∧
      Fair.scene w' = some ⟨[], ending, stream⟩ ∧
      ∃ d v' ending' header,
        ({} : Decompressor _).run (Exchange.ofBytes 7 stream ()) = (.ok (), d, v') ∧
        Fair.scene v' = some ⟨[], ending', data⟩ ∧ d.header = some header ∧
        header.lc = 1 ∧ header.lp = 3 ∧ header.pb = 0 ∧ header.dictSize = 5000 ∧
        d.totalIn = c'.totalOut ∧ d.totalOut = 5 := by
  intro data
  obtain ⟨c', w', ending, stream, hrun, hw', -, -, hback⟩ :=
    round_trip (c := { options :=
        { lc := 1, lp := 3, pb := 0, dictSize := 5000, uncompressedSize := 12 } })
      rfl Allocator.grants_standard rfl (by decide) (by decide) (by decide) (by decide) rfl
      (Exchange.scene_ofBytes 2 data () (by decide))
      (Allocator.grants_standard (ω := Exchange ScriptedSource ScriptedSink Unit))
  obtain ⟨d, v', ending', header, hrun', hv', hheader, hlc, hlp, hpb, hdict, hin, hout, -⟩ :=
    hback _ (Exchange.scene_ofBytes 7 stream () (by decide))
  exact ⟨c', w', ending, stream, hrun, hw', d, v', ending', header, hrun', hv', hheader, hlc, hlp,
    hpb, hdict, hin, hout⟩

end Compressor

end Lzma
