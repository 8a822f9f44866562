import Lzma.Proofs.Extraction
import Lzma.Proofs.HeaderCodec
import Lzma.Proofs.Reading
import Mathlib.Algebra.Group.Nat.Defs

/-!
# Every well-formed stream decompresses to its expansion

A header and a payload make a stream. Whoever chose the symbols of the payload,
as long as they are well-formed for the dictionary that the header asks for, a
run over the stream succeeds and delivers what they stand for, in whatever pieces
the stream comes and whatever stands behind it.
-/

namespace Lzma

/-- The stream of a header and the payload of some symbols. -/
def Header.stream (h : Header) (symbols : List Symbol) : List UInt8 :=
  h.toBytes ++ payload h.coding (dictionarySize h.dictSize.toNat) symbols

variable {h : Header}

/-- A stream comes to its expansion, and its extent is all of it. -/
theorem Extraction.of_stream (symbols : List Symbol) (hs : h.coding.Supported)
    (hdict : h.dictSize ≤ maxDictSize)
    (hwell : WellFormed (dictionarySize h.dictSize.toNat) symbols) (rest : List UInt8)
    (ending : Ending) :
    of (h.stream symbols ++ rest) ending =
      { result := .ok ()
        header := some h.readBack
        output := expand symbols
        extent := (h.stream symbols).length } := by
  obtain ⟨hlow, hhigh⟩ := dictionarySize_bounds hdict
  obtain ⟨d, hwhole⟩ := Decoder.whole_payload h.coding (Nat.lt_of_lt_of_le (by decide) hlow)
    hhigh hwell
  have hdecoder : Engine.decoderFor h.readBack =
      .ok (.start h.coding (dictionarySize h.dictSize.toNat)) := Engine.decoderFor_ok hs
  have hx := of_parsed
    (h.toBytes ++ (payload h.coding (dictionarySize h.dictSize.toNat) symbols ++ rest))
    (by rw [List.length_append, h.length_toBytes]; exact Nat.le_add_right _ _)
    (by rw [List.take_left' h.length_toBytes, Header.parse_toBytes hs.packable hdict])
    hdecoder ending
  have hrest := (Decoder.start h.coding (dictionarySize h.dictSize.toNat)).whole_append_of_stopped
    (payload h.coding (dictionarySize h.dictSize.toNat) symbols) rest
    (by rw [hwhole]; simp)
  rw [List.drop_left' h.length_toBytes, hrest, hwhole] at hx
  rw [Header.stream, List.append_assoc, hx, List.length_append, h.length_toBytes]
  rfl

namespace Decompressor

/--
Every well-formed stream is decompressed to what its symbols stand for, however it arrives
and whatever comes behind it.
-/
theorem everyRun_stream (hlclp : h.lc.toNat + h.lp.toNat ≤ 4) (hpb : h.pb.toNat ≤ 4)
    (hdict : h.dictSize.toNat ≤ 2 ^ 28) {symbols : List Symbol}
    (hwell : WellFormed (dictionarySize h.dictSize.toNat) symbols) (rest : List UInt8)
    (ending : Ending) :
    EveryRun (h.stream symbols ++ rest) ending fun result header out =>
      result = .ok () ∧ header = some h.readBack ∧ out = expand symbols := by
  have hs : h.coding.Supported := Properties.supported_of_sum_le hlclp hpb
  apply everyRun_of
  intro out _ hall
  rw [Extraction.of_stream symbols hs (UInt32.le_iff_toNat_le.mpr hdict) hwell] at hall ⊢
  exact ⟨rfl, rfl, hall (by simp [Extraction.Settled])⟩

/-- A byte and copies that overlap what they make, with other bytes behind the stream. -/
theorem everyRun_stream_overlapping :
    EveryRun (Header.stream { lc := 3, pb := 2, dictSize := 4096 }
        [.literal 97, .fresh 4 1, .single, .again 2 .latest] ++ [1, 2, 3]) .ended
      fun result header out => result = .ok () ∧
        header = some (Header.readBack { lc := 3, pb := 2, dictSize := 4096 }) ∧
        out = List.replicate 8 97 :=
  everyRun_stream (by decide) (by decide) (by decide) (by decide) [1, 2, 3] .ended

end Decompressor

end Lzma
