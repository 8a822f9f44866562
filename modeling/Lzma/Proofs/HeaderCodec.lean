import Lzma.Coder.Engine

/-!
# A header is read as it was written

The three counts of a header share a byte, and as long as each is in its range
they can be told apart again. With them the whole header comes back
(`Header.parse_toBytes`), except that a size which cannot be told from an unknown
one is not.
-/

namespace Lzma

namespace Header

/-- Whether the counts of a header can be packed in a byte. -/
structure Packable (h : Header) : Prop where
  lc : h.lc.toNat ≤ 8
  lp : h.lp.toNat ≤ 4
  pb : h.pb.toNat ≤ 4

variable {h : Header}

theorem Packable.toNat_propertiesByte (hp : h.Packable) :
    h.propertiesByte.toNat = h.lc.toNat + h.lp.toNat * 9 + h.pb.toNat * 45 := by
  obtain ⟨hlc, hlp, hpb⟩ := hp
  rw [propertiesByte, UInt8.toNat_add, UInt8.toNat_add, UInt8.toNat_mul, UInt8.toNat_mul]
  show ((h.lc.toNat + h.lp.toNat * 9 % 256) % 256 + h.pb.toNat * 45 % 256) % 256 = _
  omega

theorem ofFields_propertiesByte (hp : h.Packable) (dictSize : UInt32) (size : UInt64) :
    ofFields h.propertiesByte dictSize size =
      { pb := h.pb, lp := h.lp, lc := h.lc, streamed := size == unknownSize
        uncompressedSize := size, dictSize } := by
  have hbyte := hp.toNat_propertiesByte
  obtain ⟨hlc, hlp, hpb⟩ := hp
  have hpb' : h.propertiesByte / 45 = h.pb := UInt8.toNat_inj.mp (by
    rw [UInt8.toNat_div, hbyte]
    show _ / 45 = _
    omega)
  have hlp' : h.propertiesByte % 45 / 9 = h.lp := UInt8.toNat_inj.mp (by
    rw [UInt8.toNat_div, UInt8.toNat_mod, hbyte]
    show _ % 45 / 9 = _
    omega)
  have hlc' : h.propertiesByte % 9 = h.lc := UInt8.toNat_inj.mp (by
    rw [UInt8.toNat_mod, hbyte]
    show _ % 9 = _
    omega)
  rw [ofFields, hpb', hlp', hlc']

/-- The header as it is read back, with the size that was written. -/
def readBack (h : Header) : Header :=
  { h with streamed := h.sizeField == unknownSize, uncompressedSize := h.sizeField }

/-- The flag and the size are read off the size field. -/
theorem declaredSize_readBack (h : Header) : h.readBack.declaredSize =
    if h.sizeField = unknownSize then none else some h.sizeField := by
  simp [declaredSize, readBack]

/-- A header that was written is read back, unless it asks for too large a dictionary. -/
theorem parse_toBytes_eq (hp : h.Packable) :
    parse h.toBytes =
      if maxDictSize < h.dictSize then .error (.corruptHeader "dictionary size above 256 MiB")
      else .ok h.readBack := by
  have hhead : h.toBytes.headD 0 = h.propertiesByte := rfl
  have hdrop : (h.toBytes.drop 1).take 4 = toLE 4 h.dictSize.toNat :=
    List.take_left' (length_toLE 4 _)
  have hsize : h.toBytes.drop propertiesSize = toLE 8 h.sizeField.toNat :=
    List.drop_left' (congrArg Nat.succ (length_toLE 4 _))
  have hle : ¬ maxPropertiesByte < h.propertiesByte := by
    rw [UInt8.lt_iff_toNat_lt, hp.toNat_propertiesByte]
    obtain ⟨hlc, hlp, hpb⟩ := hp
    show ¬ 225 < _
    omega
  rw [parse, dif_pos h.length_toBytes, decode]
  dsimp only
  rw [hhead, hdrop, hsize, ofLE_toLE h.dictSize.toNat_lt, ofLE_toLE h.sizeField.toNat_lt,
    UInt32.ofNat_toNat, UInt64.ofNat_toNat, if_neg hle, ofFields_propertiesByte hp]
  rfl

theorem parse_toBytes (hp : h.Packable) (hdict : h.dictSize ≤ maxDictSize) :
    parse h.toBytes = .ok h.readBack := by
  rw [parse_toBytes_eq hp, if_neg (UInt32.not_lt.mpr hdict)]

/-- Only thirteen bytes are a header. -/
theorem length_of_parse {bytes : List UInt8} (hparse : parse bytes = .ok h) :
    bytes.length = headerSize := by
  rw [parse] at hparse
  split at hparse
  · assumption
  · cases hparse

end Header

theorem Properties.supported_of_sum_le {p : Properties} (hsum : p.lc + p.lp ≤ 4)
    (hpb : p.pb ≤ 4) : p.Supported :=
  ⟨by omega, by omega, hsum, hpb⟩

/-- Properties that the coder works with can be packed. -/
theorem Properties.Supported.packable {h : Header} (hs : h.coding.Supported) : h.Packable where
  lc := Nat.le_trans hs.1 (by decide)
  lp := hs.2.1
  pb := hs.2.2.2

/-- The decoder for the payload behind a header whose properties the coder works with. -/
theorem Engine.decoderFor_ok {h : Header} (hs : h.coding.Supported) :
    decoderFor h = .ok (.start h.coding (dictionarySize h.dictSize.toNat)) :=
  if_pos hs

theorem dictionarySize_bounds {h : Header} (hdict : h.dictSize ≤ maxDictSize) :
    4096 ≤ dictionarySize h.dictSize.toNat ∧ dictionarySize h.dictSize.toNat ≤ endDistance := by
  have hle : h.dictSize.toNat ≤ 268435456 := UInt32.le_iff_toNat_le.mp hdict
  rw [dictionarySize, endDistance]
  omega

end Lzma
