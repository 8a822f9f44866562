import Lzma.Proofs.Gathering
import Lzma.Proofs.Respelling

/-!
# Headers and their bytes

Reading a header and writing it are inverse in both directions, and the reader takes no more than
it has to. Of the bytes that stand for a header no two stand for the same one: the first byte is
the counts' number in mixed radix, and the size field is kept as it was read, so what was read is
written again bit for bit (`Header.encode_of_decode`). That goes for a first byte of 225 too, whose
counts are beyond the format's.

In the other direction a header is only given back up to what it says (`Header.agrees`): the
size of a streamed header is lost, and a size of all ones cannot be told from an unknown one. For
the headers that keep clear of that (`Header.Ranged`) the bytes say all there is to know
(`Header.agrees_iff_encode`).

What a handle reports as the header of its run is the header of the bytes that it has read, in
whatever pieces they came.
-/

namespace Lzma

namespace HeaderBytes

/-- The three fields of a header. -/
theorem exists_fields (buf : HeaderBytes) : ∃ props dict size,
    buf.val = props :: (dict ++ size) ∧ dict.length = 4 ∧ size.length = 8 := by
  obtain ⟨bytes, hlength⟩ := buf
  obtain ⟨props, dict, size, rest, hbytes, hdict, hsize⟩ :=
    Header.exists_fields (Nat.le_of_eq hlength.symm)
  have hrest : rest = [] := by
    have hall := congrArg List.length hbytes
    simp only [List.length_cons, List.length_append, hdict, hsize, hlength, headerSize] at hall
    exact List.length_eq_zero_iff.mp (by omega)
  subst hrest
  rw [List.append_nil] at hbytes
  exact ⟨props, dict, size, hbytes, hdict, hsize⟩

/-- Whether bytes can be read: the packed counts are in range and so is the dictionary. -/
def Readable (buf : HeaderBytes) : Prop :=
  (buf.val.headD 0).toNat ≤ 225 ∧ ofLE ((buf.val.drop 1).take 4) ≤ 2 ^ 28

end HeaderBytes

namespace Header

/-! ## Reading and writing again -/

theorem parse_val (buf : HeaderBytes) : parse buf.val = decode buf := dif_pos buf.property

/-- Of other bytes than thirteen nothing is read. -/
theorem parse_eq_ok {bytes : List UInt8} {h : Header} :
    parse bytes = .ok h ↔ ∃ hlength, decode ⟨bytes, hlength⟩ = .ok h := by
  constructor
  · intro hparse
    have hlength := length_of_parse hparse
    rw [parse, dif_pos hlength] at hparse
    exact ⟨hlength, hparse⟩
  · intro hdecode
    obtain ⟨hlength, hdecode⟩ := hdecode
    rw [parse, dif_pos hlength]
    exact hdecode

section

variable {buf : HeaderBytes} {props : UInt8} {dict size : List UInt8}
  (hbuf : buf.val = props :: (dict ++ size)) (hdict : dict.length = 4)
include hbuf hdict

theorem readable_fields : buf.Readable ↔ props.toNat ≤ 225 ∧ ofLE dict ≤ 2 ^ 28 := by
  rw [HeaderBytes.Readable, hbuf, List.drop_one, List.tail_cons, List.take_left' hdict]
  rfl

/-- What is read of bytes that can be read. -/
theorem decode_fields (hsize : size.length = 8) (h : Header) :
    decode buf = .ok h ↔ (props.toNat ≤ 225 ∧ ofLE dict ≤ 2 ^ 28) ∧
      h = ofFields props (UInt32.ofNat (ofLE dict)) (UInt64.ofNat (ofLE size)) := by
  have hprops : maxPropertiesByte < props ↔ 225 < props.toNat := UInt8.lt_iff_toNat_lt
  have hlarge : maxDictSize < UInt32.ofNat (ofLE dict) ↔ 2 ^ 28 < ofLE dict := by
    have hlt := ofLE_lt dict
    rw [hdict] at hlt
    have hfield : (UInt32.ofNat (ofLE dict)).toNat = ofLE dict :=
      UInt32.toNat_ofNat_of_lt' (Nat.lt_of_lt_of_eq hlt (by decide))
    rw [UInt32.lt_iff_toNat_lt, hfield]
    rfl
  rw [← parse_val, hbuf, parse_fields hdict hsize]
  by_cases hover : 225 < props.toNat
  · rw [if_pos (hprops.mpr hover)]
    simp only [reduceCtorEq, false_iff]
    omega
  · rw [if_neg (mt hprops.mp hover)]
    by_cases habove : 2 ^ 28 < ofLE dict
    · rw [if_pos (hlarge.mpr habove)]
      simp only [reduceCtorEq, false_iff]
      omega
    · rw [if_neg (mt hlarge.mp habove)]
      simp only [Except.ok.injEq, eq_comm (b := h)]
      exact ⟨fun heq => ⟨⟨by omega, by omega⟩, heq⟩, fun heq => heq.2⟩

end

theorem decode_iff_readable (buf : HeaderBytes) : (∃ h, decode buf = .ok h) ↔ buf.Readable := by
  obtain ⟨props, dict, size, hbuf, hdict, hsize⟩ := buf.exists_fields
  simp only [decode_fields hbuf hdict hsize, readable_fields hbuf hdict, exists_and_left,
    exists_eq, and_true]

/-- The counts that a byte is taken apart into make up the byte. -/
theorem propertiesByte_ofFields (props : UInt8) (dictSize : UInt32) (size : UInt64) :
    (ofFields props dictSize size).propertiesByte = props := by
  rw [propertiesByte, ofFields, ← UInt8.toNat_inj]
  simp only [UInt8.toNat_add, UInt8.toNat_mul, UInt8.toNat_div, UInt8.toNat_mod]
  show ((props.toNat % 9 + props.toNat % 45 / 9 * 9 % 256) % 256 +
    props.toNat / 45 * 45 % 256) % 256 = props.toNat
  have hlt := props.toNat_lt
  omega

theorem sizeField_ofFields (props : UInt8) (dictSize : UInt32) (size : UInt64) :
    (ofFields props dictSize size).sizeField = size := by
  rw [sizeField, ofFields]
  dsimp only
  split
  · next hunknown => exact (eq_of_beq hunknown).symm
  · rfl

/-- What was read is written again as it was. -/
theorem encode_of_decode {buf : HeaderBytes} {h : Header} (hdecode : decode buf = .ok h) :
    h.encode = buf := by
  obtain ⟨props, dict, size, hbuf, hdict, hsize⟩ := buf.exists_fields
  obtain ⟨-, rfl⟩ := (decode_fields hbuf hdict hsize h).mp hdecode
  have hdictField : toLE 4 (UInt32.ofNat (ofLE dict)).toNat = dict := by
    have hlt := ofLE_lt dict
    rw [hdict] at hlt
    rw [UInt32.toNat_ofNat_of_lt' (Nat.lt_of_lt_of_eq hlt (by decide)), ← hdict, toLE_ofLE]
  have hsizeField : toLE 8 (UInt64.ofNat (ofLE size)).toNat = size := by
    have hlt := ofLE_lt size
    rw [hsize] at hlt
    rw [UInt64.toNat_ofNat_of_lt' (Nat.lt_of_lt_of_eq hlt (by decide)), ← hsize, toLE_ofLE]
  apply Subtype.ext
  show toBytes _ = buf.val
  rw [hbuf, toBytes, properties, propertiesByte_ofFields, sizeField_ofFields, hsizeField]
  show props :: (toLE 4 (UInt32.ofNat (ofLE dict)).toNat ++ size) = _
  rw [hdictField]

/-! ## Writing and reading back -/

/-- A header that can be told from all others by what is written of it. -/
structure Ranged (h : Header) : Prop extends h.Packable where
  dictSize : h.dictSize.toNat ≤ 2 ^ 28
  size : h.streamed = false → h.uncompressedSize.toNat < 2 ^ 64 - 1

/-- What headers agree on. -/
theorem agrees_iff {a b : Header} : a.agrees b = true ↔
    a.pb = b.pb ∧ a.lp = b.lp ∧ a.lc = b.lc ∧ a.dictSize = b.dictSize ∧
      a.declaredSize = b.declaredSize := by
  obtain ⟨pb, lp, lc, streamed, size, dictSize⟩ := a
  obtain ⟨pb', lp', lc', streamed', size', dictSize'⟩ := b
  cases streamed <;> cases streamed' <;> simp [agrees, declaredSize, and_assoc]

theorem agrees_symm {a b : Header} (h : a.agrees b = true) : b.agrees a = true := by
  rw [agrees_iff] at h ⊢
  obtain ⟨hpb, hlp, hlc, hdict, hsize⟩ := h
  exact ⟨hpb.symm, hlp.symm, hlc.symm, hdict.symm, hsize.symm⟩

theorem agrees_trans {a b c : Header} (h : a.agrees b = true) (h' : b.agrees c = true) :
    a.agrees c = true := by
  rw [agrees_iff] at h h' ⊢
  obtain ⟨hpb, hlp, hlc, hdict, hsize⟩ := h
  obtain ⟨hpb', hlp', hlc', hdict', hsize'⟩ := h'
  exact ⟨hpb.trans hpb', hlp.trans hlp', hlc.trans hlc', hdict.trans hdict', hsize.trans hsize'⟩

/-- Headers that agree are written alike. -/
theorem encode_of_agrees {a b : Header} (h : a.agrees b = true) : a.encode = b.encode := by
  obtain ⟨hpb, hlp, hlc, hdict, hsize⟩ := agrees_iff.mp h
  have hprops : a.propertiesByte = b.propertiesByte := by
    rw [propertiesByte, propertiesByte, hpb, hlp, hlc]
  have hfield (h : Header) : h.sizeField = h.declaredSize.getD unknownSize := by
    rw [sizeField, declaredSize]
    split <;> rfl
  apply Subtype.ext
  show a.toBytes = b.toBytes
  rw [toBytes, toBytes, properties, properties, hprops, hdict, hfield a, hfield b, hsize]

namespace Ranged

variable {h : Header}

/-- The size of a header that is not streamed is not taken for an unknown one. -/
theorem readBack_agrees (hr : h.Ranged) : h.readBack.agrees h = true := by
  refine agrees_iff.mpr ⟨rfl, rfl, rfl, rfl, ?_⟩
  rw [declaredSize_readBack, declaredSize, sizeField]
  cases hstreamed : h.streamed with
  | true => simp
  | false =>
      have hne : h.uncompressedSize ≠ unknownSize := by
        intro heq
        have hlt := hr.size hstreamed
        rw [heq] at hlt
        exact absurd hlt (by decide)
      simp [hne]

theorem decode_encode (hr : h.Ranged) : decode h.encode = .ok h.readBack := by
  rw [← parse_val]
  exact parse_toBytes hr.toPackable (UInt32.le_iff_toNat_le.mpr hr.dictSize)

end Ranged

/-- For such headers it is the same to say the same and to be written alike. -/
theorem agrees_iff_encode {a b : Header} (ha : a.Ranged) (hb : b.Ranged) :
    a.agrees b = true ↔ a.encode = b.encode := by
  constructor
  · exact encode_of_agrees
  · intro hencode
    have hdecode := ha.decode_encode
    rw [hencode, hb.decode_encode] at hdecode
    have hsame : b.readBack = a.readBack := Except.ok.inj hdecode
    have hleft := ha.readBack_agrees
    rw [← hsame] at hleft
    exact agrees_trans (agrees_symm hleft) hb.readBack_agrees

end Header

/-! ## The header of a run -/

open Record

/-- The header that a handle reports was read from the first world that it was run in. -/
theorem Decompressor.header_after {ω : Type} [Channel ω] [Provident] {a : Allocator ω}
    {worlds : List ω} {h : Header} (hheader : (after a worlds).header = some h) :
    ∃ w later, worlds = w :: later ∧
      Header.parse (gathered headerSize (({ allocator := a } : Decompressor ω).deeds w)) =
        .ok h := by
  cases life a worlds with
  | waits _ hnew =>
      rw [hnew] at hheader
      cases hheader
  | spent w later hworlds hrun _ _ =>
      rw [hrun] at hheader
      exact ⟨w, later, hworlds, (header_iff rfl rfl w h).mp hheader⟩

/--
Reading headers and writing them is exact. Thirteen bytes are read just if the first is at most
225 and the dictionary's field at most 2 to the 28, and what was read of them is written as the
same bytes; no other bytes are read at all. A header within its ranges is read back as one that
says the same, and two of these say the same just if the same is written of them. And a header
that a decompressor reports, however often it was run and whatever it read in what pieces, is
written as the bytes that it has read: the first that came, where the source places what it reports.
-/
theorem header_exact :
    (∀ buf : HeaderBytes, ((∃ h, Header.decode buf = .ok h) ↔
        (buf.val.headD 0).toNat ≤ 225 ∧ ofLE ((buf.val.drop 1).take 4) ≤ 2 ^ 28) ∧
      ∀ h, Header.decode buf = .ok h → h.encode = buf) ∧
    (∀ h : Header, h.Ranged → ∃ h', Header.decode h.encode = .ok h' ∧ h'.agrees h = true) ∧
    (∀ h₁ h₂ : Header, h₁.Ranged → h₂.Ranged →
      (h₁.agrees h₂ = true ↔ h₁.encode = h₂.encode)) ∧
    (∀ bytes h, Header.parse bytes = .ok h ↔
      ∃ hlength, Header.decode ⟨bytes, hlength⟩ = .ok h) ∧
    ∀ (ω : Type) [Channel ω] [Provident] (a : Allocator ω) (worlds : List ω) (h : Header),
      (Decompressor.after a worlds).header = some h → ∃ w later, worlds = w :: later ∧
        h.toBytes = gathered headerSize (({ allocator := a } : Decompressor ω).deeds w) ∧
        (Placed (({ allocator := a } : Decompressor ω).deeds w) → h.toBytes =
          (brought (({ allocator := a } : Decompressor ω).deeds w)).take headerSize) := by
  refine ⟨?_, ?_, ?_, ?_, ?_⟩
  · intro buf
    exact ⟨Header.decode_iff_readable buf, fun h => Header.encode_of_decode⟩
  · intro h hr
    exact ⟨h.readBack, hr.decode_encode, hr.readBack_agrees⟩
  · intro h₁ h₂ hr₁ hr₂
    exact Header.agrees_iff_encode hr₁ hr₂
  · intro bytes h
    exact Header.parse_eq_ok
  · intro ω _ _ a worlds h hheader
    obtain ⟨w, later, hworlds, hparse⟩ := Decompressor.header_after hheader
    obtain ⟨hlength, hdecode⟩ := Header.parse_eq_ok.mp hparse
    have hbytes := congrArg Subtype.val (Header.encode_of_decode hdecode)
    refine ⟨w, later, hworlds, hbytes, fun hplaced => ?_⟩
    rw [← Decompressor.gathered_placed rfl hplaced]
    exact hbytes

/--
The largest first byte that is read, the header with the largest fields, two streamed headers that
differ in their size field, and a header that is read in two pieces.
-/
theorem header_exact_of_extremes :
    let buf : HeaderBytes := ⟨[225, 0, 0, 0, 16, 5, 0, 0, 0, 0, 0, 0, 0], rfl⟩
    let h : Header := { pb := 4, lp := 4, lc := 8, dictSize := 268435456,
                        uncompressedSize := 18446744073709551614 }
    let s : Header := { h with streamed := true }
    let s' : Header := { s with uncompressedSize := 7 }
    let x : Exchange ScriptedSource ScriptedSink Unit :=
      Exchange.ofBytes 9 (Header.stream { lc := 3, pb := 2, dictSize := 4096 } []) ()
    let d : Decompressor (Exchange ScriptedSource ScriptedSink Unit) := {}
    (∃ h', Header.decode buf = .ok h' ∧ h'.encode = buf) ∧
      (h.Ranged ∧ ∃ h', Header.decode h.encode = .ok h' ∧ h'.agrees h = true) ∧
      (s.Ranged ∧ s'.Ranged ∧ s.agrees s' = true ∧ s.encode = s'.encode) ∧
      ∃ h', (Decompressor.after d.allocator [x, x]).header = some h' ∧ Placed (d.deeds x) ∧
        h'.toBytes = (brought (d.deeds x)).take headerSize := by
  intro buf h s s' x d
  have hbuf : ∃ h', Header.decode buf = .ok h' :=
    (header_exact.1 buf).1.mpr (by decide)
  obtain ⟨h', hdecode⟩ := hbuf
  have hranged : h.Ranged := ⟨⟨by decide, by decide, by decide⟩, by decide, fun _ => by decide⟩
  have hs : s.Ranged := ⟨⟨by decide, by decide, by decide⟩, by decide, nofun⟩
  have hs' : s'.Ranged := ⟨⟨by decide, by decide, by decide⟩, by decide, nofun⟩
  have hagrees : s.agrees s' = true := by decide
  have hheader : ∃ h', (Decompressor.after d.allocator [x, x]).header = some h' := by
    obtain ⟨c, _, _, _, _, hrun, -, hheader, -⟩ := Decompressor.run_spec
      Allocator.grants_standard (Exchange.scene_ofBytes 9
        (Header.stream { lc := 3, pb := 2, dictSize := 4096 } []) () (by decide))
    have hstream := Extraction.of_stream (h := { lc := 3, pb := 2, dictSize := 4096 }) []
      (by decide) (by decide) (by decide) [] .ended
    rw [List.append_nil] at hstream
    rw [hstream] at hheader
    cases Decompressor.life d.allocator [x, x] with
    | waits hworlds => cases hworlds
    | spent w later hworlds hlater =>
        obtain ⟨rfl, -⟩ := List.cons.inj hworlds
        have hfirst : ({ allocator := d.allocator } : Decompressor _).run x = _ := hrun
        rw [hlater, hfirst]
        exact ⟨_, hheader⟩
  obtain ⟨h'', hheader⟩ := hheader
  have hplaced : Placed (d.deeds x) := by
    refine Decompressor.placed_deeds ({} : Decompressor Unit) ?_
    intro excess hmem
    obtain ⟨part, hpart⟩ := ReadStep.bytes_of_mem_chunks hmem
    cases hpart
  obtain ⟨w, later, hworlds, -, hbytes⟩ := header_exact.2.2.2.2 _ d.allocator [x, x] h'' hheader
  obtain ⟨rfl, -⟩ := List.cons.inj hworlds
  exact ⟨⟨h', hdecode, (header_exact.1 buf).2 h' hdecode⟩,
    ⟨hranged, header_exact.2.1 h hranged⟩,
    ⟨hs, hs', hagrees, (header_exact.2.2.1 s s' hs hs').mp hagrees⟩,
    h'', hheader, hplaced, hbytes hplaced⟩

end Lzma
