import Lzma.Proofs.HeaderCodec
import Lzma.Proofs.Scripted

/-!
# Texts that differ in a field of their header

To ask what a run takes from a field of its header is to compare it with a run on a text where
that field is another one. Such a text parses to the same header but for that field, or to the
same error, and has the same payload (`Header.Differs`).

The other text has to come in the same chunks, since where a chunk ends shows in what is read and
noted. `ReadStep.respell` puts a text in the chunks of a script. Of a text and another one in its
place a read brings as many bytes (`ReadStep.Gives.serve`), and where the rest of both is the same
the script is (`ReadStep.Gives.respell_self`).
-/

namespace Lzma

/-! ## Streams with other fields -/

namespace Header

/-- The dictionary field of a stream. -/
def dictField (bytes : List UInt8) : UInt32 := UInt32.ofNat (ofLE ((bytes.drop 1).take 4))

/-- A stream with another dictionary field. -/
def withDictField (dictSize : UInt32) (bytes : List UInt8) : List UInt8 :=
  bytes.take 1 ++ (toLE 4 dictSize.toNat ++ bytes.drop propertiesSize)

/-- A stream with another size field. -/
def withSizeField (size : UInt64) (bytes : List UInt8) : List UInt8 :=
  bytes.take propertiesSize ++ (toLE 8 size.toNat ++ bytes.drop headerSize)

/-- The fields at the start of a stream. -/
theorem exists_fields {bytes : List UInt8} (hle : headerSize ≤ bytes.length) :
    ∃ props dict size rest, bytes = props :: (dict ++ (size ++ rest)) ∧ dict.length = 4 ∧
      size.length = 8 := by
  obtain _ | ⟨props, bytes⟩ := bytes
  · cases hle
  · rw [headerSize, List.length_cons] at hle
    refine ⟨props, bytes.take 4, (bytes.drop 4).take 8, (bytes.drop 4).drop 8, ?_, ?_, ?_⟩
    · rw [List.take_append_drop, List.take_append_drop]
    · rw [List.length_take]
      omega
    · rw [List.length_take, List.length_drop]
      omega

section

variable {props : UInt8} {dict size rest : List UInt8} (hdict : dict.length = 4)
include hdict

theorem dictField_eq : dictField (props :: (dict ++ rest)) = UInt32.ofNat (ofLE dict) := by
  rw [dictField, List.drop_one, List.tail_cons, List.take_left' hdict]

theorem withDictField_eq (dictSize : UInt32) :
    withDictField dictSize (props :: (dict ++ rest)) =
      props :: (toLE 4 dictSize.toNat ++ rest) := by
  rw [withDictField, show propertiesSize = 4 + 1 from rfl, List.drop_succ_cons,
    List.drop_left' hdict]
  rfl

variable (hsize : size.length = 8)
include hsize

theorem length_fields : (props :: (dict ++ (size ++ rest))).length = headerSize + rest.length := by
  simp only [List.length_cons, List.length_append, hdict, hsize, headerSize]
  omega

theorem take_fields :
    (props :: (dict ++ (size ++ rest))).take headerSize = props :: (dict ++ size) := by
  rw [← List.append_assoc, ← List.cons_append]
  refine List.take_left' ?_
  rw [List.length_cons, List.length_append, hdict, hsize]
  rfl

theorem drop_fields : (props :: (dict ++ (size ++ rest))).drop headerSize = rest := by
  rw [← List.append_assoc, ← List.cons_append]
  refine List.drop_left' ?_
  rw [List.length_cons, List.length_append, hdict, hsize]
  rfl

theorem withSizeField_eq (declared : UInt64) :
    withSizeField declared (props :: (dict ++ (size ++ rest))) =
      props :: (dict ++ (toLE 8 declared.toNat ++ rest)) := by
  rw [withSizeField, drop_fields hdict hsize, show propertiesSize = 4 + 1 from rfl,
    List.take_succ_cons, List.take_left' hdict]
  rfl

theorem parse_fields :
    parse (props :: (dict ++ size)) =
      if maxPropertiesByte < props then
        .error (.corruptHeader "properties byte out of range")
      else if maxDictSize < UInt32.ofNat (ofLE dict) then
        .error (.corruptHeader "dictionary size above 256 MiB")
      else .ok (ofFields props (UInt32.ofNat (ofLE dict)) (UInt64.ofNat (ofLE size))) := by
  have hlength : (props :: (dict ++ size)).length = headerSize := by
    rw [List.length_cons, List.length_append, hdict, hsize]
    decide
  rw [parse, dif_pos hlength, decode, List.drop_one, List.tail_cons, List.take_left' hdict,
    show propertiesSize = 4 + 1 from rfl, List.drop_succ_cons, List.drop_left' hdict]
  rfl

end

/-- A stream in which nothing but a field of the header is another. -/
structure Differs (f : Header → Header) (bytes bytes' : List UInt8) : Prop where
  length : bytes'.length = bytes.length
  payload : bytes'.drop headerSize = bytes.drop headerSize
  header : parse (bytes'.take headerSize) = (parse (bytes.take headerSize)).map f

variable {bytes : List UInt8} (hle : headerSize ≤ bytes.length)
include hle

/-- Whatever the size field says, it is read. -/
theorem differs_size (size : UInt64) :
    Differs (fun h => { h with streamed := size == unknownSize, uncompressedSize := size })
      bytes (withSizeField size bytes) := by
  obtain ⟨props, dict, field, rest, rfl, hdict, hfield⟩ := exists_fields hle
  have hsize : (toLE 8 size.toNat).length = 8 := length_toLE 8 _
  rw [withSizeField_eq hdict hfield]
  refine ⟨?_, ?_, ?_⟩
  · rw [length_fields hdict hfield, length_fields hdict hsize]
  · rw [drop_fields hdict hfield, drop_fields hdict hsize]
  · rw [take_fields hdict hfield, take_fields hdict hsize, parse_fields hdict hfield,
      parse_fields hdict hsize, ofLE_toLE size.toNat_lt, UInt64.ofNat_toNat]
    split
    · rfl
    · split <;> rfl

/-- A dictionary field within the bounds may be replaced by another one. -/
theorem differs_dict (hold : dictField bytes ≤ maxDictSize) {dictSize : UInt32}
    (hnew : dictSize ≤ maxDictSize) :
    Differs (fun h => { h with dictSize }) bytes (withDictField dictSize bytes) := by
  obtain ⟨props, dict, field, rest, rfl, hdict, hfield⟩ := exists_fields hle
  have hother : (toLE 4 dictSize.toNat).length = 4 := length_toLE 4 _
  rw [dictField_eq hdict] at hold
  rw [withDictField_eq hdict]
  refine ⟨?_, ?_, ?_⟩
  · rw [length_fields hdict hfield, length_fields hother hfield]
  · rw [drop_fields hdict hfield, drop_fields hother hfield]
  · rw [take_fields hdict hfield, take_fields hother hfield, parse_fields hdict hfield,
      parse_fields hother hfield, ofLE_toLE dictSize.toNat_lt, UInt32.ofNat_toNat,
      if_neg (UInt32.not_lt.mpr hold), if_neg (UInt32.not_lt.mpr hnew)]
    split <;> rfl

theorem dictField_withDictField (dictSize : UInt32) :
    dictField (withDictField dictSize bytes) = dictSize := by
  obtain ⟨props, dict, field, rest, rfl, hdict, -⟩ := exists_fields hle
  rw [withDictField_eq hdict, dictField_eq (length_toLE 4 _), ofLE_toLE dictSize.toNat_lt,
    UInt32.ofNat_toNat]

theorem withDictField_withDictField (d d' : UInt32) :
    withDictField d' (withDictField d bytes) = withDictField d' bytes := by
  obtain ⟨props, dict, field, rest, rfl, hdict, -⟩ := exists_fields hle
  rw [withDictField_eq hdict, withDictField_eq hdict, withDictField_eq (length_toLE 4 _)]

theorem length_withDictField (dictSize : UInt32) :
    (withDictField dictSize bytes).length = bytes.length := by
  obtain ⟨props, dict, field, rest, rfl, hdict, hfield⟩ := exists_fields hle
  rw [withDictField_eq hdict, length_fields hdict hfield, length_fields (length_toLE 4 _) hfield]

/-- The header that is read tells of the dictionary field. -/
theorem dictSize_of_parse_take {header : Header} (h : parse (bytes.take headerSize) = .ok header) :
    header.dictSize = dictField bytes := by
  obtain ⟨props, dict, field, rest, rfl, hdict, hfield⟩ := exists_fields hle
  rw [take_fields hdict hfield, parse_fields hdict hfield] at h
  rw [dictField_eq hdict]
  split at h
  · cases h
  · split at h <;> cases h
    rfl

end Header

/-! ## The same chunks with other bytes -/

namespace ReadStep

/-- A script that cuts other bytes up in the same way. -/
def respell : List ReadStep → List UInt8 → List ReadStep
  | [], _ => []
  | .bytes chunk :: rest, text =>
      .bytes (text.take chunk.length) :: respell rest (text.drop chunk.length)
  | step :: rest, text => step :: respell rest text

/-- A script that gives a text in chunks and ends or fails behind it. -/
inductive Gives : List ReadStep → List UInt8 → Prop
  | nil : Gives [] []
  | ended : Gives [.ended] []
  | failure (e : IoError) : Gives [.failure e] []
  | chunk {chunk more : List UInt8} {rest : List ReadStep} :
      chunk ≠ [] → Gives rest more → Gives (.bytes chunk :: rest) (chunk ++ more)

theorem gives_of_foretell {steps : List ReadStep} {text : List UInt8} {ending : Ending}
    (h : foretell steps = some (text, ending)) : Gives steps text := by
  fun_induction foretell steps generalizing text with
  | case1 =>
      cases h
      exact .nil
  | case2 =>
      cases h
      exact .ended
  | case3 e =>
      cases h
      exact .failure e
  | case4 => cases h
  | case5 chunk rest hne ih =>
      obtain ⟨⟨more, ending'⟩, hrest, heq⟩ := Option.map_eq_some_iff.mp h
      cases heq
      exact .chunk hne (ih hrest)
  | case6 => cases h

theorem serve_of_le {chunk : List UInt8} {room : Nat} (h : chunk.length ≤ room)
    (rest : List ReadStep) :
    serve room (.bytes chunk :: rest) = (.ok ⟨chunk, chunk.length⟩, rest) := by
  rw [serve, List.take_of_length_le h, List.drop_eq_nil_of_le h]
  rfl

theorem serve_of_lt {chunk : List UInt8} {room : Nat} (h : room < chunk.length)
    (rest : List ReadStep) :
    serve room (.bytes chunk :: rest) =
      (.ok ⟨chunk.take room, room⟩, .bytes (chunk.drop room) :: rest) := by
  have hlater : ¬(chunk.drop room).isEmpty = true := by simpa using h
  rw [serve, if_neg hlater, List.length_take_of_le (Nat.le_of_lt h)]

namespace Gives

variable {steps : List ReadStep} {text text' : List UInt8}

theorem respell_self (h : Gives steps text) : respell steps text = steps := by
  induction h with
  | nil | ended | failure => rfl
  | chunk hne hrest ih => rw [respell, List.take_left, List.drop_left, ih]

theorem respell_respell (h : Gives steps text) (hlength : text'.length = text.length)
    (other : List UInt8) : respell (respell steps text') other = respell steps other := by
  induction h generalizing text' other with
  | nil | ended | failure => rfl
  | @chunk chunk more rest hne hrest ih =>
      rw [List.length_append] at hlength
      have hchunk : (text'.take chunk.length).length = chunk.length := by
        rw [List.length_take]
        omega
      have hmore : (text'.drop chunk.length).length = more.length := by
        rw [List.length_drop]
        omega
      rw [respell, respell, respell, hchunk, ih hmore]

/-- The other text is given in its place. -/
theorem respell (h : Gives steps text) (hlength : text'.length = text.length) :
    Gives (respell steps text') text' := by
  induction h generalizing text' with
  | nil =>
      obtain rfl := List.length_eq_zero_iff.mp hlength
      exact .nil
  | ended =>
      obtain rfl := List.length_eq_zero_iff.mp hlength
      exact .ended
  | failure e =>
      obtain rfl := List.length_eq_zero_iff.mp hlength
      exact .failure e
  | @chunk chunk more rest hne hrest ih =>
      rw [List.length_append] at hlength
      have hpos := List.length_pos_iff.mpr hne
      have hmore : (text'.drop chunk.length).length = more.length := by
        rw [List.length_drop]
        omega
      have htake : text'.take chunk.length ≠ [] := by
        rw [← List.length_pos_iff, List.length_take]
        omega
      have hgives := Gives.chunk htake (ih hmore)
      rwa [List.take_append_drop] at hgives

/-- Of two texts that are cut up alike a read brings as much. -/
theorem serve (h : Gives steps text) (hne : text ≠ []) (hlength : text'.length = text.length)
    {room : Nat} (hroom : 0 < room) :
    ∃ n rest, 0 < n ∧ n ≤ room ∧ n ≤ text.length ∧ Gives rest (text.drop n) ∧
      serve room steps = (.ok ⟨text.take n, n⟩, rest) ∧
      serve room (ReadStep.respell steps text') =
        (.ok ⟨text'.take n, n⟩, ReadStep.respell rest (text'.drop n)) := by
  cases h with
  | nil | ended | failure => exact absurd rfl hne
  | @chunk chunk more rest hchunk hrest =>
      rw [List.length_append] at hlength ⊢
      have hpos := List.length_pos_iff.mpr hchunk
      have htake : (text'.take chunk.length).length = chunk.length := by
        rw [List.length_take]
        omega
      rw [ReadStep.respell]
      by_cases hfits : chunk.length ≤ room
      · refine ⟨chunk.length, rest, hpos, hfits, Nat.le_add_right _ _, ?_, ?_, ?_⟩
        · rwa [List.drop_left]
        · rw [serve_of_le hfits, List.take_left]
        · rw [serve_of_le (by rwa [htake]), htake]
      · have hlt := Nat.lt_of_not_le hfits
        have hlater : chunk.drop room ≠ [] := by simpa using hlt
        refine ⟨room, .bytes (chunk.drop room) :: rest, hroom, Nat.le_refl _,
          Nat.le_trans (Nat.le_of_lt hlt) (Nat.le_add_right _ _), ?_, ?_, ?_⟩
        · rw [List.drop_append_of_le_length (Nat.le_of_lt hlt)]
          exact .chunk hlater hrest
        · rw [serve_of_lt hlt, List.take_append_of_le_length (Nat.le_of_lt hlt)]
        · rw [serve_of_lt (by rwa [htake]), ReadStep.respell, List.take_take, List.drop_drop,
            Nat.min_eq_left (Nat.le_of_lt hlt), List.length_drop, List.drop_take,
            Nat.add_sub_cancel' (Nat.le_of_lt hlt)]

end Gives

theorem Gives.no_overReport {steps : List ReadStep} {text : List UInt8} (h : Gives steps text)
    (excess : Nat) : overReport excess ∉ steps := by
  induction h with
  | nil | ended | failure => simp
  | chunk hne hrest ih => simp [ih]

end ReadStep

end Lzma
