import Lzma.Bytes.LittleEndian
import Lzma.Error

/-!
# The container header

Thirteen bytes stand in front of the payload:

| offset | length | meaning                                                    |
|--------|--------|------------------------------------------------------------|
| 0      | 1      | `lc + 9 * lp + 45 * pb`                                    |
| 1      | 4      | size of the dictionary, little-endian                      |
| 5      | 8      | size of the data, little-endian, all ones if it is unknown |

`Header.toBytes` writes them and `Header.decode` reads them. A header is read
without loss: the size field is kept also when it says "unknown", so writing
what was read gives the same bytes again.
-/

namespace Lzma

def headerSize : Nat := 13

/-- The bytes of a header. -/
abbrev HeaderBytes := { bytes : List UInt8 // bytes.length = headerSize }

/-- The length of its first two fields. -/
def propertiesSize : Nat := 5

/-- The largest dictionary a header may ask for: 256 MiB. -/
def maxDictSize : UInt32 := 268435456

def maxPropertiesByte : UInt8 := 225

/-- The size field of a stream whose size was not known when it was written. -/
def unknownSize : UInt64 := 18446744073709551615

structure Header where
  pb : UInt8 := 0
  lp : UInt8 := 0
  lc : UInt8 := 0
  /-- Whether the size of the data was unknown when the stream was written. -/
  streamed : Bool := false
  /-- The size of the data; it means something only if `streamed` is false. -/
  uncompressedSize : UInt64 := 0
  dictSize : UInt32 := 0
  deriving Repr, Inhabited

namespace Header

/-- The declared size of the data, if one is declared. -/
def declaredSize (h : Header) : Option UInt64 :=
  if h.streamed then none else some h.uncompressedSize

/-- Whether two headers say the same: the size field of a streamed header says nothing. -/
def agrees (a b : Header) : Bool :=
  a.pb == b.pb && a.lp == b.lp && a.lc == b.lc && a.dictSize == b.dictSize
    && a.streamed == b.streamed && (a.streamed || a.uncompressedSize == b.uncompressedSize)

/-- The three bit counts packed in one byte; counts beyond the format's wrap around. -/
def propertiesByte (h : Header) : UInt8 := h.lc + h.lp * 9 + h.pb * 45

/-- The fields the coder is set up from. -/
def properties (h : Header) : List UInt8 := h.propertiesByte :: toLE 4 h.dictSize.toNat

def sizeField (h : Header) : UInt64 := if h.streamed then unknownSize else h.uncompressedSize

def toBytes (h : Header) : List UInt8 := h.properties ++ toLE 8 h.sizeField.toNat

/-- The header with a given first byte, dictionary size and size field. -/
def ofFields (props : UInt8) (dictSize : UInt32) (size : UInt64) : Header where
  pb := props / 45
  lp := props % 45 / 9
  lc := props % 9
  streamed := size == unknownSize
  uncompressedSize := size
  dictSize := dictSize

/--
Reads a header. The first byte is checked before the dictionary size, and nothing
is checked of the size field.
-/
def decode (buf : HeaderBytes) : Except Error Header :=
  let props := buf.val.headD 0
  let dictSize := UInt32.ofNat (ofLE ((buf.val.drop 1).take 4))
  let size := UInt64.ofNat (ofLE (buf.val.drop propertiesSize))
  if maxPropertiesByte < props then
    .error (.corruptHeader "properties byte out of range")
  else if maxDictSize < dictSize then
    .error (.corruptHeader "dictionary size above 256 MiB")
  else
    .ok (ofFields props dictSize size)

/-- Reads a header from bytes that should be just its thirteen. -/
def parse (bytes : List UInt8) : Except Error Header :=
  if h : bytes.length = headerSize then decode ⟨bytes, h⟩
  else .error (.corruptHeader "header must be exactly 13 bytes")

@[simp] theorem length_toBytes (h : Header) : h.toBytes.length = headerSize := by
  simp [toBytes, properties, headerSize]

def encode (h : Header) : HeaderBytes := ⟨h.toBytes, h.length_toBytes⟩

end Header

end Lzma
