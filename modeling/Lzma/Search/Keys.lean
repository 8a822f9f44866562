import Lzma.Search.Basic

/-!
# Keys

Places are put together by keys, which are hashes of the next bytes: one of the
next two, one of the next three, and one of as many as the effort asks for. The
first byte is scattered over the whole word by the remainder of a cyclic
redundancy check; equal first bytes and equal keys of two or three bytes
therefore mean that those bytes are equal.
-/

namespace Lzma

/-- The remainder of a byte in the cyclic redundancy check with 32 bits. -/
def remainder (byte : Nat) : UInt32 :=
  (List.range 8).foldl
    (fun r _ => if r &&& 1 = 1 then (r >>> 1) ^^^ 0xEDB88320 else r >>> 1) (UInt32.ofNat byte)

def remainders : Array UInt32 := ((List.range 256).map remainder).toArray

/-- The keys of a place. -/
structure Keys where
  pair : Nat
  triple : Nat
  whole : Nat

def Search.keys (s : Search) (position : Nat) : Keys :=
  let scattered := fun i => remainders.getD (s.byte (position + i)).toNat 0
  let next := fun i => (s.byte (position + i)).toUInt32
  let two := scattered 0 ^^^ next 1
  let three := two ^^^ (next 2 <<< 8)
  let whole := if s.effort.width = 3 then three else three ^^^ (scattered 3 <<< 5)
  ⟨two.toNat % 1024, three.toNat % 65536, whole.toNat &&& s.mask⟩

end Lzma
