import Lzma.Coder.Pass
import Lzma.Range.Reader

/-!
# Decoding a payload

`Decoder` is a machine that takes bytes of a payload one at a time and gives
back the bytes they stand for one at a time. At every moment it either wants a
byte, or has one to give, or has stopped for good; `Decoder.view` tells which.
Between two such moments it takes every decision the bytes at hand settle, so
what it holds back is never more than what it was not asked for.

`Decoder.pump` runs the machine on a stretch of input with room for a stretch of
output. It does not stop when the room is used up but when a byte has to be
given and there is no room: a full output does not keep it from taking further
input, nor from finding the end marker or a fault.

A payload opens with a 0, for no carry gets past the first byte that a writer
holds back. Any other first byte is refused where it stands and is not taken.
-/

namespace Lzma

/-- What a decoder is in the middle of. -/
inductive Phase where
  /-- So many of the first bytes are still to come, which give the number its first value. -/
  | opening (missing : Nat)
  /-- A symbol is partly read, and the next decision needs a byte. -/
  | reading (rest : Coding Token)
  | holding (byte : UInt8)
  /-- A copy was read, and so many of its bytes are still to be given. -/
  | copying (count : Nat)
  /-- The end marker was read, and the interval is still to be widened. -/
  | closing
  | finished
  | corrupt

structure Decoder where
  props : Properties
  dictSize : Nat
  scan : CodeReader
  past : Past := {}
  phase : Phase := .opening 5

namespace Decoder

def start (props : Properties) (dictSize : Nat) : Decoder where
  props := props
  dictSize := dictSize
  scan := { model := Model.fresh props }

/-- The phase after the end marker: all of the number must have been used up. -/
def verdict (r : RangeReader) : Phase := if r.code = 0 then .finished else .corrupt

/-- Walks on in a symbol as far as the bytes at hand allow. -/
def walk (d : Decoder) (tree : Coding Token) : Decoder :=
  match tree.descend d.scan with
  | (.done (.symbol s), scan) =>
      { d with
        scan
        past := d.past.note s
        phase := match s with
          | .literal byte => .holding byte
          | _ => .copying s.length }
  | (.done .endMarker, scan) =>
      { d with scan, phase := if scan.reader.starved then .closing else verdict scan.reader }
  | (.done .invalid, scan) => { d with scan, phase := .corrupt }
  | (rest, scan) => { d with scan, phase := .reading rest }

def next (d : Decoder) : Decoder := d.walk (d.past.context d.props d.dictSize).coding

def feed (d : Decoder) (byte : UInt8) : Decoder :=
  match d.phase with
  | .opening missing =>
      let d := { d with scan := { d.scan with reader := d.scan.reader.load byte } }
      if missing ≤ 1 then d.next else { d with phase := .opening (missing - 1) }
  | .reading rest =>
      { d with scan := { d.scan with reader := d.scan.reader.shift byte } }.walk rest
  | .closing =>
      let reader := d.scan.reader.shift byte
      { d with scan := { d.scan with reader }, phase := verdict reader }
  | _ => d

/-- Whether a byte cannot be the next one, which is so for the first of all unless it is a 0. -/
def refuses (d : Decoder) (byte : UInt8) : Bool :=
  match d.phase with
  | .opening missing => missing == 5 && byte != 0
  | _ => false

inductive View where
  | wants
  | gives (byte : UInt8)
  | ended
  | broken
  deriving DecidableEq, Repr

def view (d : Decoder) : View :=
  match d.phase with
  | .opening _ | .reading _ | .closing => .wants
  | .holding byte => .gives byte
  | .copying _ => .gives (d.past.byteAt d.past.recent.latest)
  | .finished => .ended
  | .corrupt => .broken

/-- Goes on after the given byte, the one it had to give, was taken. -/
def give (d : Decoder) (byte : UInt8) : Decoder :=
  let d := { d with past := d.past.push byte }
  match d.phase with
  | .copying (count + 2) => { d with phase := .copying (count + 1) }
  | _ => d.next

/-- `pump`, behind `used` bytes of input and the given output, latest first. -/
def pumpFrom (d : Decoder) (input : List UInt8) (room used : Nat) (output : List UInt8) :
    Pass Decoder :=
  match d.view with
  | .gives byte =>
      match room with
      | 0 => ⟨d, used, output.reverse, .running⟩
      | room + 1 => (d.give byte).pumpFrom input room used (byte :: output)
  | .wants =>
      match input with
      | [] => ⟨d, used, output.reverse, .running⟩
      | byte :: input =>
          if d.refuses byte then ⟨{ d with phase := .corrupt }, used, output.reverse, .corrupt⟩
          else (d.feed byte).pumpFrom input room (used + 1) output
  | .ended => ⟨d, used, output.reverse, .ended⟩
  | .broken => ⟨d, used, output.reverse, .corrupt⟩
termination_by input.length + room
decreasing_by
  · omega
  · rw [List.length_cons]; omega

/-- Runs the decoder on some input, with room for some output. -/
def pump (d : Decoder) (input : List UInt8) (room : Nat) : Pass Decoder :=
  d.pumpFrom input room 0 []

theorem pumpFrom_bounds (d : Decoder) (input : List UInt8) (room used : Nat)
    (output : List UInt8) :
    (d.pumpFrom input room used output).used ≤ used + input.length ∧
      (d.pumpFrom input room used output).output.length ≤ output.length + room := by
  fun_induction pumpFrom d input room used output with
  | case1 | case3 | case4 | case6 | case7 => simp
  | case2 d input used output byte hview room ih =>
      simp only [List.length_cons] at ih
      omega
  | case5 d room used output hview byte input _ ih =>
      simp only [List.length_cons]
      omega

/-- A decoder is told of the end of its input by the payload itself. -/
instance : Coder Decoder where
  pass call room d := d.pump call.input room
  used_pass_le call room d := by
    simpa [pump] using (d.pumpFrom_bounds call.input room 0 []).1
  length_pass_le call room d := by
    simpa [pump] using (d.pumpFrom_bounds call.input room 0 []).2

end Decoder

end Lzma
