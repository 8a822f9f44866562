import Lzma.Coder.Stream
import Lzma.Memory.Usage
import Lzma.Payload.Decoder
import Lzma.Payload.Encoder

/-!
# Coders with their memory

An `Engine` is a stream together with the memory it works in. It is acquired in
a fixed order: a numbered preset is checked first, then the coder gets its records,
then the properties are checked, and last comes the memory whose size depends on
them. Whatever goes wrong, no memory is kept.

What a coder does with memory is its own affair: a `Manner` says it, and may be any.
Runs are defined for every manner. For what a run comes to it is assumed of coders
only what is documented of them (`Provident`).

The calls of an engine report what was moved. A failed call moves nothing as far
as its caller can see, although the stream's counts may show that the coder went
on for a while.
-/

namespace Lzma

/-- The dictionary kept for a declared size: at least 4096 bytes, in pieces of 16. -/
def dictionarySize (declared : Nat) : Nat := (max declared 4096 + 15) / 16 * 16

def Header.coding (h : Header) : Properties := ⟨h.lc.toNat, h.lp.toNat, h.pb.toNat⟩

def Options.coding (o : Options) : Properties := ⟨o.lc.toNat, o.lp.toNat, o.pb.toNat⟩

/-- A preset is a level up to 9, with or without the topmost bit of its word. -/
def presetSupported (number : UInt32) : Bool := number.toNat % 2147483648 ≤ 9

/-- The dictionaries an encoder works with. -/
def encoderDictSupported (size : Nat) : Bool := 4096 ≤ size && size ≤ 1610612736

/-- What coders do with memory. -/
class Manner where
  /-- A decoder's memory depends on the size of the dictionary that it keeps. -/
  decoder : (coding : Properties) → (dictionary : Nat) → Housekeeping
  encoder : Options → Housekeeping

/-- Coders that get hold of all of their memory while they are set up. -/
class Provident extends Manner where
  decoder_provident (coding : Properties) {dictionary : Nat} :
    dictionary ≤ 4294967296 → (decoder coding dictionary).Provident
  encoder_provident (o : Options) : (encoder o).Provident

structure Engine (κ ω : Type) where
  stream : Stream κ
  heap : Heap ω
  housekeeping : Housekeeping

namespace Engine

variable {κ ω : Type} [Journal ω]

def release (e : Engine κ ω) (w : ω) : ω := e.heap.retire e.housekeeping.closing w

/-- Sets up a coder: its records, then the coder itself, then the memory that it works in. -/
def acquire (housekeeping : Housekeeping) (coder : Except Fault κ) (a : Allocator ω) (w : ω) :
    Except Fault (Engine κ ω) × ω :=
  match Heap.use housekeeping.records { allocator := a } w with
  | (false, heap, w) => (.error .outOfMemory, heap.retire housekeeping.closing w)
  | (true, heap, w) =>
      match coder with
      | .error fault => (.error fault, heap.retire housekeeping.closing w)
      | .ok coder =>
          match heap.use housekeeping.workspace w with
          | (false, heap, w) => (.error .outOfMemory, heap.retire housekeeping.closing w)
          | (true, heap, w) => (.ok { stream := { coder }, heap, housekeeping }, w)

def decoderFor (h : Header) : Except Fault Decoder :=
  if h.coding.Supported then .ok (.start h.coding (dictionarySize h.dictSize.toNat))
  else .error .misuse

def acquireDecoder [Manner] (h : Header) (a : Allocator ω) (w : ω) :
    Except Fault (Engine Decoder ω) × ω :=
  acquire (Manner.decoder h.coding (dictionarySize h.dictSize.toNat)) (decoderFor h) a w

def encoderFor (o : Options) : Except Fault Encoder :=
  if o.coding.Supported ∧ encoderDictSupported o.dictSize.toNat = true then
    .ok (.start {
      props := o.coding, dictSize := o.dictSize.toNat, effort := .ofPreset o.level.number })
  else .error .unsupportedOptions

def acquireEncoder [Manner] (o : Options) (a : Allocator ω) (w : ω) :
    Except Fault (Engine Encoder ω) × ω :=
  if presetSupported o.level.number then acquire (Manner.encoder o) (encoderFor o) a w
  else (.error (.unsupportedPreset o.level.number), w)

end Engine

/-- How a decoder stands after a call. -/
inductive DecodeStatus where
  /-- All that its input determines was given out. -/
  | needsInput
  /-- There was no more room. -/
  | outputFull
  /-- The end marker was read, and all before it was given out. -/
  | finished
  deriving DecidableEq, Repr

structure Decoded where
  used : Nat
  output : List UInt8
  status : DecodeStatus
  deriving DecidableEq, Repr

structure Encoded where
  used : Nat
  output : List UInt8
  /-- The end of the stream was given out. -/
  ended : Bool
  deriving DecidableEq, Repr

namespace Stream

def decode (s : Stream Decoder) (input : List UInt8) (room : Nat) :
    Except IoError Decoded × Stream Decoder :=
  match s.call (.feed input) room with
  | ⟨.error fault, _, _, s⟩ => (.error fault.toIoError, s)
  | ⟨.ok ended, used, output, s⟩ =>
      let status :=
        if ended then .finished
        else if output.length = room then .outputFull else .needsInput
      (.ok ⟨used, output, status⟩, s)

def encodeCall (s : Stream Encoder) (call : Call) (room : Nat) :
    Except IoError Encoded × Stream Encoder :=
  match s.call call room with
  | ⟨.error fault, _, _, s⟩ => (.error fault.toIoError, s)
  | ⟨.ok ended, used, output, s⟩ => (.ok ⟨used, output, ended⟩, s)

def encode (s : Stream Encoder) (input : List UInt8) (room : Nat) :
    Except IoError Encoded × Stream Encoder :=
  s.encodeCall (.feed input) room

/-- Gives out what is left to encode, as far as there is room. -/
def finish (s : Stream Encoder) (room : Nat) : Except IoError Encoded × Stream Encoder :=
  s.encodeCall .finish room

end Stream

end Lzma
