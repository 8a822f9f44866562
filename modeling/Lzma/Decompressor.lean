import Lzma.Channel.Host
import Lzma.Coder.Progress
import Lzma.Decompressor.Pump

/-!
# Decompression runs

A `Decompressor` is a handle for one run. The run reads a header, gets hold of a
decoder and its buffers, and pumps what follows through the decoder up to the
end marker. The size that the header declares is reported and has no part in
this: only the marker ends a payload.

No memory is asked for before the header has been read and understood, and no
more than the header is read before all the memory is at hand.
-/

namespace Lzma

/-- The size of the buffer for decoded bytes. -/
def decodedSize : Nat := 262144

/-- A channel's world and a decoder beside it. -/
structure Decoding (ω : Type) where
  world : ω
  stream : Stream Decoder

namespace Decoding

variable {ω : Type}

instance [Channel ω] : Channel (Decoding ω) where
  note event | ⟨world, stream⟩ => ⟨Journal.note event world, stream⟩
  read room | ⟨world, stream⟩ => let (r, world) := Channel.read room world; (r, ⟨world, stream⟩)
  write bytes
    | ⟨world, stream⟩ => let (r, world) := Channel.write bytes world; (r, ⟨world, stream⟩)
  credit d := Channel.credit d.world
  credit_read_lt := Channel.credit_read_lt
  credit_write_le bytes d := Channel.credit_write_le bytes d.world
  credit_note_le event d := Channel.credit_note_le event d.world

variable [Host ω]

/-- A call of the decoder, which deals with memory before it does anything else. -/
def decode (input : List UInt8) (room : Nat) :
    Decoding ω → Except IoError Decoded × Decoding ω
  | ⟨world, stream⟩ =>
      match Host.attend world with
      | (false, world) => (.error Fault.outOfMemory.toIoError, ⟨world, stream⟩)
      | (true, world) => let (r, stream) := stream.decode input room; (r, ⟨world, stream⟩)

theorem world_decode (input : List UInt8) (room : Nat) (d : Decoding ω) :
    (d.decode input room).2.world = (Host.attend d.world).2 := by
  obtain ⟨world, stream⟩ := d
  rw [decode]
  split <;> rename_i heq <;> rw [heq]

/-- A call that gives a result is a call of the stream. -/
theorem of_decode {input : List UInt8} {room : Nat} {d : Decoding ω} {r : Decoded}
    (h : (d.decode input room).1 = .ok r) :
    d.stream.decode input room = (.ok r, (d.decode input room).2.stream) := by
  obtain ⟨world, stream⟩ := d
  rw [decode] at h ⊢
  dsimp only at h ⊢
  split at h
  · cases h
  · exact Prod.ext h rfl

instance : Pump (Decoding ω) where
  decode := decode
  pending d := d.stream.coder.pending
  used_decode_le h := Stream.used_decode_le (of_decode h)
  length_decode_le h := Stream.length_decode_le (of_decode h)
  pending_decode_lt h := Stream.pending_decode_lt (of_decode h)
  pending_write_le _ _ := Nat.le_refl _
  credit_decode_le input room d := by
    show Channel.credit (d.decode input room).2.world ≤ Channel.credit d.world
    rw [world_decode]
    exact Host.credit_attend_le d.world

end Decoding

structure DecompressSession (ω : Type) where
  engine : Engine Decoder ω
  input : Block ω
  output : Block ω

namespace DecompressSession

variable {ω : Type}

/-- Memory for a buffer was refused. -/
def refused : Error := .decompress (.ofKind .outOfMemory)

variable [Journal ω]

/-- Gets hold of all that a run needs once its header is known. -/
def acquire [Manner] (h : Header) (a : Allocator ω) (w : ω) :
    Except Error (DecompressSession ω) × ω :=
  match Engine.acquireDecoder h a w with
  | (.error fault, w) => (.error (.decompress fault.toIoError), w)
  | (.ok engine, w) =>
      match a.request Staging.defaultSize w with
      | (.error _, w) => (.error refused, engine.release w)
      | (.ok input, w) =>
          match a.request decodedSize w with
          | (.error _, w) => (.error refused, engine.release (input.release w))
          | (.ok output, w) => (.ok { engine, input, output }, w)

def release (s : DecompressSession ω) (w : ω) : ω :=
  s.output.release (s.input.release (s.engine.release w))

/-- Gives up a session whose coder was at work. -/
def leave (s : DecompressSession ω) (h : Hosting ω) : ω :=
  { s with engine := s.engine.after h }.release h.world

/-- The part of a run that has a decoder and buffers, up to where they are given up. -/
def pump {ν ρ : Type} [Host ν] [Register DecompressState ρ] (s : DecompressSession ω) (state : ρ)
    (l : Line ν) : Except Error Unit × ρ × Line (Decoding ν) :=
  Pump.run s.output.size (.ofList s.input.buffer.bytes)
    { l with world := { world := l.world, stream := s.engine.stream } } state

end DecompressSession

structure Decompressor (ω : Type) where
  allocator : Allocator ω := .standard
  state : DecompressState := .created
  header : Option Header := none
  totalIn : Nat := 0
  totalOut : Nat := 0

namespace Decompressor

variable {ω : Type} [Channel ω]

def readHeader (l : Line ω) : Except Error Header × Line ω :=
  match l.gather (List.replicate headerSize 0) with
  | (.error e, l) => (.error e, l)
  | (.ok bytes, l) =>
      if bytes.length < headerSize then
        (.error (.input (.shortHeader bytes.length headerSize)), l)
      else (Header.parse bytes, l)

variable {ρ : Type} [Register DecompressState ρ]

/-- The part of a run that has a decoder and buffers. -/
def extract (session : DecompressSession ω) (state : ρ) (l : Line ω) :
    Except Error Unit × ρ × Line ω :=
  let (result, state, inner) := session.pump state { l with world := session.engine.host l.world }
  (result, state, { inner with world := session.leave inner.world.world })

variable [Manner]

/-- A run, with what becomes of the states that it sets. -/
def follow (c : Decompressor ω) (state : ρ) (w : ω) :
    Except Error Unit × ρ × Option Header × Line ω :=
  match readHeader ({ world := w } : Line ω) with
  | (.error e, l) => (.error e, state, c.header, l)
  | (.ok header, l) =>
      let state := Register.set DecompressState.headerRead state
      let l := l.note (.decompressionStarting header)
      match DecompressSession.acquire header c.allocator l.world with
      | (.error e, world) => (.error e, state, some header, { l with world })
      | (.ok session, world) =>
          let (result, state, l) :=
            extract session (Register.set DecompressState.allocated state) { l with world }
          (result, state, some header, l)

/-- A run, with the state it comes to on its way. -/
def drive (c : Decompressor ω) (w : ω) :
    Except Error Unit × DecompressState × Option Header × Line ω :=
  c.follow c.state w

/-- The answer to a use of a handle that has run. -/
def alreadyRan : Error := .badParams "decompressor already ran"

def run (c : Decompressor ω) (w : ω) : Except Error Unit × Decompressor ω × ω :=
  if c.state = .created then
    let (result, _, header, l) := c.drive w
    let c := { c with header, totalIn := l.taken, totalOut := l.given }
    match result with
    | .ok () =>
        (.ok (), { c with state := .finished },
          Journal.note (.decompressionFinished l.taken l.given) l.world)
    | .error e =>
        (.error e, { c with state := .failed }, Journal.note (.decompressionFailed e) l.world)
  else (.error alreadyRan, c, w)

end Decompressor

end Lzma
