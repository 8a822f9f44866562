import Lzma.Decompressor.Pump

/-!
# Decoders that follow a script

A `Rehearsal` is a channel with a decoder that does what its script says: take
so many bytes, give certain bytes, report a certain status. It keeps to what it
is offered and is over after as many calls as its script has entries.
-/

namespace Lzma

/-- What a call of a scripted decoder does. -/
inductive DecodeStep where
  | move (used : Nat) (output : List UInt8) (status : DecodeStatus)
  | failure (error : IoError)

/-- A channel and a script for the decoder beside it. -/
structure Rehearsal (ω : Type) where
  world : ω
  script : List DecodeStep
  /-- The input and the room of each call, the latest first. -/
  calls : List (List UInt8 × Nat) := []

namespace Rehearsal

variable {ω : Type} [Channel ω]

/-- A call beyond the end of the script. -/
def exhausted : IoError := .other "script exhausted"

/-- Does what the next entry says, within what is offered. -/
def decode (input : List UInt8) (room : Nat) (x : Rehearsal ω) :
    Except IoError Decoded × Rehearsal ω :=
  let x := { x with calls := (input, room) :: x.calls }
  match x.script with
  | [] => (.error exhausted, x)
  | .failure e :: script => (.error e, { x with script })
  | .move used output status :: script =>
      (.ok { used := min used input.length, output := output.take room, status },
        { x with script })

instance : Channel (Rehearsal ω) where
  note event x := { x with world := Journal.note event x.world }
  read room x := let (r, world) := Channel.read room x.world; (r, { x with world })
  write bytes x := let (r, world) := Channel.write bytes x.world; (r, { x with world })
  credit x := Channel.credit x.world
  credit_read_lt := Channel.credit_read_lt
  credit_write_le bytes x := Channel.credit_write_le bytes x.world
  credit_note_le event x := Channel.credit_note_le event x.world

instance : Pump (Rehearsal ω) where
  decode := decode
  pending x := x.script.length
  used_decode_le {input room x r} h := by
    unfold decode at h
    dsimp only at h
    split at h <;> cases h
    exact Nat.min_le_right _ _
  length_decode_le {input room x r} h := by
    unfold decode at h
    dsimp only at h
    split at h <;> cases h
    exact List.length_take_le _ _
  pending_decode_lt {input room x r} h _ _ := by
    unfold decode at h ⊢
    dsimp only at h ⊢
    split at h <;> rename_i hscript <;> cases h
    simp only [hscript, List.length_cons]
    omega
  pending_write_le _ _ := Nat.le_refl _
  credit_decode_le input room x := by
    unfold decode
    dsimp only
    split <;> exact Nat.le_refl _

end Rehearsal

end Lzma
