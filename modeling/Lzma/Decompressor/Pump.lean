import Lzma.Channel.Line
import Lzma.Coder.Engine

/-!
# Pumping chunks through a decoder

This loop stands between a source, a decoder and a sink, and it asks little of
the decoder: `Pump` is a channel with any decoder in its world that keeps to
what it is offered and that does not give bytes without end where it takes none.

A chunk is offered until it is used up and the decoder has given all that it
held back for lack of room; then the next chunk is read. Each offer is the part
of the chunk that was not taken yet, with all of the output's room, and what an
offer gives goes to the sink before anything else happens. The loop ends with
the first of these: the end marker, the end of the source, a failure of any of
the three, or an offer of input that moves nothing.
-/

namespace Lzma

/-- A channel with a decoder in its world. -/
class Pump (ω : Type) extends Channel ω where
  decode : List UInt8 → Nat → ω → Except IoError Decoded × ω
  /-- A bound on what the decoder gives while it takes nothing. -/
  pending : ω → Nat
  used_decode_le {input : List UInt8} {room : Nat} {w : ω} {r : Decoded} :
    (decode input room w).1 = .ok r → r.used ≤ input.length
  length_decode_le {input : List UInt8} {room : Nat} {w : ω} {r : Decoded} :
    (decode input room w).1 = .ok r → r.output.length ≤ room
  pending_decode_lt {input : List UInt8} {room : Nat} {w : ω} {r : Decoded} :
    (decode input room w).1 = .ok r → r.used = 0 → r.output ≠ [] →
      pending (decode input room w).2 < pending w
  pending_write_le (bytes : List UInt8) (w : ω) : pending (write bytes w).2 ≤ pending w
  credit_decode_le (input : List UInt8) (room : Nat) (w : ω) :
    credit (decode input room w).2 ≤ credit w

inductive DecompressState where
  | created
  | headerRead
  /-- Coder and buffers are at hand, and no payload has been read. -/
  | allocated
  /-- The payload has begun. -/
  | decoding
  | finished
  | failed
  deriving DecidableEq, Repr

namespace Line

variable {ω : Type} [Pump ω]

def decode (l : Line ω) (input : List UInt8) (room : Nat) : Except IoError Decoded × Line ω :=
  let ⟨world, taken, given⟩ := l
  let (result, world) := Pump.decode input room world
  (result, ⟨world, taken, given⟩)

theorem pending_push_le (l : Line ω) (bytes : List UInt8) :
    Pump.pending (l.push bytes).2.world ≤ Pump.pending l.world := by
  obtain ⟨world, taken, given⟩ := l
  have hw := Pump.pending_write_le bytes world
  rw [push]
  split
  · exact Nat.le_refl _
  · dsimp only
    split <;> rename_i hres <;> rw [hres] at hw
    · exact hw
    · split <;> exact hw

theorem credit_decode_le (l : Line ω) (input : List UInt8) (room : Nat) :
    (l.decode input room).2.credit ≤ l.credit :=
  Pump.credit_decode_le input room l.world

end Line

namespace Pump

variable {ω : Type} [Pump ω]

/-- The decoder was offered input and moved nothing. -/
def stuck : IoError := .other "decoder made no progress"

/--
Offers a chunk to the decoder until it is used up. Tells whether the decoder has
finished.
-/
def offer (room : Nat) (l : Line ω) (chunk : List UInt8) : Except Error Bool × Line ω :=
  match _ : l.decode chunk room with
  | (.error e, l) => (.error (.decompress e), l)
  | (.ok moved, l₁) =>
      match _ : l₁.push moved.output with
      | (.error e, l) => (.error e, l)
      | (.ok (), l₂) =>
          let rest := chunk.drop moved.used
          if moved.status = .finished then
            (.ok true, if rest = [] then l₂ else l₂.note (.trailingData rest.length))
          else if _ : moved.used = 0 ∧ moved.output = [] then
            if rest = [] then (.ok false, l₂) else (.error (.decompress stuck), l₂)
          else if rest = [] ∧ moved.status ≠ .outputFull then (.ok false, l₂)
          else offer room l₂ rest
termination_by (chunk.length, Pump.pending l.world)
decreasing_by
  rename_i hdecode hpush _ hmoved _
  obtain ⟨hres, hl₁⟩ := Prod.mk.inj hdecode
  have hle := used_decode_le hres
  by_cases hused : moved.used = 0
  · have hlt := pending_decode_lt hres hused fun hout => hmoved ⟨hused, hout⟩
    have hpush' := l₁.pending_push_le moved.output
    rw [hpush, ← hl₁] at hpush'
    rw [hused, List.drop_zero]
    exact Prod.Lex.right _ (Nat.lt_of_le_of_lt hpush' hlt)
  · exact Prod.Lex.left _ _ (by rw [List.length_drop]; omega)

theorem credit_offer_le (room : Nat) (l : Line ω) (chunk : List UInt8) :
    (offer room l chunk).2.credit ≤ l.credit := by
  have hstep {l l₁ l₂ : Line ω} {chunk : List UInt8} {moved : Decoded}
      {r : Except IoError Decoded} {r' : Except Error Unit}
      (hd : l.decode chunk room = (r, l₁)) (hp : l₁.push moved.output = (r', l₂)) :
      l₂.credit ≤ l.credit := by
    have h1 := l.credit_decode_le chunk room
    have h2 := l₁.credit_push_le moved.output
    rw [hd] at h1
    rw [hp] at h2
    exact Nat.le_trans h2 h1
  fun_induction offer room l chunk with
  | case1 l chunk e l' hdecode =>
      have h1 := l.credit_decode_le chunk room
      rwa [hdecode] at h1
  | case2 l chunk moved l₁ hdecode e l' hpush => exact hstep hdecode hpush
  | case3 l chunk moved l₁ hdecode l₂ hpush rest hfinished =>
      refine Nat.le_trans ?_ (hstep hdecode hpush)
      split
      · exact Nat.le_refl _
      · exact l₂.credit_note_le _
  | case4 l chunk moved l₁ hdecode l₂ hpush => exact hstep hdecode hpush
  | case5 l chunk moved l₁ hdecode l₂ hpush => exact hstep hdecode hpush
  | case6 l chunk moved l₁ hdecode l₂ hpush => exact hstep hdecode hpush
  | case7 l chunk moved l₁ hdecode l₂ hpush rest _ _ _ ih =>
      exact Nat.le_trans ih (hstep hdecode hpush)

variable {ρ : Type} [Register DecompressState ρ]

/-- Reads chunk after chunk and offers each to the decoder, until it has finished. -/
def run (room : Nat) (staging : Staging) (l : Line ω) (state : ρ) :
    Except Error Unit × ρ × Line ω :=
  match _ : l.pull staging.size with
  | (.error e, l) => (.error (.input e), state, l)
  | (.ok r, l₁) =>
      if _ : r.count = 0 then (.error .insufficientInput, state, l₁)
      else
        let state := Register.set DecompressState.decoding state
        let staging' := staging.receive r.placed
        match _ : offer room (l₁.note (.decodingChunk r.count)) (staging'.chunk r.count) with
        | (.error e, l) => (.error e, state, l)
        | (.ok true, l) => (.ok (), state, l)
        | (.ok false, l₂) => run room staging' l₂ state
termination_by l.credit
decreasing_by
  rename_i hpull hcount hoffer
  have h1 := Line.credit_pull_lt hpull (Nat.pos_of_ne_zero hcount)
  have h2 := l₁.credit_note_le (.decodingChunk r.count)
  have h3 := credit_offer_le room (l₁.note (.decodingChunk r.count)) (staging'.chunk r.count)
  rw [hoffer] at h3
  exact Nat.lt_of_le_of_lt (Nat.le_trans h3 h2) h1

end Pump

end Lzma
