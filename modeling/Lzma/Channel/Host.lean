import Lzma.Channel.Line
import Lzma.Coder.Engine

/-!
# Worlds in which a coder works

A coder that is called may deal with memory before it does what it is called for.
`Host ω` is a channel in whose world that can happen. A plain channel is one whose
coder has all the memory that it needs; `Hosting ω` is one whose coder has its memory
beside the world and does as its housekeeping says.

No call but a read gives a source more to give, and a coder's dealings are no
exception: one that would is left out. Where an allocator leaves the source alone
that does not happen (`Hosting.attend_of_apart`).
-/

namespace Lzma

class Host (ω : Type) extends Channel ω where
  /-- What a coder does with memory as it is called, and whether it has got what it needs. -/
  attend : ω → Bool × ω
  credit_attend_le (w : ω) : credit (attend w).2 ≤ credit w

/-- A coder that has all that it needs. -/
instance (priority := low) Channel.host {ω : Type} [Channel ω] : Host ω where
  attend w := (true, w)
  credit_attend_le _ := Nat.le_refl _

/-- A channel's world and the memory of a coder beside it. -/
structure Hosting (ω : Type) where
  world : ω
  heap : Heap ω
  calls : Nat → Option Usage
  /-- How often the coder was called. -/
  turn : Nat := 0

namespace Hosting

variable {ω : Type} [Channel ω]

instance : Channel (Hosting ω) where
  note event h := { h with world := Journal.note event h.world }
  read room h := let (r, world) := Channel.read room h.world; (r, { h with world })
  write bytes h := let (r, world) := Channel.write bytes h.world; (r, { h with world })
  credit h := Channel.credit h.world
  credit_read_lt := Channel.credit_read_lt
  credit_write_le bytes h := Channel.credit_write_le bytes h.world
  credit_note_le event h := Channel.credit_note_le event h.world

/-- The coder does what is due at this call. -/
def attend (h : Hosting ω) : Bool × Hosting ω :=
  let turn := h.turn + 1
  match h.calls h.turn with
  | none => (true, { h with turn })
  | some usage =>
      let (enough, heap, world) := h.heap.use usage h.world
      if Channel.credit world ≤ Channel.credit h.world then (enough, { h with heap, world, turn })
      else (true, { h with turn })

theorem attend_of_none {h : Hosting ω} (hcall : h.calls h.turn = none) :
    h.attend = (true, { h with turn := h.turn + 1 }) := by
  rw [attend, hcall]

/-- Dealings that give the source nothing are carried out. -/
theorem attend_of_le {h : Hosting ω} {usage : Usage} (hcall : h.calls h.turn = some usage)
    (hle : Channel.credit (h.heap.use usage h.world).2.2 ≤ Channel.credit h.world) :
    h.attend = ((h.heap.use usage h.world).1, { h with
      heap := (h.heap.use usage h.world).2.1
      world := (h.heap.use usage h.world).2.2
      turn := h.turn + 1 }) := by
  rw [attend, hcall]
  dsimp only
  rw [if_pos hle]

theorem attend_of_lt {h : Hosting ω} {usage : Usage} (hcall : h.calls h.turn = some usage)
    (hlt : Channel.credit h.world < Channel.credit (h.heap.use usage h.world).2.2) :
    h.attend = (true, { h with turn := h.turn + 1 }) := by
  rw [attend, hcall]
  dsimp only
  rw [if_neg (Nat.not_le.mpr hlt)]

instance : Host (Hosting ω) where
  attend := attend
  credit_attend_le h := by
    cases hcall : h.calls h.turn with
    | none =>
        rw [attend_of_none hcall]
        exact Nat.le_refl _
    | some usage =>
        by_cases hle : Channel.credit (h.heap.use usage h.world).2.2 ≤ Channel.credit h.world
        · rw [attend_of_le hcall hle]
          exact hle
        · rw [attend_of_lt hcall (Nat.lt_of_not_le hle)]
          exact Nat.le_refl _

end Hosting

namespace Engine

variable {κ ω : Type}

/-- A coder at work, with its memory beside the world. -/
def host (e : Engine κ ω) (w : ω) : Hosting ω where
  world := w
  heap := e.heap
  calls := e.housekeeping.calls

/-- The engine of a coder that was at work. -/
def after (e : Engine κ ω) (h : Hosting ω) : Engine κ ω := { e with heap := h.heap }

end Engine

namespace Line

variable {ω : Type} [Host ω]

/-- A coder is called, and has what it needs or fails. -/
def attend (l : Line ω) : Except IoError Unit × Line ω :=
  let ⟨world, taken, given⟩ := l
  match Host.attend world with
  | (true, world) => (.ok (), ⟨world, taken, given⟩)
  | (false, world) => (.error Fault.outOfMemory.toIoError, ⟨world, taken, given⟩)

theorem world_attend (l : Line ω) : l.attend.2.world = (Host.attend l.world).2 := by
  rw [attend]
  split <;> rename_i heq <;> rw [heq]

theorem credit_attend_le (l : Line ω) : l.attend.2.credit ≤ l.credit := by
  rw [credit, world_attend]
  exact Host.credit_attend_le l.world

/-- A call of an encoder, which deals with memory before it does anything else. -/
def encodeCall (l : Line ω) (s : Stream Encoder) (call : Call) (room : Nat) :
    Except IoError Encoded × Stream Encoder × Line ω :=
  match l.attend with
  | (.error e, l) => (.error e, s, l)
  | (.ok (), l) => let (result, s) := s.encodeCall call room; (result, s, l)

theorem credit_encodeCall_le (l : Line ω) (s : Stream Encoder) (call : Call) (room : Nat) :
    (l.encodeCall s call room).2.2.credit ≤ l.credit := by
  have hle := l.credit_attend_le
  rw [encodeCall]
  split <;> rename_i heq <;> rw [heq] at hle <;> exact hle

/-- A call that gives a result is a call of the stream. -/
theorem of_encodeCall {l l' : Line ω} {s s' : Stream Encoder} {call : Call} {room : Nat}
    {moved : Encoded} (h : l.encodeCall s call room = (.ok moved, s', l')) :
    s.encodeCall call room = (.ok moved, s') := by
  rw [encodeCall] at h
  split at h
  · cases h
  · obtain ⟨hresult, hrest⟩ := Prod.mk.inj h
    exact Prod.ext hresult (congrArg Prod.fst hrest)

end Line

end Lzma
