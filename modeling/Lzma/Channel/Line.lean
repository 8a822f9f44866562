import Lzma.Channel.Basic

/-!
# Counted reading and writing

A `Line` is a channel's world in the course of a run, with the bytes that were
taken from it and given to it so far. Only what went right is counted: a read
whose count fits its buffer, and a write that was taken whole.

A source is handed a buffer that already holds something. What it reports is
believed, so if it reports more than it placed, the run goes on with what the
buffer held before; `Staging` keeps track of that.
-/

namespace Lzma

/-- `bytes` placed at the start of a buffer that held `old`. -/
def overlay (bytes old : List UInt8) : List UInt8 :=
  bytes.take old.length ++ old.drop bytes.length

@[simp] theorem length_overlay (bytes old : List UInt8) :
    (overlay bytes old).length = old.length := by
  simp [overlay]
  omega

/-- A buffer that a source reads into again and again. -/
structure Staging where
  size : Nat
  held : List UInt8
  length_held : held.length = size

namespace Staging

/-- The size of the buffers that runs read into. -/
def defaultSize : Nat := 65536

def ofList (bytes : List UInt8) : Staging := ⟨bytes.length, bytes, rfl⟩

/-- The buffer after a read placed bytes in it. -/
def receive (s : Staging) (placed : List UInt8) : Staging where
  size := s.size
  held := placed.take s.size ++ s.held.drop placed.length
  length_held := by
    have := s.length_held
    simp
    omega

def chunk (s : Staging) (count : Nat) : List UInt8 := s.held.take count

end Staging

/-- A channel's world in the course of a run. -/
structure Line (ω : Type) where
  world : ω
  taken : Nat := 0
  given : Nat := 0

namespace Line

variable {ω : Type} [Channel ω]

def note (l : Line ω) (event : Event) : Line ω :=
  let ⟨world, taken, given⟩ := l
  ⟨Journal.note event world, taken, given⟩

/-- One read, into a buffer of `room` bytes. A buffer without room is not read into. -/
def pull (l : Line ω) (room : Nat) : Except IoError Reading × Line ω :=
  if room = 0 then (.ok ⟨[], 0⟩, l)
  else
    let ⟨world, taken, given⟩ := l
    match Channel.read room world with
    | (.error e, world) => (.error e, ⟨world, taken, given⟩)
    | (.ok r, world) =>
        if room < r.count then (.error .overReported, ⟨world, taken, given⟩)
        else (.ok r, ⟨world, taken + r.count, given⟩)

/--
Reads until a buffer that holds `old` is full or the source ends. Gives the
bytes up to there.
-/
def gather (l : Line ω) (old : List UInt8) : Except Error (List UInt8) × Line ω :=
  if old.isEmpty then (.ok [], l)
  else match l.pull old.length with
    | (.error e, l) => (.error (.input e), l)
    | (.ok r, l) =>
        if r.count = 0 then (.ok [], l)
        else
          let new := overlay r.placed old
          match l.gather (new.drop r.count) with
          | (.error e, l) => (.error e, l)
          | (.ok more, l) => (.ok (new.take r.count ++ more), l)
termination_by old.length
decreasing_by
  have hne : old ≠ [] := by rintro rfl; simp_all
  have hpos := List.length_pos_iff.mpr hne
  simp only [List.length_drop, length_overlay]
  omega

/-- One write, of all the bytes or of none if there are none. -/
def push (l : Line ω) (bytes : List UInt8) : Except Error Unit × Line ω :=
  if bytes.isEmpty then (.ok (), l)
  else
    let ⟨world, taken, given⟩ := l
    match Channel.write bytes world with
    | (.error e, world) =>
        (.error (.output bytes.length 0 (some e)), ⟨world, taken, given⟩)
    | (.ok count, world) =>
        if count = bytes.length then (.ok (), ⟨world, taken, given + count⟩)
        else (.error (.output bytes.length count none), ⟨world, taken, given⟩)

def credit (l : Line ω) : Nat := Channel.credit l.world

theorem credit_note_le (l : Line ω) (event : Event) : (l.note event).credit ≤ l.credit :=
  Channel.credit_note_le event l.world

theorem credit_push_le (l : Line ω) (bytes : List UInt8) :
    (l.push bytes).2.credit ≤ l.credit := by
  obtain ⟨world, taken, given⟩ := l
  have hw := Channel.credit_write_le bytes world
  unfold push
  split
  · exact Nat.le_refl _
  · dsimp only
    split <;> rename_i hres <;> rw [hres] at hw
    · exact hw
    · split <;> exact hw

theorem credit_pull_lt {l l' : Line ω} {room : Nat} {r : Reading}
    (h : l.pull room = (.ok r, l')) (hpos : 0 < r.count) : l'.credit < l.credit := by
  obtain ⟨world₀, taken, given⟩ := l
  unfold pull at h
  split at h
  · cases h
    exact absurd hpos (Nat.lt_irrefl 0)
  · dsimp only at h
    split at h
    · cases h
    · rename_i r₀ world hread
      split at h
      · cases h
      · rename_i hle
        cases h
        have hlt := Channel.credit_read_lt (by rw [hread]) hpos (Nat.le_of_not_lt hle)
        rw [hread] at hlt
        exact hlt

end Line

end Lzma
