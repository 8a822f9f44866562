import Lzma.Channel.Adapter
import Lzma.Script.Tally

/-!
# Sources that follow a script

A `ScriptedSource` plays back chunks of bytes, ends and failures in a given
order, and keeps a log of the reads it served. Once its script is over it has
ended. It can be used as a source, or as a reader whose interruptions are part
of the script.
-/

namespace Lzma

-- A sum of numbers starts from the core library's 0, whatever stands beside this module.
attribute [local instance (high)] Zero.ofOfNat0

inductive ReadStep where
  /-- Some bytes; what does not fit the buffer is left for the next read. -/
  | bytes (chunk : List UInt8)
  | ended
  | failure (error : IoError)
  /-- The buffer is left alone, and so many bytes more than its size are reported. -/
  | overReport (excess : Nat)

namespace ReadStep

/-- How many reads a step can serve. -/
def weight : ReadStep → Nat
  | .bytes chunk => chunk.length + 1
  | _ => 1

/-- `bytes` in steps of `size` bytes each; no bytes make no step. -/
def chunks (size : Nat) (bytes : List UInt8) : List ReadStep :=
  if _ : bytes = [] ∨ size = 0 then []
  else .bytes (bytes.take size) :: chunks size (bytes.drop size)
termination_by bytes.length
decreasing_by
  rename_i h
  have hne : 0 < bytes.length := List.length_pos_iff.mpr fun hnil => h (.inl hnil)
  have hsize : size ≠ 0 := fun hzero => h (.inr hzero)
  rw [List.length_drop]
  omega

def serve (room : Nat) : List ReadStep → Except IoError Reading × List ReadStep
  | [] => (.ok ⟨[], 0⟩, [])
  | .bytes chunk :: rest =>
      let now := chunk.take room
      let later := chunk.drop room
      (.ok ⟨now, now.length⟩, if later.isEmpty then rest else .bytes later :: rest)
  | .ended :: rest => (.ok ⟨[], 0⟩, rest)
  | .failure e :: rest => (.error e, rest)
  | .overReport excess :: rest => (.ok ⟨[], room + excess⟩, rest)

def total (steps : List ReadStep) : Nat := (steps.map weight).sum

theorem total_serve_lt_of_ok {room : Nat} {steps : List ReadStep} {r : Reading}
    (h : (serve room steps).1 = .ok r) (hpos : 0 < r.count) :
    total (serve room steps).2 < total steps := by
  match steps with
  | [] =>
      cases h
      exact absurd hpos (Nat.lt_irrefl 0)
  | .bytes chunk :: rest =>
      simp only [serve] at h ⊢
      cases h
      simp only [List.length_take] at hpos
      split
      · simp only [total, List.map_cons, List.sum_cons, weight]
        omega
      · simp only [total, List.map_cons, List.sum_cons, weight, List.length_drop]
        omega
  | .ended :: rest =>
      cases h
      exact absurd hpos (Nat.lt_irrefl 0)
  | .failure e :: rest => cases h
  | .overReport excess :: rest =>
      simp only [serve, total, List.map_cons, List.sum_cons, weight]
      omega

theorem total_serve_lt_of_error {room : Nat} {steps : List ReadStep} {e : IoError}
    (h : (serve room steps).1 = .error e) : total (serve room steps).2 < total steps := by
  match steps with
  | [] => cases h
  | .bytes chunk :: rest => cases h
  | .ended :: rest => cases h
  | .failure e :: rest =>
      simp only [serve, total, List.map_cons, List.sum_cons, weight]
      omega
  | .overReport excess :: rest => cases h

end ReadStep

/-- A script of reads, and a log of them. -/
structure ScriptedSource where
  steps : List ReadStep
  /-- Of each read its room, and what it reported. -/
  reads : Tally (Nat × Except IoKind Nat) := {}

namespace ScriptedSource

instance : DecidableEq (Except IoKind Nat)
  | .ok a, .ok b => if h : a = b then isTrue (h ▸ rfl) else isFalse fun heq => h (by cases heq; rfl)
  | .error a, .error b =>
      if h : a = b then isTrue (h ▸ rfl) else isFalse fun heq => h (by cases heq; rfl)
  | .ok _, .error _ | .error _, .ok _ => isFalse nofun

/-- What is logged of a read. -/
def summary : Except IoError Reading → Except IoKind Nat
  | .ok r => .ok r.count
  | .error e => .error e.kind

def read (room : Nat) (s : ScriptedSource) : Except IoError Reading × ScriptedSource :=
  let (r, steps) := ReadStep.serve room s.steps
  (r, { steps, reads := s.reads.add (room, summary r) })

instance : Source ScriptedSource where
  read := read
  credit s := ReadStep.total s.steps
  credit_read_lt h hpos _ := ReadStep.total_serve_lt_of_ok h hpos

instance : Reader ScriptedSource where
  read := read
  credit s := ReadStep.total s.steps
  credit_read_lt h hpos _ := ReadStep.total_serve_lt_of_ok h hpos
  credit_interrupted_lt h _ := ReadStep.total_serve_lt_of_error h

end ScriptedSource

end Lzma
