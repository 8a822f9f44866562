import Lzma.Memory.Heap

/-!
# What a coder does with memory

A `Usage` is what a coder does with memory at one go. It asks for pieces and gives pieces
back, and goes on as it is answered. Nothing keeps it from asking again after a refusal, from
giving back what it gave back before or never had, or from forgetting what it holds. In the
end it tells whether it has got what it needs.

A coder deals with memory while it is set up, at each of its calls, and as it is given up.
Its `Housekeeping` says what it does each time. Coders as they are documented do not use all
of that freedom (`Housekeeping.Provident`).
-/

namespace Lzma

/-- What a coder does with memory at one go. -/
inductive Usage where
  /-- It is through, and has got what it needs or not. -/
  | done (enough : Bool)
  /-- It asks for a piece, and goes on with the key of one or without. -/
  | request (size : Nat) (next : Option Nat → Usage)
  /-- It gives a piece back, or the null address. -/
  | release (key : Option Nat) (next : Usage)

/-- Carries out what a coder does, and tells whether it has got what it needs. -/
def Heap.use {ω : Type} [Journal ω] : Usage → Heap ω → ω → Bool × Heap ω × ω
  | .done enough, h, w => (enough, h, w)
  | .request size next, h, w =>
      let (key, h, w) := h.request size w
      use (next key) h w
  | .release none next, h, w => use next h w
  | .release (some key) next, h, w =>
      let (h, w) := h.release key w
      use next h w

/-- Carries out what a coder does as it is given up, and releases what it has left. -/
def Heap.retire {ω : Type} [Journal ω] (closing : Usage) (h : Heap ω) (w : ω) : ω :=
  let (_, h, w) := h.use closing w
  h.close w

namespace Usage

/-- Asks for pieces of these sizes until one is refused. -/
def pieces : (sizes : List Nat) → Usage
  | [] => .done true
  | size :: sizes => .request size fun
      | some _ => pieces sizes
      | none => .done false

/--
Never asks for more than can be had, and has got what it needs just if nothing was refused.
`all` tells whether nothing was refused so far.
-/
def Exacting : Usage → (all : Bool) → Prop
  | .done enough, all => enough = all
  | .request size next, all =>
      Heap.padded size ≤ maxBufferSize ∧ (∀ key, (next (some key)).Exacting all) ∧
        (next none).Exacting false
  | .release _ next, all => next.Exacting all

/-- Asks for nothing. -/
def Quiet : Usage → Prop
  | .done _ => True
  | .request _ _ => False
  | .release _ next => next.Quiet

theorem exacting_pieces {sizes : List Nat}
    (h : ∀ size ∈ sizes, Heap.padded size ≤ maxBufferSize) : (pieces sizes).Exacting true := by
  induction sizes with
  | nil => rfl
  | cons size sizes ih =>
      obtain ⟨hsize, hsizes⟩ := List.forall_mem_cons.mp h
      exact ⟨hsize, fun _ => ih hsizes, rfl⟩

end Usage

/-- What a coder does with memory in the course of its life. -/
structure Housekeeping where
  /-- Before it looks at its properties. -/
  records : Usage
  /-- Once they are found to be in order. -/
  workspace : Usage
  /-- At each call, if anything. -/
  calls : Nat → Option Usage
  /-- As it is given up, whether it was set up in full or not. -/
  closing : Usage

/-- A coder gets hold of all of its memory while it is set up, and fails if it does not. -/
structure Housekeeping.Provident (h : Housekeeping) : Prop where
  records : h.records.Exacting true
  workspace : h.workspace.Exacting true
  calls (n : Nat) : h.calls n = none
  closing : h.closing.Quiet

end Lzma
