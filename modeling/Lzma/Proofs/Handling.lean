import Lzma.Memory.Allocator
import Mathlib.Data.Option.Basic

/-!
# Programs that handle allocators

A program may have any number of allocators. It binds them anew, copies them and drops them as it
likes, and meanwhile the blocks that they have made live on. `Holdings` is what such a program has
at a moment, and `Holdings.after` is what it has once it has done a list of operations.

What was dropped leaves its number, so that an operation can tell what it is about by a number in a
table. Two tables are alike (`TablesAlike`) if the same numbers are in use and what goes by them is
related.
-/

namespace Lzma

/-! ## Tables -/

section

variable {α β : Type}

/-- What goes by a number in a table whose entries may be gone. -/
def slot (table : List (Option α)) (k : Nat) : Option α := table[k]?.join

theorem slot_concat (table : List (Option α)) (x : Option α) (k : Nat) :
    slot (table ++ [x]) k = if k = table.length then x else slot table k := by
  rw [slot, slot, List.getElem?_append]
  split
  · rw [if_neg (by omega)]
  · rename_i hle
    rw [List.getElem?_singleton, List.getElem?_eq_none (by omega)]
    split <;> rename_i hzero
    · rw [if_pos (by omega)]
      rfl
    · rw [if_neg (by omega)]

theorem slot_set (table : List (Option α)) (k : Nat) (x : Option α) (j : Nat) :
    slot (table.set k x) j = if k = j ∧ k < table.length then x else slot table j := by
  rw [slot, slot, List.getElem?_set]
  by_cases hkj : k = j
  · subst hkj
    by_cases hlt : k < table.length
    · simp [hlt]
    · simp [hlt]
  · simp [hkj]

theorem lt_of_slot {table : List (Option α)} {k : Nat} {x : α} (h : slot table k = some x) :
    k < table.length := by
  by_contra hge
  rw [slot, List.getElem?_eq_none (by omega)] at h
  cases h

/-- What stands in a list stands there in every longer one that starts with it. -/
theorem getElem?_of_prefix {l l' : List α} (h : l <+: l') {i : Nat} {x : α}
    (hx : l[i]? = some x) : l'[i]? = some x := by
  obtain ⟨new, rfl⟩ := h
  obtain ⟨hlt, -⟩ := List.getElem?_eq_some_iff.mp hx
  rw [List.getElem?_append_left hlt]
  exact hx

/-- Two tables with the same numbers in use, and what goes by the same number related. -/
structure TablesAlike (R : α → β → Prop) (t : List (Option α)) (t' : List (Option β)) : Prop where
  length : t.length = t'.length
  slots : ∀ k, Option.Rel R (slot t k) (slot t' k)

namespace TablesAlike

variable {R : α → β → Prop} {t : List (Option α)} {t' : List (Option β)}

theorem start : TablesAlike R [] [] := ⟨rfl, fun _ => .none⟩

theorem concat (h : TablesAlike R t t') {x : Option α} {x' : Option β} (hx : Option.Rel R x x') :
    TablesAlike R (t ++ [x]) (t' ++ [x']) := by
  refine ⟨by simp [h.length], ?_⟩
  intro k
  rw [slot_concat, slot_concat, h.length]
  split
  · exact hx
  · exact h.slots k

theorem set (h : TablesAlike R t t') (k : Nat) {x : Option α} {x' : Option β}
    (hx : Option.Rel R x x') : TablesAlike R (t.set k x) (t'.set k x') := by
  refine ⟨by simp [h.length], ?_⟩
  intro j
  rw [slot_set, slot_set, h.length]
  split
  · exact hx
  · exact h.slots j

/-- What goes by a number in one table has its match in the other. -/
theorem of_some (h : TablesAlike R t t') {k : Nat} {x : α} (hx : slot t k = some x) :
    ∃ x', slot t' k = some x' ∧ R x x' := by
  have hrel := h.slots k
  rw [hx] at hrel
  generalize slot t' k = y at hrel ⊢
  cases hrel with
  | some hxx' => exact ⟨_, rfl, hxx'⟩

theorem of_none (h : TablesAlike R t t') {k : Nat} (hx : slot t k = none) :
    slot t' k = none := by
  have hrel := h.slots k
  rw [hx] at hrel
  generalize slot t' k = y at hrel ⊢
  cases hrel with
  | none => rfl

/-- What both tell of their entries is the same if it is so for what is related. -/
theorem map_eq {γ : Type} {f : α → γ} {g : β → γ} (h : TablesAlike R t t')
    (hR : ∀ x x', R x x' → f x = g x') (k : Nat) : (slot t k).map f = (slot t' k).map g := by
  have hrel := h.slots k
  generalize slot t k = x at hrel ⊢
  generalize slot t' k = x' at hrel ⊢
  cases hrel with
  | some hxx' => exact congrArg some (hR _ _ hxx')
  | none => rfl

theorem imp {R' : α → β → Prop} (h : TablesAlike R t t') (hR : ∀ x x', R x x' → R' x x') :
    TablesAlike R' t t' := by
  refine ⟨h.length, ?_⟩
  intro k
  have hrel := h.slots k
  generalize slot t k = x at hrel ⊢
  generalize slot t' k = x' at hrel ⊢
  cases hrel with
  | some hxx' => exact .some (hR _ _ hxx')
  | none => exact .none

end TablesAlike

end

/-! ## Programs that handle allocators -/

/-- What a program can do with its allocators and their blocks. -/
inductive Handling (ω : Type) where
  | create
  /-- Binds a value anew; a callback that is missing is the process's own. -/
  | bind (value : Nat) (alloc : Option (AllocCallback ω)) (free : Option (FreeCallback ω))
  | clone (value : Nat)
  | discard (value : Nat)
  | request (value size : Nat)
  | write (block start : Nat) (bytes : List UInt8)
  | release (block : Nat)

/-- The allocators and blocks of a program. What was dropped, or never came, leaves its number. -/
structure Holdings (ω : Type) where
  values : List (Option (Allocator ω)) := []
  blocks : List (Option (Block ω)) := []
  world : ω
  /-- How many operations there have been. -/
  time : Nat := 0

namespace Holdings

variable {ω ω' : Type} [Journal ω']

/--
An operation, which has no effect if what it is about is gone. Where a value gets new callbacks
they are made fit for the world, and may be told when that was.
-/
def act (equip : Nat → Allocator ω → Allocator ω') (s : Holdings ω') : Handling ω → Holdings ω'
  | .create => { s with values := s.values ++ [some (equip s.time .standard)] }
  | .bind k alloc free =>
      if (slot s.values k).isSome then
        { s with values := s.values.set k (some (equip s.time (.bind alloc free))) }
      else s
  | .clone k =>
      match slot s.values k with
      | some a => { s with values := s.values ++ [some a] }
      | none => s
  | .discard k => { s with values := s.values.set k none }
  | .request k size =>
      match slot s.values k with
      | some a =>
          let (result, world) := a.request size s.world
          { s with blocks := s.blocks ++ [result.toOption], world }
      | none => s
  | .write k start bytes =>
      match slot s.blocks k with
      | some b => { s with blocks := s.blocks.set k (some (b.write start bytes)) }
      | none => s
  | .release k =>
      match slot s.blocks k with
      | some b => { s with blocks := s.blocks.set k none, world := b.release s.world }
      | none => s

def step (equip : Nat → Allocator ω → Allocator ω') (s : Holdings ω') (op : Handling ω) :
    Holdings ω' :=
  { s.act equip op with time := s.time + 1 }

/-- What a program has once it has done all this. -/
def after (equip : Nat → Allocator ω → Allocator ω') (w : ω') (ops : List (Handling ω)) :
    Holdings ω' :=
  ops.foldl (step equip) { world := w }

theorem after_concat (equip : Nat → Allocator ω → Allocator ω') (w : ω')
    (ops : List (Handling ω)) (op : Handling ω) :
    after equip w (ops ++ [op]) = (after equip w ops).step equip op := by
  rw [after, List.foldl_append]
  rfl

section

variable (equip : Nat → Allocator ω → Allocator ω') (s : Holdings ω')

/-- As long as it is not given back itself a block stays, and so does the way that it will go. -/
theorem act_block (op : Handling ω) {k : Nat} {b : Block ω'} (hb : slot s.blocks k = some b)
    (hop : op ≠ .release k) :
    ∃ b', slot (s.act equip op).blocks k = some b' ∧ b'.free = b.free ∧ b'.size = b.size ∧
      b'.buffer.address = b.buffer.address := by
  have hkept : ∃ b', slot s.blocks k = some b' ∧ b'.free = b.free ∧ b'.size = b.size ∧
      b'.buffer.address = b.buffer.address := ⟨b, hb, rfl, rfl, rfl⟩
  cases op with
  | create | discard => exact hkept
  | bind k' alloc free =>
      rw [act]
      split <;> exact hkept
  | clone k' =>
      rw [act]
      split <;> exact hkept
  | request k' size =>
      rw [act]
      split
      · dsimp only
        rw [slot_concat, if_neg (Nat.ne_of_lt (lt_of_slot hb))]
        exact hkept
      · exact hkept
  | write k' start bytes =>
      rw [act]
      split <;> rename_i hslot
      · rename_i b₁
        dsimp only
        rw [slot_set]
        split <;> rename_i hk
        · -- Writing replaces the bytes of a block and nothing else of it.
          obtain ⟨rfl, -⟩ := hk
          obtain rfl := Option.some.inj (hslot.symm.trans hb)
          exact ⟨_, rfl, rfl, rfl, rfl⟩
        · exact hkept
      · exact hkept
  | release k' =>
      have hne : k' ≠ k := by
        intro heq
        exact hop (congrArg Handling.release heq)
      rw [act]
      split
      · dsimp only
        rw [slot_set, if_neg (fun hk => hne hk.1)]
        exact hkept
      · exact hkept

/-- Only requests and releases call anyone. -/
theorem act_world (op : Handling ω)
    (hrequest : ∀ k size, slot s.values k ≠ none → op ≠ .request k size)
    (hrelease : ∀ k, slot s.blocks k ≠ none → op ≠ .release k) :
    (s.act equip op).world = s.world := by
  cases op with
  | create | discard => rfl
  | bind k alloc free =>
      rw [act]
      split <;> rfl
  | clone k =>
      rw [act]
      split <;> rfl
  | request k size =>
      rw [act]
      split <;> rename_i hslot
      · exact absurd rfl (hrequest k size (by rw [hslot]; simp))
      · rfl
  | write k start bytes =>
      rw [act]
      split <;> rfl
  | release k =>
      rw [act]
      split <;> rename_i hslot
      · exact absurd rfl (hrelease k (by rw [hslot]; simp))
      · rfl

end

end Holdings

end Lzma
