import Lzma.Proofs.Likeness
import Lzma.Proofs.Upkeep

/-!
# Whole runs side by side

What the loops come to in two worlds that answer alike, a whole run comes to there, if the
allocators answer alike as well. The two handles then end the same, in worlds that are related
(`Compressor.run_lockstep`, `Decompressor.run_lockstep`).

Where one world gives up, it has only its memory left to give back and its failure to note.
The other run may have all of its way before it, memory included, so of the relation that the
two stand in then it is asked that no dealing of the other side takes it away.

Blocks are compared by what they hold. Where they go back to is known from `Served`, for each
side in its own world.
-/

namespace Lzma

variable {ω ω' κ : Type}

/-- Two allocators that answer alike in related worlds. -/
structure Allocator.Lockstep [Journal ω] [Journal ω'] (R : ω → ω' → Prop)
    (E : Error → ω → ω' → Prop) (a : Allocator ω) (a' : Allocator ω') : Prop where
  note (event : Event) {w : ω} {w' : ω'} : R w w' →
    R (Journal.note event w) (Journal.note event w')
  alloc (size : Nat) {w : ω} {w' : ω'} : R w w' → Same R (a.alloc size w) (a'.alloc size w')
  free (buffer : Buffer) {w : ω} {w' : ω'} : R w w' → R (a.free buffer w) (a'.free buffer w')
  closing (e : Error) (buffer : Buffer) (w : ω) (w' : ω') : E e w w' → E e (a.free buffer w) w'
  later (e : Error) (w : ω) : a'.Keeps (E e w)

theorem Allocator.lockstep_of_alike [Journal ω] [Journal ω'] {R : ω → ω' → Prop}
    {a : Allocator ω} {a' : Allocator ω'}
    (note : ∀ event w w', R w w' → R (Journal.note event w) (Journal.note event w'))
    (alloc : ∀ size w w', R w w' → Same R (a.alloc size w) (a'.alloc size w'))
    (free : ∀ buffer w w', R w w' → R (a.free buffer w) (a'.free buffer w')) :
    a.Lockstep R Never a' where
  note event _ _ := note event _ _
  alloc size _ _ := alloc size _ _
  free buffer _ _ := free buffer _ _
  closing _ _ _ _ := id
  later _ _ := ⟨fun _ => id, fun _ _ => id, fun _ _ => id⟩

/-- Two heaps that hold the same under the same keys. -/
structure Heap.Alike (h : Heap ω) (h' : Heap ω') : Prop where
  blocks : (h.blocks.map fun entry => (entry.1, entry.2.buffer)) =
    h'.blocks.map fun entry => (entry.1, entry.2.buffer)
  fresh : h.fresh = h'.fresh

structure Engine.Alike (e : Engine κ ω) (e' : Engine κ ω') : Prop where
  stream : e.stream = e'.stream
  housekeeping : e.housekeeping = e'.housekeeping
  heap : e.heap.Alike e'.heap

structure Outfit.Alike (x : Outfit κ ω) (x' : Outfit κ ω') : Prop where
  engine : x.engine.Alike x'.engine
  input : x.input.buffer = x'.input.buffer
  output : x.output.buffer = x'.output.buffer

/-- Under one key the two heaps have the same, and without that they are alike again. -/
theorem Heap.Alike.lookup {h : Heap ω} {h' : Heap ω'} (halike : h.Alike h') (key : Nat) :
    (h.blocks.lookup key).map Block.buffer = (h'.blocks.lookup key).map Block.buffer := by
  have hmap {ω : Type} (blocks : List (Nat × Block ω)) :
      (blocks.map fun entry => (entry.1, entry.2.buffer)).lookup key =
        (blocks.lookup key).map Block.buffer := by
    induction blocks with
    | nil => rfl
    | cons entry blocks ih =>
        obtain ⟨key', block⟩ := entry
        rw [List.map_cons, List.lookup_cons, List.lookup_cons]
        cases key == key' with
        | true => rfl
        | false => exact ih
  rw [← hmap, ← hmap, halike.blocks]

theorem Heap.Alike.without {h : Heap ω} {h' : Heap ω'} (halike : h.Alike h') (key : Nat) :
    Heap.Alike { h with blocks := h.blocks.filter fun entry => entry.1 != key }
      { h' with blocks := h'.blocks.filter fun entry => entry.1 != key } := by
  have hmap {ω : Type} (blocks : List (Nat × Block ω)) :
      ((blocks.filter fun entry => entry.1 != key).map fun entry => (entry.1, entry.2.buffer)) =
        (blocks.map fun entry => (entry.1, entry.2.buffer)).filter fun entry => entry.1 != key := by
    rw [List.filter_map]
    rfl
  exact ⟨by rw [hmap, hmap, halike.blocks], halike.fresh⟩

theorem Outfit.Alike.input_bytes {x : Outfit κ ω} {x' : Outfit κ ω'} (h : x.Alike x') :
    x.input.buffer.bytes = x'.input.buffer.bytes :=
  congrArg Buffer.bytes h.input

theorem Outfit.Alike.output_size {x : Outfit κ ω} {x' : Outfit κ ω'} (h : x.Alike x') :
    x.output.size = x'.output.size :=
  congrArg Buffer.size h.output

namespace Allocator.Lockstep

section

variable [Journal ω] [Journal ω'] {R : ω → ω' → Prop} {E : Error → ω → ω' → Prop}
variable {a : Allocator ω} {a' : Allocator ω'} {w w₁ : ω} {w' : ω'}

/-! ## Requests -/

theorem request_error (ha : a.Lockstep R E a') (hw : R w w') {size : Nat} {denial : Denial}
    (h : a.request size w = (.error denial, w₁)) :
    ∃ w₁', a'.request size w' = (.error denial, w₁') ∧ R w₁ w₁' := by
  rw [request] at h ⊢
  split at h <;> rename_i hres <;> obtain ⟨w₂', hres', hw₂⟩ := (ha.alloc size hw).of_eq hres <;>
    rw [hres']
  · cases h
    exact ⟨w₂', rfl, hw₂⟩
  · split at h <;> rename_i hshort <;> cases h
    dsimp only
    rw [if_pos hshort]
    exact ⟨_, rfl, ha.free _ (ha.note _ hw₂)⟩

theorem request_ok (ha : a.Lockstep R E a') (hw : R w w') {size : Nat} {b : Block ω}
    (h : a.request size w = (.ok b, w₁)) :
    ∃ b' w₁', a'.request size w' = (.ok b', w₁') ∧ b.buffer = b'.buffer ∧ R w₁ w₁' := by
  rw [request] at h
  split at h <;> rename_i hres
  · cases h
  · obtain ⟨w₂', hres', hw₂⟩ := (ha.alloc size hw).of_eq hres
    split at h <;> rename_i hlong <;> cases h
    refine ⟨⟨_, a'.free⟩, w₂', ?_, rfl, hw₂⟩
    rw [request, hres']
    exact if_neg hlong

theorem release (ha : a.Lockstep R E a') (hw : R w w') {b : Block ω} {b' : Block ω'}
    (hb : b.free = a.free) (hb' : b'.free = a'.free) (hbuffer : b.buffer = b'.buffer) :
    R (b.release w) (b'.release w') := by
  rw [Block.release, Block.release, hb, hb', hbuffer]
  exact ha.free b'.buffer hw

/-! ## Coders -/

variable {h h₁ : Heap ω} {h' : Heap ω'}

theorem heap_request (ha : a.Lockstep R E a') (hh : h.Served a) (hh' : h'.Served a')
    (halike : h.Alike h') (hw : R w w') {size : Nat} {key : Option Nat}
    (heq : h.request size w = (key, h₁, w₁)) :
    ∃ h₁' w₁', h'.request size w' = (key, h₁', w₁') ∧ h₁.Alike h₁' ∧ R w₁ w₁' := by
  rw [Heap.request, hh.allocator] at heq
  split at heq <;> rename_i hsize
  · cases heq
    refine ⟨h', w', ?_, halike, hw⟩
    rw [Heap.request, if_pos hsize]
  · split at heq <;> rename_i hres <;> cases heq
    · obtain ⟨b', w₁', hres', hbuffer, hw₁⟩ := ha.request_ok hw hres
      refine ⟨{ h' with blocks := (h'.fresh, b') :: h'.blocks, fresh := h'.fresh + 1 }, w₁', ?_,
        ⟨?_, congrArg (· + 1) halike.fresh⟩, hw₁⟩
      · rw [Heap.request, if_neg hsize, hh'.allocator, hres', halike.fresh]
      · simp only [List.map_cons, halike.blocks, halike.fresh, hbuffer]
    · obtain ⟨w₁', hres', hw₁⟩ := ha.request_error hw hres
      refine ⟨h', _, ?_, halike, ha.note (.engineRefused size) hw₁⟩
      rw [Heap.request, if_neg hsize, hh'.allocator, hres']
    · obtain ⟨w₁', hres', hw₁⟩ := ha.request_error hw hres
      refine ⟨h', w₁', ?_, halike, hw₁⟩
      rw [Heap.request, if_neg hsize, hh'.allocator, hres']

theorem heap_release (ha : a.Lockstep R E a') (hh : h.Served a) (hh' : h'.Served a')
    (halike : h.Alike h') (hw : R w w') (key : Nat) :
    (h.release key w).1.Alike (h'.release key w').1 ∧
      R (h.release key w).2 (h'.release key w').2 := by
  have hlookup := halike.lookup key
  rw [Heap.release, Heap.release]
  split <;> rename_i heq <;> rw [heq] at hlookup
  · rename_i block
    obtain ⟨block', heq', hbuffer⟩ := Option.map_eq_some_iff.mp hlookup.symm
    rw [heq']
    obtain ⟨before, after, hblocks, -⟩ := List.lookup_eq_some_iff.mp heq
    obtain ⟨before', after', hblocks', -⟩ := List.lookup_eq_some_iff.mp heq'
    exact ⟨halike.without key, ha.release hw (hh.blocks (key, block) (by rw [hblocks]; simp))
      (hh'.blocks (key, block') (by rw [hblocks']; simp)) hbuffer.symm⟩
  · rw [Option.map_eq_none_iff.mp hlookup.symm]
    exact ⟨halike, hw⟩

theorem heap_use (ha : a.Lockstep R E a') (hh : h.Served a) (hh' : h'.Served a')
    (halike : h.Alike h') (hw : R w w') {u : Usage} {enough : Bool}
    (heq : h.use u w = (enough, h₁, w₁)) :
    ∃ h₁' w₁', h'.use u w' = (enough, h₁', w₁') ∧ h₁.Alike h₁' ∧ R w₁ w₁' := by
  induction u generalizing h h' w w' with
  | done enough =>
      cases heq
      exact ⟨h', w', rfl, halike, hw⟩
  | request size next ih =>
      rcases hres : h.request size w with ⟨key, h₂, w₂⟩
      obtain ⟨h₂', w₂', hres', halike₂, hw₂⟩ := ha.heap_request hh hh' halike hw hres
      rw [Heap.use, hres] at heq
      rw [Heap.use, hres']
      exact ih key (hh.of_request hres) (hh'.of_request hres') halike₂ hw₂ heq
  | release key next ih =>
      cases key with
      | none => exact ih hh hh' halike hw heq
      | some key =>
          obtain ⟨halike₂, hw₂⟩ := ha.heap_release hh hh' halike hw key
          exact ih (hh.release key w) (hh'.release key w') halike₂ hw₂ heq

theorem heap_close (ha : a.Lockstep R E a') (hh : h.Served a) (hh' : h'.Served a')
    (halike : h.Alike h') (hw : R w w') : R (h.close w) (h'.close w') := by
  obtain ⟨allocator, blocks, fresh⟩ := h
  obtain ⟨allocator', blocks', fresh'⟩ := h'
  have hserved := hh.blocks
  have hserved' := hh'.blocks
  have hblocks := halike.blocks
  rw [Heap.close, Heap.close]
  dsimp only at hserved hserved' hblocks ⊢
  clear hh hh' halike
  induction blocks generalizing blocks' w w' with
  | nil =>
      obtain rfl := List.map_eq_nil_iff.mp hblocks.symm
      exact hw
  | cons entry blocks ih =>
      obtain _ | ⟨entry', blocks'⟩ := blocks'
      · cases hblocks
      · rw [List.map_cons, List.map_cons] at hblocks
        obtain ⟨hentry, hrest⟩ := List.cons.inj hblocks
        refine ih (ha.release hw (hserved entry (by simp)) (hserved' entry' (by simp))
          (Prod.mk.inj hentry).2) blocks' ?_ ?_ hrest
        · exact fun entry hmem => hserved entry (List.mem_cons_of_mem _ hmem)
        · exact fun entry hmem => hserved' entry (List.mem_cons_of_mem _ hmem)

theorem heap_retire (ha : a.Lockstep R E a') (hh : h.Served a) (hh' : h'.Served a')
    (halike : h.Alike h') (hw : R w w') (closing : Usage) :
    R (h.retire closing w) (h'.retire closing w') := by
  rcases huse : h.use closing w with ⟨enough, h₂, w₂⟩
  obtain ⟨h₂', w₂', huse', halike₂, hw₂⟩ := ha.heap_use hh hh' halike hw huse
  rw [Heap.retire, Heap.retire, huse, huse']
  exact ha.heap_close (hh.of_use huse) (hh'.of_use huse') halike₂ hw₂

variable {housekeeping : Housekeeping} {coder : Except Fault κ}

theorem engine_error (ha : a.Lockstep R E a') (hw : R w w') {fault : Fault}
    (heq : Engine.acquire housekeeping coder a w = (.error fault, w₁)) :
    ∃ w₁', Engine.acquire housekeeping coder a' w' = (.error fault, w₁') ∧ R w₁ w₁' := by
  have hs := Heap.Served.start a
  have hs' := Heap.Served.start a'
  rw [Engine.acquire] at heq ⊢
  split at heq <;> rename_i hrecords <;>
    obtain ⟨h₂', w₂', hrecords', halike₂, hw₂⟩ :=
      ha.heap_use hs hs' ⟨rfl, rfl⟩ hw hrecords <;>
    have hs₂ := hs.of_use hrecords <;> have hs₂' := hs'.of_use hrecords' <;>
    rw [hrecords']
  · cases heq
    exact ⟨_, rfl, ha.heap_retire hs₂ hs₂' halike₂ hw₂ housekeeping.closing⟩
  · cases coder with
    | error fault' =>
        cases heq
        exact ⟨_, rfl, ha.heap_retire hs₂ hs₂' halike₂ hw₂ housekeeping.closing⟩
    | ok coder =>
        dsimp only at heq ⊢
        split at heq <;> rename_i hworkspace <;> cases heq
        obtain ⟨h₃', w₃', hworkspace', halike₃, hw₃⟩ :=
          ha.heap_use hs₂ hs₂' halike₂ hw₂ hworkspace
        rw [hworkspace']
        exact ⟨_, rfl, ha.heap_retire (hs₂.of_use hworkspace)
          (hs₂'.of_use hworkspace') halike₃ hw₃ housekeeping.closing⟩

theorem engine_ok (ha : a.Lockstep R E a') (hw : R w w') {e : Engine κ ω}
    (heq : Engine.acquire housekeeping coder a w = (.ok e, w₁)) :
    ∃ e' w₁', Engine.acquire housekeeping coder a' w' = (.ok e', w₁') ∧ e.Alike e' ∧
      R w₁ w₁' := by
  have hs := Heap.Served.start a
  have hs' := Heap.Served.start a'
  rw [Engine.acquire] at heq ⊢
  split at heq <;> rename_i hrecords
  · cases heq
  · obtain ⟨h₂', w₂', hrecords', halike₂, hw₂⟩ :=
      ha.heap_use hs hs' ⟨rfl, rfl⟩ hw hrecords
    rw [hrecords']
    cases coder with
    | error fault' => cases heq
    | ok coder =>
        dsimp only at heq ⊢
        split at heq <;> rename_i hworkspace <;> cases heq
        obtain ⟨h₃', w₃', hworkspace', halike₃, hw₃⟩ :=
          ha.heap_use (hs.of_use hrecords) (hs'.of_use hrecords') halike₂
            hw₂ hworkspace
        rw [hworkspace']
        exact ⟨_, w₃', rfl, ⟨rfl, rfl, halike₃⟩, hw₃⟩

/-! ## Sessions -/

variable {inSize outSize : Nat}

theorem engine_release (ha : a.Lockstep R E a') {e : Engine κ ω} {e' : Engine κ ω'}
    (hs : e.heap.Served a) (hs' : e'.heap.Served a') (halike : e.Alike e') (hw : R w w') :
    R (e.release w) (e'.release w') := by
  rw [Engine.release, Engine.release, halike.housekeeping]
  exact ha.heap_retire hs hs' halike.heap hw _

theorem outfit_error (ha : a.Lockstep R E a') (hw : R w w') {failure : Option Fault}
    (heq : Outfit.acquire housekeeping coder inSize outSize a w = (.error failure, w₁)) :
    ∃ w₁', Outfit.acquire housekeeping coder inSize outSize a' w' = (.error failure, w₁') ∧
      R w₁ w₁' := by
  rw [Outfit.acquire] at heq ⊢
  split at heq <;> rename_i hengine
  · obtain ⟨w₂', hengine', hw₂⟩ := ha.engine_error hw hengine
    cases heq
    rw [hengine']
    exact ⟨w₂', rfl, hw₂⟩
  · obtain ⟨engine', w₂', hengine', halike, hw₂⟩ := ha.engine_ok hw hengine
    have hs := Engine.served_of_acquire hengine
    have hs' := Engine.served_of_acquire hengine'
    rw [hengine']
    dsimp only
    split at heq <;> rename_i hinput
    · obtain ⟨w₃', hinput', hw₃⟩ := ha.request_error hw₂ hinput
      cases heq
      rw [hinput']
      exact ⟨_, rfl, ha.engine_release hs hs' halike hw₃⟩
    · obtain ⟨input', w₃', hinput', hin, hw₃⟩ := ha.request_ok hw₂ hinput
      split at heq <;> rename_i houtput <;> cases heq
      obtain ⟨w₄', houtput', hw₄⟩ := ha.request_error hw₃ houtput
      rw [hinput']
      dsimp only
      rw [houtput']
      exact ⟨_, rfl, ha.engine_release hs hs' halike
        (ha.release hw₄ (free_of_request hinput) (free_of_request hinput') hin)⟩

theorem outfit_ok (ha : a.Lockstep R E a') (hw : R w w') {x : Outfit κ ω}
    (heq : Outfit.acquire housekeeping coder inSize outSize a w = (.ok x, w₁)) :
    ∃ x' w₁', Outfit.acquire housekeeping coder inSize outSize a' w' = (.ok x', w₁') ∧
      x.Alike x' ∧ R w₁ w₁' := by
  rw [Outfit.acquire] at heq
  split at heq <;> rename_i hengine
  · cases heq
  · obtain ⟨engine', w₂', hengine', halike, hw₂⟩ := ha.engine_ok hw hengine
    split at heq <;> rename_i hinput
    · cases heq
    · obtain ⟨input', w₃', hinput', hin, hw₃⟩ := ha.request_ok hw₂ hinput
      split at heq <;> rename_i houtput <;> cases heq
      obtain ⟨output', w₄', houtput', hout, hw₄⟩ := ha.request_ok hw₃ houtput
      refine ⟨⟨engine', input', output'⟩, w₄', ?_, ⟨halike, hin, hout⟩, hw₄⟩
      rw [Outfit.acquire, hengine']
      dsimp only
      rw [hinput']
      dsimp only
      rw [houtput']

theorem outfit_release (ha : a.Lockstep R E a') {x : Outfit κ ω} {x' : Outfit κ ω'}
    (hx : x.Served a) (hx' : x'.Served a') (halike : x.Alike x') (hw : R w w') :
    R (x.release w) (x'.release w') :=
  ha.release (ha.release (ha.engine_release hx.heap hx'.heap halike.engine hw)
    hx.input hx'.input halike.input) hx.output hx'.output halike.output

variable [Manner]

theorem compress_error (ha : a.Lockstep R E a') (hw : R w w') {o : Options} {e : Error}
    (heq : CompressSession.acquire o a w = (.error e, w₁)) :
    ∃ w₁', CompressSession.acquire o a' w' = (.error e, w₁') ∧ R w₁ w₁' := by
  rw [CompressSession.acquire_eq] at heq ⊢
  by_cases hpreset : presetSupported o.level.number = true
  · rw [if_pos hpreset] at heq ⊢
    split at heq <;> rename_i hx <;> cases heq
    obtain ⟨w₁', hx', hw₁⟩ := ha.outfit_error hw hx
    rw [hx']
    exact ⟨w₁', rfl, hw₁⟩
  · rw [if_neg hpreset] at heq ⊢
    cases heq
    exact ⟨w', rfl, hw⟩

theorem compress_ok (ha : a.Lockstep R E a') (hw : R w w') {o : Options}
    {s : CompressSession ω} (heq : CompressSession.acquire o a w = (.ok s, w₁)) :
    ∃ s' w₁', CompressSession.acquire o a' w' = (.ok s', w₁') ∧ s.outfit.Alike s'.outfit ∧
      R w₁ w₁' := by
  rw [CompressSession.acquire_eq] at heq ⊢
  by_cases hpreset : presetSupported o.level.number = true
  · rw [if_pos hpreset] at heq ⊢
    split at heq <;> rename_i hx <;> cases heq
    obtain ⟨x', w₁', hx', halike, hw₁⟩ := ha.outfit_ok hw hx
    rw [hx']
    exact ⟨_, w₁', rfl, halike, hw₁⟩
  · rw [if_neg hpreset] at heq
    cases heq

theorem decompress_error (ha : a.Lockstep R E a') (hw : R w w') {header : Header} {e : Error}
    (heq : DecompressSession.acquire header a w = (.error e, w₁)) :
    ∃ w₁', DecompressSession.acquire header a' w' = (.error e, w₁') ∧ R w₁ w₁' := by
  rw [DecompressSession.acquire_eq] at heq ⊢
  split at heq <;> rename_i hx <;> cases heq
  obtain ⟨w₁', hx', hw₁⟩ := ha.outfit_error hw hx
  rw [hx']
  exact ⟨w₁', rfl, hw₁⟩

theorem decompress_ok (ha : a.Lockstep R E a') (hw : R w w') {header : Header}
    {s : DecompressSession ω} (heq : DecompressSession.acquire header a w = (.ok s, w₁)) :
    ∃ s' w₁', DecompressSession.acquire header a' w' = (.ok s', w₁') ∧
      s.outfit.Alike s'.outfit ∧ R w₁ w₁' := by
  rw [DecompressSession.acquire_eq] at heq ⊢
  split at heq <;> rename_i hx <;> cases heq
  obtain ⟨x', w₁', hx', halike, hw₁⟩ := ha.outfit_ok hw hx
  rw [hx']
  exact ⟨_, w₁', rfl, halike, hw₁⟩

end

end Allocator.Lockstep

/-! ## Runs -/

variable {R : ω → ω' → Prop} {E : Error → ω → ω' → Prop}

/-- Two handles that tell the same, whatever their memory comes from. -/
structure Compressor.Agrees (c : Compressor ω) (c' : Compressor ω') : Prop where
  options : c.options = c'.options
  state : c.state = c'.state
  totalIn : c.totalIn = c'.totalIn
  totalOut : c.totalOut = c'.totalOut

/-- Two handles that differ in what no run can tell. -/
structure Compressor.Lockstep [Journal ω] [Journal ω'] (R : ω → ω' → Prop)
    (E : Error → ω → ω' → Prop) (c : Compressor ω) (c' : Compressor ω') : Prop
    extends Agrees c c' where
  allocator : c.allocator.Lockstep R E c'.allocator

structure Decompressor.Agrees (c : Decompressor ω) (c' : Decompressor ω') : Prop where
  state : c.state = c'.state
  header : c.header = c'.header
  totalIn : c.totalIn = c'.totalIn
  totalOut : c.totalOut = c'.totalOut

structure Decompressor.Lockstep [Journal ω] [Journal ω'] (R : ω → ω' → Prop)
    (E : Error → ω → ω' → Prop) (c : Decompressor ω) (c' : Decompressor ω') : Prop
    extends Agrees c c' where
  allocator : c.allocator.Lockstep R E c'.allocator

variable [Channel ω] [Channel ω'] {w : ω} {w' : ω'}

namespace Compressor

variable {c : Compressor ω} {c' : Compressor ω'}

theorem drive_lockstep [Provident] (hR : Channel.Lockstep R E) (hc : c.Lockstep R E c')
    (hw : R w w') :
    Same (Same (Line.Alike R)) (c.drive w) (c'.drive w') ∨
      ∃ e, (c.drive w).1 = .error e ∧ E e (c.drive w).2.2.world (c'.drive w').2.2.world := by
  have ha := hc.allocator
  rw [drive_eq, drive_eq, ← hc.options, ← hc.state]
  rcases hacquire : CompressSession.acquire c.options c.allocator w with ⟨e | session, w₁⟩
  · obtain ⟨w₁', hacquire', hw₁⟩ := ha.compress_error hw hacquire
    rw [hacquire']
    exact .inl ⟨rfl, rfl, Line.alike_start hw₁⟩
  · obtain ⟨session', w₁', hacquire', halike, hw₁⟩ := ha.compress_ok hw hacquire
    have hs := CompressSession.served_of_acquire hacquire
    have hs' := CompressSession.served_of_acquire hacquire'
    rw [hacquire']
    dsimp only
    rcases emit_lockstep hR.host hc.options halike.engine.stream halike.input_bytes c.state hw₁ with
      ⟨hresult, hstate, hl⟩ | ⟨e, he, hE⟩
    · exact .inl ⟨hresult, hstate, ha.outfit_release hs hs' halike hl.world, hl.taken, hl.given⟩
    · refine .inr ⟨e, he, ?_⟩
      -- What the first run gives back and what the second does are apart from each other.
      have hclosed := hs.keeps_release (I := fun w => E e w _)
        (fun buffer w hw => ha.closing e buffer w _ hw)
        (CompressSession.housekeeping_of_acquire hacquire).closing hE
      exact hs'.keeps_release (ha.later e _).free
        (CompressSession.housekeeping_of_acquire hacquire').closing hclosed

/--
Two runs come to the same, or the first has failed in a world that gave up, and has noted its
failure.
-/
theorem run_of_drive [Manner] (hR : Channel.Lockstep R E) (hc : c.Lockstep R E c') (hw : R w w')
    (hdrive : Same (Same (Line.Alike R)) (c.drive w) (c'.drive w') ∨
      ∃ e, (c.drive w).1 = .error e ∧ E e (c.drive w).2.2.world (c'.drive w').2.2.world) :
    ((c.run w).1 = (c'.run w').1 ∧ (c.run w).2.1.Lockstep R E (c'.run w').2.1 ∧
        R (c.run w).2.2 (c'.run w').2.2) ∨
      ∃ e, c.run w = (.error e, { c with
          state := .failed, totalIn := (c.drive w).2.2.taken, totalOut := (c.drive w).2.2.given },
          Journal.note (.compressionFailed e) (c.drive w).2.2.world) ∧
        E e (c.drive w).2.2.world (c'.run w').2.2 := by
  rw [run, run, isFresh, isFresh, ← hc.state]
  by_cases hfresh : (c.state == .created || c.state == .configured) = true
  · rw [if_pos hfresh, if_pos hfresh]
    generalize c.drive w = p at hdrive ⊢
    generalize c'.drive w' = p' at hdrive ⊢
    obtain ⟨result, state, l⟩ := p
    obtain ⟨result', state', l'⟩ := p'
    rcases hdrive with ⟨hresult, -, hl⟩ | ⟨e, he, hE⟩
    · obtain rfl : result = result' := hresult
      have htaken : l.taken = l'.taken := hl.taken
      have hgiven : l.given = l'.given := hl.given
      refine .inl ?_
      cases result with
      | error e =>
          refine ⟨rfl, ⟨⟨hc.options, rfl, htaken, hgiven⟩, hc.allocator⟩, ?_⟩
          exact hR.note (.compressionFailed e) hl.world
      | ok _ =>
          refine ⟨rfl, ⟨⟨hc.options, rfl, htaken, hgiven⟩, hc.allocator⟩, ?_⟩
          dsimp only
          rw [htaken, hgiven]
          exact hR.note _ hl.world
    · obtain rfl : result = .error e := he
      refine .inr ⟨e, rfl, ?_⟩
      cases result' with
      | error e' => exact (hR.later _ _).note _ hE
      | ok _ => exact (hR.later _ _).note _ hE
  · rw [if_neg hfresh, if_neg hfresh]
    exact .inl ⟨rfl, hc, hw⟩

theorem run_lockstep [Provident] (hR : Channel.Lockstep R E) (hc : c.Lockstep R E c')
    (hw : R w w') :
    ((c.run w).1 = (c'.run w').1 ∧ (c.run w).2.1.Lockstep R E (c'.run w').2.1 ∧
        R (c.run w).2.2 (c'.run w').2.2) ∨
      ∃ e, c.run w = (.error e, { c with
          state := .failed, totalIn := (c.drive w).2.2.taken, totalOut := (c.drive w).2.2.given },
          Journal.note (.compressionFailed e) (c.drive w).2.2.world) ∧
        E e (c.drive w).2.2.world (c'.run w').2.2 :=
  run_of_drive hR hc hw (drive_lockstep hR hc hw)

theorem run_alike [Provident] (hR : Channel.Alike R) (hc : c.Lockstep R Never c')
    (hw : R w w') :
    (c.run w).1 = (c'.run w').1 ∧ (c.run w).2.1.Lockstep R Never (c'.run w').2.1 ∧
      R (c.run w).2.2 (c'.run w').2.2 := by
  rcases run_lockstep hR.lockstep hc hw with hsame | ⟨e, -, hnever⟩
  · exact hsame
  · exact hnever.elim

end Compressor

namespace Decompressor

variable {c : Decompressor ω} {c' : Decompressor ω'}

theorem readHeader_lockstep (hR : Channel.Lockstep R E) {l : Line ω} {l' : Line ω'}
    (hl : l.Alike R l') :
    Same (Line.Alike R) (readHeader l) (readHeader l') ∨
      GivesUp (Line.Worlds E) (readHeader l) (readHeader l').2 := by
  rw [readHeader, readHeader]
  rcases hres : l.gather (List.replicate headerSize 0) with ⟨e | bytes, l₁⟩
  · rcases hl.gather_or hR (List.replicate headerSize 0) with hsame | hgives
    · obtain ⟨l₁', hres', hl₁⟩ := hsame.of_eq hres
      rw [hres']
      exact .inl ⟨rfl, hl₁⟩
    · have hE := hgives.of_error hres
      refine .inr ⟨e, rfl, ?_⟩
      generalize l'.gather (List.replicate headerSize 0) = p at hE ⊢
      obtain ⟨_ | bytes', l₁'⟩ := p
      · exact hE
      · dsimp only
        split <;> exact hE
  · rcases hl.gather_or hR (List.replicate headerSize 0) with hsame | hgives
    · obtain ⟨l₁', hres', hl₁⟩ := hsame.of_eq hres
      rw [hres']
      dsimp only
      split <;> exact .inl ⟨rfl, hl₁⟩
    · exact (hgives.of_ok hres).elim

/-- The part of a run that knows its header. -/
def unpack [Manner] (c : Decompressor ω) (header : Header) (l : Line ω) :
    Except Error Unit × DecompressState × Line ω :=
  match DecompressSession.acquire header c.allocator l.world with
  | (.error e, world) => (.error e, .headerRead, { l with world })
  | (.ok session, world) => extract session .allocated { l with world }

theorem drive_of_error [Manner] {e : Error} {l : Line ω}
    (h : readHeader ({ world := w } : Line ω) = (.error e, l)) :
    c.drive w = (.error e, c.state, c.header, l) := by
  rw [drive, follow, h]

theorem drive_of_ok [Manner] {header : Header} {l : Line ω}
    (h : readHeader ({ world := w } : Line ω) = (.ok header, l)) :
    c.drive w = ((c.unpack header (l.note (.decompressionStarting header))).1,
      (c.unpack header (l.note (.decompressionStarting header))).2.1, some header,
      (c.unpack header (l.note (.decompressionStarting header))).2.2) := by
  rw [drive, follow, h, unpack]
  dsimp only
  rcases DecompressSession.acquire header c.allocator
    (l.note (.decompressionStarting header)).world with ⟨_ | session, w₁⟩ <;> rfl

theorem unpack_lockstep [Provident] (hR : Channel.Lockstep R E) (hc : c.Lockstep R E c')
    (header : Header) {l : Line ω} {l' : Line ω'} (hl : l.Alike R l') :
    Same (Same (Line.Alike R)) (c.unpack header l) (c'.unpack header l') ∨
      ∃ e, (c.unpack header l).1 = .error e ∧
        E e (c.unpack header l).2.2.world (c'.unpack header l').2.2.world := by
  have ha := hc.allocator
  rw [unpack, unpack]
  rcases hacquire : DecompressSession.acquire header c.allocator l.world with ⟨e | session, w₁⟩
  · obtain ⟨w₁', hacquire', hw₁⟩ := ha.decompress_error hl.world hacquire
    rw [hacquire']
    exact .inl ⟨rfl, rfl, hw₁, hl.taken, hl.given⟩
  · obtain ⟨session', w₁', hacquire', halike, hw₁⟩ := ha.decompress_ok hl.world hacquire
    have hs := DecompressSession.served_of_acquire hacquire
    have hs' := DecompressSession.served_of_acquire hacquire'
    rw [hacquire']
    dsimp only
    have hk := DecompressSession.housekeeping_of_acquire hacquire
    have hk' := DecompressSession.housekeeping_of_acquire hacquire'
    rw [extract_eq hk, extract_eq hk']
    have hl₁ : Line.Alike R { l with world := w₁ } { l' with world := w₁' } :=
      ⟨hw₁, hl.taken, hl.given⟩
    rcases DecompressSession.pump_lockstep hR.host halike.engine.stream halike.input_bytes
      halike.output_size DecompressState.allocated hl₁ with
      ⟨hresult, hstate, hl₂⟩ | ⟨e, he, hE⟩
    · exact .inl ⟨hresult, hstate, ha.outfit_release hs hs' halike hl₂.world, hl₂.taken, hl₂.given⟩
    · refine .inr ⟨e, he, ?_⟩
      have hclosed := hs.keeps_release (I := fun w => E e w _)
        (fun buffer w hw => ha.closing e buffer w _ hw) hk.closing hE
      exact hs'.keeps_release (ha.later e _).free hk'.closing hclosed

theorem drive_lockstep [Provident] (hR : Channel.Lockstep R E) (hc : c.Lockstep R E c')
    (hw : R w w') :
    Same (Same (Same (Line.Alike R))) (c.drive w) (c'.drive w') ∨
      ∃ e, (c.drive w).1 = .error e ∧
        E e (c.drive w).2.2.2.world (c'.drive w').2.2.2.world := by
  rcases readHeader_lockstep hR (Line.alike_start hw) with hsame | hgives
  · rcases hheader : readHeader ({ world := w } : Line ω) with ⟨e | header, l⟩
    · obtain ⟨l', hheader', hl⟩ := hsame.of_eq hheader
      rw [drive_of_error hheader, drive_of_error hheader']
      exact .inl ⟨rfl, hc.state, hc.header, hl⟩
    · obtain ⟨l', hheader', hl⟩ := hsame.of_eq hheader
      rw [drive_of_ok hheader, drive_of_ok hheader']
      rcases unpack_lockstep hR hc header (hl.note hR (.decompressionStarting header)) with
        ⟨hresult, hstate, hl₁⟩ | hE
      · exact .inl ⟨hresult, hstate, rfl, hl₁⟩
      · exact .inr hE
  · obtain ⟨e, he, hE⟩ := hgives
    -- The first run ends with its header; the second may go on to its end.
    have hrest := keeps_drive_rest (c := c') (w := w') ((hR.later e _).line decodedSize)
      (fun _ _ => hc.allocator.later e _) hE
    refine .inr ⟨e, ?_, ?_⟩ <;>
      rcases hheader : readHeader ({ world := w } : Line ω) with ⟨e' | header, l⟩ <;>
      rw [hheader] at he hrest <;> cases he <;> rw [drive, follow, hheader]
    exact hrest

theorem run_of_drive [Manner] (hR : Channel.Lockstep R E) (hc : c.Lockstep R E c') (hw : R w w')
    (hdrive : Same (Same (Same (Line.Alike R))) (c.drive w) (c'.drive w') ∨
      ∃ e, (c.drive w).1 = .error e ∧ E e (c.drive w).2.2.2.world (c'.drive w').2.2.2.world) :
    ((c.run w).1 = (c'.run w').1 ∧ (c.run w).2.1.Lockstep R E (c'.run w').2.1 ∧
        R (c.run w).2.2 (c'.run w').2.2) ∨
      ∃ e, c.run w = (.error e, { c with
          state := .failed, header := (c.drive w).2.2.1, totalIn := (c.drive w).2.2.2.taken,
          totalOut := (c.drive w).2.2.2.given },
          Journal.note (.decompressionFailed e) (c.drive w).2.2.2.world) ∧
        E e (c.drive w).2.2.2.world (c'.run w').2.2 := by
  rw [run, run, ← hc.state]
  by_cases hfresh : c.state = .created
  · rw [if_pos hfresh, if_pos hfresh]
    generalize c.drive w = p at hdrive ⊢
    generalize c'.drive w' = p' at hdrive ⊢
    obtain ⟨result, state, header, l⟩ := p
    obtain ⟨result', state', header', l'⟩ := p'
    rcases hdrive with ⟨hresult, -, hheader, hl⟩ | ⟨e, he, hE⟩
    · obtain rfl : result = result' := hresult
      obtain rfl : header = header' := hheader
      have htaken : l.taken = l'.taken := hl.taken
      have hgiven : l.given = l'.given := hl.given
      refine .inl ?_
      cases result with
      | error e =>
          refine ⟨rfl, ⟨⟨rfl, rfl, htaken, hgiven⟩, hc.allocator⟩, ?_⟩
          exact hR.note (.decompressionFailed e) hl.world
      | ok _ =>
          refine ⟨rfl, ⟨⟨rfl, rfl, htaken, hgiven⟩, hc.allocator⟩, ?_⟩
          dsimp only
          rw [htaken, hgiven]
          exact hR.note _ hl.world
    · obtain rfl : result = .error e := he
      refine .inr ⟨e, rfl, ?_⟩
      cases result' with
      | error e' => exact (hR.later _ _).note _ hE
      | ok _ => exact (hR.later _ _).note _ hE
  · rw [if_neg hfresh, if_neg hfresh]
    exact .inl ⟨rfl, hc, hw⟩

theorem run_lockstep [Provident] (hR : Channel.Lockstep R E) (hc : c.Lockstep R E c')
    (hw : R w w') :
    ((c.run w).1 = (c'.run w').1 ∧ (c.run w).2.1.Lockstep R E (c'.run w').2.1 ∧
        R (c.run w).2.2 (c'.run w').2.2) ∨
      ∃ e, c.run w = (.error e, { c with
          state := .failed, header := (c.drive w).2.2.1, totalIn := (c.drive w).2.2.2.taken,
          totalOut := (c.drive w).2.2.2.given },
          Journal.note (.decompressionFailed e) (c.drive w).2.2.2.world) ∧
        E e (c.drive w).2.2.2.world (c'.run w').2.2 :=
  run_of_drive hR hc hw (drive_lockstep hR hc hw)

theorem run_alike [Provident] (hR : Channel.Alike R) (hc : c.Lockstep R Never c')
    (hw : R w w') :
    (c.run w).1 = (c'.run w').1 ∧ (c.run w).2.1.Lockstep R Never (c'.run w').2.1 ∧
      R (c.run w).2.2 (c'.run w').2.2 := by
  rcases run_lockstep hR.lockstep hc hw with hsame | ⟨e, -, hnever⟩
  · exact hsame
  · exact hnever.elim

end Decompressor

/-! ## Runs with coders of any manner -/

namespace Hosting

/--
Two worlds that are related, beside which two coders hold the same memory and go on to do the
same.
-/
structure Beside (a : Allocator ω) (a' : Allocator ω') (R : ω → ω' → Prop) (h : Hosting ω)
    (h' : Hosting ω') : Prop where
  world : R h.world h'.world
  heap : h.heap.Alike h'.heap
  served : h.heap.Served a
  served' : h'.heap.Served a'
  calls : h.calls = h'.calls
  turn : h.turn = h'.turn

variable {a : Allocator ω} {a' : Allocator ω'}

/-- Where two sources have as much to give, two coders may do what they like at their calls. -/
theorem lockstep (hR : Channel.Alike R) (ha : a.Lockstep R Never a')
    (hcredit : ∀ w w', R w w' → Channel.credit w = Channel.credit w') :
    Host.Lockstep (Beside a a' R) Never where
  note event h h' hh := { hh with world := hR.note event hh.world }
  read room h h' hh := by
    obtain ⟨hanswer, hw⟩ := hR.read room hh.world
    exact .inl ⟨hanswer, { hh with world := hw }⟩
  write bytes h h' hh := by
    obtain ⟨hanswer, hw⟩ := hR.write bytes hh.world
    exact .inl ⟨hanswer, { hh with world := hw }⟩
  later _ _ := ⟨fun _ _ => id, fun _ _ => id, fun _ _ => id⟩
  attend {h h'} hh := by
    have hturn : h.turn + 1 = h'.turn + 1 := congrArg (· + 1) hh.turn
    show Same (Beside a a' R) h.attend h'.attend
    cases hcall : h.calls h.turn with
    | none =>
        have hcall' : h'.calls h'.turn = none := by rw [← hh.calls, ← hh.turn, hcall]
        rw [attend_of_none hcall, attend_of_none hcall']
        exact ⟨rfl, { hh with turn := hturn }⟩
    | some usage =>
        have hcall' : h'.calls h'.turn = some usage := by rw [← hh.calls, ← hh.turn, hcall]
        rcases huse : h.heap.use usage h.world with ⟨enough, heap, w⟩
        obtain ⟨heap', w', huse', halike, hw⟩ :=
          ha.heap_use hh.served hh.served' hh.heap hh.world huse
        have hle := hcredit _ _ hh.world
        have hle' := hcredit _ _ hw
        by_cases hcarried : Channel.credit w ≤ Channel.credit h.world
        · rw [attend_of_le hcall (by rw [huse]; exact hcarried),
            attend_of_le hcall' (by rw [huse', ← hle, ← hle']; exact hcarried), huse, huse']
          exact ⟨rfl, hw, halike, hh.served.of_use huse, hh.served'.of_use huse', hh.calls, hturn⟩
        · have hlt := Nat.lt_of_not_le hcarried
          rw [attend_of_lt hcall (by rw [huse]; exact hlt),
            attend_of_lt hcall' (by rw [huse', ← hle, ← hle']; exact hlt)]
          exact ⟨rfl, { hh with turn := hturn }⟩
  later_attend _ _ _ := id

end Hosting

/-- What two coders at work have come to hold goes back in both worlds. -/
theorem Allocator.Lockstep.outfit_leave {a : Allocator ω} {a' : Allocator ω'}
    (ha : a.Lockstep R E a') {x : Outfit κ ω} {x' : Outfit κ ω'} (hx : x.Served a)
    (hx' : x'.Served a') (halike : x.Alike x') {h : Hosting ω} {h' : Hosting ω'}
    (hh : Hosting.Beside a a' R h h') :
    R ({ x with engine := x.engine.after h }.release h.world)
      ({ x' with engine := x'.engine.after h' }.release h'.world) :=
  ha.outfit_release ⟨hh.served, hx.input, hx.output⟩ ⟨hh.served', hx'.input, hx'.output⟩
    ⟨⟨halike.engine.stream, halike.engine.housekeeping, hh.heap⟩, halike.input, halike.output⟩
    hh.world

section

variable [Manner] (hR : Channel.Alike R)
variable (hcredit : ∀ w w', R w w' → Channel.credit w = Channel.credit w')

include hR hcredit

theorem Compressor.run_alike_of_credit {c : Compressor ω} {c' : Compressor ω'}
    (hc : c.Lockstep R Never c') (hw : R w w') :
    (c.run w).1 = (c'.run w').1 ∧ (c.run w).2.1.Lockstep R Never (c'.run w').2.1 ∧
      R (c.run w).2.2 (c'.run w').2.2 := by
  have ha := hc.allocator
  have hdrive : Same (Same (Line.Alike R)) (c.drive w) (c'.drive w') := by
    rw [drive, drive, follow, follow, ← hc.options, ← hc.state]
    rcases hacquire : CompressSession.acquire c.options c.allocator w with ⟨e | s, w₁⟩
    · obtain ⟨w₁', hacquire', hw₁⟩ := ha.compress_error hw hacquire
      rw [hacquire']
      exact ⟨rfl, rfl, Line.alike_start hw₁⟩
    · obtain ⟨s', w₁', hacquire', halike, hw₁⟩ := ha.compress_ok hw hacquire
      have hs := CompressSession.served_of_acquire hacquire
      have hs' := CompressSession.served_of_acquire hacquire'
      have hstart : Hosting.Beside c.allocator c'.allocator R (s.engine.host w₁)
          (s'.engine.host w₁') :=
        ⟨hw₁, halike.engine.heap, hs.heap, hs'.heap,
          congrArg Housekeeping.calls halike.engine.housekeeping, rfl⟩
      rw [hacquire']
      rcases emit_lockstep (Hosting.lockstep hR ha hcredit) hc.options halike.engine.stream
        halike.input_bytes c.state hstart with ⟨hresult, hstate, hl⟩ | ⟨e, -, hnever⟩
      · exact ⟨hresult, hstate, ha.outfit_leave hs hs' halike hl.world, hl.taken, hl.given⟩
      · exact hnever.elim
  rcases run_of_drive hR.lockstep hc hw (.inl hdrive) with hsame | ⟨e, -, hnever⟩
  · exact hsame
  · exact hnever.elim

theorem Decompressor.run_alike_of_credit {c : Decompressor ω} {c' : Decompressor ω'}
    (hc : c.Lockstep R Never c') (hw : R w w') :
    (c.run w).1 = (c'.run w').1 ∧ (c.run w).2.1.Lockstep R Never (c'.run w').2.1 ∧
      R (c.run w).2.2 (c'.run w').2.2 := by
  have ha := hc.allocator
  have hunpack (header : Header) {l : Line ω} {l' : Line ω'} (hl : l.Alike R l') :
      Same (Same (Line.Alike R)) (c.unpack header l) (c'.unpack header l') := by
    rw [unpack, unpack]
    rcases hacquire : DecompressSession.acquire header c.allocator l.world with ⟨e | s, w₁⟩
    · obtain ⟨w₁', hacquire', hw₁⟩ := ha.decompress_error hl.world hacquire
      rw [hacquire']
      exact ⟨rfl, rfl, hw₁, hl.taken, hl.given⟩
    · obtain ⟨s', w₁', hacquire', halike, hw₁⟩ := ha.decompress_ok hl.world hacquire
      have hs := DecompressSession.served_of_acquire hacquire
      have hs' := DecompressSession.served_of_acquire hacquire'
      have hstart : Line.Alike (Hosting.Beside c.allocator c'.allocator R)
          { l with world := s.engine.host w₁ } { l' with world := s'.engine.host w₁' } :=
        ⟨⟨hw₁, halike.engine.heap, hs.heap, hs'.heap,
          congrArg Housekeeping.calls halike.engine.housekeeping, rfl⟩, hl.taken, hl.given⟩
      rw [hacquire']
      rcases DecompressSession.pump_lockstep (Hosting.lockstep hR ha hcredit)
        halike.engine.stream halike.input_bytes halike.output_size DecompressState.allocated
        hstart with ⟨hresult, hstate, hl₁⟩ | ⟨e, -, hnever⟩
      · exact ⟨hresult, hstate, ha.outfit_leave hs hs' halike hl₁.world, hl₁.taken, hl₁.given⟩
      · exact hnever.elim
  have hdrive : Same (Same (Same (Line.Alike R))) (c.drive w) (c'.drive w') := by
    rcases readHeader_lockstep hR.lockstep (Line.alike_start hw) with hsame | ⟨e, -, hnever⟩
    · rcases hheader : readHeader ({ world := w } : Line ω) with ⟨e | header, l⟩ <;>
        obtain ⟨l', hheader', hl⟩ := hsame.of_eq hheader
      · rw [drive_of_error hheader, drive_of_error hheader']
        exact ⟨rfl, hc.state, hc.header, hl⟩
      · rw [drive_of_ok hheader, drive_of_ok hheader']
        obtain ⟨hresult, hstate, hl₁⟩ :=
          hunpack header (hl.note hR.lockstep (.decompressionStarting header))
        exact ⟨hresult, hstate, rfl, hl₁⟩
    · exact hnever.elim
  rcases run_of_drive hR.lockstep hc hw (.inl hdrive) with hsame | ⟨e, -, hnever⟩
  · exact hsame
  · exact hnever.elim

end

end Lzma
