import Lzma.Proofs.Acquisition
import Lzma.Proofs.Likeness

/-!
# Coders at work

While a run has its coder, the coder's memory stands beside the world, and each call of the
coder may change both. Coders that get hold of all their memory while they are set up
(`Provident`) do nothing of the kind: for them a run comes to what it comes to in its own world
with the memory set aside (`Compressor.drive_eq`, `Decompressor.drive_eq`). That is what most
proofs about runs work with.

The two worlds are compared by their answers, as any two are (`Host.Lockstep`). A decoder
beside a world changes nothing of such a comparison (`Decoding.lockstep`).
-/

namespace Lzma

variable {ω ω' ν ν' : Type}

/-! ## A decoder beside two worlds -/

namespace Decoding

/-- Two worlds that are related, with one decoder beside them. -/
def Beside (R : ω → ω' → Prop) (d : Decoding ω) (d' : Decoding ω') : Prop :=
  R d.world d'.world ∧ d.stream = d'.stream

def Outside (E : Error → ω → ω' → Prop) (e : Error) (d : Decoding ω) (d' : Decoding ω') : Prop :=
  E e d.world d'.world

/-- A decoder beside it takes nothing from how two worlds answer. -/
theorem lockstep [Host ω] [Host ω'] {R : ω → ω' → Prop} {E : Error → ω → ω' → Prop}
    (hR : Host.Lockstep R E) : Pump.Lockstep (Beside R) (Outside E) where
  note event _ _ hd := ⟨hR.note event hd.1, hd.2⟩
  read room d d' hd := by
    rcases hR.read room hd.1 with ⟨hanswer, hw⟩ | hgives
    · exact .inl ⟨hanswer, hw, hd.2⟩
    · exact .inr hgives
  write bytes d d' hd := by
    rcases hR.write bytes hd.1 with ⟨hanswer, hw⟩ | hgives
    · exact .inl ⟨hanswer, hw, hd.2⟩
    · exact .inr hgives
  later e d := {
    note := fun event _ => (hR.later e d.world).note event
    read := fun room _ => (hR.later e d.world).read room
    write := fun bytes _ => (hR.later e d.world).write bytes }
  decode input room d d' hd := by
    obtain ⟨world, stream⟩ := d
    obtain ⟨world', stream'⟩ := d'
    obtain ⟨hw, rfl⟩ := hd
    obtain ⟨henough, hw₁⟩ := hR.attend hw
    refine .inl ?_
    simp only [Pump.decode, decode]
    rcases hattend : Host.attend world with ⟨enough, w₁⟩
    rcases hattend' : Host.attend world' with ⟨enough', w₁'⟩
    rw [hattend, hattend'] at henough hw₁
    dsimp only at henough hw₁
    subst henough
    cases enough <;> exact ⟨rfl, hw₁, rfl⟩
  later_decode e input room d d' hE := by
    show E e d.world (d'.decode input room).2.world
    rw [world_decode]
    exact hR.later_attend e hE

end Decoding

/--
A run that has its decoder and its buffers takes of its session the decoder, what the buffer for
its input holds and the size of the one for its output.
-/
theorem DecompressSession.pump_lockstep [Host ν] [Host ν'] {ρ : Type} [Register DecompressState ρ]
    {R : ν → ν' → Prop} {E : Error → ν → ν' → Prop} (hR : Host.Lockstep R E)
    {s : DecompressSession ω} {s' : DecompressSession ω'}
    (hstream : s.engine.stream = s'.engine.stream)
    (hinput : s.input.buffer.bytes = s'.input.buffer.bytes)
    (houtput : s.output.size = s'.output.size) (state : ρ) {l : Line ν} {l' : Line ν'}
    (hl : l.Alike R l') :
    (s.pump state l).1 = (s'.pump state l').1 ∧ (s.pump state l).2.1 = (s'.pump state l').2.1 ∧
        (s.pump state l).2.2.outer.Alike R (s'.pump state l').2.2.outer ∨
      ∃ e, (s.pump state l).1 = .error e ∧
        E e (s.pump state l).2.2.outer.world (s'.pump state l').2.2.outer.world := by
  have hinner : ({ l with world := { world := l.world, stream := s.engine.stream } } :
      Line (Decoding ν)).Alike (Decoding.Beside R)
      { l' with world := { world := l'.world, stream := s'.engine.stream } } :=
    ⟨⟨hl.world, hstream⟩, hl.taken, hl.given⟩
  have hrun := Pump.run_lockstep (Decoding.lockstep hR) s.output.size
    (.ofList s.input.buffer.bytes) state hinner
  rw [DecompressSession.pump, DecompressSession.pump, ← hinput, ← houtput]
  rcases hrun with ⟨hresult, hstate, hl'⟩ | hE
  · exact .inl ⟨hresult, hstate, hl'.world.1, hl'.taken, hl'.given⟩
  · exact .inr hE

/-! ## Coders that leave memory alone -/

/-- A world with the memory of a coder beside it that has nothing to do at its calls. -/
structure Hosting.Idle (heap : Heap ω) (h : Hosting ω) (w : ω) : Prop where
  world : h.world = w
  heap : h.heap = heap
  calls (n : Nat) : h.calls n = none

theorem Hosting.idle_lockstep [Channel ω] (heap : Heap ω) :
    Host.Lockstep (Idle heap) (Never : Error → Hosting ω → ω → Prop) where
  note event h w hw := by
    obtain ⟨rfl, hheap, hcalls⟩ := hw
    exact ⟨rfl, hheap, hcalls⟩
  read room h w hw := by
    obtain ⟨rfl, hheap, hcalls⟩ := hw
    exact .inl ⟨rfl, rfl, hheap, hcalls⟩
  write bytes h w hw := by
    obtain ⟨rfl, hheap, hcalls⟩ := hw
    exact .inl ⟨rfl, rfl, hheap, hcalls⟩
  later _ _ := ⟨fun _ _ => id, fun _ _ => id, fun _ _ => id⟩
  attend {h w} hw := by
    obtain ⟨rfl, hheap, hcalls⟩ := hw
    show Same (Idle heap) h.attend (true, h.world)
    rw [attend_of_none (hcalls h.turn)]
    exact ⟨rfl, rfl, hheap, hcalls⟩
  later_attend _ _ _ := id

section

variable [Channel ω] [Provident]

/-! ## Compression -/

namespace CompressSession

omit [Provident] in
theorem idle_leave {s : CompressSession ω} {h : Hosting ω} {w : ω}
    (hw : Hosting.Idle s.engine.heap h w) : s.leave h = s.release w := by
  obtain ⟨rfl, hheap, -⟩ := hw
  rw [leave, Engine.after, hheap]

theorem housekeeping_of_acquire {o : Options} {a : Allocator ω} {s : CompressSession ω}
    {w w' : ω} (h : acquire o a w = (.ok s, w')) : s.engine.housekeeping.Provident := by
  rw [acquire] at h
  split at h <;> rename_i hengine
  · cases h
  · split at h
    · cases h
    · split at h <;> cases h
      rw [Engine.acquireEncoder] at hengine
      split at hengine
      · rw [Engine.housekeeping_of_acquire hengine]
        exact Provident.encoder_provident o
      · cases hengine

end CompressSession

namespace Compressor

variable {ρ : Type} [Register CompressState ρ]

theorem follow_eq (c : Compressor ω) (state : ρ) (w : ω) :
    c.follow state w =
      match CompressSession.acquire c.options c.allocator w with
      | (.error e, w) => (.error e, state, { world := w })
      | (.ok session, w) =>
          let (result, state, l) := c.emit session state w
          (result, state, { l with world := session.release l.world }) := by
  rw [follow]
  rcases hacquire : CompressSession.acquire c.options c.allocator w with ⟨e | s, w₁⟩
  · rfl
  · have hstart : Hosting.Idle s.engine.heap (s.engine.host w₁) w₁ :=
      ⟨rfl, rfl, (CompressSession.housekeeping_of_acquire hacquire).calls⟩
    rcases emit_lockstep (Hosting.idle_lockstep s.engine.heap)
      (rfl : c.options = c.options) (rfl : s.engine.stream = s.engine.stream)
      (rfl : s.input.buffer.bytes = s.input.buffer.bytes) state hstart with
      ⟨hresult, hstate, hl⟩ | ⟨e, -, hnever⟩
    · dsimp only
      refine Prod.ext hresult (Prod.ext hstate ?_)
      show Line.mk _ _ _ = Line.mk _ _ _
      rw [CompressSession.idle_leave hl.world, hl.taken, hl.given]
    · exact hnever.elim

/-- What a run comes to if its coder leaves memory alone at its calls. -/
theorem drive_eq (c : Compressor ω) (w : ω) :
    c.drive w =
      match CompressSession.acquire c.options c.allocator w with
      | (.error e, w) => (.error e, c.state, { world := w })
      | (.ok session, w) =>
          let (result, state, l) := c.emit session c.state w
          (result, state, { l with world := session.release l.world }) :=
  follow_eq c c.state w

end Compressor

/-! ## Decompression -/

namespace DecompressSession

omit [Provident] in
theorem idle_leave {s : DecompressSession ω} {h : Hosting ω} {w : ω}
    (hw : Hosting.Idle s.engine.heap h w) : s.leave h = s.release w := by
  obtain ⟨rfl, hheap, -⟩ := hw
  rw [leave, Engine.after, hheap]

theorem housekeeping_of_acquire {header : Header} {a : Allocator ω} {s : DecompressSession ω}
    {w w' : ω} (h : acquire header a w = (.ok s, w')) : s.engine.housekeeping.Provident := by
  rw [acquire] at h
  split at h <;> rename_i hengine
  · cases h
  · split at h
    · cases h
    · split at h <;> cases h
      rw [Engine.acquireDecoder] at hengine
      rw [Engine.housekeeping_of_acquire hengine]
      exact provident header

end DecompressSession

namespace Decompressor

variable {ρ : Type} [Register DecompressState ρ]

omit [Provident] in
/-- What a run with its decoder comes to if that leaves memory alone at its calls. -/
theorem extract_eq {s : DecompressSession ω} (hs : s.engine.housekeeping.Provident) (state : ρ)
    (l : Line ω) :
    extract s state l = ((s.pump state l).1, (s.pump state l).2.1,
      { (s.pump state l).2.2.outer with
        world := s.release (s.pump state l).2.2.outer.world }) := by
  have hstart : Line.Alike (Hosting.Idle s.engine.heap)
      { l with world := s.engine.host l.world } l := ⟨⟨rfl, rfl, hs.calls⟩, rfl, rfl⟩
  rcases DecompressSession.pump_lockstep (Hosting.idle_lockstep s.engine.heap)
    (rfl : s.engine.stream = s.engine.stream)
    (rfl : s.input.buffer.bytes = s.input.buffer.bytes) (rfl : s.output.size = s.output.size)
    state hstart with ⟨hresult, hstate, hl⟩ | ⟨e, -, hnever⟩
  · rw [extract]
    refine Prod.ext hresult (Prod.ext hstate ?_)
    have htaken : (s.pump state { l with world := s.engine.host l.world }).2.2.taken =
      (s.pump state l).2.2.outer.taken := hl.taken
    have hgiven : (s.pump state { l with world := s.engine.host l.world }).2.2.given =
      (s.pump state l).2.2.outer.given := hl.given
    show Line.mk _ _ _ = Line.mk _ _ _
    rw [← DecompressSession.idle_leave hl.world, ← htaken, ← hgiven]
    rfl
  · exact hnever.elim

theorem drive_eq (c : Decompressor ω) (w : ω) :
    c.drive w =
      match readHeader ({ world := w } : Line ω) with
      | (.error e, l) => (.error e, c.state, c.header, l)
      | (.ok header, l) =>
          let l := l.note (.decompressionStarting header)
          match DecompressSession.acquire header c.allocator l.world with
          | (.error e, world) => (.error e, .headerRead, some header, { l with world })
          | (.ok session, world) =>
              let (result, state, l) := session.pump DecompressState.allocated { l with world }
              (result, state, some header,
                { l.outer with world := session.release l.outer.world }) := by
  rw [drive, follow]
  rcases readHeader ({ world := w } : Line ω) with ⟨e | header, l⟩
  · rfl
  · dsimp only
    rcases hacquire : DecompressSession.acquire header c.allocator
      (l.note (.decompressionStarting header)).world with ⟨e | session, world⟩
    · rfl
    · dsimp only
      rw [extract_eq (DecompressSession.housekeeping_of_acquire hacquire)]
      rfl

end Decompressor

end

end Lzma
