import Lzma.Compressor
import Lzma.Decompressor
import Lzma.Proofs.Fair

/-!
# Getting hold of coders and buffers

What a request can come to is read off first, for any world and any allocator: a buffer
has the size that was asked for, and a coder is set up as it was asked for or not at all.

With an allocator that grants its requests, all that can keep a run from starting
is its header or its options: what is acquired is decided by the coder alone
(`Engine.decoderFor`, `Engine.encoderFor`). What the allocator leaves alone while it
does so (`Allocator.Lends`) is left alone on the way, whether it succeeds or not; in
a fair world that is all that is known of the source and the sink.
-/

namespace Lzma

theorem le_dictionarySize (declared : Nat) : max declared 4096 ≤ dictionarySize declared := by
  rw [dictionarySize]
  omega

theorem dictionarySize_le (declared : UInt32) : dictionarySize declared.toNat ≤ 4294967296 := by
  have hlt := declared.toNat_lt
  rw [dictionarySize]
  omega

/-- A block that is read into is as large a staging buffer. -/
theorem Block.size_staging {ω : Type} (b : Block ω) :
    (Staging.ofList b.buffer.bytes).size = b.size := by
  show b.buffer.bytes.length = b.buffer.size
  rw [Buffer.bytes, Buffer.length_first, Nat.min_self]

/-! ## What a request can come to -/

section

variable {ω κ : Type} [Journal ω] {a : Allocator ω} {w w' : ω}

theorem Allocator.size_of_request {size : Nat} {b : Block ω}
    (h : a.request size w = (.ok b, w')) : b.size = size := by
  rw [request] at h
  split at h
  · cases h
  · split at h <;> rename_i hshort <;> cases h
    exact Nat.min_eq_right (Nat.le_of_not_lt hshort)

variable {housekeeping : Housekeeping} {coder : Except Fault κ}

/-- Setting up a coder fails for lack of memory or for the coder's own reason. -/
theorem Engine.fault_of_acquire {fault : Fault}
    (h : acquire housekeeping coder a w = (.error fault, w')) :
    fault = .outOfMemory ∨ coder = .error fault := by
  rw [acquire] at h
  split at h
  · cases h
    exact .inl rfl
  · split at h
    · cases h
      exact .inr rfl
    · split at h <;> cases h
      exact .inl rfl

/-- What is set up is the coder that was asked for, with no call made yet. -/
theorem Engine.stream_of_acquire {e : Engine κ ω}
    (h : acquire housekeeping coder a w = (.ok e, w')) :
    ∃ k, coder = .ok k ∧ e.stream = { coder := k } := by
  rw [acquire] at h
  split at h
  · cases h
  · split at h
    · cases h
    · split at h <;> cases h
      exact ⟨_, rfl, rfl⟩

theorem Engine.housekeeping_of_acquire {e : Engine κ ω}
    (h : acquire housekeeping coder a w = (.ok e, w')) : e.housekeeping = housekeeping := by
  rw [acquire] at h
  split at h
  · cases h
  · split at h
    · cases h
    · split at h <;> cases h
      rfl

end

/-! ## Giving back -/

/-- A heap whose blocks all go back to one allocator, which is also the one it asks. -/
structure Heap.Served {ω : Type} (h : Heap ω) (a : Allocator ω) : Prop where
  allocator : h.allocator = a
  blocks : ∀ entry ∈ h.blocks, entry.2.free = a.free

section

variable {ω : Type} {a : Allocator ω} {I : ω → Prop} {w : ω}

theorem Block.keeps_release (hfree : ∀ buffer w, I w → I (a.free buffer w)) {b : Block ω}
    (hb : b.free = a.free) (hw : I w) : I (b.release w) := by
  rw [Block.release, hb]
  exact hfree b.buffer w hw

theorem Heap.Served.keeps_close (hfree : ∀ buffer w, I w → I (a.free buffer w)) {h : Heap ω}
    (hh : h.Served a) (hw : I w) : I (h.close w) := by
  obtain ⟨allocator, blocks, fresh⟩ := h
  have hblocks := hh.blocks
  rw [Heap.close]
  dsimp only at hblocks ⊢
  clear hh
  induction blocks generalizing w with
  | nil => exact hw
  | cons entry blocks ih =>
      exact ih (Block.keeps_release hfree (hblocks entry (by simp)) hw)
        fun entry hmem => hblocks entry (List.mem_cons_of_mem _ hmem)

theorem Heap.Served.release {h : Heap ω} (hh : h.Served a) (key : Nat) (w : ω) :
    (h.release key w).1.Served a := by
  rw [Heap.release]
  split
  · exact ⟨hh.allocator, fun entry hmem => hh.blocks entry (List.mem_filter.mp hmem).1⟩
  · exact hh

theorem Heap.Served.keeps_release (hfree : ∀ buffer w, I w → I (a.free buffer w)) {h : Heap ω}
    (hh : h.Served a) (hw : I w) (key : Nat) : I (h.release key w).2 := by
  rw [Heap.release]
  split
  · next block hlookup =>
      obtain ⟨before, after, hblocks, -⟩ := List.lookup_eq_some_iff.mp hlookup
      exact Block.keeps_release hfree (hh.blocks (key, block) (by rw [hblocks]; simp)) hw
  · exact hw

/-- A coder that asks for nothing as it is given up only gives back. -/
theorem Heap.Served.keeps_retire [Journal ω] (hfree : ∀ buffer w, I w → I (a.free buffer w))
    {h : Heap ω} (hh : h.Served a) {closing : Usage} (hquiet : closing.Quiet) (hw : I w) :
    I (h.retire closing w) := by
  rw [retire]
  induction closing generalizing h w with
  | done enough => exact hh.keeps_close hfree hw
  | request size next => exact hquiet.elim
  | release key next ih =>
      cases key with
      | none => exact ih hh hquiet hw
      | some key => exact ih (hh.release key w) hquiet (hh.keeps_release hfree hw key)

end

/-! ## Allocators that grant what they are asked for -/

/-- Every request that the process could be asked for is granted while `I` holds of the world. -/
structure Allocator.Lends {ω : Type} (a : Allocator ω) (I : ω → Prop) : Prop where
  alloc {w : ω} {size : Nat} : I w → size ≤ maxBufferSize →
    ∃ buffer w', a.alloc size w = (.ok buffer, w') ∧ size ≤ buffer.size ∧ I w'
  free (buffer : Buffer) (w : ω) : I w → I (a.free buffer w)

theorem Allocator.Grants.lends {ω : Type} [Channel ω] [Fair ω] {a : Allocator ω} (ha : a.Grants)
    {s : Scene} : a.Lends fun w => Fair.scene w = some s where
  alloc := ha.alloc
  free buffer _ hw := ha.free buffer hw

section

variable {ω : Type} [Journal ω] {a : Allocator ω} {I : ω → Prop} {w : ω}

theorem Allocator.Lends.request (ha : a.Lends I) (hw : I w) (size : Nat)
    (hsize : size ≤ maxBufferSize) :
    ∃ block w', a.request size w = (.ok block, w') ∧ block.size = size ∧ block.free = a.free ∧
      I w' := by
  obtain ⟨buffer, w', hres, hle, hw'⟩ := ha.alloc hw hsize
  refine ⟨⟨buffer.truncate size, a.free⟩, w', ?_, Nat.min_eq_right hle, rfl, hw'⟩
  rw [Allocator.request, hres]
  dsimp only
  rw [if_neg (Nat.not_lt.mpr hle)]

namespace Heap.Served

variable {h : Heap ω}

theorem request (hh : h.Served a) (ha : a.Lends I) (hw : I w) {size : Nat}
    (hsize : padded size ≤ maxBufferSize) :
    ∃ key h' w', h.request size w = (some key, h', w') ∧ h'.Served a ∧ I w' := by
  obtain ⟨block, w', hres, -, hfree, hw'⟩ := ha.request hw (padded size) hsize
  refine ⟨h.fresh, { h with blocks := (h.fresh, block) :: h.blocks, fresh := h.fresh + 1 }, w',
    ?_, ⟨hh.allocator, ?_⟩, hw'⟩
  · rw [Heap.request, if_neg, hh.allocator, hres]
    exact Nat.not_le.mpr (Nat.lt_of_le_of_lt hsize (by decide))
  · intro entry hmem
    rcases List.mem_cons.mp hmem with rfl | hmem
    · exact hfree
    · exact hh.blocks entry hmem

theorem use (ha : a.Lends I) {u : Usage} {all : Bool} (hu : u.Exacting all) (hh : h.Served a)
    (hw : I w) : ∃ h' w', h.use u w = (all, h', w') ∧ h'.Served a ∧ I w' := by
  induction u generalizing h w with
  | done enough =>
      obtain rfl : enough = all := hu
      exact ⟨h, w, rfl, hh, hw⟩
  | request size next ih =>
      obtain ⟨hsize, hgranted, -⟩ := hu
      obtain ⟨key, h₁, w₁, hres, hh₁, hw₁⟩ := hh.request ha hw hsize
      obtain ⟨h', w', hrest, hh', hw'⟩ := ih (some key) (hgranted key) hh₁ hw₁
      refine ⟨h', w', ?_, hh', hw'⟩
      rw [Heap.use, hres]
      exact hrest
  | release key next ih =>
      cases key with
      | none => exact ih hu hh hw
      | some key => exact ih hu (hh.release key w) (hh.keeps_release ha.free hw key)

end Heap.Served

end

/-! ## Coders -/

section

variable {ω : Type} [Journal ω] {I : ω → Prop}

namespace Engine

variable {κ : Type} {a : Allocator ω} {w : ω} {housekeeping : Housekeeping}

theorem acquire_error (ha : a.Lends I) (hw : I w) (hk : housekeeping.Provident) (fault : Fault) :
    ∃ w', acquire (κ := κ) housekeeping (.error fault) a w = (.error fault, w') ∧ I w' := by
  obtain ⟨heap, w₁, huse, hheap, hw₁⟩ :=
    Heap.Served.use (h := { allocator := a }) ha hk.records ⟨rfl, by simp⟩ hw
  refine ⟨heap.retire housekeeping.closing w₁, ?_, hheap.keeps_retire ha.free hk.closing hw₁⟩
  rw [acquire, huse]

theorem acquire_ok (ha : a.Lends I) (hw : I w) (hk : housekeeping.Provident) (coder : κ) :
    ∃ heap w', acquire housekeeping (.ok coder) a w = (.ok ⟨{ coder }, heap, housekeeping⟩, w') ∧
      heap.Served a ∧ I w' := by
  obtain ⟨heap, w₁, huse, hheap, hw₁⟩ :=
    Heap.Served.use (h := { allocator := a }) ha hk.records ⟨rfl, by simp⟩ hw
  obtain ⟨heap', w', huse', hheap', hw'⟩ := Heap.Served.use ha hk.workspace hheap hw₁
  refine ⟨heap', w', ?_, hheap', hw'⟩
  rw [acquire, huse]
  dsimp only
  rw [huse']

end Engine

end

/-! ## Decompression -/

variable {ω : Type} {I : ω → Prop}

namespace DecompressSession

/-- A session for a certain decoder whose memory goes back to an allocator. -/
structure For (session : DecompressSession ω) (a : Allocator ω) (d : Decoder) : Prop where
  stream : session.engine.stream = { coder := d }
  housekeeping : session.engine.housekeeping.Provident
  heap : session.engine.heap.Served a
  input : session.input.free = a.free
  output : session.output.free = a.free
  inputSize : session.input.size = Staging.defaultSize
  outputSize : session.output.size = decodedSize

variable {h : Header} {a : Allocator ω} {w : ω}

theorem provident [Provident] (h : Header) :
    (Manner.decoder h.coding (dictionarySize h.dictSize.toNat)).Provident :=
  Provident.decoder_provident _ (dictionarySize_le _)

variable [Journal ω]

theorem acquire_error [Provident] (ha : a.Lends I) (hw : I w) {fault : Fault}
    (hd : Engine.decoderFor h = .error fault) :
    ∃ w', acquire h a w = (.error (.decompress fault.toIoError), w') ∧ I w' := by
  obtain ⟨w', hengine, hw'⟩ := Engine.acquire_error (κ := Decoder) ha hw (provident h) fault
  refine ⟨w', ?_, hw'⟩
  rw [acquire, Engine.acquireDecoder, hd, hengine]

theorem acquire_ok [Provident] (ha : a.Lends I) (hw : I w) {d : Decoder}
    (hd : Engine.decoderFor h = .ok d) :
    ∃ session w', acquire h a w = (.ok session, w') ∧ session.For a d ∧ I w' := by
  obtain ⟨heap, w₁, hengine, hheap, hw₁⟩ := Engine.acquire_ok ha hw (provident h) d
  obtain ⟨input, w₂, hinput, hin, hinfree, hw₂⟩ :=
    ha.request hw₁ Staging.defaultSize (by decide)
  obtain ⟨output, w₃, houtput, hout, houtfree, hw₃⟩ :=
    ha.request hw₂ decodedSize (by decide)
  refine ⟨⟨⟨{ coder := d }, heap, _⟩, input, output⟩, w₃, ?_,
    ⟨rfl, provident h, hheap, hinfree, houtfree, hin, hout⟩, hw₃⟩
  rw [acquire, Engine.acquireDecoder, hd, hengine]
  dsimp only
  rw [hinput]
  dsimp only
  rw [houtput]

theorem For.release {session : DecompressSession ω} {d : Decoder} (hs : session.For a d)
    (ha : a.Lends I) (hw : I w) : I (session.release w) :=
  Block.keeps_release ha.free hs.output (Block.keeps_release ha.free hs.input
    (hs.heap.keeps_retire ha.free hs.housekeeping.closing hw))

end DecompressSession

/-! ## Compression -/

namespace CompressSession

/-- A session for a certain encoder whose memory goes back to an allocator. -/
structure For (session : CompressSession ω) (a : Allocator ω) (e : Encoder) : Prop where
  stream : session.engine.stream = { coder := e }
  housekeeping : session.engine.housekeeping.Provident
  heap : session.engine.heap.Served a
  input : session.input.free = a.free
  output : session.output.free = a.free
  inputSize : session.input.size = Staging.defaultSize

variable {o : Options} {a : Allocator ω} {w : ω} [Journal ω]

theorem acquire_error [Provident] (ha : a.Lends I) (hw : I w)
    (hpreset : presetSupported o.level.number = true) {fault : Fault}
    (he : Engine.encoderFor o = .error fault) :
    ∃ w', acquire o a w = (.error (setupError fault), w') ∧ I w' := by
  obtain ⟨w', hengine, hw'⟩ :=
    Engine.acquire_error (κ := Encoder) ha hw (Provident.encoder_provident o) fault
  refine ⟨w', ?_, hw'⟩
  rw [acquire, Engine.acquireEncoder, if_pos hpreset, he, hengine]

theorem acquire_ok [Provident] (ha : a.Lends I) (hw : I w)
    (hpreset : presetSupported o.level.number = true) {e : Encoder}
    (he : Engine.encoderFor o = .ok e) :
    ∃ session w', acquire o a w = (.ok session, w') ∧ session.For a e ∧ I w' := by
  have hk := Provident.encoder_provident o
  obtain ⟨heap, w₁, hengine, hheap, hw₁⟩ := Engine.acquire_ok ha hw hk e
  obtain ⟨input, w₂, hinput, hin, hinfree, hw₂⟩ :=
    ha.request hw₁ Staging.defaultSize (by decide)
  obtain ⟨output, w₃, houtput, -, houtfree, hw₃⟩ :=
    ha.request hw₂ Staging.defaultSize (by decide)
  refine ⟨⟨⟨{ coder := e }, heap, _⟩, input, output⟩, w₃, ?_,
    ⟨rfl, hk, hheap, hinfree, houtfree, hin⟩, hw₃⟩
  rw [acquire, Engine.acquireEncoder, if_pos hpreset, he, hengine]
  dsimp only
  rw [hinput]
  dsimp only
  rw [houtput]

theorem For.release {session : CompressSession ω} {e : Encoder} (hs : session.For a e)
    (ha : a.Lends I) (hw : I w) : I (session.release w) :=
  Block.keeps_release ha.free hs.output (Block.keeps_release ha.free hs.input
    (hs.heap.keeps_retire ha.free hs.housekeeping.closing hw))

end CompressSession

end Lzma
