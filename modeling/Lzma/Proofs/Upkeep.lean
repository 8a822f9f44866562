import Lzma.Proofs.Hosting

/-!
# What is kept while memory is asked for and given back

Beside its counted calls a run deals with its allocator, before the first of them and after
the last. Both kinds of runs ask for the same: a coder with its memory, and two buffers. An
`Outfit` is that, and what is to be said of asking for it and giving it back is said here once.

All that an outfit is made of came from one allocator and goes back to it (`Outfit.Served`),
also where callbacks give too little or refuse. So a property that the two callbacks keep is
kept by all dealings with memory, and with those of the counted calls this makes an invariant
of whole runs (`Compressor.keeps_drive`, `Decompressor.keeps_drive`).
-/

namespace Lzma

variable {ω κ : Type}

/-- A coder with its memory, and the buffers that a run passes bytes through. -/
structure Outfit (κ ω : Type) where
  engine : Engine κ ω
  input : Block ω
  output : Block ω

namespace Outfit

variable [Journal ω]

def release (x : Outfit κ ω) (w : ω) : ω :=
  x.output.release (x.input.release (x.engine.release w))

/-- Asks for a coder, then for both buffers. Without a fault it is a buffer that was refused. -/
def acquire (housekeeping : Housekeeping) (coder : Except Fault κ) (inSize outSize : Nat)
    (a : Allocator ω) (w : ω) : Except (Option Fault) (Outfit κ ω) × ω :=
  match Engine.acquire housekeeping coder a w with
  | (.error fault, w) => (.error (some fault), w)
  | (.ok engine, w) =>
      match a.request inSize w with
      | (.error _, w) => (.error none, engine.release w)
      | (.ok input, w) =>
          match a.request outSize w with
          | (.error _, w) => (.error none, engine.release (input.release w))
          | (.ok output, w) => (.ok ⟨engine, input, output⟩, w)

end Outfit

def CompressSession.outfit (s : CompressSession ω) : Outfit Encoder ω :=
  ⟨s.engine, s.input, s.output⟩

def DecompressSession.outfit (s : DecompressSession ω) : Outfit Decoder ω :=
  ⟨s.engine, s.input, s.output⟩

section

variable [Journal ω] {a : Allocator ω} {w w' : ω}

theorem CompressSession.acquire_eq [Manner] (o : Options) (a : Allocator ω) (w : ω) :
    acquire o a w =
      if presetSupported o.level.number then
        match Outfit.acquire (Manner.encoder o) (Engine.encoderFor o) Staging.defaultSize
            Staging.defaultSize a w with
        | (.error failure, w) => (.error (failure.elim refused setupError), w)
        | (.ok x, w) => (.ok ⟨x.engine, x.input, x.output⟩, w)
      else (.error (setupError (.unsupportedPreset o.level.number)), w) := by
  rw [acquire, Engine.acquireEncoder]
  by_cases hpreset : presetSupported o.level.number = true
  · rw [if_pos hpreset, if_pos hpreset, Outfit.acquire]
    rcases Engine.acquire (Manner.encoder o) (Engine.encoderFor o) a w with ⟨_ | engine, w₁⟩
    · rfl
    · dsimp only
      rcases a.request Staging.defaultSize w₁ with ⟨_ | input, w₂⟩
      · rfl
      · dsimp only
        rcases a.request Staging.defaultSize w₂ with ⟨_ | output, w₃⟩ <;> rfl
  · rw [if_neg hpreset, if_neg hpreset]

/-- What a decoder for such a header does with memory. -/
abbrev Header.housekeeping [Manner] (header : Header) : Housekeeping :=
  Manner.decoder header.coding (dictionarySize header.dictSize.toNat)

theorem DecompressSession.acquire_eq [Manner] (header : Header) (a : Allocator ω) (w : ω) :
    acquire header a w =
      match Outfit.acquire header.housekeeping (Engine.decoderFor header) Staging.defaultSize
          decodedSize a w with
      | (.error failure, w) =>
          (.error (failure.elim refused fun fault => .decompress fault.toIoError), w)
      | (.ok x, w) => (.ok ⟨x.engine, x.input, x.output⟩, w) := by
  rw [acquire, Engine.acquireDecoder, Outfit.acquire]
  rcases Engine.acquire header.housekeeping (Engine.decoderFor header) a w with
    ⟨_ | engine, w₁⟩
  · rfl
  · dsimp only
    rcases a.request Staging.defaultSize w₁ with ⟨_ | input, w₂⟩
    · rfl
    · dsimp only
      rcases a.request decodedSize w₂ with ⟨_ | output, w₃⟩ <;> rfl

theorem CompressSession.outfit_of_acquire [Manner] {o : Options} {s : CompressSession ω}
    (h : acquire o a w = (.ok s, w')) :
    Outfit.acquire (Manner.encoder o) (Engine.encoderFor o) Staging.defaultSize
      Staging.defaultSize a w = (.ok s.outfit, w') := by
  rw [acquire_eq] at h
  split at h
  · split at h <;> rename_i hx <;> cases h
    exact hx
  · cases h

theorem DecompressSession.outfit_of_acquire [Manner] {header : Header} {s : DecompressSession ω}
    (h : acquire header a w = (.ok s, w')) :
    Outfit.acquire header.housekeeping (Engine.decoderFor header) Staging.defaultSize decodedSize
      a w = (.ok s.outfit, w') := by
  rw [acquire_eq] at h
  split at h <;> rename_i hx <;> cases h
  exact hx

/-! ## Where memory goes back to -/

theorem Allocator.free_of_request {size : Nat} {b : Block ω}
    (h : a.request size w = (.ok b, w')) : b.free = a.free := by
  rw [request] at h
  split at h
  · cases h
  · split at h <;> cases h
    rfl

namespace Heap.Served

variable {h h' : Heap ω}

theorem of_request (hh : h.Served a) {size : Nat} {key : Option Nat}
    (heq : h.request size w = (key, h', w')) : h'.Served a := by
  rw [Heap.request] at heq
  split at heq
  · cases heq
    exact hh
  · split at heq <;> rename_i hres <;> cases heq
    · refine ⟨hh.allocator, ?_⟩
      intro entry hmem
      rcases List.mem_cons.mp hmem with rfl | hmem
      · rw [hh.allocator] at hres
        exact Allocator.free_of_request hres
      · exact hh.blocks entry hmem
    · exact hh
    · exact hh

theorem of_use (hh : h.Served a) {u : Usage} {enough : Bool}
    (heq : h.use u w = (enough, h', w')) : h'.Served a := by
  induction u generalizing h w with
  | done enough =>
      cases heq
      exact hh
  | request size next ih =>
      rw [Heap.use] at heq
      rcases hres : h.request size w with ⟨key, h₁, w₁⟩
      rw [hres] at heq
      exact ih key (hh.of_request hres) heq
  | release key next ih =>
      cases key with
      | none => exact ih hh heq
      | some key => exact ih (hh.release key w) heq

omit [Journal ω] in
theorem start (a : Allocator ω) : ({ allocator := a } : Heap ω).Served a := ⟨rfl, by simp⟩

end Heap.Served

theorem Engine.served_of_acquire {housekeeping : Housekeeping} {coder : Except Fault κ}
    {e : Engine κ ω} (h : acquire housekeeping coder a w = (.ok e, w')) : e.heap.Served a := by
  rw [acquire] at h
  split at h <;> rename_i hrecords
  · cases h
  · have hserved := (Heap.Served.start a).of_use hrecords
    split at h
    · cases h
    · split at h <;> rename_i hworkspace <;> cases h
      exact hserved.of_use hworkspace

/-- An outfit all of whose memory goes back to one allocator. -/
structure Outfit.Served (x : Outfit κ ω) (a : Allocator ω) : Prop where
  heap : x.engine.heap.Served a
  input : x.input.free = a.free
  output : x.output.free = a.free

theorem Outfit.served_of_acquire {housekeeping : Housekeeping} {coder : Except Fault κ}
    {inSize outSize : Nat} {x : Outfit κ ω}
    (h : acquire housekeeping coder inSize outSize a w = (.ok x, w')) : x.Served a := by
  rw [acquire] at h
  split at h <;> rename_i hengine
  · cases h
  · split at h <;> rename_i hinput
    · cases h
    · split at h <;> rename_i houtput <;> cases h
      exact ⟨Engine.served_of_acquire hengine, Allocator.free_of_request hinput,
        Allocator.free_of_request houtput⟩

section

variable [Manner]

theorem CompressSession.served_of_acquire {o : Options} {s : CompressSession ω}
    (h : acquire o a w = (.ok s, w')) : s.outfit.Served a :=
  Outfit.served_of_acquire (outfit_of_acquire h)

theorem DecompressSession.served_of_acquire {header : Header} {s : DecompressSession ω}
    (h : acquire header a w = (.ok s, w')) : s.outfit.Served a :=
  Outfit.served_of_acquire (outfit_of_acquire h)

theorem CompressSession.request_of_acquire {o : Options} {s : CompressSession ω}
    (h : acquire o a w = (.ok s, w')) :
    ∃ w₁ w₂, a.request Staging.defaultSize w₁ = (.ok s.input, w₂) := by
  rw [acquire] at h
  split at h
  · cases h
  · split at h <;> rename_i hinput
    · cases h
    · split at h <;> cases h
      exact ⟨_, _, hinput⟩

theorem CompressSession.input_of_acquire {o : Options} {s : CompressSession ω}
    (h : acquire o a w = (.ok s, w')) : s.input.size = Staging.defaultSize := by
  obtain ⟨_, _, hinput⟩ := request_of_acquire h
  exact Allocator.size_of_request hinput

omit [Manner] in
theorem Outfit.engine_of_acquire {housekeeping : Housekeeping} {coder : Except Fault κ}
    {inSize outSize : Nat} {x : Outfit κ ω}
    (h : acquire housekeeping coder inSize outSize a w = (.ok x, w')) :
    ∃ w₁, Engine.acquire housekeeping coder a w = (.ok x.engine, w₁) := by
  rw [acquire] at h
  split at h <;> rename_i hengine
  · cases h
  · split at h
    · cases h
    · split at h <;> cases h
      exact ⟨_, hengine⟩

/-- A decoder at hand is the one that was asked for, and was not called yet. -/
theorem DecompressSession.stream_of_acquire {header : Header} {s : DecompressSession ω}
    (h : acquire header a w = (.ok s, w')) :
    ∃ d, Engine.decoderFor header = .ok d ∧ s.engine.stream = { coder := d } := by
  obtain ⟨w₁, hengine⟩ := Outfit.engine_of_acquire (outfit_of_acquire h)
  exact Engine.stream_of_acquire hengine

theorem DecompressSession.input_of_acquire {header : Header} {s : DecompressSession ω}
    (h : acquire header a w = (.ok s, w')) : s.input.size = Staging.defaultSize := by
  rw [acquire] at h
  split at h
  · cases h
  · split at h <;> rename_i hinput
    · cases h
    · split at h <;> cases h
      exact Allocator.size_of_request hinput

theorem DecompressSession.room_of_acquire {header : Header} {s : DecompressSession ω}
    (h : acquire header a w = (.ok s, w')) : s.output.size = decodedSize := by
  rw [acquire] at h
  split at h
  · cases h
  · split at h
    · cases h
    · split at h <;> rename_i houtput <;> cases h
      exact Allocator.size_of_request houtput

end

end

/-! ## What giving back keeps -/

section

variable [Journal ω] {a : Allocator ω} {I : ω → Prop} {w : ω}

theorem Outfit.Served.keeps_release (hfree : ∀ buffer w, I w → I (a.free buffer w))
    {x : Outfit κ ω} (hx : x.Served a) (hquiet : x.engine.housekeeping.closing.Quiet) (hw : I w) :
    I (x.release w) :=
  Block.keeps_release hfree hx.output
    (Block.keeps_release hfree hx.input (hx.heap.keeps_retire hfree hquiet hw))

end

/-! ## What asking keeps -/

/-- What is noted while memory is dealt with. -/
def Event.OfMemory : Event → Prop
  | .shortBlock _ _ | .engineRefused _ => True
  | _ => False

/-- A property that no dealing with an allocator takes away. -/
structure Allocator.Keeps [Journal ω] (a : Allocator ω) (I : ω → Prop) : Prop where
  note {event : Event} {w : ω} : event.OfMemory → I w → I (Journal.note event w)
  alloc (size : Nat) {w : ω} : I w → I (a.alloc size w).2
  free (buffer : Buffer) (w : ω) : I w → I (a.free buffer w)

section

variable [Journal ω] {a : Allocator ω} {I : ω → Prop} {w w' : ω}

theorem Allocator.Keeps.request (ha : a.Keeps I) (hw : I w) {size : Nat}
    {result : Except Denial (Block ω)} (h : a.request size w = (result, w')) : I w' := by
  have halloc := ha.alloc size hw
  rw [Allocator.request] at h
  split at h <;> rename_i hres <;> rw [hres] at halloc
  · cases h
    exact halloc
  · split at h <;> cases h
    · exact ha.free _ _ (ha.note trivial halloc)
    · exact halloc

namespace Heap.Served

variable {h h' : Heap ω}

theorem keeps_request (hh : h.Served a) (ha : a.Keeps I) (hw : I w) {size : Nat}
    {key : Option Nat} (heq : h.request size w = (key, h', w')) : I w' := by
  rw [Heap.request, hh.allocator] at heq
  split at heq
  · cases heq
    exact hw
  · split at heq <;> rename_i hres <;> have hw' := ha.request hw hres <;> cases heq
    · exact hw'
    · exact ha.note trivial hw'
    · exact hw'

theorem keeps_use (hh : h.Served a) (ha : a.Keeps I) (hw : I w) {u : Usage} {enough : Bool}
    (heq : h.use u w = (enough, h', w')) : I w' := by
  induction u generalizing h w with
  | done enough =>
      cases heq
      exact hw
  | request size next ih =>
      rw [Heap.use] at heq
      rcases hres : h.request size w with ⟨key, h₁, w₁⟩
      rw [hres] at heq
      exact ih key (hh.of_request hres) (hh.keeps_request ha hw hres) heq
  | release key next ih =>
      cases key with
      | none => exact ih hh hw heq
      | some key => exact ih (hh.release key w) (hh.keeps_release ha.free hw key) heq

end Heap.Served

theorem Engine.keeps_acquire {housekeeping : Housekeeping} (hk : housekeeping.Provident)
    {coder : Except Fault κ} {result : Except Fault (Engine κ ω)} (ha : a.Keeps I) (hw : I w)
    (h : acquire housekeeping coder a w = (result, w')) : I w' := by
  have hstart := Heap.Served.start a
  rw [acquire] at h
  split at h <;> rename_i hrecords <;> have hw₁ := hstart.keeps_use ha hw hrecords <;>
    have hserved := hstart.of_use hrecords
  · cases h
    exact hserved.keeps_retire ha.free hk.closing hw₁
  · split at h
    · cases h
      exact hserved.keeps_retire ha.free hk.closing hw₁
    · split at h <;> rename_i hworkspace <;>
        have hw₂ := hserved.keeps_use ha hw₁ hworkspace <;> cases h
      · exact (hserved.of_use hworkspace).keeps_retire ha.free hk.closing hw₂
      · exact hw₂

theorem Outfit.keeps_acquire {housekeeping : Housekeeping} (hk : housekeeping.Provident)
    {coder : Except Fault κ} {inSize outSize : Nat}
    {result : Except (Option Fault) (Outfit κ ω)} (ha : a.Keeps I) (hw : I w)
    (h : acquire housekeeping coder inSize outSize a w = (result, w')) : I w' := by
  rw [acquire] at h
  split at h <;> rename_i hengine <;> have hw₁ := Engine.keeps_acquire hk ha hw hengine
  · cases h
    exact hw₁
  · have hheap := Engine.served_of_acquire hengine
    have hclosing {w : ω} (hw : I w) := hheap.keeps_retire ha.free hk.closing hw
    rw [← Engine.housekeeping_of_acquire hengine] at hclosing
    split at h <;> rename_i hinput <;> have hw₂ := ha.request hw₁ hinput
    · cases h
      exact hclosing hw₂
    · split at h <;> rename_i houtput <;> have hw₃ := ha.request hw₂ houtput <;> cases h
      · exact hclosing (Block.keeps_release ha.free (Allocator.free_of_request hinput) hw₃)
      · exact hw₃

variable [Provident]

theorem CompressSession.keeps_acquire {o : Options} {result : Except Error (CompressSession ω)}
    (ha : a.Keeps I) (hw : I w) (h : acquire o a w = (result, w')) : I w' := by
  rw [acquire_eq] at h
  split at h
  · split at h <;> rename_i hx <;> cases h <;>
      exact Outfit.keeps_acquire (Provident.encoder_provident o) ha hw hx
  · cases h
    exact hw

theorem DecompressSession.keeps_acquire {header : Header}
    {result : Except Error (DecompressSession ω)} (ha : a.Keeps I) (hw : I w)
    (h : acquire header a w = (result, w')) : I w' := by
  rw [acquire_eq] at h
  split at h <;> rename_i hx <;> cases h <;>
    exact Outfit.keeps_acquire (provident header) ha hw hx

end

/-! ## Runs -/

/-- A property of a line that is kept whatever an allocator does to the world. -/
def Allocator.KeepsLine [Journal ω] (a : Allocator ω) (I : Line ω → Prop) : Prop :=
  ∀ taken given, a.Keeps fun w => I ⟨w, taken, given⟩

section

variable [Channel ω] [Provident] {I : Line ω → Prop} {w : ω}

theorem Compressor.keeps_drive {c : Compressor ω} (hI : Line.Invariant Staging.defaultSize I)
    (ha : c.allocator.KeepsLine I) (hw : I { world := w }) : I (c.drive w).2.2 := by
  rw [drive_eq]
  split <;> rename_i hacquire <;> have hw₁ := CompressSession.keeps_acquire (ha 0 0) hw hacquire
  · exact hw₁
  · rename_i session w₁
    have hemit := hI.host.emit c session c.state hw₁
    generalize c.emit session c.state w₁ = p at hemit ⊢
    obtain ⟨result, state, l⟩ := p
    exact (CompressSession.served_of_acquire hacquire).keeps_release (ha l.taken l.given).free
      (CompressSession.housekeeping_of_acquire hacquire).closing hemit

omit [Provident] in
theorem Decompressor.readHeader_keeps (hI : ∀ room {l}, I l → I (l.pull room).2) {l : Line ω}
    (hl : I l) : I (readHeader l).2 := by
  have hgather := Line.gather_keeps hI hl (List.replicate headerSize 0)
  rw [readHeader]
  split <;> rename_i hres <;> rw [hres] at hgather
  · exact hgather
  · split <;> exact hgather

omit [Provident] in
theorem Line.Invariant.readHeader {limit : Nat} (hI : Invariant limit I) {l : Line ω}
    (hl : I l) : I (Decompressor.readHeader l).2 :=
  Decompressor.readHeader_keeps hI.pull hl

/-- The part of a run that follows the header. -/
theorem Decompressor.keeps_drive_rest {c : Decompressor ω} (hI : Line.Invariant decodedSize I)
    (ha : c.allocator.KeepsLine I) (hl : I (readHeader { world := w }).2) :
    I (c.drive w).2.2.2 := by
  rw [drive, follow]
  split <;> rename_i hheader <;> rw [hheader] at hl
  · exact hl
  · rename_i header l
    have hnote := hI.note (.decompressionStarting header) hl
    dsimp only
    split <;> rename_i hacquire <;>
      have hw₁ := DecompressSession.keeps_acquire
        (ha (l.note (.decompressionStarting header)).taken
          (l.note (.decompressionStarting header)).given) hnote hacquire
    · exact hw₁
    · rename_i session w₁
      rw [← DecompressSession.room_of_acquire hacquire] at hI
      have hpump := hI.host.pump session DecompressState.allocated
        (l := { l.note (.decompressionStarting header) with world := w₁ }) hw₁
      have hk := DecompressSession.housekeeping_of_acquire hacquire
      rw [extract_eq hk]
      exact (DecompressSession.served_of_acquire hacquire).keeps_release (ha _ _).free hk.closing
        hpump

theorem Decompressor.keeps_drive {c : Decompressor ω} (hI : Line.Invariant decodedSize I)
    (ha : c.allocator.KeepsLine I) (hw : I { world := w }) : I (c.drive w).2.2.2 :=
  keeps_drive_rest hI ha (hI.readHeader hw)

theorem Compressor.keeps_run {c : Compressor ω} {I : ω → Prop} (hI : Channel.Keeps I)
    (ha : c.allocator.Keeps I) (hw : I w) : I (c.run w).2.2 := by
  have hdrive := keeps_drive (c := c) (hI.line _) (fun _ _ => ha) hw
  rw [run]
  split
  · generalize c.drive w = p at hdrive ⊢
    obtain ⟨_ | _, state, l⟩ := p <;> exact hI.note _ hdrive
  · exact hw

theorem Decompressor.keeps_run {c : Decompressor ω} {I : ω → Prop} (hI : Channel.Keeps I)
    (ha : c.allocator.Keeps I) (hw : I w) : I (c.run w).2.2 := by
  have hdrive := keeps_drive (c := c) (hI.line _) (fun _ _ => ha) hw
  rw [run]
  split
  · generalize c.drive w = p at hdrive ⊢
    obtain ⟨_ | _, state, header, l⟩ := p <;> exact hI.note _ hdrive
  · exact hw

end

end Lzma
