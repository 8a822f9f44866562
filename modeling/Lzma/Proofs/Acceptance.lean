import Lzma.Proofs.Calls
import Lzma.Proofs.RoundTrip
import Lzma.Proofs.Trace

/-!
# What is written is a stream, and up to 256 MiB it is accepted

A compression run that succeeds has written the stream that its options ask for, of
some data, whatever its source and its sink are like (`Compressor.written_of_run`):
success means that each write was taken as a whole, and the encoder serves one payload.

So whether a run's output can be read back is decided by its options alone. The coder
works with dictionaries of up to 1.5 GiB and the writer hands on whatever the coder
works with, but a header may ask for no more than 256 MiB. Up to there everything that is
written is accepted; beyond it nothing is, though each run reports success.
-/

namespace Lzma

variable {ω : Type}

/-! ## Loops that succeed -/

namespace Line

open Record

variable [Channel ω] {l l' : Line (Traced ω)}

theorem accepted_push {bytes : List UInt8} (h : l.push bytes = (.ok (), l')) :
    accepted l'.deeds = accepted l.deeds ++ bytes := by
  rcases deeds_push h with ⟨rfl, rfl, -⟩ | ⟨-, answer, hdeeds, hanswer⟩
  · rw [List.append_nil]
  · rw [hdeeds, hanswer rfl]
    simp

theorem accepted_note (event : Event) : accepted (l.note event).deeds = accepted l.deeds := by
  simp [deeds_note]

theorem accepted_pull {room : Nat} {result : Except IoError Reading}
    (h : l.pull room = (result, l')) : accepted l'.deeds = accepted l.deeds := by
  rcases deeds_pull h with ⟨hdeeds, -⟩ | ⟨answer, hdeeds, -⟩ <;> simp [hdeeds]

end Line

namespace Encoding

open Record

variable [Channel ω] {l l' : Line (Traced ω)}

/--
What is written for a chunk is what the encoder gives for it. It brings the encoder nearer to any
payload that it may serve.
-/
theorem encodeChunk_ok {s s' : Stream Encoder} {chunk : List UInt8}
    (h : encodeChunk s l chunk = (.ok s', l')) :
    ∃ more, accepted l'.deeds = accepted l.deeds ++ more ∧ s.Emits chunk more s' ∧
      ∀ {t data rest out}, s.Serves t data (chunk ++ rest) out →
        s'.Serves t data rest (out ++ more) := by
  have hroom : 0 < Staging.defaultSize := by decide
  fun_induction encodeChunk s l chunk with
  | case1 s l =>
      cases h
      exact ⟨[], by rw [List.append_nil], .refl _, fun hs => by rwa [List.append_nil]⟩
  | case2 s l chunk hne e s₁ l₀ hcall => cases h
  | case3 s l chunk hne moved s₁ l₀ hcall e l₁ hpush => cases h
  | case4 s l chunk hne moved s₁ l₀ hcall l₁ hpush hnone => cases h
  | case5 s l chunk hne moved s₁ l₀ hcall l₁ hpush hmoves ih =>
      obtain ⟨rfl, hcalled⟩ := Line.eq_of_encodeCall hcall
      obtain ⟨more, hmore, hemits, hserves⟩ := ih h
      have hemits' := Stream.Emits.step hcalled hemits
      rw [Call.input, List.take_append_drop] at hemits'
      refine ⟨moved.output ++ more, ?_, hemits', fun hs => ?_⟩
      · rw [hmore, Line.accepted_push hpush, List.append_assoc]
      · obtain ⟨moved', hres, -, hs₁⟩ := hs.of_encode hne hroom hcalled
        cases hres
        rw [← List.append_assoc]
        exact hserves hs₁

theorem finish_ok {s : Stream Encoder} (h : finish s l = (.ok (), l')) :
    ∃ more s', accepted l'.deeds = accepted l.deeds ++ more ∧ s.Emits [] more s' ∧
      s'.stage = .ended ∧
      ∀ {t data out}, s.coder.Serves t data [] out →
        s.stage = .running ∨ s.stage = .finishing →
        out ++ more = payload t.props t.dictSize (symbolsFor t data.toArray) := by
  have hroom : 0 < Staging.defaultSize := by decide
  fun_induction finish s l with
  | case1 s l e s₁ l₀ hcall => cases h
  | case2 s l moved s₁ l₀ hcall e l₁ hpush => cases h
  | case3 s l moved s₁ l₀ hcall l₁ hpush hended =>
      obtain ⟨rfl, hcalled⟩ := Line.eq_of_encodeCall hcall
      cases h
      have hemits := Stream.Emits.step hcalled (.refl s₁)
      rw [Call.input, List.take_nil, List.append_nil, List.append_nil] at hemits
      refine ⟨moved.output, s₁, Line.accepted_push hpush, hemits,
        Stream.stage_of_ended hcalled hended, fun hs hstage => ?_⟩
      obtain ⟨moved', hres, ⟨-, hall⟩ | ⟨hgoes, -⟩⟩ := Stream.finish_cases hs hstage hroom hcalled
      · cases hres
        exact hall
      · cases hres
        exact absurd hended (by simp [hgoes])
  | case4 s l moved s₁ l₀ hcall l₁ hpush hgoes hnone => cases h
  | case5 s l moved s₁ l₀ hcall l₁ hpush hgoes hmoves ih =>
      obtain ⟨rfl, hcalled⟩ := Line.eq_of_encodeCall hcall
      obtain ⟨more, s', hmore, hemits, hend, hall⟩ := ih h
      have hemits' := Stream.Emits.step hcalled hemits
      rw [Call.input, List.take_nil] at hemits'
      refine ⟨moved.output ++ more, s', ?_, hemits', hend, fun hs hstage => ?_⟩
      · rw [hmore, Line.accepted_push hpush, List.append_assoc]
      · obtain ⟨moved', hres, ⟨hended, -⟩ | ⟨-, -, hstage₁, hs₁⟩⟩ :=
          Stream.finish_cases hs hstage hroom hcalled
        · cases hres
          exact absurd hended hgoes
        · cases hres
          rw [← List.append_assoc]
          exact hall hs₁ (.inr hstage₁)

theorem taken_encodeChunk {s : Stream Encoder} {chunk : List UInt8}
    {result : Except Error (Stream Encoder)} (h : encodeChunk s l chunk = (result, l')) :
    l'.taken = l.taken := by
  have hkeeps := encodeChunk_keeps (I := fun l₁ : Line (Traced ω) => l₁.taken = l.taken) id
    (fun _ hl => (Line.taken_push _ _).trans hl) s chunk rfl
  rwa [h] at hkeeps

theorem taken_finish {s : Stream Encoder} {result : Except Error Unit}
    (h : finish s l = (result, l')) : l'.taken = l.taken := by
  have hkeeps := finish_keeps (I := fun l₁ : Line (Traced ω) => l₁.taken = l.taken) id
    (fun _ hl => (Line.taken_push _ _).trans hl) s rfl
  rwa [h] at hkeeps

/--
A run that succeeds has written what its encoder gave for some data, as much of it as was
counted as read, and the encoder is at its end. What the data is comes out as it is read, so if
that is to be the rest of a payload the encoder must serve whatever may still follow.
-/
theorem run_ok {s : Stream Encoder} {staging : Staging} {state state' : CompressState}
    (h : run s staging l state = (.ok (), state', l')) :
    ∃ data more s', l'.taken = l.taken + data.length ∧
      accepted l'.deeds = accepted l.deeds ++ more ∧ s.Emits data more s' ∧ s'.stage = .ended ∧
      ∀ {t before out}, (∀ rest, s.Serves t (before ++ rest) rest out) →
        out ++ more = payload t.props t.dictSize (symbolsFor t (before ++ data).toArray) := by
  fun_induction run s staging l state with
  | case1 s staging l state e l₁ hpull => cases h
  | case2 s staging l state r l₁ hpull state₁ hcount result l₂ =>
      rename_i hfinish
      obtain ⟨rfl, -, rfl⟩ : result = .ok () ∧ _ ∧ l₂ = l' := by simpa using h
      obtain ⟨more, s', hmore, hemits, hend, hall⟩ := finish_ok hfinish
      obtain ⟨-, htaken⟩ := Line.length_chunk hpull
      refine ⟨[], more, s', by rw [taken_finish hfinish, htaken, hcount]; rfl,
        by rw [hmore, Line.accepted_pull hpull], hemits, hend, fun hs => ?_⟩
      exact hall (hs []).coder (.inl (hs []).stage)
  | case3 s staging l state r l₁ hpull state₁ hcount staging' e l₂ => cases h
  | case4 s staging l state r l₁ hpull state₁ hcount staging' s₁ l₂ =>
      rename_i hchunk ih
      obtain ⟨more, hmore, hemits, hserves⟩ := encodeChunk_ok hchunk
      obtain ⟨data, more', s', hcounted, hmore', hemits', hend, hall⟩ := ih h
      obtain ⟨hlength, htaken⟩ := Line.length_chunk hpull
      have hkept : l₂.taken = (l₁.note (.encodingChunk r.count)).taken := taken_encodeChunk hchunk
      refine ⟨staging'.chunk r.count ++ data, more ++ more', s', ?_, ?_, hemits.trans hemits', hend,
        fun {t before out} hs => ?_⟩
      · rw [hcounted, hkept, List.length_append, hlength, ← Nat.add_assoc, ← htaken]
        rfl
      · rw [hmore', hmore, Line.accepted_note, Line.accepted_pull hpull, List.append_assoc]
      · rw [← List.append_assoc, ← List.append_assoc]
        -- What follows the chunk is not read yet, so it is left open as `rest`.
        refine hall fun rest => hserves ?_
        rw [List.append_assoc]
        exact hs (staging'.chunk r.count ++ rest)

end Encoding

/-! ## What a run has written -/

/-- A release callback that leaves the record of a world alone. -/
def FreeCallback.traced (free : FreeCallback ω) : FreeCallback (Traced ω) :=
  fun buffer t => { t with world := free buffer t.world }

def Allocator.traced (a : Allocator ω) : Allocator (Traced ω) where
  alloc size t := let (r, world) := a.alloc size t.world; (r, { t with world })
  free := FreeCallback.traced a.free
  custom := a.custom

def Block.traced (b : Block ω) : Block (Traced ω) := ⟨b.buffer, FreeCallback.traced b.free⟩

def Heap.traced (h : Heap ω) : Heap (Traced ω) where
  allocator := h.allocator.traced
  blocks := h.blocks.map fun entry => (entry.1, entry.2.traced)
  fresh := h.fresh

def CompressSession.traced (s : CompressSession ω) : CompressSession (Traced ω) where
  engine := ⟨s.engine.stream, s.engine.heap.traced, s.engine.housekeeping⟩
  input := s.input.traced
  output := s.output.traced

def Compressor.traced (c : Compressor ω) : Compressor (Traced ω) :=
  { c with allocator := c.allocator.traced }

theorem CompressSession.of_acquire [Journal ω] [Manner] {o : Options} {a : Allocator ω} {w w' : ω}
    {session : CompressSession ω} (h : acquire o a w = (.ok session, w')) :
    o.Accepted ∧ session.engine.stream = { coder := .start o.settings } := by
  rw [acquire, Engine.acquireEncoder] at h
  split at h
  · cases h
  · next engine w₁ hengine =>
      have hsession : session.engine = engine := by
        split at h
        · cases h
        · split at h <;> cases h
          rfl
      split at hengine
      · next hpreset =>
          obtain ⟨encoder, hencoder, hstream⟩ := Engine.stream_of_acquire hengine
          rw [Engine.encoderFor] at hencoder
          split at hencoder <;> cases hencoder
          next hok => exact ⟨⟨hpreset, hok.1, hok.2⟩, by rw [hsession, hstream]; rfl⟩
      · cases hengine

namespace Compressor

open Record

variable [Channel ω] [Provident]

/-- The bytes that the sink takes in the course of a run, in order. -/
def written (c : Compressor ω) (w : ω) : List UInt8 :=
  match CompressSession.acquire c.options c.allocator w with
  | (.error _, _) => []
  | (.ok session, w) =>
      accepted (c.traced.emit session.traced c.state (⟨w, []⟩ : Traced ω)).2.2.deeds

omit [Provident] in
theorem emit_ok {c : Compressor (Traced ω)} {session : CompressSession (Traced ω)} {t : Traced ω}
    {state₀ state : CompressState} {l : Line (Traced ω)}
    (hstream : session.engine.stream = { coder := .start c.options.settings })
    (h : c.emit session state₀ t = (.ok (), state, l)) :
    ∃ data more s, l.taken = data.length ∧ session.engine.stream.Emits data more s ∧
      s.stage = .ended ∧
      accepted l.deeds = accepted t.deeds ++ (c.options.header.toBytes ++ more) ∧
      more = payload c.options.coding c.options.dictSize.toNat
        (symbolsFor c.options.settings data.toArray) := by
  rw [emit] at h
  split at h
  · cases h
  · dsimp only at h
    split at h
    · cases h
    · next l₁ hpush =>
        obtain ⟨data, more, s, hcounted, hmore, hemits, hend, hall⟩ := Encoding.run_ok h
        have hserves (rest : List UInt8) :
            session.engine.stream.Serves c.options.settings ([] ++ rest) rest [] := by
          rw [hstream]
          exact ⟨rfl, rfl, .start _ _⟩
        have hpayload := hall hserves
        rw [List.nil_append, List.nil_append] at hpayload
        have htaken := Line.taken_push (({ world := t } : Line (Traced ω)).note
          (.compressionStarting c.options.header c.options.level)) c.options.header.toBytes
        rw [hpush] at htaken
        refine ⟨data, more, s, by rw [hcounted, htaken]; exact Nat.zero_add _, hemits, hend, ?_,
          hpayload⟩
        rw [hmore, Line.accepted_push hpush, Line.accepted_note, List.append_assoc]
        rfl

/-- A run that succeeds has written the stream that its options ask for, of some data. -/
theorem written_of_run {c : Compressor ω} {w : ω} (h : (c.run w).1 = .ok ()) :
    c.options.Accepted ∧ ∃ data, c.written w = c.options.stream data := by
  rw [run] at h
  split at h
  · rw [drive_eq] at h
    rw [written]
    rcases hacquire : CompressSession.acquire c.options c.allocator w with ⟨e | session, w₁⟩
    · rw [hacquire] at h
      cases h
    · rw [hacquire] at h
      obtain ⟨hok, hstream⟩ := CompressSession.of_acquire hacquire
      obtain ⟨hresult, -⟩ := emit_alike Traced.channel_alike
        (show c.traced.options = c.options from rfl)
        (show session.traced.engine.stream = session.engine.stream from rfl) rfl c.state
        (show Traced.Erases ⟨w₁, []⟩ w₁ from rfl)
      dsimp only at h
      rcases hemit : c.emit session c.state w₁ with ⟨_ | _, state, l⟩
      · rw [hemit] at h
        cases h
      · rcases htraced : c.traced.emit session.traced c.state (⟨w₁, []⟩ : Traced ω) with
          ⟨result, state', l'⟩
        rw [hemit, htraced] at hresult
        obtain rfl : result = .ok () := hresult
        obtain ⟨data, more, -, -, -, -, hdata, rfl⟩ := emit_ok hstream htraced
        refine ⟨hok, data, ?_⟩
        show accepted (c.traced.emit session.traced c.state (⟨w₁, []⟩ : Traced ω)).2.2.deeds = _
        rw [htraced]
        exact hdata
  · cases h

end Compressor

/-! ## What is accepted -/

namespace Options.Accepted

variable {o : Options}

theorem le_dictSize (h : o.Accepted) : 4096 ≤ o.dictSize.toNat := by
  have hsupported := h.dictSize
  rw [encoderDictSupported, Bool.and_eq_true, decide_eq_true_eq] at hsupported
  exact hsupported.1

/-- Of the options that an encoder can be set up for, only the dictionary's size matters. -/
theorem parse_stream (h : o.Accepted) (data : List UInt8) :
    Header.parse ((o.stream data).take headerSize) =
      if maxDictSize < o.dictSize then .error (.corruptHeader "dictionary size above 256 MiB")
      else .ok o.header.readBack := by
  have hs : o.header.coding.Supported := h.coding
  rw [Options.stream, List.take_left' o.header.length_toBytes, Header.parse_toBytes_eq hs.packable]
  rfl

/-- A stream with too large a dictionary is refused by its header. -/
theorem extraction_of_large (h : o.Accepted) (hdict : maxDictSize < o.dictSize)
    (data : List UInt8) (ending : Ending) :
    Extraction.of (o.stream data) ending =
      { result := .error (.corruptHeader "dictionary size above 256 MiB"), header := none } := by
  apply Extraction.of_error
  rw [Header.ofStream_of_le (o.headerSize_le_stream data), h.parse_stream, if_pos hdict]

end Options.Accepted

namespace Compressor

section

variable [Channel ω] [Provident] {c : Compressor ω} {w : ω}

/--
What a run has written is accepted if its options ask for a dictionary of at most 256 MiB: its
header is read, a decoder is set up for it where memory is granted, and no run over it fails.
With a larger dictionary, which the encoder takes up to 1.5 GiB, no header can be read from it
and every run over it fails.
-/
theorem written_accepted (h : (c.run w).1 = .ok ()) :
    (c.options.dictSize ≤ maxDictSize →
      ∃ header d, Header.parse ((c.written w).take headerSize) = .ok header ∧
        Engine.decoderFor header = .ok d ∧
        (∀ {ω' : Type} [Channel ω'] [Fair ω'] (a : Allocator ω') (w' : ω') (s : Scene), a.Grants →
          Fair.scene w' = some s →
          ∃ engine w'', Engine.acquireDecoder header a w' = (.ok engine, w'')) ∧
        Decompressor.EveryRun (c.written w) .ended fun result _ _ => result = .ok ()) ∧
      (maxDictSize < c.options.dictSize →
        Header.parse ((c.written w).take headerSize) =
          .error (.corruptHeader "dictionary size above 256 MiB") ∧
        Decompressor.EveryRun (c.written w) .ended fun result header out =>
          result = .error (.corruptHeader "dictionary size above 256 MiB") ∧ header = none ∧
            out = []) := by
  obtain ⟨hok, data, hdata⟩ := written_of_run h
  rw [hdata, hok.parse_stream]
  constructor
  · intro hdict
    have hdecoder := Engine.decoderFor_ok (h := c.options.header.readBack) hok.coding
    refine ⟨c.options.header.readBack, _, if_neg (UInt32.not_lt.mpr hdict), hdecoder, ?_, ?_⟩
    · intro ω' _ _ a w' s ha hw'
      obtain ⟨heap, w'', hacquire, -⟩ := Engine.acquire_ok ha.lends hw'
        (DecompressSession.provident c.options.header.readBack)
        (Decoder.start c.options.header.readBack.coding
          (dictionarySize c.options.header.readBack.dictSize.toNat))
      exact ⟨_, w'', by rw [Engine.acquireDecoder, hdecoder, hacquire]⟩
    · apply Decompressor.everyRun_of
      intro out _ _
      rw [Extraction.of_options hok.coding hok.le_dictSize (UInt32.le_iff_toNat_le.mp hdict)]
  · intro hdict
    refine ⟨if_pos hdict, ?_⟩
    apply Decompressor.everyRun_of
    intro out hout _
    rw [hok.extraction_of_large hdict] at hout ⊢
    exact ⟨rfl, rfl, List.prefix_nil.mp hout⟩

end

theorem written_accepted_of_chunks :
    let c : Compressor (Exchange ScriptedSource ScriptedSink Unit) :=
      { options := { lc := 0, lp := 4, pb := 1, dictSize := 5000 } }
    let w := Exchange.ofBytes 2 [97, 98, 97, 98, 97] ()
    (c.run w).1 = .ok () ∧
      ∃ header d, Header.parse ((c.written w).take headerSize) = .ok header ∧
        Engine.decoderFor header = .ok d ∧
        Decompressor.EveryRun (c.written w) .ended fun result _ _ => result = .ok () := by
  intro c w
  have hrun : (c.run w).1 = .ok () := by
    obtain ⟨c', w', ending, hrun, -⟩ := run_spec (c := c) rfl Allocator.grants_standard (by decide)
      (by decide) (by decide) rfl (Exchange.scene_ofBytes 2 [97, 98, 97, 98, 97] () (by decide))
    rw [hrun]
  obtain ⟨header, d, hparse, hdecoder, -, hevery⟩ := (written_accepted hrun).1 (by decide)
  exact ⟨hrun, header, d, hparse, hdecoder, hevery⟩

/-- With one byte more than 256 MiB of dictionary a run succeeds, and no one reads what it wrote. -/
theorem written_refused :
    let c : Compressor (Exchange ScriptedSource ScriptedSink Unit) :=
      { options := { level := .fastest, dictSize := 268435457 } }
    let w := Exchange.ofBytes 3 [97, 98, 99] ()
    (c.run w).1 = .ok () ∧
      Header.parse ((c.written w).take headerSize) =
        .error (.corruptHeader "dictionary size above 256 MiB") ∧
      Decompressor.EveryRun (c.written w) .ended fun result _ _ =>
        result = .error (.corruptHeader "dictionary size above 256 MiB") := by
  intro c w
  have hrun : (c.run w).1 = .ok () := by
    obtain ⟨c', w', ending, hrun, -⟩ := run_spec (c := c) rfl Allocator.grants_standard (by decide)
      (by decide) (by decide) rfl (Exchange.scene_ofBytes 3 [97, 98, 99] () (by decide))
    rw [hrun]
  have hdict : maxDictSize < c.options.dictSize := by decide
  obtain ⟨hok, data, hdata⟩ := written_of_run hrun
  rw [hdata, hok.parse_stream, if_pos hdict]
  refine ⟨hrun, rfl, Decompressor.everyRun_of fun out _ _ => ?_⟩
  rw [hok.extraction_of_large hdict]

end Compressor

end Lzma
