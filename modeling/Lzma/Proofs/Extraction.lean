import Lzma.Proofs.Hosting
import Lzma.Proofs.Pumping

/-!
# What a stream comes to

`Extraction.of` tells what a decompression run makes of the bytes of a stream,
without a run: the header is the first thirteen of them, and the payload is
decoded in one piece. It knows nothing of reads, chunks, buffers or rooms, so
whatever is proved of it holds of every way the bytes may arrive.

Main statement: in a fair world, with an allocator that grants its requests, a
run has this result and this header, and delivers this output, or a part of it
if the payload is malformed (`Decompressor.run_spec`).
-/

namespace Lzma

/-- The header at the start of a stream. -/
def Header.ofStream (bytes : List UInt8) (ending : Ending) : Except Error Header :=
  if bytes.length < headerSize then
    .error (.input (match ending with
      | .ended => .shortHeader bytes.length headerSize
      | .failure e => e))
  else parse (bytes.take headerSize)

theorem Header.ofStream_of_lt {bytes : List UInt8} (h : bytes.length < headerSize)
    (ending : Ending) :
    ofStream bytes ending = .error (.input (match ending with
      | .ended => .shortHeader bytes.length headerSize
      | .failure e => e)) := by
  simp only [ofStream]
  rw [if_pos h]

theorem Header.ofStream_of_le {bytes : List UInt8} (h : headerSize ≤ bytes.length)
    (ending : Ending) : ofStream bytes ending = parse (bytes.take headerSize) := by
  simp only [ofStream]
  rw [if_neg (Nat.not_lt.mpr h)]

/-- What the bytes of a stream come to. -/
structure Extraction where
  result : Except Error Unit
  header : Option Header
  output : List UInt8 := []
  /-- How many of the bytes it takes to get there. -/
  extent : Nat := 0

/-- The extraction of some bytes, the last before the source ends or fails. -/
def Extraction.of (bytes : List UInt8) (ending : Ending) : Extraction :=
  match Header.ofStream bytes ending with
  | .error e => { result := .error e, header := none }
  | .ok header =>
      match Engine.decoderFor header with
      | .error fault =>
          { result := .error (.decompress fault.toIoError), header := some header }
      | .ok decoder =>
          let p := decoder.whole (bytes.drop headerSize)
          { result := p.outcome.result ending
            header := some header
            output := p.output
            extent := headerSize + p.used }

theorem Extraction.of_error {bytes : List UInt8} {ending : Ending} {e : Error}
    (h : Header.ofStream bytes ending = .error e) :
    of bytes ending = { result := .error e, header := none } := by
  rw [of, h]

theorem Extraction.of_refused {bytes : List UInt8} {ending : Ending} {header : Header}
    {fault : Fault} (h : Header.ofStream bytes ending = .ok header)
    (hdecoder : Engine.decoderFor header = .error fault) :
    of bytes ending =
      { result := .error (.decompress fault.toIoError), header := some header } := by
  rw [of, h]
  dsimp only
  rw [hdecoder]

theorem Extraction.of_ok {bytes : List UInt8} {ending : Ending} {header : Header}
    {decoder : Decoder} (h : Header.ofStream bytes ending = .ok header)
    (hdecoder : Engine.decoderFor header = .ok decoder) :
    of bytes ending =
      { result := (decoder.whole (bytes.drop headerSize)).outcome.result ending
        header := some header
        output := (decoder.whole (bytes.drop headerSize)).output
        extent := headerSize + (decoder.whole (bytes.drop headerSize)).used } := by
  rw [of, h]
  dsimp only
  rw [hdecoder]

/-- The extraction of a whole header and a payload. -/
theorem Extraction.of_parsed (bytes : List UInt8) {header : Header} {d : Decoder}
    (hle : headerSize ≤ bytes.length)
    (hparse : Header.parse (bytes.take headerSize) = .ok header)
    (hdecoder : Engine.decoderFor header = .ok d) (ending : Ending) :
    of bytes ending =
      { result := (d.whole (bytes.drop headerSize)).outcome.result ending
        header := some header
        output := (d.whole (bytes.drop headerSize)).output
        extent := headerSize + (d.whole (bytes.drop headerSize)).used } :=
  of_ok (by rw [Header.ofStream_of_le hle, hparse]) hdecoder

/-- Only a malformed payload may keep a part of its output back. -/
def Extraction.Settled (x : Extraction) : Prop := ∀ e, x.result ≠ .error (.decompress e)

theorem Engine.view_decoderFor {h : Header} {d : Decoder} (hd : decoderFor h = .ok d) :
    d.view = .wants := by
  rw [decoderFor] at hd
  split at hd <;> cases hd
  rfl

namespace Decompressor

variable {ω : Type} [Channel ω] [Fair ω]

theorem readHeader_spec {l : Line ω} {bytes : List UInt8} {ending : Ending} {total : Nat}
    (hl : l.Along total ⟨bytes, some ending, []⟩) :
    ∃ l' ending', readHeader l = (Header.ofStream bytes ending, l') ∧
      l'.Along total ⟨bytes.drop headerSize, ending', []⟩ ∧
      (headerSize ≤ bytes.length → ending' = some ending) := by
  by_cases hlt : bytes.length < headerSize
  · obtain ⟨l', ending', hgather, hl'⟩ :=
      hl.gather_short (List.replicate headerSize 0) (by simpa using hlt)
    refine ⟨l', ending', ?_, ?_, fun hle => absurd hle (Nat.not_le.mpr hlt)⟩
    · rw [readHeader, hgather, Header.ofStream_of_lt hlt]
      cases ending with
      | ended => exact if_pos hlt
      | failure e => rfl
    · rwa [List.drop_eq_nil_of_le (Nat.le_of_lt hlt)]
  · have hle := Nat.le_of_not_lt hlt
    obtain ⟨l', hgather, hl'⟩ :=
      hl.gather (List.replicate headerSize 0) (by simpa using hle)
    rw [List.length_replicate] at hgather hl'
    refine ⟨l', some ending, ?_, hl', fun _ => rfl⟩
    rw [readHeader, hgather, Header.ofStream_of_le hle]
    refine if_neg ?_
    rw [List.length_take, Nat.min_eq_left hle]
    omega

theorem extract_spec {a : Allocator ω} (ha : a.Grants) {session : DecompressSession ω}
    {d : Decoder} (hs : session.For a d) (hwants : d.view = .wants) {l : Line ω} {total : Nat}
    {ahead : List UInt8} {ending : Ending} (hl : l.Along total ⟨ahead, some ending, []⟩) :
    ∃ l' state rest ending' out,
      extract session DecompressState.allocated l =
        ((d.whole ahead).outcome.result ending, state, l') ∧
      l'.Along total ⟨rest, ending', out⟩ ∧ out <+: (d.whole ahead).output ∧
      ((d.whole ahead).outcome ≠ .corrupt → out = (d.whole ahead).output) ∧
      (d.whole ahead).used + rest.length ≤ ahead.length := by
  have hstaging : 0 < (Staging.ofList session.input.buffer.bytes).size := by
    rw [session.input.size_staging, hs.inputSize]
    decide
  have hroom : 0 < session.output.size := by
    rw [hs.outputSize]
    decide
  have hinner : ({ l with world := { world := l.world, stream := session.engine.stream } } :
      Line (Decoding ω)).Beside { coder := d } total ⟨ahead, some ending, []⟩ :=
    ⟨⟨hl.scene, hl.taken, hl.given⟩, hs.stream⟩
  obtain ⟨l', state, t', rest, ending', out, hrun, hl', hprefix, hall, hused⟩ :=
    Pump.run_spec hroom hstaging .allocated hinner rfl hwants
  refine ⟨{ l' with world := session.release l'.world.world }, state, rest, ending', out, ?_,
    ⟨hs.release ha.lends hl'.along.scene, hl'.along.taken, hl'.along.given⟩, hprefix, hall, hused⟩
  rw [extract_eq hs.housekeeping, DecompressSession.pump, hrun]
  rfl

variable [Provident]

theorem drive_spec {a : Allocator ω} (ha : a.Grants) {w : ω} {bytes : List UInt8}
    {ending : Ending} (hw : Fair.scene w = some ⟨bytes, some ending, []⟩) :
    ∃ state l rest ending' out,
      ({ allocator := a } : Decompressor ω).drive w =
        ((Extraction.of bytes ending).result, state, (Extraction.of bytes ending).header, l) ∧
      l.Along bytes.length ⟨rest, ending', out⟩ ∧ out <+: (Extraction.of bytes ending).output ∧
      ((Extraction.of bytes ending).Settled → out = (Extraction.of bytes ending).output) ∧
      (headerSize ≤ bytes.length → (Extraction.of bytes ending).extent ≤ l.taken) := by
  obtain ⟨l₁, ending₁, hheader, hl₁, hending⟩ := readHeader_spec (Line.Along.start hw)
  cases hparse : Header.ofStream bytes ending with
  | error e =>
      rw [Extraction.of_error hparse]
      refine ⟨.created, l₁, _, ending₁, [], ?_, hl₁, List.nil_prefix, fun _ => rfl,
        fun _ => Nat.zero_le _⟩
      rw [drive, follow, hheader, hparse]
  | ok header =>
      have hle : headerSize ≤ bytes.length := by
        apply Nat.le_of_not_lt
        intro hlt
        rw [Header.ofStream_of_lt hlt] at hparse
        cases hparse
      obtain rfl := hending hle
      have hl₂ := hl₁.note (.decompressionStarting header)
      cases hdecoder : Engine.decoderFor header with
      | error fault =>
          rw [Extraction.of_refused hparse hdecoder]
          obtain ⟨w', hacquire, hw'⟩ := DecompressSession.acquire_error ha.lends hl₂.scene hdecoder
          refine ⟨.headerRead, { l₁.note (.decompressionStarting header) with world := w' }, _,
            some ending, [], ?_, ⟨hw', hl₂.taken, hl₂.given⟩,
            List.nil_prefix, fun _ => rfl, fun _ => Nat.zero_le _⟩
          rw [drive, follow, hheader, hparse]
          dsimp only
          rw [hacquire]
          rfl
      | ok decoder =>
          rw [Extraction.of_ok hparse hdecoder]
          obtain ⟨session, w₂, hacquire, hs, hw₂⟩ :=
            DecompressSession.acquire_ok ha.lends hl₂.scene hdecoder
          obtain ⟨l', state, rest, ending', out, hextract, hl', hprefix, hall, hused⟩ :=
            extract_spec ha hs (Engine.view_decoderFor hdecoder)
              (l := { l₁.note (.decompressionStarting header) with world := w₂ })
              ⟨hw₂, hl₂.taken, hl₂.given⟩
          refine ⟨state, l', rest, ending', out, ?_, hl', hprefix, ?_, fun _ => ?_⟩
          · rw [drive, follow, hheader, hparse]
            dsimp only
            rw [hacquire]
            dsimp only
            erw [hextract]
          · intro hsettled
            refine hall fun hcorrupt => hsettled Fault.corruptData.toIoError ?_
            dsimp only
            rw [hcorrupt]
            rfl
          · have htaken := hl'.taken
            rw [List.length_drop] at hused
            dsimp only at htaken ⊢
            omega

/-- A run comes to what the bytes of its stream come to. -/
theorem run_spec {a : Allocator ω} (ha : a.Grants) {w : ω} {bytes : List UInt8} {ending : Ending}
    (hw : Fair.scene w = some ⟨bytes, some ending, []⟩) :
    ∃ c w' rest ending' out,
      ({ allocator := a } : Decompressor ω).run w = ((Extraction.of bytes ending).result, c, w') ∧
      Fair.scene w' = some ⟨rest, ending', out⟩ ∧
      c.header = (Extraction.of bytes ending).header ∧
      c.totalIn + rest.length = bytes.length ∧ c.totalOut = out.length ∧
      out <+: (Extraction.of bytes ending).output ∧
      ((Extraction.of bytes ending).Settled → out = (Extraction.of bytes ending).output) ∧
      (headerSize ≤ bytes.length → (Extraction.of bytes ending).extent ≤ c.totalIn) := by
  obtain ⟨state, l, rest, ending', out, hdrive, hl, hprefix, hall, hextent⟩ := drive_spec ha hw
  rw [run, if_pos rfl, hdrive]
  dsimp only
  cases hres : (Extraction.of bytes ending).result with
  | ok =>
      exact ⟨_, _, rest, ending', out, rfl, Fair.scene_note _ hl.scene, rfl, hl.taken, hl.given,
        hprefix, hall, hextent⟩
  | error e =>
      exact ⟨_, _, rest, ending', out, rfl, Fair.scene_note _ hl.scene, rfl, hl.taken, hl.given,
        hprefix, hall, hextent⟩

/-- So it goes in every fair world that has these bytes to give, however it gives them. -/
def EveryRun (bytes : List UInt8) (ending : Ending)
    (P : Except Error Unit → Option Header → List UInt8 → Prop) : Prop :=
  ∀ (ω : Type) [Channel ω] [Fair ω] [Provident] (a : Allocator ω) (w : ω), a.Grants →
    Fair.scene w = some ⟨bytes, some ending, []⟩ →
    ∃ result c w' s, ({ allocator := a } : Decompressor ω).run w = (result, c, w') ∧
      Fair.scene w' = some s ∧ P result c.header s.delivered

omit [Provident] in
theorem everyRun_of {bytes : List UInt8} {ending : Ending}
    {P : Except Error Unit → Option Header → List UInt8 → Prop}
    (h : ∀ out, out <+: (Extraction.of bytes ending).output →
      ((Extraction.of bytes ending).Settled → out = (Extraction.of bytes ending).output) →
      P (Extraction.of bytes ending).result (Extraction.of bytes ending).header out) :
    EveryRun bytes ending P := by
  intro ω _ _ _ a w ha hw
  obtain ⟨c, w', rest, ending', out, hrun, hw', hheader, -, -, hprefix, hall, -⟩ := run_spec ha hw
  exact ⟨_, c, w', _, hrun, hw', by rw [hheader]; exact h out hprefix hall⟩

end Decompressor

end Lzma
