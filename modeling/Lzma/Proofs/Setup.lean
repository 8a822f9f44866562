import Lzma.Proofs.Bookkeeping
import Lzma.Proofs.Placement
import Lzma.Proofs.Requests
import Lzma.Proofs.RoundTrip
import Lzma.Proofs.SinkFault

/-!
# Setting up a run

All that a run needs is at hand before the first byte is written, and a compressor has it before
the first byte is read. So a set-up that fails leaves source and sink as they were, but for the
header that a decompressor has to know first (`Compressor.setup`, `Decompressor.setup`).

What a set-up comes to was found from its own record of dealings. A whole run's record is longer,
but from the first call of its loops on nothing is asked for any more (`Dealt`).

Of the memory itself a run can tell nothing but whether it was granted, as long as the source has
placed what it reports. Its worlds may differ in their memory without end (`Exchange.Twins`), and
the buffer that a source reads into may hold anything: a chunk is looked at only as far as the
read reports, and that far it was placed by the source. A source that reports more than it has
placed hands on what the buffer held before, and what that was shows in the stream
(`Compressor.run_filled`). Two runs over such a source are compared for buffers that hold the same.
-/

namespace Lzma

open Record

variable {ω κ : Type}

/-! ## The dealings of whole runs -/

/-- What a record of dealings shows of requests, which giving back adds nothing to. -/
structure Dealt (all : Prop) (buffers : List Buffer) (t : Audited ω) : Prop where
  all : AllGranted t.dealings ↔ all
  buffers : granted t.dealings = buffers

namespace Dealt

variable {all : Prop} {buffers : List Buffer} {t : Audited ω}

theorem start (t : Audited ω) : Dealt (AllGranted t.dealings) (granted t.dealings) t :=
  ⟨Iff.rfl, rfl⟩

theorem free (a : Allocator ω) (buffer : Buffer) (t : Audited ω) (h : Dealt all buffers t) :
    Dealt all buffers (a.audited.free buffer t) := by
  refine ⟨?_, ?_⟩
  · show AllGranted (t.dealings ++ [.returned buffer]) ↔ all
    simpa using h.all
  · show granted (t.dealings ++ [.returned buffer]) = buffers
    simpa using h.buffers

theorem keeps [Channel ω] : Channel.Keeps (Dealt (ω := ω) all buffers) where
  note _ _ h := ⟨h.all, h.buffers⟩
  read _ _ h := ⟨h.all, h.buffers⟩
  write _ _ h := ⟨h.all, h.buffers⟩

end Dealt

variable [Channel ω]

section

variable [Provident]

theorem Compressor.dealt {c : Compressor ω} {w : ω} (hfresh : c.isFresh = true)
    {result : Except Error (CompressSession (Audited ω))} {t : Audited ω}
    (h : CompressSession.acquire c.options c.allocator.audited ⟨w, []⟩ = (result, t)) :
    Dealt (AllGranted t.dealings) (granted t.dealings) (c.audited.run ⟨w, []⟩).2.2 := by
  have hdrive : Dealt (AllGranted t.dealings) (granted t.dealings)
      (c.audited.drive ⟨w, []⟩).2.2.world := by
    rw [drive_eq,
      show CompressSession.acquire c.audited.options c.audited.allocator ⟨w, []⟩ = _ from h]
    cases result with
    | error e => exact .start t
    | ok session =>
        exact (CompressSession.served_of_acquire h).keeps_release (Dealt.free c.allocator)
          (CompressSession.housekeeping_of_acquire h).closing
          ((Dealt.keeps.line _).host.emit c.audited session _ (.start t))
  rw [run, if_pos (show c.audited.isFresh = true from hfresh)]
  generalize c.audited.drive ⟨w, []⟩ = p at hdrive ⊢
  obtain ⟨_ | _, state, l⟩ := p <;> exact ⟨hdrive.all, hdrive.buffers⟩

/-- How a run's set-up ends: in `w₁`, with all granted or not. -/
structure Compressor.SetUp (c : Compressor ω) (w : ω) (I : ω → Prop) (all : Bool)
    (result : Except Error (CompressSession ω)) (w₁ : ω) : Prop where
  acquired : CompressSession.acquire c.options c.allocator w = (result, w₁)
  comes : CompressSession.Comes c.options all result
  granted : AllGranted (c.dealings w) ↔ all = true
  leaves : all = true → I w₁
  input (s : CompressSession ω) : result = .ok s →
    s.input.buffer ∈ Lzma.granted (c.dealings w)

theorem Compressor.setUp {c : Compressor ω} {w : ω} {I : ω → Prop} (hfresh : c.isFresh = true)
    (ha : c.allocator.Leaves I) (hw : I w) : ∃ all result w₁, c.SetUp w I all result w₁ := by
  rcases hacquire : CompressSession.acquire c.options c.allocator.audited ⟨w, []⟩ with ⟨result, t⟩
  obtain ⟨all, hasked, hcomes⟩ := CompressSession.comes_of_acquire ha hacquire
  have hdealt := dealt hfresh hacquire
  have hgranted := hdealt.all.trans hasked.granted_iff
  have hleaves (hall : all = true) : I t.world := hasked.leaves hall hw
  have hstart : Audited.Erases ⟨w, []⟩ w := rfl
  cases result with
  | error e =>
      obtain ⟨w₁, hplain, rfl⟩ := c.allocator.audited_lockstep.compress_error hstart hacquire
      exact ⟨all, .error e, t.world, hplain, hcomes.error, hgranted, hleaves, by simp⟩
  | ok s =>
      obtain ⟨s₁, w₁, hplain, halike, rfl⟩ :=
        c.allocator.audited_lockstep.compress_ok hstart hacquire
      have hheld : s.input.buffer ∈ granted t.dealings := by
        refine (CompressSession.custody hacquire).accounted.mem_iff.mpr ?_
        simp [held]
      refine ⟨all, .ok s₁, t.world, hplain, hcomes.ok halike.engine.stream, hgranted, hleaves, ?_⟩
      rintro _ ⟨⟩
      have hbuffer : s.input.buffer = s₁.input.buffer := halike.input
      rw [dealings, hdealt.buffers, ← hbuffer]
      exact hheld

theorem Decompressor.dealt {c : Decompressor ω} {w : ω} (hfresh : c.state = .created)
    {header : Header} {l : Line (Audited ω)}
    (hheader : readHeader ({ world := ⟨w, []⟩ } : Line (Audited ω)) = (.ok header, l))
    {result : Except Error (DecompressSession (Audited ω))} {t : Audited ω}
    (h : DecompressSession.acquire header c.allocator.audited
      (l.note (.decompressionStarting header)).world = (result, t)) :
    Dealt (AllGranted t.dealings) (granted t.dealings) (c.audited.run ⟨w, []⟩).2.2 := by
  have hdrive : Dealt (AllGranted t.dealings) (granted t.dealings)
      (c.audited.drive ⟨w, []⟩).2.2.2.world := by
    rw [drive_eq, hheader]
    dsimp only
    rw [show DecompressSession.acquire header c.audited.allocator _ = _ from h]
    cases result with
    | error e => exact .start t
    | ok session =>
        exact (DecompressSession.served_of_acquire h).keeps_release (Dealt.free c.allocator)
          (DecompressSession.housekeeping_of_acquire h).closing
          ((Dealt.keeps.line _).host.pump session .allocated
            (l := { l.note (.decompressionStarting header) with world := t }) (.start t))
  rw [run, if_pos (show c.audited.state = .created from hfresh)]
  generalize c.audited.drive ⟨w, []⟩ = p at hdrive ⊢
  obtain ⟨_ | _, state, header, l⟩ := p <;> exact ⟨hdrive.all, hdrive.buffers⟩

omit [Provident] in
/-- Reading a header is no dealing with memory. -/
theorem Decompressor.readHeader_audited {w : ω} {result : Except Error Header} {l : Line ω}
    (h : readHeader ({ world := w } : Line ω) = (result, l)) :
    ∃ l', readHeader ({ world := ⟨w, []⟩ } : Line (Audited ω)) = (result, l') ∧
      l'.Alike Audited.Erases l ∧ l'.world.dealings = [] := by
  have hkeeps : Channel.Keeps fun t : Audited ω => t.dealings = [] :=
    ⟨fun _ _ ht => ht, fun _ _ ht => ht, fun _ _ ht => ht⟩
  have hdealings : (readHeader ({ world := ⟨w, []⟩ } : Line (Audited ω))).2.world.dealings = [] :=
    (hkeeps.line 0).readHeader rfl
  have hstart : ({ world := ⟨w, []⟩ } : Line (Audited ω)).Alike Audited.Erases { world := w } :=
    Line.alike_start rfl
  rcases readHeader_lockstep Audited.channel_alike.lockstep hstart with ⟨hresult, hl⟩ |
    ⟨_, -, hnever⟩
  · rw [h] at hresult hl
    exact ⟨_, Prod.ext hresult rfl, hl, hdealings⟩
  · exact hnever.elim

/-- The same behind a header that was read in full. -/
structure Decompressor.SetUp (c : Decompressor ω) (w : ω) (header : Header) (l : Line ω)
    (I : ω → Prop) (all : Bool) (result : Except Error (DecompressSession ω)) (w₁ : ω) :
    Prop where
  acquired : DecompressSession.acquire header c.allocator
    (l.note (.decompressionStarting header)).world = (result, w₁)
  comes : DecompressSession.Comes header all result
  granted : AllGranted (c.dealings w) ↔ all = true
  leaves : all = true → I w₁
  input (s : DecompressSession ω) : result = .ok s →
    s.input.buffer ∈ Lzma.granted (c.dealings w)

theorem Decompressor.setUp {c : Decompressor ω} {w : ω} {I : ω → Prop}
    (hfresh : c.state = .created) (ha : c.allocator.Leaves I) {header : Header} {l : Line ω}
    (hheader : readHeader ({ world := w } : Line ω) = (.ok header, l))
    (hw : I (l.note (.decompressionStarting header)).world) :
    ∃ all result w₁, c.SetUp w header l I all result w₁ := by
  obtain ⟨l', hheader', hl, hnone⟩ := readHeader_audited hheader
  have hstart : (l'.note (.decompressionStarting header)).world =
      ⟨(l.note (.decompressionStarting header)).world, []⟩ := by
    obtain ⟨⟨world, dealings⟩, taken, given⟩ := l'
    obtain rfl : dealings = [] := hnone
    obtain rfl : world = l.world := hl.world
    rfl
  rcases hacquire : DecompressSession.acquire header c.allocator.audited
    (l'.note (.decompressionStarting header)).world with ⟨result, t⟩
  have hdealt := dealt hfresh hheader' hacquire
  rw [hstart] at hacquire
  obtain ⟨all, hasked, hcomes⟩ := DecompressSession.comes_of_acquire ha hacquire
  have hgranted := hdealt.all.trans hasked.granted_iff
  have hleaves (hall : all = true) : I t.world := hasked.leaves hall hw
  have hstart : Audited.Erases ⟨(l.note (.decompressionStarting header)).world, []⟩
      (l.note (.decompressionStarting header)).world := rfl
  cases result with
  | error e =>
      obtain ⟨w₁, hplain, rfl⟩ := c.allocator.audited_lockstep.decompress_error hstart hacquire
      exact ⟨all, .error e, t.world, hplain, hcomes.error, hgranted, hleaves, by simp⟩
  | ok s =>
      obtain ⟨s₁, w₁, hplain, halike, rfl⟩ :=
        c.allocator.audited_lockstep.decompress_ok hstart hacquire
      have hheld : s.input.buffer ∈ granted t.dealings := by
        refine (DecompressSession.custody .start hacquire).accounted.mem_iff.mpr ?_
        simp [held]
      refine ⟨all, .ok s₁, t.world, hplain, hcomes.ok halike.engine.stream, hgranted, hleaves, ?_⟩
      rintro _ ⟨⟩
      have hbuffer : s.input.buffer = s₁.input.buffer := halike.input
      rw [dealings, hdealt.buffers, ← hbuffer]
      exact hheld

/-! ## Allocators that grant every request -/

omit [Channel ω] [Provident] in
theorem Allocator.Granting.lends_audited {a : Allocator ω} (ha : a.Granting) :
    a.audited.Lends fun t => AllGranted t.dealings where
  alloc {t size} ht hsize := by
    obtain ⟨buffer, w, halloc, hle⟩ := ha size t.world hsize
    refine ⟨buffer, ⟨w, t.dealings ++ [.asked size (.ok buffer)]⟩, ?_, hle, ?_⟩
    · rw [alloc_audited, halloc]
    · rw [allGranted_append, allGranted_singleton]
      exact ⟨ht, Nat.not_lt.mpr hle⟩
  free buffer t ht := by
    show AllGranted (t.dealings ++ [.returned buffer])
    simpa using ht

/-- An allocator that grants every request grants those of a run. -/
theorem Compressor.allGranted {c : Compressor ω} (hfresh : c.isFresh = true)
    (ha : c.allocator.Granting) (w : ω) : AllGranted (c.dealings w) := by
  obtain ⟨result, t, hacquire, ht⟩ : ∃ result t,
      CompressSession.acquire c.options c.allocator.audited ⟨w, []⟩ = (result, t) ∧
        AllGranted t.dealings := by
    by_cases hpreset : presetSupported c.options.level.number = true
    · cases hcoder : Engine.encoderFor c.options with
      | error fault =>
          obtain ⟨t, hacquire, ht⟩ := CompressSession.acquire_error ha.lends_audited
            (w := ⟨w, []⟩) allGranted_nil hpreset hcoder
          exact ⟨_, t, hacquire, ht⟩
      | ok e =>
          obtain ⟨s, t, hacquire, -, ht⟩ := CompressSession.acquire_ok ha.lends_audited
            (w := ⟨w, []⟩) allGranted_nil hpreset hcoder
          exact ⟨_, t, hacquire, ht⟩
    · rw [CompressSession.acquire_eq, if_neg hpreset]
      exact ⟨_, _, rfl, allGranted_nil⟩
  exact (dealt hfresh hacquire).all.mpr ht

theorem Decompressor.allGranted {c : Decompressor ω} (hfresh : c.state = .created)
    (ha : c.allocator.Granting) (w : ω) : AllGranted (c.dealings w) := by
  rcases hheader : readHeader ({ world := w } : Line ω) with ⟨e | header, l⟩ <;>
    obtain ⟨l', hheader', -, hnone⟩ := readHeader_audited hheader
  · rw [dealings, run, if_pos (show c.audited.state = .created from hfresh),
      drive_of_error hheader']
    show AllGranted l'.world.dealings
    rw [hnone]
    exact allGranted_nil
  · have hstart : AllGranted (l'.note (.decompressionStarting header)).world.dealings := by
      show AllGranted l'.world.dealings
      rw [hnone]
      exact allGranted_nil
    obtain ⟨result, t, hacquire, ht⟩ : ∃ result t, DecompressSession.acquire header
        c.allocator.audited (l'.note (.decompressionStarting header)).world = (result, t) ∧
          AllGranted t.dealings := by
      cases hcoder : Engine.decoderFor header with
      | error fault =>
          obtain ⟨t, hacquire, ht⟩ :=
            DecompressSession.acquire_error ha.lends_audited hstart hcoder
          exact ⟨_, t, hacquire, ht⟩
      | ok d =>
          obtain ⟨s, t, hacquire, -, ht⟩ :=
            DecompressSession.acquire_ok ha.lends_audited hstart hcoder
          exact ⟨_, t, hacquire, ht⟩
    exact (dealt hfresh hheader' hacquire).all.mpr ht

/-! ## Dealings and calls on record together -/

/-- A world with both records beside it, and one with its dealings alone. -/
def Audited.Matches (u : Audited (Traced ω)) (t : Audited ω) : Prop :=
  u.world.world = t.world ∧ u.dealings = t.dealings

omit [Provident] in
theorem Audited.channel_matches : Channel.Alike (Audited.Matches (ω := ω)) where
  note event u t h := ⟨congrArg (Journal.note event) h.1, h.2⟩
  read room u t h := by
    obtain ⟨⟨world, deeds⟩, dealings⟩ := u
    obtain ⟨rfl, rfl⟩ := h
    exact ⟨rfl, rfl, rfl⟩
  write bytes u t h := by
    obtain ⟨⟨world, deeds⟩, dealings⟩ := u
    obtain ⟨rfl, rfl⟩ := h
    exact ⟨rfl, rfl, rfl⟩

omit [Channel ω] [Provident] in
theorem Allocator.lockstep_matches [Journal ω] (a : Allocator ω) :
    a.traced.audited.Lockstep Audited.Matches Never a.audited := by
  refine lockstep_of_alike ?_ ?_ ?_
  · rintro event ⟨⟨world, deeds⟩, dealings⟩ t ⟨rfl, rfl⟩
    exact ⟨rfl, rfl⟩
  · rintro size ⟨⟨world, deeds⟩, dealings⟩ t ⟨rfl, rfl⟩
    exact ⟨rfl, rfl, rfl⟩
  · rintro buffer ⟨⟨world, deeds⟩, dealings⟩ t ⟨rfl, rfl⟩
    exact ⟨rfl, rfl⟩

theorem Compressor.dealings_traced (c : Compressor ω) (w : ω) :
    c.traced.dealings ⟨w, []⟩ = c.dealings w := by
  have halike : c.traced.audited.Lockstep Audited.Matches Never c.audited :=
    ⟨⟨rfl, rfl, rfl, rfl⟩, c.allocator.lockstep_matches⟩
  have hstart : Audited.Matches ⟨⟨w, []⟩, []⟩ ⟨w, []⟩ := ⟨rfl, rfl⟩
  exact (run_alike Audited.channel_matches halike hstart).2.2.2

theorem Decompressor.dealings_traced (c : Decompressor ω) (w : ω) :
    c.traced.dealings ⟨w, []⟩ = c.dealings w := by
  have halike : c.traced.audited.Lockstep Audited.Matches Never c.audited :=
    ⟨⟨rfl, rfl, rfl, rfl⟩, c.allocator.lockstep_matches⟩
  have hstart : Audited.Matches ⟨⟨w, []⟩, []⟩ ⟨w, []⟩ := ⟨rfl, rfl⟩
  exact (run_alike Audited.channel_matches halike hstart).2.2.2

/-- With all of its memory granted a run is set up as its options ask for it. -/
theorem Compressor.setUp_granted {c : Compressor ω} {w : ω} (hfresh : c.isFresh = true)
    (hall : AllGranted (c.dealings w)) {I : Traced ω → Prop}
    (ha : c.allocator.traced.Leaves I) (hw : I ⟨w, []⟩) :
    ∃ result t, CompressSession.acquire c.traced.options c.traced.allocator ⟨w, []⟩ = (result, t) ∧
      CompressSession.Comes c.traced.options true result ∧ I t ∧
      ∀ s, result = .ok s → s.input.buffer ∈ granted (c.dealings w) := by
  obtain ⟨all, result, t, hsetup⟩ := c.traced.setUp hfresh ha hw
  have hgranted := hsetup.granted
  have hinput := hsetup.input
  rw [dealings_traced] at hgranted hinput
  obtain rfl := hgranted.mp hall
  exact ⟨result, t, hsetup.acquired, hsetup.comes, hsetup.leaves rfl, hinput⟩

theorem Decompressor.setUp_granted {c : Decompressor ω} {w : ω} (hfresh : c.state = .created)
    (hall : AllGranted (c.dealings w)) {I : Traced ω → Prop}
    (ha : c.allocator.traced.Leaves I) {header : Header} {l : Line (Traced ω)}
    (hheader : readHeader ({ world := ⟨w, []⟩ } : Line (Traced ω)) = (.ok header, l))
    (hw : I (l.note (.decompressionStarting header)).world) :
    ∃ result t, DecompressSession.acquire header c.traced.allocator
        (l.note (.decompressionStarting header)).world = (result, t) ∧
      DecompressSession.Comes header true result ∧ I t ∧
      ∀ s, result = .ok s → s.input.buffer ∈ granted (c.dealings w) := by
  obtain ⟨all, result, t, hsetup⟩ := c.traced.setUp hfresh ha hheader hw
  have hgranted := hsetup.granted
  have hinput := hsetup.input
  rw [dealings_traced] at hgranted hinput
  obtain rfl := hgranted.mp hall
  exact ⟨result, t, hsetup.acquired, hsetup.comes, hsetup.leaves rfl, hinput⟩

/-! ## Set-ups that fail -/

/-- Nothing was read and nothing was written. -/
def Record.OnlyNotes (ds : List Deed) : Prop := ∀ d ∈ ds, ∃ event, d = .note event

omit [Provident] in
theorem Record.OnlyNotes.note {ds : List Deed} (h : OnlyNotes ds) (event : Event) :
    OnlyNotes (ds ++ [.note event]) :=
  List.forall_mem_append.mpr ⟨h, List.forall_mem_singleton.mpr ⟨event, rfl⟩⟩

/-- A run that failed before it came to its source and its sink. -/
structure Compressor.Untouched (c : Compressor ω) (w : ω) (e : Error) : Prop where
  result : (c.run w).1 = .error e
  record : OnlyNotes (c.deeds w)
  totals : (c.run w).2.1.totalIn = 0 ∧ (c.run w).2.1.totalOut = 0
  options : (c.run w).2.1.options = c.options
  state : (c.run w).2.1.state = .failed

namespace Compressor

variable {c : Compressor ω} {w : ω}

theorem untouched_of_drive (hfresh : c.isFresh = true) {e : Error} {state : CompressState}
    {t : Traced ω} (hdrive : c.traced.drive ⟨w, []⟩ = (.error e, state, { world := t }))
    (ht : OnlyNotes t.deeds) : c.Untouched w e := by
  obtain ⟨hresult, htotalIn, htotalOut, hdeeds⟩ := run_closed hfresh w
  rw [hdrive] at hresult htotalIn htotalOut hdeeds
  refine ⟨hresult, ?_, ⟨htotalIn, htotalOut⟩, (c.fixed_run w).2, ?_⟩
  · rw [hdeeds]
    exact ht.note _
  · rcases ended_run hfresh w with ⟨hok, -⟩ | ⟨-, hstate⟩
    · rw [hresult] at hok
      cases hok
    · exact hstate

/--
A run whose options are turned down, whose container is not written or whose memory is not
granted has failed before its first call.
-/
theorem setup (hfresh : c.isFresh = true)
    (hfails : ¬c.options.Accepted ∨ c.options.format = .lzip ∨ ¬AllGranted (c.dealings w)) :
    ∃ e, c.Untouched w e ∧ (¬AllGranted (c.dealings w) → e = CompressSession.refused) := by
  obtain ⟨all, result, t, hsetup⟩ := c.traced.setUp (w := ⟨w, []⟩) (I := fun _ => True) hfresh
    ⟨fun _ _ => id, fun _ _ => id⟩ trivial
  have hgranted := hsetup.granted
  rw [dealings_traced] at hgranted
  have hkeeps := c.allocator.keeps_traced (P := OnlyNotes) fun event ds _ hds => hds.note event
  have hnone : OnlyNotes (⟨w, []⟩ : Traced ω).deeds := by simp [OnlyNotes]
  have hnotes := CompressSession.keeps_acquire hkeeps hnone hsetup.acquired
  have hcomes := hsetup.comes
  cases result with
  | error e =>
      have hdrive : c.traced.drive ⟨w, []⟩ = (.error e, c.state, { world := t }) := by
        rw [drive_eq, hsetup.acquired]
        rfl
      refine ⟨e, untouched_of_drive hfresh hdrive hnotes, fun hdenied => ?_⟩
      cases hcomes with
      | rejected hno => exact absurd (hgranted.mpr rfl) hdenied
      | denied => rfl
  | ok s =>
      obtain ⟨hok, hstream⟩ := hcomes
      have hformat : c.traced.options.format = .lzip := by
        rcases hfails with hno | hformat | hdenied
        · exact absurd hok hno
        · exact hformat
        · exact absurd (hgranted.mpr rfl) hdenied
      have hemit : c.traced.emit s c.state t =
          (.error (.unsupportedFormat .lzip), c.state, { world := t }) := by
        rw [emit, hformat]
        rfl
      have hdrive : c.traced.drive ⟨w, []⟩ =
          (.error (.unsupportedFormat .lzip), c.state, { world := s.release t }) := by
        rw [drive_eq, hsetup.acquired]
        dsimp only
        rw [show c.traced.emit s c.traced.state t = _ from hemit]
      refine ⟨_, untouched_of_drive hfresh hdrive ?_, fun hdenied => ?_⟩
      · exact (CompressSession.served_of_acquire hsetup.acquired).keeps_release
          (I := fun t => OnlyNotes t.deeds) (fun _ _ => id)
          (CompressSession.housekeeping_of_acquire hsetup.acquired).closing hnotes
      · exact absurd (hgranted.mpr rfl) hdenied

end Compressor

/-- A run that failed over its header: it has asked for no memory and has written nothing. -/
structure Decompressor.Unopened (c : Decompressor ω) (w : ω) (e : Error) : Prop where
  result : (c.run w).1 = .error e
  dealings : c.dealings w = []
  written : offered (c.deeds w) = [] ∧ (c.run w).2.1.totalOut = 0
  read : (c.run w).2.1.totalIn = received (c.deeds w) ∧ received (c.deeds w) ≤ 13
  header : (c.run w).2.1.header = c.header
  state : (c.run w).2.1.state = .failed

/-- A run that failed behind its header, and has read no more than that. -/
structure Decompressor.Stopped (c : Decompressor ω) (w : ω) (header : Header) (e : IoError) :
    Prop where
  result : (c.run w).1 = .error (.decompress e)
  written : offered (c.deeds w) = [] ∧ (c.run w).2.1.totalOut = 0
  read : (c.run w).2.1.totalIn = 13 ∧ received (c.deeds w) = 13
  header : (c.run w).2.1.header = some header
  state : (c.run w).2.1.state = .failed

namespace Decompressor

variable {c : Decompressor ω} {w : ω}

omit [Provident] in
/-- While a header is read nothing is written. -/
theorem readHeader_offers {result : Except Error Header} {l : Line (Traced ω)}
    (h : readHeader ({ world := ⟨w, []⟩ } : Line (Traced ω)) = (result, l)) :
    offered l.deeds = [] ∧ l.given = 0 := by
  have hpull (room : Nat) {l : Line (Traced ω)} (hl : offered l.deeds = [] ∧ l.given = 0) :
      offered (l.pull room).2.deeds = [] ∧ (l.pull room).2.given = 0 := by
    refine ⟨?_, (l.given_pull room).trans hl.2⟩
    by_cases hroom : room = 0
    · rw [hroom, Line.pull_zero]
      exact hl.1
    · rw [Line.deeds_pull_of_ne hroom]
      simpa using hl.1
  have hkept := readHeader_keeps hpull (l := { world := ⟨w, []⟩ }) ⟨rfl, rfl⟩
  rwa [h] at hkept

theorem state_of_error (hfresh : c.state = .created) {e : Error} (h : (c.run w).1 = .error e) :
    (c.run w).2.1.state = .failed := by
  rcases ended_run hfresh w with ⟨hok, -⟩ | ⟨-, hstate⟩
  · rw [h] at hok
    cases hok
  · exact hstate

theorem header_run (hfresh : c.state = .created) (w : ω) :
    (c.run w).2.1.header = (c.traced.drive ⟨w, []⟩).2.2.1 := by
  have hheader : (c.run w).2.1.header = (c.traced.run ⟨w, []⟩).2.1.header := by
    rw [run_traced]
    rfl
  rw [hheader, run, if_pos (show c.traced.state = .created from hfresh)]
  rcases c.traced.drive ⟨w, []⟩ with ⟨_ | _, state, header, l⟩ <;> rfl

omit [Provident] in
/-- Writing down has no part in what a header comes to. -/
theorem readHeader_traced {result : Except Error Header} {l : Line ω}
    (h : readHeader ({ world := w } : Line ω) = (result, l)) :
    ∃ l', readHeader ({ world := ⟨w, []⟩ } : Line (Traced ω)) = (result, l') ∧
      l'.Alike Traced.Erases l := by
  have hstart : ({ world := ⟨w, []⟩ } : Line (Traced ω)).Alike Traced.Erases { world := w } :=
    Line.alike_start rfl
  rcases readHeader_lockstep Traced.channel_alike.lockstep hstart with ⟨hresult, hl⟩ |
    ⟨_, -, hnever⟩
  · rw [h] at hresult hl
    exact ⟨_, Prod.ext hresult rfl, hl⟩
  · exact hnever.elim

/-- Without a header no memory is asked for. -/
theorem unopened (hfresh : c.state = .created) {e : Error} {l : Line ω}
    (hheader : readHeader ({ world := w } : Line ω) = (.error e, l)) : c.Unopened w e := by
  obtain ⟨hresult, htotalIn, htotalOut, hdeeds⟩ := run_closed hfresh w
  obtain ⟨l', hheader', -⟩ := readHeader_traced hheader
  obtain ⟨l'', hheader'', -, hnone⟩ := readHeader_audited hheader
  obtain ⟨hoffered, hgiven⟩ := readHeader_offers hheader'
  obtain ⟨hle, -, -⟩ := readHeader_told hheader'
  have hbooks := books hfresh w
  have hdrive : c.traced.drive ⟨w, []⟩ = (.error e, c.state, c.header, l') :=
    drive_of_error hheader'
  rw [hdrive] at hresult htotalIn htotalOut hdeeds
  refine ⟨hresult, ?_, ⟨?_, htotalOut.trans hgiven⟩, ⟨hbooks.totalIn, ?_⟩, ?_,
    state_of_error hfresh hresult⟩
  · rw [dealings, run, if_pos (show c.audited.state = .created from hfresh),
      drive_of_error hheader'']
    exact hnone
  · rw [hdeeds, offered_snoc_note]
    exact hoffered
  · rw [← hbooks.totalIn, htotalIn]
    exact hle
  · rw [header_run hfresh, hdrive]

/-- A run whose coder or whose memory is not to be had has read its header and no more. -/
theorem stopped (hfresh : c.state = .created) {header : Header} {l : Line ω}
    (hheader : readHeader ({ world := w } : Line ω) = (.ok header, l))
    (hfails : ¬header.coding.Supported ∨ ¬AllGranted (c.dealings w)) :
    ∃ e, c.Stopped w header e ∧ (¬AllGranted (c.dealings w) → e = .ofKind .outOfMemory) := by
  obtain ⟨hresult, htotalIn, htotalOut, hdeeds⟩ := run_closed hfresh w
  obtain ⟨l', hheader', -⟩ := readHeader_traced hheader
  obtain ⟨hoffered, hgiven⟩ := readHeader_offers hheader'
  obtain ⟨-, -, hwhole⟩ := readHeader_told hheader'
  have hbooks := books hfresh w
  obtain ⟨all, result, t, hsetup⟩ := c.traced.setUp (w := ⟨w, []⟩) (I := fun _ => True) hfresh
    ⟨fun _ _ => id, fun _ _ => id⟩ hheader' trivial
  have hgranted := hsetup.granted
  rw [dealings_traced] at hgranted
  have hkeeps := c.allocator.keeps_traced (P := fun ds => offered ds = [])
    fun event ds _ hds => by simpa using hds
  have hnone : offered (l'.note (.decompressionStarting header)).world.deeds = [] := by
    show offered (l'.deeds ++ [.note (.decompressionStarting header)]) = []
    rw [offered_snoc_note]
    exact hoffered
  have hnotes := DecompressSession.keeps_acquire hkeeps hnone hsetup.acquired
  have hcomes := hsetup.comes
  cases result with
  | error e =>
      obtain ⟨e', rfl, he'⟩ : ∃ e', e = .decompress e' ∧
          (¬AllGranted (c.dealings w) → e' = .ofKind .outOfMemory) := by
        cases hcomes with
        | rejected hno => exact ⟨_, rfl, fun hdenied => absurd (hgranted.mpr rfl) hdenied⟩
        | denied => exact ⟨_, rfl, fun _ => rfl⟩
      have hdrive : c.traced.drive ⟨w, []⟩ = (.error (.decompress e'), .headerRead, some header,
          { l'.note (.decompressionStarting header) with world := t }) := by
        rw [drive_of_ok hheader', unpack, hsetup.acquired]
      rw [hdrive] at hresult htotalIn htotalOut hdeeds
      have htotal : (c.run w).2.1.totalIn = 13 := htotalIn.trans (hwhole header rfl)
      refine ⟨e', ⟨hresult, ⟨?_, htotalOut.trans hgiven⟩, ⟨htotal, ?_⟩, ?_,
        state_of_error hfresh hresult⟩, he'⟩
      · rw [hdeeds, offered_snoc_note]
        exact hnotes
      · rw [← hbooks.totalIn]
        exact htotal
      · rw [header_run hfresh, hdrive]
  | ok s =>
      obtain ⟨hd, -⟩ := hcomes
      rcases hfails with hno | hdenied
      · rw [Engine.decoderFor, if_neg hno] at hd
        cases hd
      · exact absurd (hgranted.mpr rfl) hdenied

end Decompressor

end

/-! ## Memory that is granted -/

section

variable {σ τ μ μ' : Type}

theorem Allocator.Granting.inMemory {a : Allocator μ} (ha : a.Granting) :
    (a.inMemory : Allocator (Exchange σ τ μ)).Granting := by
  intro size w hsize
  obtain ⟨buffer, memory, halloc, hle⟩ := ha size w.memory hsize
  refine ⟨buffer, { w with memory }, ?_, hle⟩
  simp only [Allocator.inMemory, halloc]

/-- Buffers of one size hold the same on both sides. -/
def HeldAlike (ds ds' : List Dealing) : Prop :=
  ∀ b ∈ granted ds, ∀ b' ∈ granted ds', b.size = b'.size → b.bytes = b'.bytes

/-- What is handed out holds one byte throughout, as far as it was asked for. -/
def Allocator.Fills {ω : Type} (a : Allocator ω) (fill : UInt8) : Prop :=
  ∀ size w buffer, (a.alloc size w).1 = .ok buffer →
    (buffer.truncate size).bytes = List.replicate (buffer.truncate size).size fill

namespace Allocator.Fills

variable {ω : Type} {a : Allocator ω} {fill : UInt8}

theorem inMemory {a : Allocator μ} (ha : a.Fills fill) :
    (a.inMemory : Allocator (Exchange σ τ μ)).Fills fill :=
  fun size x => ha size x.memory

theorem request [Journal ω] (ha : a.Fills fill) {size : Nat} {w w' : ω} {b : Block ω}
    (h : a.request size w = (.ok b, w')) : b.buffer.bytes = List.replicate size fill := by
  have hsize : b.buffer.size = size := Allocator.size_of_request h
  rw [Allocator.request] at h
  split at h <;> rename_i halloc
  · cases h
  · split at h <;> cases h
    rw [ha size w _ (by rw [halloc]), hsize]

/-- All that was handed out holds one byte throughout. -/
def Filled (fill : UInt8) (t : Audited ω) : Prop :=
  ∀ b ∈ granted t.dealings, b.bytes = List.replicate b.size fill

theorem keeps_audited [Journal ω] (ha : a.Fills fill) : a.audited.Keeps (Filled fill) where
  note _ ht := ht
  alloc size t ht := by
    have hgranted : granted (a.audited.alloc size t).2.dealings =
        granted t.dealings ++ Dealing.granted (.asked size (a.alloc size t.world).1) := by
      show granted (t.dealings ++ [_]) = _
      simp [granted]
    rw [Filled, hgranted]
    refine List.forall_mem_append.mpr ⟨ht, ?_⟩
    cases halloc : (a.alloc size t.world).1 with
    | error denial => simp
    | ok buffer => simpa using ha size t.world buffer halloc
  free buffer t ht := by
    show Filled fill ⟨a.free buffer t.world, t.dealings ++ [.returned buffer]⟩
    simpa [Filled, granted] using ht

theorem filled_run [Channel ω] [Provident] {c : Compressor ω} (ha : c.allocator.Fills fill)
    (w : ω) : Filled fill (c.audited.run ⟨w, []⟩).2.2 := by
  have hkeeps : Channel.Keeps (Filled fill : Audited ω → Prop) :=
    ⟨fun _ _ ht => ht, fun _ _ ht => ht, fun _ _ ht => ht⟩
  have hstart : Filled fill (⟨w, []⟩ : Audited ω) := by simp [Filled, granted]
  exact Compressor.keeps_run hkeeps ha.keeps_audited hstart

end Allocator.Fills

theorem HeldAlike.of_fills {ω ω' : Type} [Channel ω] [Channel ω'] [Provident] {c : Compressor ω}
    {c' : Compressor ω'} {fill : UInt8} (ha : c.allocator.Fills fill)
    (ha' : c'.allocator.Fills fill) (w : ω) (w' : ω') :
    HeldAlike (c.dealings w) (c'.dealings w') := by
  intro b hb b' hb' hsize
  rw [ha.filled_run w b hb, ha'.filled_run w' b' hb', hsize]

theorem Allocator.fills_standard {ω : Type} : (standard : Allocator ω).Fills 0 := by
  intro size w buffer h
  by_cases hsize : size ≤ maxBufferSize
  · obtain rfl : ({ size } : Buffer) = buffer := by
      simpa [standard, standardAlloc, hsize] using h
    simp [Buffer.bytes, Buffer.first, Buffer.truncate]
  · simp [standard, standardAlloc, hsize] at h

namespace Exchange

/-- The same world with other memory. -/
def holding (x : Exchange σ τ μ) (memory : μ') : Exchange σ τ μ' := { x with memory }

/-- Two worlds on one record that are the same but for their memory. -/
structure Twins (t : Traced (Exchange σ τ μ)) (t' : Traced (Exchange σ τ μ')) : Prop where
  source : t.world.source = t'.world.source
  sink : t.world.sink = t'.world.sink
  events : t.world.events = t'.world.events
  deeds : t.deeds = t'.deeds

theorem twins_start (x : Exchange σ τ μ) (memory : μ') :
    Twins ⟨x, []⟩ ⟨x.holding memory, []⟩ := ⟨rfl, rfl, rfl, rfl⟩

theorem twins_leaves (a : Allocator μ) (t' : Traced (Exchange σ τ μ')) :
    a.inMemory.traced.Leaves fun t => Twins t t' :=
  ⟨fun _ _ h => ⟨h.source, h.sink, h.events, h.deeds⟩,
    fun _ _ h => ⟨h.source, h.sink, h.events, h.deeds⟩⟩

theorem leaves_twins (a : Allocator μ') (t : Traced (Exchange σ τ μ)) :
    a.inMemory.traced.Leaves fun t' => Twins t t' :=
  ⟨fun _ _ h => ⟨h.source, h.sink, h.events, h.deeds⟩,
    fun _ _ h => ⟨h.source, h.sink, h.events, h.deeds⟩⟩

theorem Twins.release {κ : Type} {a : Allocator μ} {a' : Allocator μ'}
    {y : Outfit κ (Traced (Exchange σ τ μ))} {y' : Outfit κ (Traced (Exchange σ τ μ'))}
    (hy : y.Served a.inMemory.traced) (hy' : y'.Served a'.inMemory.traced)
    (hquiet : y.engine.housekeeping.closing.Quiet) (hquiet' : y'.engine.housekeeping.closing.Quiet)
    {t : Traced (Exchange σ τ μ)} {t' : Traced (Exchange σ τ μ')} (h : Twins t t') :
    Twins (y.release t) (y'.release t') := by
  have hleft : Twins (y.release t) t' :=
    hy.keeps_release (I := fun t => Twins t t') (fun buffer _ => (twins_leaves a t').free buffer)
      hquiet h
  exact hy'.keeps_release (fun buffer _ => (leaves_twins a' (y.release t)).free buffer) hquiet'
    hleft

variable [Source σ] [Sink τ]

theorem twins_alike : Channel.Alike
    (Twins : Traced (Exchange σ τ μ) → Traced (Exchange σ τ μ') → Prop) where
  note event t t' h := ⟨h.source, h.sink, congrArg (event :: ·) h.events,
    congrArg (· ++ [.note event]) h.deeds⟩
  read room t t' h := by
    obtain ⟨⟨source, sink, memory, events⟩, deeds⟩ := t
    obtain ⟨⟨source', sink', memory', events'⟩, deeds'⟩ := t'
    obtain ⟨rfl, rfl, rfl, rfl⟩ := h
    exact ⟨rfl, rfl, rfl, rfl, rfl⟩
  write bytes t t' h := by
    obtain ⟨⟨source, sink, memory, events⟩, deeds⟩ := t
    obtain ⟨⟨source', sink', memory', events'⟩, deeds'⟩ := t'
    obtain ⟨rfl, rfl, rfl, rfl⟩ := h
    exact ⟨rfl, rfl, rfl, rfl, rfl⟩

end Exchange

variable [Source σ] [Sink τ] [Provident] {x : Exchange σ τ μ} {memory : μ'}

namespace Compressor

/--
Two handles with the same options, each with all of its memory granted. The source has placed all
that it reports, or else it makes no difference what the buffers held.
-/
structure BothGranted (c : Compressor μ) (c' : Compressor μ') (x : Exchange σ τ μ)
    (memory : μ') : Prop where
  agrees : c.Agrees c'
  left : AllGranted (c.within.dealings x)
  right : AllGranted (c'.within.dealings (x.holding memory))
  contract : Placed (c.within.deeds x) ∨
    HeldAlike (c.within.dealings x) (c'.within.dealings (x.holding memory))

/-- Two runs that do the same and come to the same. -/
structure Concurs (c : Compressor μ) (c' : Compressor μ') (x : Exchange σ τ μ) (memory : μ') :
    Prop where
  result : (c.within.run x).1 = (c'.within.run (x.holding memory)).1
  handle : (c.within.run x).2.1.Agrees (c'.within.run (x.holding memory)).2.1
  deeds : c.within.deeds x = c'.within.deeds (x.holding memory)
  source : (c.within.run x).2.2.source = (c'.within.run (x.holding memory)).2.2.source
  sink : (c.within.run x).2.2.sink = (c'.within.run (x.holding memory)).2.2.sink
  events : (c.within.run x).2.2.events = (c'.within.run (x.holding memory)).2.2.events

/-- The record of a run is that of its loops and of the event at its end. -/
theorem emit_deeds {ω : Type} [Channel ω] {c : Compressor ω} {w : ω} (hfresh : c.isFresh = true)
    {s : CompressSession (Traced ω)} {t : Traced ω}
    (hacquire : CompressSession.acquire c.traced.options c.traced.allocator ⟨w, []⟩ = (.ok s, t)) :
    ∃ event, c.deeds w = (c.traced.emit s c.state t).2.2.deeds ++ [.note event] := by
  obtain ⟨-, -, -, hdeeds⟩ := run_closed hfresh w
  have hreleased {t : Traced ω} : (s.release t).deeds = t.deeds :=
    (CompressSession.served_of_acquire hacquire).keeps_release
      (I := fun t' => t'.deeds = t.deeds) (fun _ _ ht => ht)
      (CompressSession.housekeeping_of_acquire hacquire).closing rfl
  have hdrive : (c.traced.drive ⟨w, []⟩).2.2.deeds = (c.traced.emit s c.state t).2.2.deeds := by
    rw [drive_eq, hacquire]
    exact hreleased
  rw [hdrive] at hdeeds
  exact ⟨_, hdeeds⟩

theorem emit_begins {ω : Type} [Channel ω] {c : Compressor ω} {w : ω} (hfresh : c.isFresh = true)
    {s : CompressSession (Traced ω)} {t : Traced ω}
    (hacquire : CompressSession.acquire c.traced.options c.traced.allocator ⟨w, []⟩ = (.ok s, t)) :
    (c.traced.emit s c.state t).2.2.deeds <+: c.deeds w := by
  obtain ⟨event, hdeeds⟩ := emit_deeds hfresh hacquire
  rw [hdeeds]
  exact List.prefix_append _ _

omit [Provident] in
theorem emit_twins {c : Compressor (Traced (Exchange σ τ μ))}
    {c' : Compressor (Traced (Exchange σ τ μ'))} (hagrees : c.Agrees c')
    {s : CompressSession (Traced (Exchange σ τ μ))}
    {s' : CompressSession (Traced (Exchange σ τ μ'))}
    (hstream : s.engine.stream = s'.engine.stream) (hsize : s.input.size = s'.input.size)
    (state : CompressState) {t : Traced (Exchange σ τ μ)} {t' : Traced (Exchange σ τ μ')}
    (ht : Exchange.Twins t t') (hcontract : Placed (c.emit s state t).2.2.deeds ∨
      s.input.buffer.bytes = s'.input.buffer.bytes) :
    Same (Same (Line.Alike Exchange.Twins)) (c.emit s state t) (c'.emit s' state t') := by
  rcases hcontract with hplaced | hbytes
  · -- The left run is also the one whose buffer holds what the right one's does.
    let s₁ : CompressSession (Traced (Exchange σ τ μ)) :=
      { s with input := { s.input with buffer := s'.input.buffer } }
    have hstream₁ : s₁.engine.stream = s'.engine.stream := hstream
    have hsame : c.emit s₁ state t = c.emit s state t :=
      emit_staging (show s.engine.stream = s₁.engine.stream from rfl) hsize state hplaced
    rw [← hsame]
    exact emit_alike Exchange.twins_alike hagrees.options hstream₁ rfl state ht
  · exact emit_alike Exchange.twins_alike hagrees.options hstream hbytes state ht

variable {c : Compressor μ} {c' : Compressor μ'}

theorem drive_twins (hfresh : c.isFresh = true) (h : c.BothGranted c' x memory) :
    Same (Same (Line.Alike Exchange.Twins)) (c.within.traced.drive ⟨x, []⟩)
      (c'.within.traced.drive ⟨x.holding memory, []⟩) := by
  have hagrees : (c.within : Compressor (Exchange σ τ μ)).traced.Agrees
      (c'.within : Compressor (Exchange σ τ μ')).traced :=
    ⟨h.agrees.options, h.agrees.state, h.agrees.totalIn, h.agrees.totalOut⟩
  have hfresh' : c'.isFresh = true := by rwa [isFresh, ← h.agrees.state]
  obtain ⟨result, t, hacquire, hcomes, ht, hinput⟩ := setUp_granted (c := c.within) hfresh h.left
    (Exchange.twins_leaves c.allocator ⟨x.holding memory, []⟩) (Exchange.twins_start x memory)
  obtain ⟨result', t', hacquire', hcomes', ht', hinput'⟩ := setUp_granted (c := c'.within) hfresh'
    h.right (Exchange.leaves_twins c'.allocator t) ht
  rw [← hagrees.options] at hcomes'
  rw [drive_eq, drive_eq, hacquire, hacquire', ← hagrees.state]
  cases hcomes with
  | rejected hno =>
      cases hcomes' with
      | rejected _ => exact ⟨rfl, rfl, Line.alike_start ht'⟩
      | session hok _ => exact absurd hok hno
  | @session s hok hstream =>
      cases hcomes' with
      | rejected hno => exact absurd hok hno
      | @session s' _ hstream' =>
          have hsize : s.input.size = s'.input.size :=
            (CompressSession.input_of_acquire hacquire).trans
              (CompressSession.input_of_acquire hacquire').symm
          have hcontract := h.contract.imp
            (fun hplaced => hplaced.earlier (emit_begins (c := c.within) hfresh hacquire))
            (fun halike => halike _ (hinput s rfl) _ (hinput' s' rfl) hsize)
          obtain ⟨hresult, hstate, hl⟩ :=
            emit_twins hagrees (hstream.trans hstream'.symm) hsize c.state ht' hcontract
          refine ⟨hresult, hstate, ?_, hl.taken, hl.given⟩
          exact Exchange.Twins.release (CompressSession.served_of_acquire hacquire)
            (CompressSession.served_of_acquire hacquire')
            (CompressSession.housekeeping_of_acquire hacquire).closing
            (CompressSession.housekeeping_of_acquire hacquire').closing hl.world

theorem concurs (hfresh : c.isFresh = true) (h : c.BothGranted c' x memory) :
    c.Concurs c' x memory := by
  have hfresh' : c'.isFresh = true := by rwa [isFresh, ← h.agrees.state]
  have hruns : (c.within.traced.run ⟨x, []⟩).1 =
        (c'.within.traced.run ⟨x.holding memory, []⟩).1 ∧
      (c.within.traced.run ⟨x, []⟩).2.1.Agrees
        (c'.within.traced.run ⟨x.holding memory, []⟩).2.1 ∧
      Exchange.Twins (c.within.traced.run ⟨x, []⟩).2.2
        (c'.within.traced.run ⟨x.holding memory, []⟩).2.2 := by
    have hoptions : c.options = c'.options := h.agrees.options
    have hdrive := drive_twins hfresh h
    rw [run, run, if_pos (show c.within.traced.isFresh = true from hfresh),
      if_pos (show c'.within.traced.isFresh = true from hfresh')]
    generalize c.within.traced.drive ⟨x, []⟩ = p at hdrive ⊢
    generalize c'.within.traced.drive ⟨x.holding memory, []⟩ = p' at hdrive ⊢
    obtain ⟨result, state, ⟨t, taken, given⟩⟩ := p
    obtain ⟨result', state', ⟨t', taken', given'⟩⟩ := p'
    obtain ⟨hresult, -, ht, htaken, hgiven⟩ := hdrive
    obtain rfl : result = result' := hresult
    obtain rfl : taken = taken' := htaken
    obtain rfl : given = given' := hgiven
    cases result <;>
      exact ⟨rfl, ⟨hoptions, rfl, rfl, rfl⟩, Exchange.twins_alike.note _ ht⟩
  rw [run_traced, run_traced] at hruns
  obtain ⟨hresult, ⟨hoptions, hstate, hin, hout⟩, hworlds⟩ := hruns
  exact ⟨hresult, ⟨hoptions, hstate, hin, hout⟩, hworlds.deeds, hworlds.source, hworlds.sink,
    hworlds.events⟩

end Compressor

namespace Decompressor

structure BothGranted (c : Decompressor μ) (c' : Decompressor μ') (x : Exchange σ τ μ)
    (memory : μ') : Prop where
  agrees : c.Agrees c'
  left : AllGranted (c.within.dealings x)
  right : AllGranted (c'.within.dealings (x.holding memory))
  contract : Placed (c.within.deeds x) ∨
    HeldAlike (c.within.dealings x) (c'.within.dealings (x.holding memory))

structure Concurs (c : Decompressor μ) (c' : Decompressor μ') (x : Exchange σ τ μ)
    (memory : μ') : Prop where
  result : (c.within.run x).1 = (c'.within.run (x.holding memory)).1
  handle : (c.within.run x).2.1.Agrees (c'.within.run (x.holding memory)).2.1
  deeds : c.within.deeds x = c'.within.deeds (x.holding memory)
  source : (c.within.run x).2.2.source = (c'.within.run (x.holding memory)).2.2.source
  sink : (c.within.run x).2.2.sink = (c'.within.run (x.holding memory)).2.2.sink
  events : (c.within.run x).2.2.events = (c'.within.run (x.holding memory)).2.2.events

theorem pump_begins {ω : Type} [Channel ω] {c : Decompressor ω} {w : ω}
    (hfresh : c.state = .created) {header : Header} {l : Line (Traced ω)}
    (hheader : readHeader ({ world := ⟨w, []⟩ } : Line (Traced ω)) = (.ok header, l))
    {s : DecompressSession (Traced ω)} {t : Traced ω}
    (hacquire : DecompressSession.acquire header c.traced.allocator
      (l.note (.decompressionStarting header)).world = (.ok s, t)) :
    (s.pump DecompressState.allocated
      { l.note (.decompressionStarting header) with world := t }).2.2.outer.deeds <+:
      c.deeds w := by
  obtain ⟨-, -, -, hdeeds⟩ := run_closed hfresh w
  have hreleased {t : Traced ω} : (s.release t).deeds = t.deeds :=
    (DecompressSession.served_of_acquire hacquire).keeps_release
      (I := fun t' => t'.deeds = t.deeds) (fun _ _ ht => ht)
      (DecompressSession.housekeeping_of_acquire hacquire).closing rfl
  have hdrive : (c.traced.drive ⟨w, []⟩).2.2.2.deeds = (s.pump DecompressState.allocated
      { l.note (.decompressionStarting header) with world := t }).2.2.outer.deeds := by
    rw [drive_of_ok hheader, unpack, hacquire]
    dsimp only
    rw [extract_eq (DecompressSession.housekeeping_of_acquire hacquire)]
    exact hreleased
  rw [hdeeds, hdrive]
  exact List.prefix_append _ _

omit [Provident] in
theorem pump_twins {s : DecompressSession (Traced (Exchange σ τ μ))}
    {s' : DecompressSession (Traced (Exchange σ τ μ'))}
    (hstream : s.engine.stream = s'.engine.stream) (hinput : s.input.size = s'.input.size)
    (houtput : s.output.size = s'.output.size) (state : DecompressState)
    {l : Line (Traced (Exchange σ τ μ))} {l' : Line (Traced (Exchange σ τ μ'))}
    (hl : l.Alike Exchange.Twins l')
    (hcontract : Placed (s.pump state l).2.2.outer.deeds ∨
      s.input.buffer.bytes = s'.input.buffer.bytes) :
    (s.pump state l).1 = (s'.pump state l').1 ∧ (s.pump state l).2.1 = (s'.pump state l').2.1 ∧
      (s.pump state l).2.2.outer.Alike Exchange.Twins (s'.pump state l').2.2.outer := by
  have halike {s : DecompressSession (Traced (Exchange σ τ μ))}
      (hstream : s.engine.stream = s'.engine.stream)
      (hbytes : s.input.buffer.bytes = s'.input.buffer.bytes)
      (houtput : s.output.size = s'.output.size) :
      (s.pump state l).1 = (s'.pump state l').1 ∧
        (s.pump state l).2.1 = (s'.pump state l').2.1 ∧
        (s.pump state l).2.2.outer.Alike Exchange.Twins (s'.pump state l').2.2.outer := by
    rcases DecompressSession.pump_lockstep Exchange.twins_alike.lockstep.host hstream hbytes
      houtput state hl with hsame | ⟨_, -, hnever⟩
    · exact hsame
    · exact hnever.elim
  rcases hcontract with hplaced | hbytes
  · obtain ⟨s₁, hstream₁, hbuffer₁, houtput₁, hsame⟩ :=
      DecompressSession.exists_staged s'.input.buffer hinput state hplaced
    rw [← hsame]
    exact halike (hstream₁.trans hstream) (congrArg _ hbuffer₁) (houtput₁.trans houtput)
  · exact halike hstream hbytes houtput

variable {c : Decompressor μ} {c' : Decompressor μ'}

/-- With the same header the two sessions are set up alike, or neither is. -/
theorem unpack_twins (hfresh : c.state = .created) (h : c.BothGranted c' x memory)
    {header : Header} {l : Line (Traced (Exchange σ τ μ))} {l' : Line (Traced (Exchange σ τ μ'))}
    (hheader : readHeader ({ world := ⟨x, []⟩ } : Line (Traced (Exchange σ τ μ))) =
      (.ok header, l))
    (hheader' : readHeader ({ world := ⟨x.holding memory, []⟩ } :
      Line (Traced (Exchange σ τ μ'))) = (.ok header, l'))
    (hl : (l.note (.decompressionStarting header)).Alike Exchange.Twins
      (l'.note (.decompressionStarting header))) :
    Same (Same (Line.Alike Exchange.Twins))
      (c.within.traced.unpack header (l.note (.decompressionStarting header)))
      (c'.within.traced.unpack header (l'.note (.decompressionStarting header))) := by
  have hfresh' : c'.state = .created := by rwa [← h.agrees.state]
  obtain ⟨result, t, hacquire, hcomes, ht, hinput⟩ := setUp_granted (c := c.within) hfresh h.left
    (Exchange.twins_leaves c.allocator (l'.note (.decompressionStarting header)).world) hheader
    hl.world
  obtain ⟨result', t', hacquire', hcomes', ht', hinput'⟩ := setUp_granted (c := c'.within)
    hfresh' h.right (Exchange.leaves_twins c'.allocator t) hheader' ht
  rw [unpack, unpack, hacquire, hacquire']
  cases hcomes with
  | rejected hno =>
      cases hcomes' with
      | rejected _ => exact ⟨rfl, rfl, ht', hl.taken, hl.given⟩
      | session hd _ =>
          rw [Engine.decoderFor, if_neg hno] at hd
          cases hd
  | @session s d hd hstream =>
      cases hcomes' with
      | rejected hno =>
          rw [Engine.decoderFor, if_neg hno] at hd
          cases hd
      | @session s' d' hd' hstream' =>
          obtain rfl : d = d' := Except.ok.inj (hd.symm.trans hd')
          have hsize : s.input.size = s'.input.size :=
            (DecompressSession.input_of_acquire hacquire).trans
              (DecompressSession.input_of_acquire hacquire').symm
          have hroom : s.output.size = s'.output.size :=
            (DecompressSession.room_of_acquire hacquire).trans
              (DecompressSession.room_of_acquire hacquire').symm
          have hcontract := h.contract.imp
            (fun hplaced => hplaced.earlier (pump_begins (c := c.within) hfresh hheader hacquire))
            (fun halike => halike _ (hinput s rfl) _ (hinput' s' rfl) hsize)
          have hopened : Line.Alike Exchange.Twins
              { l.note (.decompressionStarting header) with world := t }
              { l'.note (.decompressionStarting header) with world := t' } :=
            ⟨ht', hl.taken, hl.given⟩
          obtain ⟨hresult, hstate, hl₁⟩ :=
            pump_twins (hstream.trans hstream'.symm) hsize hroom .allocated hopened hcontract
          have hk := DecompressSession.housekeeping_of_acquire hacquire
          have hk' := DecompressSession.housekeeping_of_acquire hacquire'
          dsimp only
          rw [extract_eq hk, extract_eq hk']
          exact ⟨hresult, hstate, Exchange.Twins.release
            (DecompressSession.served_of_acquire hacquire)
            (DecompressSession.served_of_acquire hacquire') hk.closing hk'.closing hl₁.world,
            hl₁.taken, hl₁.given⟩

theorem drive_twins (hfresh : c.state = .created) (h : c.BothGranted c' x memory) :
    Same (Same (Same (Line.Alike Exchange.Twins))) (c.within.traced.drive ⟨x, []⟩)
      (c'.within.traced.drive ⟨x.holding memory, []⟩) := by
  have hR : Channel.Lockstep
      (Exchange.Twins : Traced (Exchange σ τ μ) → Traced (Exchange σ τ μ') → Prop) Never :=
    Exchange.twins_alike.lockstep
  rcases readHeader_lockstep hR (Line.alike_start (Exchange.twins_start x memory)) with hsame |
    ⟨_, -, hnever⟩
  · rcases hheader : readHeader ({ world := ⟨x, []⟩ } : Line (Traced (Exchange σ τ μ))) with
      ⟨e | header, l⟩ <;> obtain ⟨l', hheader', hl⟩ := hsame.of_eq hheader
    · rw [drive_of_error hheader, drive_of_error hheader']
      exact ⟨rfl, h.agrees.state, h.agrees.header, hl⟩
    · obtain ⟨hresult, hstate, hl₁⟩ := unpack_twins hfresh h hheader hheader'
        (hl.note hR (.decompressionStarting header))
      rw [drive_of_ok hheader, drive_of_ok hheader']
      exact ⟨hresult, hstate, rfl, hl₁⟩
  · exact hnever.elim

theorem concurs (hfresh : c.state = .created) (h : c.BothGranted c' x memory) :
    c.Concurs c' x memory := by
  have hfresh' : c'.state = .created := by rwa [← h.agrees.state]
  have hruns : (c.within.traced.run ⟨x, []⟩).1 =
        (c'.within.traced.run ⟨x.holding memory, []⟩).1 ∧
      (c.within.traced.run ⟨x, []⟩).2.1.Agrees
        (c'.within.traced.run ⟨x.holding memory, []⟩).2.1 ∧
      Exchange.Twins (c.within.traced.run ⟨x, []⟩).2.2
        (c'.within.traced.run ⟨x.holding memory, []⟩).2.2 := by
    have hdrive := drive_twins hfresh h
    rw [run, run, if_pos (show c.within.traced.state = .created from hfresh),
      if_pos (show c'.within.traced.state = .created from hfresh')]
    generalize c.within.traced.drive ⟨x, []⟩ = p at hdrive ⊢
    generalize c'.within.traced.drive ⟨x.holding memory, []⟩ = p' at hdrive ⊢
    obtain ⟨result, state, header, ⟨t, taken, given⟩⟩ := p
    obtain ⟨result', state', header', ⟨t', taken', given'⟩⟩ := p'
    obtain ⟨hresult, -, hheader, ht, htaken, hgiven⟩ := hdrive
    obtain rfl : result = result' := hresult
    obtain rfl : header = header' := hheader
    obtain rfl : taken = taken' := htaken
    obtain rfl : given = given' := hgiven
    cases result <;> exact ⟨rfl, ⟨rfl, rfl, rfl, rfl⟩, Exchange.twins_alike.note _ ht⟩
  rw [run_traced, run_traced] at hruns
  obtain ⟨hresult, ⟨hstate, hheader, hin, hout⟩, hworlds⟩ := hruns
  exact ⟨hresult, ⟨hstate, hheader, hin, hout⟩, hworlds.deeds, hworlds.source, hworlds.sink,
    hworlds.events⟩

end Decompressor

end

/-! ## All of it -/

section

variable [Provident]

/-- What there is to say of a run whose set-up fails. -/
structure Compressor.Atomic (c : Compressor ω) (w : ω) : Prop where
  untouched : ¬c.options.Accepted ∨ c.options.format = .lzip ∨ ¬AllGranted (c.dealings w) →
    ∃ e, c.Untouched w e
  refused : ¬AllGranted (c.dealings w) → (c.run w).1 = .error (.compress (.ofKind .outOfMemory))

structure Decompressor.Atomic (c : Decompressor ω) (w : ω) : Prop where
  unopened {e : Error} : (readHeader ({ world := w } : Line ω)).1 = .error e → c.Unopened w e
  stopped {header : Header} : (readHeader ({ world := w } : Line ω)).1 = .ok header →
    ¬header.coding.Supported ∨ ¬AllGranted (c.dealings w) → ∃ e, c.Stopped w header e
  refused : ¬AllGranted (c.dealings w) → (c.run w).1 = .error (.decompress (.ofKind .outOfMemory))

theorem Compressor.atomic {c : Compressor ω} (hfresh : c.isFresh = true) (w : ω) : c.Atomic w where
  untouched hfails := by
    obtain ⟨e, huntouched, -⟩ := setup hfresh hfails
    exact ⟨e, huntouched⟩
  refused hdenied := by
    obtain ⟨e, huntouched, he⟩ := setup hfresh (.inr (.inr hdenied))
    rw [huntouched.result, he hdenied]
    rfl

theorem Decompressor.atomic {c : Decompressor ω} (hfresh : c.state = .created) (w : ω) :
    c.Atomic w where
  unopened {e} h := unopened hfresh (Prod.ext h rfl)
  stopped {header} h hfails := by
    obtain ⟨e, hstopped, -⟩ := stopped hfresh (Prod.ext h rfl) hfails
    exact ⟨e, hstopped⟩
  refused hdenied := by
    rcases hheader : readHeader ({ world := w } : Line ω) with ⟨e | header, l⟩
    · have hnone := (unopened hfresh hheader).dealings
      exact absurd (by rw [hnone]; simp) hdenied
    · obtain ⟨e, hstopped, he⟩ := stopped hfresh hheader (.inr hdenied)
      rw [hstopped.result, he hdenied]

end

/--
Setting up a run fails as a whole, and of its memory a run can tell only whether it was granted.

A compressor whose options are turned down, whose container is not written or that misses any of
its memory has read nothing and written nothing. A decompressor asks for no memory before it has a
header, and if the coder or any of the memory for it is not to be had, that header is all that was
read. Missing memory is always reported as such.

Two handles that are granted all they ask for do the same with the same source and sink, whatever
the buffers held and however long they were, as long as the source places what it reports. Where
it does not, this is so still for buffers that hold the same.
-/
theorem setup_atomic :
    (∀ {ω : Type} [Channel ω] [Provident] (w : ω),
      (∀ c : Compressor ω, c.isFresh = true → c.Atomic w) ∧
        ∀ c : Decompressor ω, c.state = .created → c.Atomic w) ∧
      ∀ {σ τ μ μ' : Type} [Source σ] [Sink τ] [Provident] (x : Exchange σ τ μ) (memory : μ'),
        (∀ (c : Compressor μ) (c' : Compressor μ'), c.isFresh = true →
          c.BothGranted c' x memory → c.Concurs c' x memory) ∧
        ∀ (c : Decompressor μ) (c' : Decompressor μ'), c.state = .created →
          c.BothGranted c' x memory → c.Concurs c' x memory := by
  constructor
  · intro ω _ _ w
    exact ⟨fun c hfresh => Compressor.atomic hfresh w, fun c hfresh => Decompressor.atomic hfresh w⟩
  · intro σ τ μ μ' _ _ _ x memory
    exact ⟨fun c c' hfresh h => Compressor.concurs hfresh h,
      fun c c' hfresh h => Decompressor.concurs hfresh h⟩

section

variable {τ μ : Type} [Sink τ]

/-- All was placed by a script that reports no more than it gives, and it is one still. -/
def ScriptedSource.Honest (t : Traced (Exchange ScriptedSource τ μ)) : Prop :=
  Placed t.deeds ∧ ∀ excess, ReadStep.overReport excess ∉ t.world.source.steps

theorem ScriptedSource.keeps_honest : Channel.Keeps (Honest (τ := τ) (μ := μ)) where
  note event t h := ⟨placed_append.mpr ⟨h.1, by simp [Placed, Deed.Placed]⟩, h.2⟩
  read room t h := by
    obtain ⟨hall, hrest⟩ := ReadStep.serve_placed room h.2
    refine ⟨placed_append.mpr ⟨h.1, List.forall_mem_singleton.mpr ?_⟩, hrest⟩
    cases hread : (Channel.read room t.world).1 with
    | error e => trivial
    | ok r => exact fun _ => hall r hread
  write bytes t h := ⟨placed_append.mpr ⟨h.1, by simp [Placed, Deed.Placed]⟩, h.2⟩

theorem ScriptedSource.keeps_honest_memory (a : Allocator μ) :
    a.inMemory.traced.Keeps (Honest (τ := τ)) :=
  ⟨fun _ h => keeps_honest.note _ h, fun _ _ h => h, fun _ _ h => h⟩

theorem ReadStep.bytes_of_mem_chunks {size : Nat} {bytes : List UInt8} {step : ReadStep}
    (h : step ∈ chunks size bytes) : ∃ part, step = .bytes part := by
  induction bytes using chunks.induct size with
  | case1 bytes hnone =>
      rw [chunks, dif_pos hnone] at h
      cases h
  | case2 bytes hsome ih =>
      rw [chunks, dif_neg hsome] at h
      rcases List.mem_cons.mp h with rfl | hmem
      · exact ⟨_, rfl⟩
      · exact ih hmem

variable [Provident] {x : Exchange ScriptedSource τ μ}

theorem Compressor.placed_deeds (c : Compressor μ)
    (h : ∀ excess, ReadStep.overReport excess ∉ x.source.steps) : Placed (c.within.deeds x) := by
  have hstart : ScriptedSource.Honest (⟨x, []⟩ : Traced (Exchange ScriptedSource τ μ)) :=
    ⟨by simp [Placed], h⟩
  have hrun := keeps_run (c := c.within.traced) ScriptedSource.keeps_honest
    (ScriptedSource.keeps_honest_memory c.allocator) hstart
  exact hrun.1

theorem Decompressor.placed_deeds (c : Decompressor μ)
    (h : ∀ excess, ReadStep.overReport excess ∉ x.source.steps) : Placed (c.within.deeds x) := by
  have hstart : ScriptedSource.Honest (⟨x, []⟩ : Traced (Exchange ScriptedSource τ μ)) :=
    ⟨by simp [Placed], h⟩
  have hrun := keeps_run (c := c.within.traced) ScriptedSource.keeps_honest
    (ScriptedSource.keeps_honest_memory c.allocator) hstart
  exact hrun.1

end

/--
Callbacks that give two buffers and no more, callbacks that give buffers that are too long and hold
sevens, and a source that places nothing over two kinds of memory that hold the same.
-/
theorem setup_atomic_of_two_grants :
    let refusing : GrantPolicy := { budget := some 2 }
    let spoiling : Allocator Unit :=
      ⟨fun size _ => (.ok { size := size + 3, fill := 7 }, ()), fun _ _ => (), true⟩
    let header : Header := { lc := 3, pb := 2, dictSize := 4096 }
    let bytes := header.toBytes ++ [0, 131]
    let y : Exchange ScriptedSource ScriptedSink Ledger := Exchange.ofBytes 9 bytes {}
    let c : Compressor (Exchange ScriptedSource ScriptedSink Ledger) :=
      { allocator := refusing.allocator }
    let d : Decompressor (Exchange ScriptedSource ScriptedSink Ledger) :=
      { allocator := refusing.allocator }
    let x : Exchange ScriptedSource ScriptedSink Unit := Exchange.ofBytes 9 bytes ()
    let c₁ : Compressor Unit := {}
    let c₂ : Compressor Unit := { allocator := spoiling }
    let d₁ : Decompressor Unit := {}
    let d₂ : Decompressor Unit := { allocator := spoiling }
    let z : Exchange ScriptedSource ScriptedSink Unit :=
      { source := { steps := [.overReport 0] }, sink := {}, memory := () }
    let c₃ : Compressor Unit :=
      { allocator := ⟨fun size _ => (.ok { size := size + 3 }, ()), fun _ _ => (), true⟩ }
    (c.isFresh = true ∧ ¬AllGranted (c.dealings y) ∧ ∃ e, c.Untouched y e) ∧
      (d.state = .created ∧ ¬AllGranted (d.dealings y) ∧ ∃ e, d.Stopped y header e) ∧
      (c₁.isFresh = true ∧ c₁.BothGranted c₂ x () ∧ c₁.Concurs c₂ x ()) ∧
      (c₁.BothGranted c₃ z () ∧ c₁.Concurs c₃ z ()) ∧
      d₁.state = .created ∧ d₁.BothGranted d₂ x () ∧ d₁.Concurs d₂ x () := by
  intro refusing spoiling header bytes y c d x c₁ c₂ d₁ d₂ z c₃
  have hc : ¬AllGranted (c.dealings y) := by decide +kernel
  have hd : ¬AllGranted (d.dealings y) := by decide +kernel
  have hheader : (Decompressor.readHeader ({ world := y } : Line _)).1 = .ok header := by
    obtain ⟨l, ending, hread, -, -⟩ := Decompressor.readHeader_spec
      (Line.Along.start (Exchange.scene_ofBytes 9 bytes _ (by decide)))
    have hbytes : bytes.take headerSize = header.toBytes := List.take_left' header.length_toBytes
    have hpackable : header.Packable := ⟨by decide, by decide, by decide⟩
    rw [hread, Header.ofStream_of_le (by decide), hbytes]
    exact Header.parse_toBytes hpackable (by decide)
  have hgranting : spoiling.Granting := fun size w _ => ⟨_, w, rfl, Nat.le_add_right size 3⟩
  have hhonest : ∀ excess, ReadStep.overReport excess ∉ x.source.steps := by
    intro excess hmem
    obtain ⟨part, hpart⟩ := ReadStep.bytes_of_mem_chunks hmem
    cases hpart
  have hcompressors : c₁.BothGranted c₂ x () :=
    ⟨⟨rfl, rfl, rfl, rfl⟩, Compressor.allGranted rfl Allocator.granting_standard.inMemory _,
      Compressor.allGranted rfl hgranting.inMemory _, .inl (c₁.placed_deeds hhonest)⟩
  have hdecompressors : d₁.BothGranted d₂ x () :=
    ⟨⟨rfl, rfl, rfl, rfl⟩, Decompressor.allGranted rfl Allocator.granting_standard.inMemory _,
      Decompressor.allGranted rfl hgranting.inMemory _, .inl (d₁.placed_deeds hhonest)⟩
  have hlonger : c₃.allocator.Granting := fun size w _ => ⟨_, w, rfl, Nat.le_add_right size 3⟩
  have hzeros : c₃.allocator.Fills 0 := by
    rintro size w buffer ⟨⟩
    simp [Buffer.bytes, Buffer.first, Buffer.truncate]
  have hunplaced : c₁.BothGranted c₃ z () :=
    ⟨⟨rfl, rfl, rfl, rfl⟩, Compressor.allGranted rfl Allocator.granting_standard.inMemory _,
      Compressor.allGranted rfl hlonger.inMemory _,
      .inr (HeldAlike.of_fills Allocator.fills_standard.inMemory hzeros.inMemory _ _)⟩
  exact ⟨⟨rfl, hc, ((setup_atomic.1 y).1 c rfl).untouched (.inr (.inr hc))⟩,
    ⟨rfl, hd, ((setup_atomic.1 y).2 d rfl).stopped hheader (.inr hd)⟩,
    ⟨rfl, hcompressors, (setup_atomic.2 x ()).1 c₁ c₂ rfl hcompressors⟩,
    ⟨hunplaced, (setup_atomic.2 z ()).1 c₁ c₃ rfl hunplaced⟩,
    rfl, hdecompressors, (setup_atomic.2 x ()).2 d₁ d₂ rfl hdecompressors⟩

/-! ## What a buffer held shows where nothing was placed -/

section

variable {μ : Type}

namespace Exchange

variable {l : Line (Exchange ScriptedSource ScriptedSink μ)}

/-- Behind a write and a read that has only reported, there is nothing to come. -/
theorem along_overReport (hsteps : l.world.source.steps = [.overReport 0])
    (hsink : l.world.sink = {}) (hgiven : l.given = 0) {bytes : List UInt8} (hne : bytes ≠ [])
    {room : Nat} (hroom : room ≠ 0) :
    ∃ l₁ l₂, l.push bytes = (.ok (), l₁) ∧ l₁.pull room = (.ok ⟨[], room⟩, l₂) ∧
      l₂.Along (l.taken + room) ⟨[], some .ended, bytes⟩ := by
  obtain ⟨⟨⟨steps, reads⟩, sink, memory, events⟩, taken, given⟩ := l
  obtain rfl : steps = [.overReport 0] := hsteps
  obtain rfl : sink = {} := hsink
  obtain rfl : given = 0 := hgiven
  let l₁ : Line (Exchange ScriptedSource ScriptedSink μ) :=
    ⟨⟨⟨[.overReport 0], reads⟩, (ScriptedSink.took {} bytes bytes.length).2, memory, events⟩,
      taken, 0 + bytes.length⟩
  have hpull : l₁.pull room = (.ok ⟨[], room⟩,
      ⟨(Channel.read room l₁.world).2, taken + room, 0 + bytes.length⟩) := by
    rw [Line.pull, if_neg hroom]
    exact if_neg (Nat.lt_irrefl room)
  refine ⟨l₁, _, ?_, hpull, scene_eq_some.mpr ⟨rfl, ?_, .ended, rfl, rfl⟩, rfl, Nat.zero_add _⟩
  · rw [Line.push, if_neg (by simpa using hne)]
    exact if_pos rfl
  · show bytes = (bytes.take bytes.length :: []).reverse.flatten
    simp

end Exchange

/-- Where a source reports a full buffer and has placed nothing, the stream is of what it held. -/
theorem Compressor.run_filled [Provident] {a : Allocator μ} (ha : a.Granting) {fill : UInt8}
    (hfill : a.Fills fill) {c : Compressor (Exchange ScriptedSource ScriptedSink μ)}
    (hallocator : c.allocator = a.inMemory) (hfresh : c.isFresh = true)
    (hok : c.options.Accepted) (hformat : c.options.format = .lzma) (memory : μ) :
    let x : Exchange ScriptedSource ScriptedSink μ :=
      { source := { steps := [.overReport 0] }, sink := {}, memory }
    (c.run x).1 = .ok () ∧
      (c.run x).2.2.sink.stored = c.options.stream (List.replicate Staging.defaultSize fill) := by
  intro x
  have hlends (source : ScriptedSource) (sink : ScriptedSink) :
      c.allocator.Lends fun w => w.source = source ∧ w.sink = sink := by
    rw [hallocator]
    refine ⟨?_, fun _ _ hw => hw⟩
    intro w size hw hsize
    obtain ⟨buffer, memory, halloc, hle⟩ := ha size w.memory hsize
    exact ⟨buffer, { w with memory }, by simp only [Allocator.inMemory, halloc], hle, hw⟩
  obtain ⟨s, w, hacquire, hs, hsource, hsink⟩ := CompressSession.acquire_ok
    (hlends x.source x.sink) ⟨rfl, rfl⟩ hok.preset (Engine.encoderFor_ok hok.coding hok.dictSize)
  have hheld : s.input.buffer.bytes = List.replicate Staging.defaultSize fill := by
    obtain ⟨_, _, hrequest⟩ := CompressSession.request_of_acquire hacquire
    rw [hallocator] at hrequest
    exact hfill.inMemory.request hrequest
  have hserves : s.engine.stream.Serves c.options.settings s.input.buffer.bytes
      s.input.buffer.bytes [] := by
    rw [hs.stream]
    exact ⟨rfl, rfl, .start _ _⟩
  have hroom : 0 < (Staging.ofList s.input.buffer.bytes).size := by
    rw [Block.size_staging, hs.inputSize]
    decide
  have hne : c.options.header.toBytes ≠ [] :=
    List.ne_nil_of_length_pos (by rw [Header.length_toBytes]; decide)
  obtain ⟨l₁, l₂, hpush, hpull, hl₂⟩ := Exchange.along_overReport
    (l := ({ world := w } : Line _).note (.compressionStarting c.options.header c.options.level))
    (congrArg ScriptedSource.steps hsource) hsink rfl hne (Nat.ne_of_gt hroom)
  obtain ⟨l, ending, hrun, hl⟩ :=
    Encoding.run_unfilled hroom .headerWritten hserves hpull hl₂
  have hemit : c.emit s c.state w = (.ok (), .encoding, l) := by
    rw [emit, if_neg (not_not_intro hformat)]
    dsimp only
    rw [hpush]
    exact hrun
  have hdrive : c.drive x = (.ok (), .encoding, { l with world := s.release l.world }) := by
    rw [drive_eq, hacquire]
    dsimp only
    rw [hemit]
  rw [run, if_pos hfresh, hdrive]
  refine ⟨rfl, ?_⟩
  have hreleased : (s.release l.world).sink = l.world.sink :=
    (hs.release (hlends l.world.source l.world.sink) ⟨rfl, rfl⟩).2
  show (s.release l.world).sink.stored = _
  rw [hreleased, ← (Exchange.scene_eq_some.mp hl.scene).2.1, ← hheld]
  rfl

end

/--
Memory of zeros and memory of sevens, all of it granted, and a source that reports a full buffer
and has placed nothing: the two handles write different streams.
-/
theorem Compressor.memory_shows :
    let sevens : Allocator Unit :=
      ⟨fun size _ => (.ok { size, fill := 7 }, ()), fun _ _ => (), true⟩
    let x : Exchange ScriptedSource ScriptedSink Unit :=
      { source := { steps := [.overReport 0] }, sink := {}, memory := () }
    let c : Compressor Unit := {}
    let c' : Compressor Unit := { allocator := sevens }
    c.isFresh = true ∧ c.Agrees c' ∧ AllGranted (c.within.dealings x) ∧
      AllGranted (c'.within.dealings x) ∧ (c.within.run x).1 = .ok () ∧
      (c'.within.run x).1 = .ok () ∧
      (c.within.run x).2.2.sink.stored ≠ (c'.within.run x).2.2.sink.stored := by
  intro sevens x c c'
  have hok : ({} : Options).Accepted := ⟨by decide, by decide, by decide⟩
  have hgranting : sevens.Granting := fun size w _ => ⟨_, w, rfl, Nat.le_refl size⟩
  have hsevens : sevens.Fills 7 := by
    rintro size w buffer ⟨⟩
    simp [Buffer.bytes, Buffer.first, Buffer.truncate]
  obtain ⟨hresult, hstored⟩ := run_filled Allocator.granting_standard Allocator.fills_standard
    (c := c.within) rfl rfl hok rfl ()
  obtain ⟨hresult', hstored'⟩ := run_filled hgranting hsevens (c := c'.within) rfl rfl hok rfl ()
  refine ⟨rfl, ⟨rfl, rfl, rfl, rfl⟩, allGranted rfl Allocator.granting_standard.inMemory _,
    allGranted rfl hgranting.inMemory _, hresult, hresult', ?_⟩
  intro hsame
  have hstreams : ({} : Options).stream (List.replicate Staging.defaultSize 0) =
      ({} : Options).stream (List.replicate Staging.defaultSize 7) :=
    hstored.symm.trans (hsame.trans hstored')
  have hdata := congrArg (fun bytes => (Extraction.of bytes .ended).output.head?) hstreams
  rw [Extraction.of_options (by decide) (by decide) (by decide),
    Extraction.of_options (by decide) (by decide) (by decide)] at hdata
  exact absurd hdata (by decide)

end Lzma
