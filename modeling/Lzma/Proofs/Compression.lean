import Lzma.Compressor
import Lzma.Proofs.Encoding
import Lzma.Proofs.Hosting

/-!
# A compression run writes its header and one payload

In a fair world nothing can go wrong for a run whose options are accepted. No call
of its encoder stalls, for an encoder with room moves something (`feed_moves`,
`finish_moves`), so both loops come to their end. What they have passed on by then
is the payload that the encoder serves, whatever the pieces in which the data came
(`Compressor.run_spec`).
-/

namespace Lzma

/-! ## Calls of a stream -/

namespace Stream

variable {κ : Type} [Coder κ] (s : Stream κ) (call : Call) (room : Nat) (stage : Stage)

theorem advance_running
    (hrun : (Coder.pass call room s.coder).outcome = .running)
    (hmoves : ¬ ((Coder.pass call room s.coder).used = 0 ∧
      (Coder.pass call room s.coder).output = [])) :
    ∃ s' : Stream κ, s.advance call room stage =
        ⟨.ok false, (Coder.pass call room s.coder).used, (Coder.pass call room s.coder).output,
          s'⟩ ∧
      s'.coder = (Coder.pass call room s.coder).coder ∧ s'.stage = stage := by
  obtain ⟨coder, _, stalled, totalIn, totalOut⟩ := s
  rw [advance]
  dsimp only at hrun hmoves ⊢
  generalize Coder.pass call room coder = p at hrun hmoves ⊢
  obtain ⟨coder', used, output, outcome⟩ := p
  obtain rfl : outcome = .running := hrun
  refine ⟨_, if_neg ?_, rfl, rfl⟩
  rwa [Bool.and_eq_true, beq_iff_eq, List.isEmpty_iff]

theorem advance_ended
    (hended : (Coder.pass call room s.coder).outcome = .ended) :
    ∃ s' : Stream κ, s.advance call room stage =
      ⟨.ok true, (Coder.pass call room s.coder).used, (Coder.pass call room s.coder).output,
        s'⟩ := by
  obtain ⟨coder, _, stalled, totalIn, totalOut⟩ := s
  rw [advance]
  dsimp only at hended ⊢
  generalize Coder.pass call room coder = p at hended ⊢
  obtain ⟨coder', used, output, outcome⟩ := p
  obtain rfl : outcome = .ended := hended
  exact ⟨_, rfl⟩

end Stream

/-- A stream whose encoder goes on to serve a payload: there may be more data. -/
structure Stream.Serves (s : Stream Encoder) (t : Settings) (data rest out : List UInt8) :
    Prop where
  stage : s.stage = .running
  isOpen : s.coder.closed = false
  coder : s.coder.Serves t data rest out

/-- A call that brings data moves some of it, or some of the payload. -/
theorem Stream.Serves.of_encode {s s' : Stream Encoder} {t : Settings}
    {data chunk rest out : List UInt8} (hs : s.Serves t data (chunk ++ rest) out)
    (hchunk : chunk ≠ []) {room : Nat} (hroom : 0 < room) {result : Except IoError Encoded}
    (h : s.encode chunk room = (result, s')) :
    ∃ moved, result = .ok moved ∧ ¬ (moved.used = 0 ∧ moved.output = []) ∧
      s'.Serves t data (chunk.drop moved.used ++ rest) (out ++ moved.output) := by
  obtain ⟨hrun, hopen, hmoves⟩ := Encoder.feed_moves hs.isOpen hchunk hroom
  obtain ⟨s₁, hadvance, hcoder, hstage⟩ :=
    advance_running s (.feed chunk) room .running hrun hmoves
  rw [Stream.encode, encodeCall, call_eq_advance (by rw [hs.stage]; rfl), hadvance] at h
  cases h
  refine ⟨_, rfl, hmoves, hstage, ?_, ?_⟩
  · rw [hcoder]
    exact hopen
  · rw [hcoder]
    exact hs.coder.feed room

/-- A call that asks for the rest gives the last of it, or some of it. -/
theorem Stream.finish_cases {s s' : Stream Encoder} {t : Settings} {data out : List UInt8}
    (hs : s.coder.Serves t data [] out) (hstage : s.stage = .running ∨ s.stage = .finishing)
    {room : Nat} (hroom : 0 < room) {result : Except IoError Encoded}
    (h : s.finish room = (result, s')) :
    ∃ moved, result = .ok moved ∧
      (moved.ended = true ∧
          out ++ moved.output = payload t.props t.dictSize (symbolsFor t data.toArray) ∨
        moved.ended = false ∧ moved.output ≠ [] ∧ s'.stage = .finishing ∧
          s'.coder.Serves t data [] (out ++ moved.output)) := by
  have hcall : s.call .finish room = s.advance .finish room .finishing := by
    refine call_eq_advance ?_ room
    rcases hstage with hstage | hstage <;> rw [hstage] <;> rfl
  rw [Stream.finish, encodeCall, hcall] at h
  obtain ⟨-, ⟨hended, hclosed, hqueue⟩ | ⟨hrun, hout⟩⟩ := s.coder.finish_moves hroom
  · obtain ⟨s₁, hadvance⟩ := advance_ended s .finish room .finishing hended
    rw [hadvance] at h
    cases h
    exact ⟨_, rfl, .inl ⟨rfl, (hs.finish room).complete hclosed hqueue⟩⟩
  · obtain ⟨s₁, hadvance, hcoder, hstage'⟩ :=
      advance_running s .finish room .finishing hrun fun hnone => hout hnone.2
    rw [hadvance] at h
    cases h
    refine ⟨_, rfl, .inr ⟨rfl, hout, hstage', ?_⟩⟩
    rw [hcoder]
    exact hs.finish room

/-! ## The loops in a fair world -/

namespace Encoding

variable {ω : Type} [Channel ω] [Fair ω]
variable {s : Stream Encoder} {l : Line ω} {t : Settings} {total : Nat} {c : Scene}
variable {data rest out : List UInt8}

theorem encodeChunk_spec {chunk : List UInt8} (hs : s.Serves t data (chunk ++ rest) out)
    (hl : l.Along total c) :
    ∃ s' l' more, encodeChunk s l chunk = (.ok s', l') ∧ s'.Serves t data rest (out ++ more) ∧
      l'.Along total { c with delivered := c.delivered ++ more } := by
  have hroom : 0 < Staging.defaultSize := by decide
  fun_induction encodeChunk s l chunk generalizing c out with
  | case1 s l => exact ⟨s, l, [], rfl, by rwa [List.append_nil], by rwa [List.append_nil]⟩
  | case2 s l chunk hne e s' l₁ hcall =>
      obtain ⟨rfl, hcalled⟩ := Line.eq_of_encodeCall hcall
      obtain ⟨moved, hres, -⟩ := hs.of_encode hne hroom hcalled
      cases hres
  | case3 s l chunk hne moved s' l₁ hcall e l' hpush =>
      obtain ⟨rfl, hcalled⟩ := Line.eq_of_encodeCall hcall
      obtain ⟨hres, -⟩ := hl.of_push hpush
      cases hres
  | case4 s l chunk hne moved s' l₁ hcall l' hpush hnone =>
      obtain ⟨rfl, hcalled⟩ := Line.eq_of_encodeCall hcall
      obtain ⟨moved', hres, hmoves, -⟩ := hs.of_encode hne hroom hcalled
      cases hres
      exact absurd hnone hmoves
  | case5 s l chunk hne moved s' l₁ hcall l' hpush hmoves ih =>
      obtain ⟨rfl, hcalled⟩ := Line.eq_of_encodeCall hcall
      obtain ⟨moved', hres, -, hs'⟩ := hs.of_encode hne hroom hcalled
      cases hres
      obtain ⟨-, hl'⟩ := hl.of_push hpush
      obtain ⟨s₂, l₂, more, hrest, hs₂, hl₂⟩ := ih hs' hl'
      refine ⟨s₂, l₂, moved.output ++ more, hrest, ?_, ?_⟩
      · rwa [List.append_assoc] at hs₂
      · rwa [List.append_assoc] at hl₂

theorem finish_spec (hs : s.coder.Serves t data [] out)
    (hstage : s.stage = .running ∨ s.stage = .finishing) (hl : l.Along total c) :
    ∃ l' more, finish s l = (.ok (), l') ∧
      out ++ more = payload t.props t.dictSize (symbolsFor t data.toArray) ∧
      l'.Along total { c with delivered := c.delivered ++ more } := by
  have hroom : 0 < Staging.defaultSize := by decide
  fun_induction finish s l generalizing c out with
  | case1 s l e s' l₁ hcall =>
      obtain ⟨rfl, hcalled⟩ := Line.eq_of_encodeCall hcall
      obtain ⟨moved, hres, -⟩ := Stream.finish_cases hs hstage hroom hcalled
      cases hres
  | case2 s l moved s' l₁ hcall e l' hpush =>
      obtain ⟨rfl, hcalled⟩ := Line.eq_of_encodeCall hcall
      obtain ⟨hres, -⟩ := hl.of_push hpush
      cases hres
  | case3 s l moved s' l₁ hcall l' hpush hended =>
      obtain ⟨rfl, hcalled⟩ := Line.eq_of_encodeCall hcall
      obtain ⟨-, hl'⟩ := hl.of_push hpush
      obtain ⟨moved', hres, ⟨-, hout⟩ | ⟨hgoes, -⟩⟩ := Stream.finish_cases hs hstage hroom hcalled
      · cases hres
        exact ⟨l', moved.output, rfl, hout, hl'⟩
      · cases hres
        exact absurd hgoes (by simp [hended])
  | case4 s l moved s' l₁ hcall l' hpush hgoes hnone =>
      obtain ⟨rfl, hcalled⟩ := Line.eq_of_encodeCall hcall
      obtain ⟨moved', hres, ⟨hended, -⟩ | ⟨-, hout, -⟩⟩ :=
        Stream.finish_cases hs hstage hroom hcalled
      · cases hres
        exact absurd hended hgoes
      · cases hres
        exact absurd hnone hout
  | case5 s l moved s' l₁ hcall l' hpush hgoes hmoves ih =>
      obtain ⟨rfl, hcalled⟩ := Line.eq_of_encodeCall hcall
      obtain ⟨-, hl'⟩ := hl.of_push hpush
      obtain ⟨moved', hres, ⟨hended, -⟩ | ⟨-, -, hstage', hs'⟩⟩ :=
        Stream.finish_cases hs hstage hroom hcalled
      · cases hres
        exact absurd hended hgoes
      · cases hres
        obtain ⟨l₂, more, hrest, hall, hl₂⟩ := ih hs' (.inr hstage') hl'
        refine ⟨l₂, moved.output ++ more, hrest, ?_, ?_⟩
        · rwa [List.append_assoc] at hall
        · rwa [List.append_assoc] at hl₂

/-- A read that brings something, and what the encoder makes of it. -/
theorem pull_encode {staging : Staging} (hsize : 0 < staging.size) {l₁ l₂ : Line ω}
    {ahead before : List UInt8} {r : Reading} {result : Except Error (Stream Encoder)}
    (hs : s.Serves t data ahead out) (hl : l.Along total ⟨ahead, some .ended, before⟩)
    (hpull : l.pull staging.size = (.ok r, l₁)) (hcount : r.count ≠ 0)
    (hchunk : encodeChunk s (l₁.note (.encodingChunk r.count))
      ((staging.receive r.placed).chunk r.count) = (result, l₂)) :
    ∃ s' more, result = .ok s' ∧ s'.Serves t data (ahead.drop r.count) (out ++ more) ∧
      l₂.Along total ⟨ahead.drop r.count, some .ended, before ++ more⟩ := by
  rcases hl.pull_cases hsize hpull with ⟨-, -, ⟨-, r', hr, hzero⟩ | ⟨e, -, he⟩⟩ |
    ⟨r', hr, hpos, hle, hplaced, hbytes, hl₁⟩
  · cases hr
    exact absurd hzero hcount
  · cases he
  · cases hr
    rw [Staging.chunk_receive hplaced hle, hbytes] at hchunk
    rw [← List.take_append_drop r.count ahead] at hs
    obtain ⟨s', l', more, hchunk', hs', hl'⟩ :=
      encodeChunk_spec hs (hl₁.note (.encodingChunk r.count))
    rw [hchunk] at hchunk'
    cases hchunk'
    exact ⟨s', more, rfl, hs', hl'⟩

/-- However the data comes, what a run passes on is one payload. -/
theorem run_spec {staging : Staging} (hsize : 0 < staging.size) (state : CompressState)
    {ahead before : List UInt8} (hs : s.Serves t data ahead out)
    (hl : l.Along total ⟨ahead, some .ended, before⟩) :
    ∃ l' ending more, run s staging l state = (.ok (), .encoding, l') ∧
      out ++ more = payload t.props t.dictSize (symbolsFor t data.toArray) ∧
      l'.Along total ⟨[], ending, before ++ more⟩ := by
  fun_induction run s staging l state generalizing ahead before out with
  | case1 s staging l state e l' hpull =>
      rcases hl.pull_cases hsize hpull with ⟨-, -, ⟨-, r, hr, -⟩ | ⟨e', he, -⟩⟩ | ⟨r, hr, -⟩
      · cases hr
      · cases he
      · cases hr
  | case2 s staging l state r l' hpull state' hcount result l₁ =>
      rename_i hfinish
      rcases hl.pull_cases hsize hpull with ⟨rfl, ⟨ending, hl'⟩, -⟩ | ⟨r', hr, hpos, -⟩
      · obtain ⟨l₂, more, hfinish', hall, hl₂⟩ := finish_spec hs.coder (.inl hs.stage) hl'
        rw [hfinish] at hfinish'
        cases hfinish'
        exact ⟨l₁, ending, more, rfl, hall, hl₂⟩
      · cases hr
        exact absurd hcount (Nat.ne_of_gt hpos)
  | case3 s staging l state r l' hpull state' hcount staging' e l₁ =>
      rename_i hchunk
      obtain ⟨s', more, hres, -⟩ := pull_encode hsize hs hl hpull hcount hchunk
      cases hres
  | case4 s staging l state r l' hpull state' hcount staging' s' l₁ =>
      rename_i hchunk ih
      obtain ⟨s₁, more, hres, hs₁, hl₁⟩ := pull_encode hsize hs hl hpull hcount hchunk
      cases hres
      obtain ⟨l₂, ending, more', hrun, hall, hl₂⟩ := ih hsize hs₁ hl₁
      refine ⟨l₂, ending, more ++ more', hrun, ?_, ?_⟩
      · rwa [List.append_assoc] at hall
      · rwa [List.append_assoc] at hl₂

end Encoding

/-- The settings that options ask for. -/
def Options.settings (o : Options) : Settings :=
  { props := o.coding, dictSize := o.dictSize.toNat, effort := .ofPreset o.level.number }

/-- The stream that options ask for, of some data. -/
def Options.stream (o : Options) (data : List UInt8) : List UInt8 :=
  o.header.toBytes ++ payload o.coding o.dictSize.toNat (symbolsFor o.settings data.toArray)

theorem Options.headerSize_le_stream (o : Options) (data : List UInt8) :
    headerSize ≤ (o.stream data).length := by
  rw [stream, List.length_append, Header.length_toBytes]
  exact Nat.le_add_right _ _

/-- The options that an encoder can be set up for. -/
structure Options.Accepted (o : Options) : Prop where
  preset : presetSupported o.level.number = true
  coding : o.coding.Supported
  dictSize : encoderDictSupported o.dictSize.toNat = true

theorem Engine.encoderFor_ok {o : Options} (hcoding : o.coding.Supported)
    (hdict : encoderDictSupported o.dictSize.toNat = true) :
    encoderFor o = .ok (.start o.settings) :=
  if_pos ⟨hcoding, hdict⟩

namespace Compressor

variable {ω : Type} [Channel ω] [Fair ω] {c : Compressor ω} {w : ω} {data : List UInt8}

theorem emit_spec {a : Allocator ω} {session : CompressSession ω}
    (hs : session.For a (.start c.options.settings)) (hformat : c.options.format = .lzma)
    (hw : Fair.scene w = some ⟨data, some .ended, []⟩) :
    ∃ l ending, c.emit session c.state w = (.ok (), .encoding, l) ∧
      l.Along data.length ⟨[], ending, c.options.stream data⟩ := by
  have hstaging : 0 < (Staging.ofList session.input.buffer.bytes).size := by
    rw [session.input.size_staging, hs.inputSize]
    decide
  have hserves : session.engine.stream.Serves c.options.settings data data [] := by
    rw [hs.stream]
    exact ⟨rfl, rfl, .start _ _⟩
  obtain ⟨l₁, hpush, hl₁⟩ := ((Line.Along.start hw).note
    (.compressionStarting c.options.header c.options.level)).push c.options.header.toBytes
  obtain ⟨l, ending, more, hrun, hall, hl⟩ :=
    Encoding.run_spec hstaging .headerWritten hserves hl₁
  obtain rfl : more = _ := hall
  refine ⟨l, ending, ?_, hl⟩
  rw [emit, if_neg (not_not_intro hformat)]
  dsimp only
  rw [hpush]
  exact hrun

variable [Provident]

/-- A run whose options are accepted writes one stream, however its data comes. -/
theorem run_spec (hfresh : c.isFresh = true) (ha : c.allocator.Grants)
    (hpreset : presetSupported c.options.level.number = true)
    (hcoding : c.options.coding.Supported)
    (hdict : encoderDictSupported c.options.dictSize.toNat = true)
    (hformat : c.options.format = .lzma)
    (hw : Fair.scene w = some ⟨data, some .ended, []⟩) :
    ∃ c' w' ending, c.run w = (.ok (), c', w') ∧
      Fair.scene w' = some ⟨[], ending, c.options.stream data⟩ ∧
      c'.totalIn = data.length ∧ c'.totalOut = (c.options.stream data).length := by
  obtain ⟨session, w₁, hacquire, hs, hw₁⟩ :=
    CompressSession.acquire_ok ha.lends hw hpreset (Engine.encoderFor_ok hcoding hdict)
  obtain ⟨l, ending, hemit, hl⟩ := emit_spec hs hformat hw₁
  have hdrive : c.drive w =
      (.ok (), .encoding, { l with world := session.release l.world }) := by
    rw [drive_eq, hacquire]
    dsimp only
    rw [hemit]
  refine ⟨{ c with totalIn := l.taken, totalOut := l.given, state := .done }, _, ending, ?_,
    Fair.scene_note (.compressionFinished l.taken l.given) (hs.release ha.lends hl.scene), hl.taken,
    hl.given⟩
  rw [run, if_pos hfresh, hdrive]

end Compressor

end Lzma
