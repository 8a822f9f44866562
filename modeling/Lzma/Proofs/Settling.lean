import Lzma.Channel.Tap
import Lzma.Proofs.Expansion
import Lzma.Proofs.Faithful
import Lzma.Proofs.Scripted
import Lzma.Proofs.Upkeep
import Lzma.Proofs.Yield

/-!
# Decompression ends, and it never stalls

A run has two guards against standing still: the pump's, against a decoder that is
offered input and moves nothing, and the stream's, against a second call in a row that
moves nothing. Neither is ever set off, whatever the source gives and however the sink
answers. A pass of the decoder moves nothing only when it wants input and there is
none (`Decoder.pump_idle`). The inner loop offers nothing at all only to a decoder
that has just filled its room, and leaves the chunk when such a call moves nothing;
the next chunk brings input. So no idle call follows another.

That runs end is in the definitions: a chunk is paid for by the source
(`Channel.credit`), and within a chunk a call takes something, or gives some of what
the decoder can give without further input (`Pump.pending`), or is the last one.
`Record.Kept` counts the calls, and `Decoding.Paid` bounds the pieces among them by the
bytes that were taken.
-/

namespace Lzma

/-- The failure of a guard against standing still. -/
def Error.Stall (e : Error) : Prop :=
  e = .decompress Pump.stuck ∨ e = .decompress Fault.noProgress.toIoError

theorem Error.not_stall_of_code {e : Error} (h : e.code ≠ .decompress) : ¬e.Stall := by
  rintro (rfl | rfl) <;> exact h rfl

theorem Error.not_stall_of_fault {fault : Fault} (h : fault ≠ .noProgress) :
    ¬(Error.decompress fault.toIoError).Stall := by
  cases fault with
  | noProgress => exact absurd rfl h
  | misuse => rintro (h | h) <;> exact absurd h (by decide)
  | _ => rintro (h | h) <;> cases h

variable {ω : Type} [Channel ω]

theorem Line.push_error {l l' : Line ω} {bytes : List UInt8} {e : Error}
    (h : l.push bytes = (.error e, l')) : ¬e.Stall := by
  obtain ⟨world, taken, given⟩ := l
  rw [push] at h
  split at h
  · cases h
  · split at h
    · cases h
      exact Error.not_stall_of_code (by simp [Error.code])
    · split at h <;> cases h
      exact Error.not_stall_of_code (by simp [Error.code])

theorem Line.stream_decode {l l' : Line (Decoding ω)} {input : List UInt8} {room : Nat}
    {result : Except IoError Decoded} (h : l.decode input room = (result, l')) :
    l.world.stream.decode input room = (result, l'.world.stream) := by
  obtain ⟨⟨world, stream⟩, taken, given⟩ := l
  cases h
  rfl

/-- A call that does not end the payload leaves the stream as its pass left it. -/
theorem Line.continued {l l₁ l₂ : Line (Decoding ω)} {chunk : List UInt8} {room : Nat}
    {moved : Decoded} {result : Except Error Unit} (hstage : l.world.stream.stage = .running)
    (hdecode : l.decode chunk room = (.ok moved, l₁))
    (hpush : l₁.push moved.output = (result, l₂)) (hstatus : moved.status ≠ .finished) :
    moved.used = (l.world.stream.coder.pump chunk room).used ∧
      moved.output = (l.world.stream.coder.pump chunk room).output ∧
      l₂.world.stream.Continued (l.world.stream.coder.pump chunk room) moved room := by
  have hstream := l₁.stream_push moved.output
  rw [hpush] at hstream
  obtain ⟨hused, houtput, ⟨-, hfinished⟩ | hcont⟩ :=
    Stream.decode_ok hstage (stream_decode hdecode)
  · exact absurd hfinished hstatus
  · exact ⟨hused, houtput, hstream ▸ hcont⟩

namespace Pump

/-- What an offer leaves behind: no guard was set off, and a stream that goes on can go on. -/
structure Settles (l' : Line (Decoding ω)) (result : Except Error Bool) : Prop where
  fails (e : Error) : result = .error e → ¬e.Stall
  running : result = .ok false → l'.world.stream.stage = .running

/--
No guard is set off within a chunk. The invariant is that a stream that has stalled is not
called without input while it wants some.
-/
theorem offer_settles {room : Nat} (hroom : 0 < room) {l : Line (Decoding ω)} (chunk : List UInt8)
    (hstage : l.world.stream.stage = .running)
    (hready : l.world.stream.coder.view = .wants → chunk = [] → l.world.stream.stalled = false) :
    Settles (offer room l chunk).2 (offer room l chunk).1 := by
  fun_induction offer room l chunk with
  | case1 l chunk e l₁ hdecode =>
      obtain ⟨-, rfl⟩ := Stream.decode_error hstage hroom hready (Line.stream_decode hdecode)
      refine ⟨fun e he => ?_, by simp⟩
      cases he
      exact Error.not_stall_of_fault (by simp)
  | case2 l chunk moved l₁ hdecode e l₂ hpush =>
      refine ⟨fun e' he => ?_, by simp⟩
      cases he
      exact Line.push_error hpush
  | case3 l chunk moved l₁ hdecode l₂ hpush rest =>
      exact ⟨by simp, by simp⟩
  | case4 l chunk moved l₁ hdecode l₂ hpush rest =>
      rename_i hstatus hidle hrest
      obtain ⟨-, -, hcont⟩ := Line.continued hstage hdecode hpush hstatus
      exact ⟨by simp, fun _ => hcont.stage⟩
  | case5 l chunk moved l₁ hdecode l₂ hpush rest =>
      rename_i hstatus hidle hrest
      obtain ⟨hused, houtput, hcont⟩ := Line.continued hstage hdecode hpush hstatus
      rw [hused, houtput] at hidle
      -- A pass is idle only without input, and this one was left with some.
      have hnil := (Decoder.pump_idle hroom hcont.running hidle.1 hidle.2).2
      exact absurd (show chunk.drop moved.used = [] by rw [hnil, List.drop_nil]) hrest
  | case6 l chunk moved l₁ hdecode l₂ hpush rest =>
      rename_i hstatus hmoves hdone
      obtain ⟨-, -, hcont⟩ := Line.continued hstage hdecode hpush hstatus
      exact ⟨by simp, fun _ => hcont.stage⟩
  | case7 l chunk moved l₁ hdecode l₂ hpush rest =>
      rename_i hstatus hmoves hmore ih
      obtain ⟨hused, houtput, hcont⟩ := Line.continued hstage hdecode hpush hstatus
      -- The call moved something, so the stream has not stalled, whatever it is offered next.
      refine ih hcont.stage fun _ _ => ?_
      rw [hcont.stalled, ← hused, ← houtput]
      simpa using hmoves

theorem chunk_ne_nil {staging : Staging} {l l₁ : Line (Decoding ω)} {r : Reading}
    (hpull : l.pull staging.size = (.ok r, l₁)) (hcount : r.count ≠ 0) :
    (staging.receive r.placed).chunk r.count ≠ [] := by
  have hsize : staging.size ≠ 0 := by
    intro hzero
    rw [Line.pull, if_pos hzero] at hpull
    cases hpull
    exact hcount rfl
  intro hnil
  have hlength := congrArg List.length hnil
  rw [Staging.chunk, List.length_take, Staging.length_held] at hlength
  simp only [Staging.receive, List.length_nil] at hlength
  omega

theorem turn_settles {room : Nat} (hroom : 0 < room) {staging : Staging} {l l₁ : Line (Decoding ω)}
    {r : Reading} (hstage : l.world.stream.stage = .running)
    (hpull : l.pull staging.size = (.ok r, l₁)) (hcount : r.count ≠ 0) {l₂ : Line (Decoding ω)}
    {result : Except Error Bool}
    (hoffer : offer room (l₁.note (.decodingChunk r.count))
      ((staging.receive r.placed).chunk r.count) = (result, l₂)) : Settles l₂ result := by
  have hstream := l.stream_pull staging.size
  rw [hpull] at hstream
  have hsettles := offer_settles hroom (l := l₁.note (.decodingChunk r.count))
    ((staging.receive r.placed).chunk r.count)
    (by rw [← hstage, ← hstream]; rfl) fun _ hnil => absurd hnil (chunk_ne_nil hpull hcount)
  rwa [hoffer] at hsettles

/-- No guard is set off in a run, since every chunk brings input. -/
theorem run_settles {room : Nat} (hroom : 0 < room) {staging : Staging} {l : Line (Decoding ω)}
    (state : DecompressState) (hstage : l.world.stream.stage = .running) (e : Error)
    (he : (run room staging l state).1 = .error e) : ¬e.Stall := by
  fun_induction run room staging l state with
  | case1 staging l state e' l₁ hpull =>
      cases he
      exact Error.not_stall_of_code (by simp [Error.code])
  | case2 staging l state r l₁ hpull hcount =>
      cases he
      exact Error.not_stall_of_code (by simp [Error.code])
  | case3 staging l state r l₁ hpull hcount state' staging' e' l₂ =>
      rename_i hoffer
      cases he
      exact (turn_settles hroom hstage hpull hcount hoffer).fails e rfl
  | case4 staging l state r l₁ hpull hcount state' staging' l₂ => cases he
  | case5 staging l state r l₁ hpull hcount state' staging' l₂ =>
      rename_i hoffer ih
      exact ih ((turn_settles hroom hstage hpull hcount hoffer).running rfl) he

end Pump

/-! ## Runs -/

/-- What a run has in hand when it comes to the payload, if it gets there. -/
def Decompressor.opening [Manner] (c : Decompressor ω) (w : ω) :
    Option (DecompressSession ω × Line ω) :=
  match readHeader ({ world := w } : Line ω) with
  | (.error _, _) => none
  | (.ok header, l) =>
      let l := l.note (.decompressionStarting header)
      match DecompressSession.acquire header c.allocator l.world with
      | (.error _, _) => none
      | (.ok session, world) => some (session, { l with world })

section

variable [Provident]

namespace DecompressSession

variable {h : Header} {a : Allocator ω} {w w' : ω}

theorem not_stall_of_acquire {e : Error} (hacquire : acquire h a w = (.error e, w')) :
    ¬e.Stall := by
  have hrefused : ¬refused.Stall := @Error.not_stall_of_fault .outOfMemory (by simp)
  rw [acquire, Engine.acquireDecoder] at hacquire
  split at hacquire
  · next fault w₁ hengine =>
      cases hacquire
      apply Error.not_stall_of_fault
      rintro rfl
      rcases Engine.fault_of_acquire hengine with hfault | hcoder
      · cases hfault
      · rw [Engine.decoderFor] at hcoder
        split at hcoder <;> cases hcoder
  · split at hacquire
    · cases hacquire
      exact hrefused
    · split at hacquire <;> cases hacquire
      exact hrefused

/-- A session as it is acquired: no call was made yet, and there is room for output. -/
structure Live (session : DecompressSession ω) : Prop where
  stage : session.engine.stream.stage = .running
  steady : session.engine.stream.coder.Steady
  room : session.output.size = decodedSize

theorem live_of_acquire {session : DecompressSession ω}
    (hacquire : acquire h a w = (.ok session, w')) : session.Live := by
  obtain ⟨d, hd, hstream⟩ := stream_of_acquire hacquire
  rw [Engine.decoderFor] at hd
  split at hd <;> cases hd
  refine ⟨by rw [hstream], ?_, room_of_acquire hacquire⟩
  rw [hstream]
  exact Decoder.steady_start _ _

/-- Where the pump begins. -/
def start (session : DecompressSession ω) (l : Line ω) : Line (Decoding ω) :=
  { l with world := { world := l.world, stream := session.engine.stream } }

/-- The payload's part of a run, written down. -/
def record (session : DecompressSession ω) (l : Line ω) :
    Except Error Unit × DecompressState × Line (Traced (Decoding ω)) :=
  Pump.run session.output.size (.ofList session.input.buffer.bytes) (session.start l).traced
    .allocated

end DecompressSession

namespace Decompressor

omit [Provident] in
theorem not_stall_of_gather {l l' : Line ω} {old : List UInt8} {e : Error}
    (h : l.gather old = (.error e, l')) : ¬e.Stall := by
  fun_induction Line.gather l old generalizing l' with
  | case1 l old hempty => cases h
  | case2 l old hne e' l₁ hpull =>
      cases h
      exact Error.not_stall_of_code (by simp [Error.code])
  | case3 l old hne r l₁ hpull hcount => cases h
  | case4 l old hne r l₁ hpull hcount new e' l₂ hgather =>
      rename_i ih
      cases h
      exact ih hgather
  | case5 l old hne r l₁ hpull hcount new more l₂ hgather => cases h

omit [Provident] in
theorem not_stall_of_readHeader {l l' : Line ω} {e : Error}
    (h : readHeader l = (.error e, l')) : ¬e.Stall := by
  rw [readHeader] at h
  split at h
  · next hgather =>
      cases h
      exact not_stall_of_gather hgather
  · split at h
    · cases h
      exact Error.not_stall_of_code (by simp [Error.code])
    · obtain ⟨hparse, -⟩ := Prod.mk.inj h
      rw [Header.parse] at hparse
      split at hparse
      · rw [Header.decode] at hparse
        dsimp only at hparse
        split at hparse
        · cases hparse
          exact Error.not_stall_of_code (by simp [Error.code])
        · split at hparse <;> cases hparse
          exact Error.not_stall_of_code (by simp [Error.code])
      · cases hparse
        exact Error.not_stall_of_code (by simp [Error.code])

/-- A run fails before the payload with an error of its own, or comes to what the pump does. -/
theorem drive_cases (c : Decompressor ω) (w : ω) :
    (c.opening w = none ∧ ∃ e, (c.drive w).1 = .error e ∧ ¬e.Stall) ∨
      ∃ session l, c.opening w = some (session, l) ∧ session.Live ∧
        (c.drive w).1 = (session.pump DecompressState.allocated l).1 := by
  rw [opening, drive, follow]
  rcases hheader : readHeader ({ world := w } : Line ω) with ⟨e | header, l⟩
  · exact .inl ⟨rfl, e, rfl, not_stall_of_readHeader hheader⟩
  · dsimp only
    rcases hacquire : DecompressSession.acquire header c.allocator
      (l.note (.decompressionStarting header)).world with ⟨e | session, world⟩
    · exact .inl ⟨rfl, e, rfl, DecompressSession.not_stall_of_acquire hacquire⟩
    · refine .inr ⟨session, _, rfl, DecompressSession.live_of_acquire hacquire, ?_⟩
      exact congrArg Prod.fst
        (extract_eq (DecompressSession.housekeeping_of_acquire hacquire) _ _)

theorem fails_of_run {c : Decompressor ω} {w : ω} {e : Error} (h : (c.run w).1 = .error e) :
    e = alreadyRan ∨ (c.drive w).1 = .error e := by
  rw [run] at h
  split at h
  · rcases hdrive : c.drive w with ⟨_ | _, state, header, l⟩ <;> rw [hdrive] at h <;> cases h
    exact .inr rfl
  · cases h
    exact .inl rfl

/-- The error of a run is never that of a guard against standing still. -/
theorem not_stall_of_run {c : Decompressor ω} {w : ω} {e : Error} (h : (c.run w).1 = .error e) :
    ¬e.Stall := by
  rcases fails_of_run h with rfl | hdrive
  · exact Error.not_stall_of_code (by simp [Error.code, alreadyRan])
  · rcases c.drive_cases w with ⟨-, e', he', hstall⟩ | ⟨session, l, -, hlive, heq⟩
    · rw [hdrive] at he'
      cases he'
      exact hstall
    · refine Pump.run_settles ?_ .allocated (l := session.start l) hlive.stage e (heq ▸ hdrive)
      rw [hlive.room]
      decide

/-- What is written down of a payload is what the run did with it. -/
theorem record_of_opening {c : Decompressor ω} {w : ω} {session : DecompressSession ω}
    {l : Line ω} (h : c.opening w = some (session, l)) :
    session.Live ∧ (session.record l).1 = (c.drive w).1 := by
  rcases c.drive_cases w with ⟨hnone, -⟩ | ⟨session', l', hopening, hlive, heq⟩
  · rw [hnone] at h
    cases h
  · rw [hopening] at h
    cases h
    obtain ⟨l₁, hrun, -⟩ := Pump.run_traced session.output.size
      (.ofList session.input.buffer.bytes) (session.start l) .allocated
    exact ⟨hlive, (congrArg Prod.fst hrun).trans heq.symm⟩

omit [Provident] in
theorem paid_of_live {session : DecompressSession ω} (h : session.Live) (l : Line ω) :
    Decoding.Paid (session.record l).2.2.world := by
  have hleft := Stream.left_le h.steady
  refine Decoding.paid_kept.run _ _ _ ⟨h.steady, ?_⟩
  show 0 + session.engine.stream.left ≤ _
  omega

/-- A run ends without having stalled, and its calls of the decoder are counted. -/
structure Settles (c : Decompressor ω) (w : ω) : Prop where
  fails (e : Error) : (c.run w).1 = .error e → ¬e.Stall
  payload (session : DecompressSession ω) (l : Line ω) : c.opening w = some (session, l) →
    let ds := (session.record l).2.2.deeds
    let chunks := Record.chunks (.ofList session.input.buffer.bytes) ds
    (session.record l).1 = (c.drive w).1 ∧ Record.Final ds ∧ chunks.length ≤ l.credit ∧
      Record.consumed ds <+: chunks.flatten ∧
      (Record.emitted ds).length ≤
        (Decoder.mostPending + 1) * (Record.consumed ds).length + Decoder.mostPending ∧
      Record.decodes ds ≤
        (Record.consumed ds).length + (Record.emitted ds).length + chunks.length

/--
Decompression ends and never stalls. The error of a run is never that of a guard against
standing still. Once the decoder has failed or finished it is not called again. How often it
is called is bounded by what the source brings: a call takes a byte, gives a piece or is the
one idle call for its chunk, a byte pays for so many pieces, and there are no more chunks than
the source pays for. Of the source it is asked only that so many reads bring something before
it ends or fails for the first time.
-/
theorem settles :
    (∀ {ω : Type} [Channel ω] (c : Decompressor ω) (w : ω), c.Settles w) ∧
      ∀ {σ τ μ : Type} [RawSource σ] [Sink τ] (s : σ) (n : Nat) (h : RawSource.Lasts n s)
        (sink : τ) (memory : μ) (c : Decompressor (Exchange (Option (Tap σ)) τ μ)),
        c.Settles { source := some ⟨s, n, h⟩, sink, memory } := by
  have hall {ω : Type} [Channel ω] (c : Decompressor ω) (w : ω) : c.Settles w := by
    refine ⟨fun e he => not_stall_of_run he, fun session l hopening => ?_⟩
    obtain ⟨hkept, hchunks⟩ := Pump.deeds_kept session.output.size
      (.ofList session.input.buffer.bytes) (session.start l) .allocated
    obtain ⟨hlive, hrecord⟩ := record_of_opening hopening
    exact ⟨hrecord, hkept.final, hchunks, hkept.fits.consumed_prefix,
      Nat.le_trans (Nat.le_add_right _ _) (paid_of_live hlive l).paid, hkept.decodes⟩
  exact ⟨fun c w => hall c w, fun s n h sink memory c => hall c _⟩

end Decompressor

end

namespace Decompressor

/-- A stream of no data gets to its payload, and ends there. -/
theorem settles_of_no_data :
    let bytes := Header.stream { lc := 3, pb := 2, dictSize := 4096 } []
    let c : Decompressor (Exchange ScriptedSource ScriptedSink Unit) := {}
    (∃ session l, c.opening (Exchange.ofBytes 4 bytes ()) = some (session, l)) ∧
      c.Settles (Exchange.ofBytes 4 bytes ()) := by
  intro bytes c
  refine ⟨?_, settles.1 c _⟩
  rcases c.drive_cases (Exchange.ofBytes 4 bytes ()) with ⟨-, e, hdrive, -⟩ |
    ⟨session, l, hopening, -⟩
  · have hx := Extraction.of_stream (h := { lc := 3, pb := 2, dictSize := 4096 }) [] (by decide)
      (by decide) (by decide) [] .ended
    rw [List.append_nil] at hx
    obtain ⟨_, _, _, _, _, hok, -⟩ := drive_spec Allocator.grants_standard
      (Exchange.scene_ofBytes 4 bytes () (by decide))
    rw [show c.drive _ = _ from hok, hx] at hdrive
    cases hdrive
  · exact ⟨session, l, hopening⟩

end Decompressor

end Lzma
