import Lzma.Decompressor
import Lzma.Proofs.Fair
import Lzma.Proofs.OneShot

/-!
# Pumping comes to the whole

The pump sees its input in chunks and gives its output in rooms, and neither
the chunks nor the rooms matter: in a fair world a run comes to what its decoder
comes to when it is given all of the input in one piece (`run_spec`). The
outcome of that one decoding decides the result, and its output is what is
delivered. A malformed payload is the one place where a part of it may be
missing, since a call that meets the fault gives nothing.

The invariant of the inner loop is that the decoder at hand, on what is left of
the chunk, comes to what is left of the whole. A pass that moves nothing would be
a danger to the loop, but it happens only to a decoder that wants input when
there is none (`pump_idle`); so it ends a chunk, the next chunk brings input, and
no stream stalls twice in a row.
-/

namespace Lzma

namespace Decoder

/-- Only a decoder without input to take moves nothing and goes on. -/
theorem pump_idle {d : Decoder} {input : List UInt8} {room : Nat} (hroom : 0 < room)
    (hrun : (d.pump input room).outcome = .running) (hused : (d.pump input room).used = 0)
    (hout : (d.pump input room).output = []) : d.view = .wants ∧ input = [] := by
  rcases pump_running hrun with ⟨-, hfull⟩ | ⟨hwants, hall⟩
  · rw [hout] at hfull
    exact absurd hfull (Nat.ne_of_lt hroom)
  · rw [hused] at hall
    obtain rfl : input = [] := List.eq_nil_of_length_eq_zero hall.symm
    refine ⟨?_, rfl⟩
    have hwhole := d.whole_pump [] room
    rw [hused, hout, Pass.behind_nil, List.drop_nil, whole_nil hwants] at hwhole
    cases hview : d.view with
    | wants => rfl
    | gives byte =>
        rw [whole_gives hview] at hwhole
        exact absurd (congrArg Pass.output hwhole) (by simp)
    | ended =>
        rw [whole_ended hview] at hwhole
        exact absurd (congrArg Pass.outcome hwhole) (by simp)
    | broken =>
        rw [whole_broken hview] at hwhole
        exact absurd (congrArg Pass.outcome hwhole) (by simp)

/-- A pass that has used up its input, with room to spare, is the whole of it. -/
theorem pump_spare {d : Decoder} {input : List UInt8} {room : Nat}
    (hrun : (d.pump input room).outcome = .running)
    (hspare : (d.pump input room).output.length ≠ room) :
    d.whole input = ⟨(d.pump input room).coder, input.length, (d.pump input room).output,
      .running⟩ := by
  rcases pump_running hrun with ⟨-, hfull⟩ | ⟨hwants, hall⟩
  · exact absurd hfull hspare
  · rw [d.whole_pump input room, hall, List.drop_length, whole_nil hwants, Pass.behind,
      Nat.add_zero, List.append_nil]

/-- A pass that has stopped is the whole of its input. -/
theorem pump_stopped {d : Decoder} {input : List UInt8} (room : Nat)
    (h : (d.pump input room).outcome ≠ .running) :
    (d.whole input).outcome = (d.pump input room).outcome ∧
      (d.whole input).used = (d.pump input room).used ∧
      (d.whole input).output = (d.pump input room).output := by
  have hwhole := d.whole_pump input room
  cases hout : (d.pump input room).outcome with
  | running => exact absurd hout h
  | ended =>
      rw [whole_ended (pump_ended hout)] at hwhole
      simp [hwhole]
  | corrupt =>
      rw [whole_broken (pump_corrupt hout)] at hwhole
      simp [hwhole]

end Decoder

/-! ## Calls of a stream -/

namespace Stream

/-- What a call does that leaves the stream running. -/
structure Continued (s' : Stream Decoder) (p : Pass Decoder) (r : Decoded) (room : Nat) :
    Prop where
  running : p.outcome = .running
  stage : s'.stage = .running
  coder : s'.coder = p.coder
  stalled : s'.stalled = (p.used == 0 && p.output.isEmpty)
  status : r.status = if p.output.length = room then .outputFull else .needsInput

/-- All that a successful call of a running decoder can do. -/
theorem decode_ok {s s' : Stream Decoder} {input : List UInt8} {room : Nat} {r : Decoded}
    (hs : s.stage = .running) (h : s.decode input room = (.ok r, s')) :
    r.used = (s.coder.pump input room).used ∧ r.output = (s.coder.pump input room).output ∧
      ((s.coder.pump input room).outcome = .ended ∧ r.status = .finished ∨
        s'.Continued (s.coder.pump input room) r room) := by
  rw [decode, call_eq_advance (by rw [hs]; rfl)] at h
  obtain ⟨coder, stage, stalled, totalIn, totalOut⟩ := s
  rw [advance] at h
  dsimp only at h ⊢
  rw [show Coder.pass (.feed input) room coder = coder.pump input room from rfl] at h
  generalize coder.pump input room = p at h ⊢
  obtain ⟨coder', used, output, outcome⟩ := p
  cases outcome with
  | running =>
      dsimp only at h
      split at h <;> rename_i hcall
      · cases h
      · split at hcall <;> rename_i hmoves
        · split at hcall
          · cases hcall
          · cases hcall
            cases h
            exact ⟨rfl, rfl, .inr ⟨rfl, rfl, rfl, hmoves.symm, rfl⟩⟩
        · cases hcall
          cases h
          exact ⟨rfl, rfl, .inr ⟨rfl, rfl, rfl, (Bool.eq_false_iff.mpr hmoves).symm, rfl⟩⟩
  | ended =>
      cases h
      exact ⟨rfl, rfl, .inl ⟨rfl, rfl⟩⟩
  | corrupt => cases h

/-- A failing call has met a fault in the payload, unless the stream had stalled before. -/
theorem decode_error {s s' : Stream Decoder} {input : List UInt8} {room : Nat} {e : IoError}
    (hs : s.stage = .running) (hroom : 0 < room)
    (hready : s.coder.view = .wants → input = [] → s.stalled = false)
    (h : s.decode input room = (.error e, s')) :
    (s.coder.pump input room).outcome = .corrupt ∧ e = Fault.corruptData.toIoError := by
  have hidle := @Decoder.pump_idle s.coder input room hroom
  rw [decode, call_eq_advance (by rw [hs]; rfl)] at h
  obtain ⟨coder, stage, stalled, totalIn, totalOut⟩ := s
  rw [advance] at h
  dsimp only at h hidle hready ⊢
  rw [show Coder.pass (.feed input) room coder = coder.pump input room from rfl] at h
  generalize coder.pump input room = p at h hidle ⊢
  obtain ⟨coder', used, output, outcome⟩ := p
  cases outcome with
  | running =>
      dsimp only at h
      split at h <;> rename_i hcall
      · split at hcall <;> rename_i hnone
        · rw [Bool.and_eq_true, beq_iff_eq, List.isEmpty_iff] at hnone
          obtain ⟨hwants, hnil⟩ := hidle rfl hnone.1 hnone.2
          rw [hready hwants hnil] at hcall
          cases hcall
        · cases hcall
      · cases h
  | ended => cases h
  | corrupt =>
      cases h
      exact ⟨rfl, rfl⟩

end Stream

/-! ## The pump in a fair world -/

variable {ω : Type} [Channel ω]

/-- A decoder beside a fair world changes nothing in it. -/
instance [Fair ω] : Fair (Decoding ω) where
  scene d := Fair.scene d.world
  scene_note event h := Fair.scene_note event h
  scene_write h hne := Fair.scene_write h hne
  scene_read h hne hroom := Fair.scene_read h hne hroom
  scene_read_ended h hroom := Fair.scene_read_ended h hroom
  scene_read_failure h hroom := Fair.scene_read_failure h hroom

namespace Line

theorem stream_push (l : Line (Decoding ω)) (bytes : List UInt8) :
    (l.push bytes).2.world.stream = l.world.stream := by
  unfold push
  split
  · rfl
  · dsimp only
    split <;> rename_i hwrite
    · exact congrArg (fun r => r.2.stream) hwrite.symm
    · split <;> exact congrArg (fun r => r.2.stream) hwrite.symm

theorem stream_pull (l : Line (Decoding ω)) (room : Nat) :
    (l.pull room).2.world.stream = l.world.stream := by
  unfold pull
  split
  · rfl
  · dsimp only
    split <;> rename_i hread
    · exact congrArg (fun r => r.2.stream) hread.symm
    · split <;> exact congrArg (fun r => r.2.stream) hread.symm

variable [Fair ω]

/-- A line in a fair world, with a certain stream beside it. -/
structure Beside (l : Line (Decoding ω)) (t : Stream Decoder) (total : Nat) (s : Scene) :
    Prop where
  along : l.Along total s
  stream : l.world.stream = t

namespace Beside

variable {l : Line (Decoding ω)} {t : Stream Decoder} {total : Nat} {s : Scene}

theorem note (hl : l.Beside t total s) (event : Event) : (l.note event).Beside t total s :=
  ⟨hl.along.note event, hl.stream⟩

theorem of_push (hl : l.Beside t total s) {bytes : List UInt8} {l' : Line (Decoding ω)}
    {result : Except Error Unit} (h : l.push bytes = (result, l')) :
    result = .ok () ∧ l'.Beside t total { s with delivered := s.delivered ++ bytes } := by
  obtain ⟨hres, hl'⟩ := hl.along.of_push h
  have hstream := l.stream_push bytes
  rw [h] at hstream
  exact ⟨hres, hl', hstream.trans hl.stream⟩

/-- A read brings the next bytes, or the answer that stands behind the last of them. -/
theorem pull_cases {ahead out : List UInt8} {ending : Ending}
    (hl : l.Beside t total ⟨ahead, some ending, out⟩) {room : Nat} (hroom : 0 < room)
    {l' : Line (Decoding ω)} {result : Except IoError Reading}
    (h : l.pull room = (result, l')) :
    ahead = [] ∧ (∃ ending', l'.Beside t total ⟨[], ending', out⟩) ∧
        (ending = .ended ∧ (∃ r, result = .ok r ∧ r.count = 0) ∨
          ∃ e, ending = .failure e ∧ result = .error e) ∨
      ∃ r, result = .ok r ∧ 0 < r.count ∧ r.count ≤ room ∧ r.count ≤ r.placed.length ∧
        r.placed.take r.count = ahead.take r.count ∧
        l'.Beside t total ⟨ahead.drop r.count, some ending, out⟩ := by
  have hstream := l.stream_pull room
  rw [h] at hstream
  replace hstream := hstream.trans hl.stream
  rcases hl.along.pull_cases hroom h with ⟨hnil, ⟨ending', hl'⟩, hans⟩ |
    ⟨r, hr, hpos, hle, hplaced, hbytes, hl'⟩
  · exact .inl ⟨hnil, ⟨ending', hl', hstream⟩, hans⟩
  · exact .inr ⟨r, hr, hpos, hle, hplaced, hbytes, hl', hstream⟩

/-- A call of the decoder is a call of the stream. -/
theorem decode (hl : l.Beside t total s) {input : List UInt8} {room : Nat} {l' : Line (Decoding ω)}
    {result : Except IoError Decoded} (h : l.decode input room = (result, l')) :
    ∃ t', t.decode input room = (result, t') ∧ l'.Beside t' total s := by
  obtain ⟨⟨world, stream⟩, taken, given⟩ := l
  obtain rfl : stream = t := hl.stream
  cases h
  exact ⟨(stream.decode input room).2, rfl,
    ⟨hl.along.scene, hl.along.taken, hl.along.given⟩, rfl⟩

/-- What a successful call gives is taken by the sink. -/
theorem decode_push (hl : l.Beside t total s) (hstage : t.stage = .running) {input : List UInt8}
    {room : Nat} {l₁ l₂ : Line (Decoding ω)} {moved : Decoded} {result : Except Error Unit}
    (hdecode : l.decode input room = (.ok moved, l₁))
    (hpush : l₁.push moved.output = (result, l₂)) :
    result = .ok () ∧ moved.used = (t.coder.pump input room).used ∧
      moved.output = (t.coder.pump input room).output ∧
      ∃ t', l₂.Beside t' total { s with delivered := s.delivered ++ moved.output } ∧
        ((t.coder.pump input room).outcome = .ended ∧ moved.status = .finished ∨
          t'.Continued (t.coder.pump input room) moved room) := by
  obtain ⟨t', hcall, hl₁⟩ := hl.decode hdecode
  obtain ⟨hres, hl₂⟩ := hl₁.of_push hpush
  obtain ⟨hused, hout, hends⟩ := Stream.decode_ok hstage hcall
  exact ⟨hres, hused, hout, t', hl₂, hends⟩

end Beside

end Line

namespace Pump

variable [Fair ω]

/-- What the pump makes of a chunk that its decoder came to some end on. -/
def offered : Outcome → Except Error Bool
  | .running => .ok false
  | .ended => .ok true
  | .corrupt => .error (.decompress Fault.corruptData.toIoError)

theorem offer_spec {room : Nat} (hroom : 0 < room) {l : Line (Decoding ω)} (chunk : List UInt8)
    {t : Stream Decoder} {total : Nat} {s : Scene} (hl : l.Beside t total s)
    (hstage : t.stage = .running)
    (hready : t.coder.view = .wants → chunk = [] → t.stalled = false) :
    ∃ l' t' out, offer room l chunk = (offered (t.coder.whole chunk).outcome, l') ∧
      l'.Beside t' total { s with delivered := s.delivered ++ out } ∧
      out <+: (t.coder.whole chunk).output ∧
      ((t.coder.whole chunk).outcome ≠ .corrupt → out = (t.coder.whole chunk).output) ∧
      ((t.coder.whole chunk).outcome = .running →
        t'.stage = .running ∧ t'.coder = (t.coder.whole chunk).coder) := by
  fun_induction offer room l chunk generalizing t s with
  | case1 l chunk e l' hdecode =>
      obtain ⟨t', hcall, hl'⟩ := hl.decode hdecode
      obtain ⟨hcorrupt, rfl⟩ := Stream.decode_error hstage hroom hready hcall
      obtain ⟨hout, -, -⟩ := Decoder.pump_stopped room (by rw [hcorrupt]; simp)
      rw [hout, hcorrupt]
      exact ⟨l', t', [], rfl, by simpa using hl', List.nil_prefix, by simp, by simp⟩
  | case2 l chunk moved l₁ hdecode e l' hpush =>
      obtain ⟨hres, -⟩ := hl.decode_push hstage hdecode hpush
      cases hres
  | case3 l chunk moved l₁ hdecode l₂ hpush rest =>
      rename_i hfinished
      obtain ⟨-, -, houtput, t', hl₂, ⟨hended, -⟩ | hcont⟩ := hl.decode_push hstage hdecode hpush
      · obtain ⟨hout, -, hwhole⟩ := Decoder.pump_stopped room (by rw [hended]; simp)
        rw [hout, hended, hwhole, ← houtput]
        refine ⟨_, t', moved.output, rfl, ?_, List.prefix_rfl, fun _ => rfl, by simp⟩
        split
        · exact hl₂
        · exact hl₂.note _
      · have hstatus := hcont.status
        rw [hfinished] at hstatus
        split at hstatus <;> cases hstatus
  | case4 l chunk moved l₁ hdecode l₂ hpush rest =>
      rename_i hstatus hidle hrest
      obtain ⟨-, hused, houtput, t', hl₂, ⟨-, hfinished⟩ | hcont⟩ :=
        hl.decode_push hstage hdecode hpush
      · exact absurd hfinished hstatus
      · rw [hused, houtput] at hidle
        have hwhole := Decoder.pump_spare hcont.running (by
          rw [hidle.2]
          exact Nat.ne_of_lt hroom)
        rw [hwhole]
        exact ⟨l₂, t', moved.output, rfl, hl₂, houtput ▸ List.prefix_rfl, fun _ => houtput,
          fun _ => ⟨hcont.stage, hcont.coder⟩⟩
  | case5 l chunk moved l₁ hdecode l₂ hpush rest =>
      rename_i hstatus hidle hrest
      obtain ⟨-, hused, houtput, t', hl₂, ⟨-, hfinished⟩ | hcont⟩ :=
        hl.decode_push hstage hdecode hpush
      · exact absurd hfinished hstatus
      · rw [hused, houtput] at hidle
        have hnil := (Decoder.pump_idle hroom hcont.running hidle.1 hidle.2).2
        exact absurd (show chunk.drop moved.used = [] by rw [hnil, List.drop_nil]) hrest
  | case6 l chunk moved l₁ hdecode l₂ hpush rest =>
      rename_i hstatus hmoves hdone
      obtain ⟨-, hused, houtput, t', hl₂, ⟨-, hfinished⟩ | hcont⟩ :=
        hl.decode_push hstage hdecode hpush
      · exact absurd hfinished hstatus
      · have hwhole := Decoder.pump_spare hcont.running fun hfull =>
          hdone.2 (by rw [hcont.status, if_pos hfull])
        rw [hwhole]
        exact ⟨l₂, t', moved.output, rfl, hl₂, houtput ▸ List.prefix_rfl, fun _ => houtput,
          fun _ => ⟨hcont.stage, hcont.coder⟩⟩
  | case7 l chunk moved l₁ hdecode l₂ hpush rest =>
      rename_i hstatus hmoves hmore ih
      obtain ⟨-, hused, houtput, t₁, hl₂, ⟨-, hfinished⟩ | hcont⟩ :=
        hl.decode_push hstage hdecode hpush
      · exact absurd hfinished hstatus
      · obtain ⟨l', t', out, hoffer, hl', hprefix, hall, hrunning⟩ :=
          ih hl₂ hcont.stage fun _ _ => by
            rw [hcont.stalled, ← hused, ← houtput]
            simpa using hmoves
        have hwhole := t.coder.whole_pump chunk room
        rw [← hused, ← houtput, ← hcont.coder] at hwhole
        rw [hwhole]
        refine ⟨l', t', moved.output ++ out, hoffer, ?_, ?_, ?_, hrunning⟩
        · simp only [List.append_assoc] at hl'
          exact hl'
        · exact List.prefix_append_right_inj _ |>.mpr hprefix
        · intro hout
          rw [hall hout]
          rfl

end Pump

/-- The failure of a payload whose source ends before it does. -/
def Ending.cut : Ending → Error
  | .ended => .insufficientInput
  | .failure e => .input e

/-- The result of a run, told by the decoding of all that its source gives. -/
def Outcome.result (ending : Ending) : Outcome → Except Error Unit
  | .ended => .ok ()
  | .corrupt => .error (.decompress Fault.corruptData.toIoError)
  | .running => .error ending.cut

namespace Pump

variable [Fair ω]

/-- A read that brings something, and what the pump makes of it. -/
theorem pull_offer {room : Nat} (hroom : 0 < room) {staging : Staging} (hsize : 0 < staging.size)
    {l l₁ l₂ : Line (Decoding ω)} {t : Stream Decoder} {total : Nat} {ahead out : List UInt8}
    {ending : Ending} {r : Reading} {result : Except Error Bool}
    (hl : l.Beside t total ⟨ahead, some ending, out⟩) (hstage : t.stage = .running)
    (hpull : l.pull staging.size = (.ok r, l₁)) (hcount : r.count ≠ 0)
    (hoffer : offer room (l₁.note (.decodingChunk r.count))
      ((staging.receive r.placed).chunk r.count) = (result, l₂)) :
    r.count ≤ ahead.length ∧ result = offered (t.coder.whole (ahead.take r.count)).outcome ∧
      ∃ t' more, l₂.Beside t' total ⟨ahead.drop r.count, some ending, out ++ more⟩ ∧
        more <+: (t.coder.whole (ahead.take r.count)).output ∧
        ((t.coder.whole (ahead.take r.count)).outcome ≠ .corrupt →
          more = (t.coder.whole (ahead.take r.count)).output) ∧
        ((t.coder.whole (ahead.take r.count)).outcome = .running →
          t'.stage = .running ∧ t'.coder = (t.coder.whole (ahead.take r.count)).coder) := by
  rcases hl.pull_cases hsize hpull with ⟨-, -, ⟨-, r', hr, hzero⟩ | ⟨e', -, he⟩⟩ |
    ⟨r', hr, hpos, hle, hplaced, hbytes, hl₁⟩
  · cases hr
    exact absurd hzero hcount
  · cases he
  · cases hr
    have hlen := congrArg List.length hbytes
    rw [List.length_take, List.length_take, Nat.min_eq_left hplaced] at hlen
    have hchunk : (staging.receive r.placed).chunk r.count = ahead.take r.count := by
      rw [Staging.chunk_receive hplaced hle, hbytes]
    obtain ⟨l', t', more, hoffer', hl', hprefix, hall, hrunning⟩ :=
      offer_spec hroom (ahead.take r.count) (hl₁.note (.decodingChunk r.count)) hstage
        fun _ hnil => absurd (congrArg List.length hnil) (by
          rw [List.length_take, ← hlen]
          exact hcount)
    rw [hchunk, hoffer'] at hoffer
    cases hoffer
    exact ⟨by omega, rfl, t', more, hl', hprefix, hall, hrunning⟩

theorem run_spec {room : Nat} (hroom : 0 < room) {staging : Staging} (hsize : 0 < staging.size)
    {l : Line (Decoding ω)} (state : DecompressState) {t : Stream Decoder} {total : Nat}
    {ahead out : List UInt8} {ending : Ending}
    (hl : l.Beside t total ⟨ahead, some ending, out⟩) (hstage : t.stage = .running)
    (hwants : t.coder.view = .wants) :
    ∃ l' state' t' rest ending' more,
      run room staging l state = ((t.coder.whole ahead).outcome.result ending, state', l') ∧
      l'.Beside t' total ⟨rest, ending', out ++ more⟩ ∧
      more <+: (t.coder.whole ahead).output ∧
      ((t.coder.whole ahead).outcome ≠ .corrupt → more = (t.coder.whole ahead).output) ∧
      (t.coder.whole ahead).used + rest.length ≤ ahead.length := by
  fun_induction run room staging l state generalizing t ahead out with
  | case1 staging l state e l' hpull =>
      rcases hl.pull_cases hsize hpull with ⟨rfl, ⟨ending', hl'⟩, ⟨-, r, hr, -⟩ | ⟨e', rfl, he⟩⟩ |
        ⟨r, hr, -⟩
      · cases hr
      · cases he
        rw [Decoder.whole_nil hwants]
        exact ⟨l', state, t, [], ending', [], rfl, by rwa [List.append_nil], List.nil_prefix,
          fun _ => rfl, Nat.le_refl _⟩
      · cases hr
  | case2 staging l state r l₁ hpull hcount =>
      rcases hl.pull_cases hsize hpull with ⟨rfl, ⟨ending', hl'⟩, ⟨rfl, -⟩ | ⟨e', -, he⟩⟩ |
        ⟨r', hr, hpos, -⟩
      · rw [Decoder.whole_nil hwants]
        exact ⟨l₁, state, t, [], ending', [], rfl, by rwa [List.append_nil], List.nil_prefix,
          fun _ => rfl, Nat.le_refl _⟩
      · cases he
      · cases hr
        exact absurd hcount (Nat.ne_of_gt hpos)
  | case3 staging l state r l₁ hpull hcount state' staging' e l' =>
      rename_i hoffer
      obtain ⟨hle, hres, t', more, hl', hprefix, -⟩ :=
        pull_offer hroom hsize hl hstage hpull hcount hoffer
      cases hout : (t.coder.whole (ahead.take r.count)).outcome with
      | running | ended =>
          rw [hout] at hres
          cases hres
      | corrupt =>
          rw [hout] at hres
          cases hres
          obtain ⟨hwhole, hused⟩ := Decoder.whole_of_take_stopped (by rw [hout]; simp)
          rw [hwhole] at hused ⊢
          rw [hout]
          exact ⟨l', .decoding, t', _, _, more, rfl, hl', hprefix, by simp, hused⟩
  | case4 staging l state r l₁ hpull hcount state' staging' l' =>
      rename_i hoffer
      obtain ⟨hle, hres, t', more, hl', hprefix, hall, -⟩ :=
        pull_offer hroom hsize hl hstage hpull hcount hoffer
      cases hout : (t.coder.whole (ahead.take r.count)).outcome with
      | running | corrupt =>
          rw [hout] at hres
          cases hres
      | ended =>
          obtain ⟨hwhole, hused⟩ := Decoder.whole_of_take_stopped (by rw [hout]; simp)
          rw [hwhole] at hused ⊢
          rw [hout] at hall ⊢
          exact ⟨l', .decoding, t', _, _, more, rfl, hl', hprefix, hall, hused⟩
  | case5 staging l state r l₁ hpull hcount state' staging' l₂ =>
      rename_i hoffer ih
      obtain ⟨hle, hres, t₁, more, hl₂, -, hall, hrunning⟩ :=
        pull_offer hroom hsize hl hstage hpull hcount hoffer
      cases hout : (t.coder.whole (ahead.take r.count)).outcome with
      | ended | corrupt =>
          rw [hout] at hres
          cases hres
      | running =>
          obtain ⟨hstage₁, hcoder⟩ := hrunning hout
          obtain rfl := hall (by rw [hout]; simp)
          have hwhole := Decoder.whole_append_of_running (ahead.drop r.count) hout
          rw [List.take_append_drop, List.length_take, Nat.min_eq_left hle, ← hcoder] at hwhole
          obtain ⟨l', state', t', rest, ending', more', hrun, hl', hprefix, hall', hused⟩ :=
            ih hsize hl₂ hstage₁ (hcoder ▸ (Decoder.whole_running _ _ hout).2)
          rw [hwhole]
          refine ⟨l', state', t', rest, ending',
            (t.coder.whole (ahead.take r.count)).output ++ more', hrun, ?_, ?_, ?_, ?_⟩
          · rw [← List.append_assoc]
            exact hl'
          · exact (List.prefix_append_right_inj _).mpr hprefix
          · intro hne
            rw [hall' hne]
            rfl
          · rw [List.length_drop] at hused
            rw [Pass.used_behind]
            omega

end Pump

end Lzma
