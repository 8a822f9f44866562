import Lzma.Coder.Buffers
import Lzma.Proofs.Calls
import Lzma.Proofs.Pumping

/-!
# No call leaves its buffers

The cursors of a caller are moved by what the counts of a stream have gone on by. The counts go on
by what a call moved, whatever it came to (`Stream.totals_call`), and since they are compared
around each call by itself, it does no harm that after a failed call they are ahead of the cursors.
So a cursor goes on by what was really taken or written, which is never more than there was.

Where a decoder stops for good it leaves everything alone: neither a stream that is broken nor one
at its end is changed by a call, nor are the buffers it is handed (`Stream.decodeInto_of_broken`,
`Stream.decodeInto_of_ended`). What a call leaves in place is all that later calls see, so that
settles them all.
-/

namespace Lzma

/-! ## Cursors -/

/-- A buffer whose cursor went on by `count`: it is still inside, and what it has passed is kept. -/
structure Cursor.Moved (c c' : Cursor) (count : Nat) : Prop where
  index : c'.index = c.index + count
  inside : c'.index ≤ c.toList.length
  length : c'.toList.length = c.toList.length
  kept : c.before <+: c'.before

namespace Cursor

variable {c : Cursor} {count : Nat} {bytes : List UInt8}

theorem moved_advance (h : count ≤ c.behind.length) : c.Moved (c.advance count) count := by
  refine ⟨?_, ?_, by rw [toList_advance], List.prefix_append _ _⟩
  · simp only [index, advance, List.length_append, List.length_take]
    omega
  · simp only [index, advance, toList, List.length_append, List.length_take]
    omega

theorem moved_put (c : Cursor) (bytes : List UInt8) : c.Moved (c.put bytes) 0 := by
  refine ⟨rfl, ?_, ?_, List.prefix_rfl⟩
  · simp only [index, put, toList, List.length_append]
    omega
  · simp only [put, toList, List.length_append, List.length_take, List.length_drop]
    omega

theorem Moved.before_eq {c' : Cursor} (h : c.Moved c' 0) : c'.before = c.before :=
  (h.kept.eq_of_length h.index.symm).symm

theorem isFull_put_advance (h : bytes.length ≤ c.behind.length) :
    ((c.put bytes).advance bytes.length).isFull = decide (bytes.length = c.behind.length) := by
  rw [isFull, Bool.eq_iff_iff, List.isEmpty_iff_length_eq_zero, decide_eq_true_eq]
  simp only [advance, put, List.length_drop, List.length_append, List.length_take]
  omega

theorem Moved.trans {c c' c'' : Cursor} {m n : Nat} (h : c.Moved c' m) (h' : c'.Moved c'' n) :
    c.Moved c'' (m + n) := by
  refine ⟨?_, ?_, h'.length.trans h.length, h.kept.trans h'.kept⟩
  · rw [h'.index, h.index, Nat.add_assoc]
  · rw [← h.length]
    exact h'.inside

@[simp] theorem advance_zero (c : Cursor) : c.advance 0 = c := by
  simp [advance]

@[simp] theorem put_nil (c : Cursor) : c.put [] = c := by
  simp [put]

/-- What is written to a buffer and then passed. -/
theorem moved_put_advance (h : bytes.length ≤ c.behind.length) :
    c.Moved ((c.put bytes).advance bytes.length) bytes.length := by
  have hbehind : (c.put bytes).behind.length = c.behind.length := by
    simp only [put, List.length_append, List.length_take, List.length_drop]
    omega
  rw [← hbehind] at h
  simpa using (c.moved_put bytes).trans (moved_advance h)

end Cursor

namespace Stream

variable {κ : Type} [Coder κ]

/-- A stream's counts tell how far the cursors have to go. -/
theorem process_eq (s : Stream κ) (call : Call) (c : Cursor) :
    s.process call c =
      match s.call call c.behind.length with
      | ⟨.error fault, _, bytes, s'⟩ => (.error fault.toIoError, c.put bytes, s')
      | ⟨.ok ended, used, bytes, s'⟩ =>
          (.ok (ended, used), (c.put bytes).advance bytes.length, s') := by
  obtain ⟨hin, hout⟩ := s.totals_call call c.behind.length
  rw [process]
  generalize s.call call c.behind.length = answer at hin hout ⊢
  obtain ⟨verdict, used, bytes, s'⟩ := answer
  dsimp only at hin hout ⊢
  cases verdict with
  | error fault => rfl
  | ok ended =>
      dsimp only
      rw [hin, hout, Nat.add_sub_cancel_left, Nat.add_sub_cancel_left]

/-- A call behind a cursor. -/
theorem moved_process {s s' : Stream κ} {call : Call} {c c' : Cursor}
    {result : Except IoError (Bool × Nat)} (h : s.process call c = (result, c', s')) :
    (s.totalIn ≤ s'.totalIn ∧ s.totalOut ≤ s'.totalOut) ∧
      match result with
      | .error _ => c.Moved c' 0
      | .ok (_, used) => used = s'.totalIn - s.totalIn ∧ used ≤ call.input.length ∧
          c.Moved c' (s'.totalOut - s.totalOut) := by
  obtain ⟨hin, hout⟩ := s.totals_call call c.behind.length
  have hused := s.used_call_le call c.behind.length
  have hroom := s.length_call_le call c.behind.length
  rw [process_eq] at h
  generalize s.call call c.behind.length = answer at *
  obtain ⟨verdict, used, bytes, s₁⟩ := answer
  dsimp only at hin hout hused hroom h
  cases verdict with
  | error fault =>
      cases h
      exact ⟨⟨by omega, by omega⟩, c.moved_put bytes⟩
  | ok ended =>
      cases h
      refine ⟨⟨by omega, by omega⟩, by omega, hused, ?_⟩
      rw [hout, Nat.add_sub_cancel_left]
      exact Cursor.moved_put_advance hroom

end Stream

/-! ## The calls -/

/-- What a call over buffers may do to them. -/
structure Contained {κ α : Type} (s : Stream κ) (b : Buffers) (result : Except IoError α)
    (b' : Buffers) (s' : Stream κ) : Prop where
  totals : s.totalIn ≤ s'.totalIn ∧ s.totalOut ≤ s'.totalOut
  input : b'.input.toList = b.input.toList
  succeeds (a : α) : result = .ok a →
    b.input.Moved b'.input (s'.totalIn - s.totalIn) ∧
      b.output.Moved b'.output (s'.totalOut - s.totalOut)
  fails (e : IoError) : result = .error e →
    b'.input = b.input ∧ b'.output.before = b.output.before ∧
      b'.output.toList.length = b.output.toList.length

section

variable {κ α : Type} [Coder κ] {s s' : Stream κ} {call : Call} {b : Buffers} {output : Cursor}

theorem contained_of_error {e : IoError} (h : s.process call b.output = (.error e, output, s')) :
    Contained s b (.error e : Except IoError α) { b with output } s' := by
  obtain ⟨htotals, hmoved⟩ := Stream.moved_process h
  exact ⟨htotals, rfl, by simp, fun _ _ => ⟨rfl, hmoved.before_eq, hmoved.length⟩⟩

theorem contained_of_ok {ended : Bool} {used : Nat}
    (h : s.process call b.output = (.ok (ended, used), output, s'))
    (hinput : call.input.length ≤ b.input.behind.length) (a : α) :
    Contained s b (.ok a) ⟨b.input.advance used, output⟩ s' := by
  obtain ⟨htotals, hused, hle, hmoved⟩ := Stream.moved_process h
  refine ⟨htotals, Cursor.toList_advance _ _, fun _ _ => ⟨?_, hmoved⟩, by simp⟩
  rw [← hused]
  exact Cursor.moved_advance (Nat.le_trans hle hinput)

end

namespace Stream

/-! A call over buffers is a call of the same stream on what lies behind the cursors. -/

theorem decodeInto_eq (s : Stream Decoder) (b : Buffers) :
    s.decodeInto b =
      match s.decode b.input.behind b.output.behind.length with
      | (.error e, s') => (.error e,
          { b with output :=
              b.output.put (s.call (.feed b.input.behind) b.output.behind.length).output },
          s')
      | (.ok moved, s') => (.ok moved.status,
          ⟨b.input.advance moved.used, (b.output.put moved.output).advance moved.output.length⟩,
          s') := by
  have hroom := s.length_call_le (.feed b.input.behind) b.output.behind.length
  rw [decodeInto, process_eq, decode]
  generalize s.call (.feed b.input.behind) b.output.behind.length = answer at hroom ⊢
  obtain ⟨verdict, used, bytes, s'⟩ := answer
  cases verdict with
  | error fault => rfl
  | ok ended =>
      dsimp only
      rw [Cursor.isFull_put_advance hroom]
      simp only [decide_eq_true_eq]

theorem encodeInto_eq (s : Stream Encoder) (b : Buffers) :
    s.encodeInto b =
      match s.encode b.input.behind b.output.behind.length with
      | (.error e, s') => (.error e,
          { b with output :=
              b.output.put (s.call (.feed b.input.behind) b.output.behind.length).output },
          s')
      | (.ok moved, s') => (.ok (),
          ⟨b.input.advance moved.used, (b.output.put moved.output).advance moved.output.length⟩,
          s') := by
  rw [encodeInto, process_eq, encode, encodeCall]
  generalize s.call (.feed b.input.behind) b.output.behind.length = answer
  obtain ⟨_ | ended, used, bytes, s'⟩ := answer <;> rfl

theorem finishInto_eq (s : Stream Encoder) (b : Buffers) :
    s.finishInto b =
      match s.finish b.output.behind.length with
      | (.error e, s') => (.error e, { b with
          output := b.output.put (s.call .finish b.output.behind.length).output }, s')
      | (.ok moved, s') => (.ok moved.ended, { b with
          output := (b.output.put moved.output).advance moved.output.length }, s') := by
  rw [finishInto, process_eq, Stream.finish, encodeCall]
  generalize s.call .finish b.output.behind.length = answer
  obtain ⟨_ | ended, used, bytes, s'⟩ := answer <;> rfl

theorem contained_decodeInto (s : Stream Decoder) (b : Buffers) :
    Contained s b (s.decodeInto b).1 (s.decodeInto b).2.1 (s.decodeInto b).2.2 := by
  rw [decodeInto]
  rcases hprocess : s.process (.feed b.input.behind) b.output with ⟨e | ⟨ended, used⟩, output, s'⟩
  · exact contained_of_error hprocess
  · exact contained_of_ok hprocess (Nat.le_refl _) _

theorem contained_encodeInto (s : Stream Encoder) (b : Buffers) :
    Contained s b (s.encodeInto b).1 (s.encodeInto b).2.1 (s.encodeInto b).2.2 := by
  rw [encodeInto]
  rcases hprocess : s.process (.feed b.input.behind) b.output with ⟨e | ⟨ended, used⟩, output, s'⟩
  · exact contained_of_error hprocess
  · exact contained_of_ok hprocess (Nat.le_refl _) _

theorem contained_finishInto (s : Stream Encoder) (b : Buffers) :
    Contained s b (s.finishInto b).1 (s.finishInto b).2.1 (s.finishInto b).2.2 := by
  rw [finishInto]
  rcases hprocess : s.process .finish b.output with ⟨e | ⟨ended, used⟩, output, s'⟩
  · exact contained_of_error hprocess
  · obtain rfl : used = 0 := Nat.le_zero.mp (moved_process hprocess).2.2.1
    have hcall := contained_of_ok hprocess (Nat.zero_le _) ended
    rwa [Cursor.advance_zero] at hcall

/-! ## Where a decoder stops -/

variable {s : Stream Decoder}

theorem decodeInto_of_broken (h : s.stage = .broken) (b : Buffers) :
    s.decodeInto b = (.error Fault.misuse.toIoError, b, s) := by
  rw [decodeInto, process_eq, call, if_neg (by simp [h]), h]
  simp [Stage.afterCall]

theorem decodeInto_of_ended (h : s.stage = .ended) (b : Buffers) :
    s.decodeInto b = (.ok .finished, b, s) := by
  rw [decodeInto, process_eq, call, if_pos h]
  simp

/-- A decoder is broken by a fault in the payload, and by nothing else. -/
theorem broken_of_decodeInto {b : Buffers}
    (h : (s.decodeInto b).1 = .error Fault.corruptData.toIoError) :
    (s.decodeInto b).2.2.stage = .broken := by
  have hcall := s.called (.feed b.input.behind) b.output.behind.length
  rw [decodeInto, process_eq] at h ⊢
  generalize s.call (.feed b.input.behind) b.output.behind.length = answer at *
  cases hcall with
  | breaks => rfl
  | _ => simp [Fault.toIoError, IoError.other] at h

/-- A decoder is at its end behind a call that tells so; it has taken what comes before it. -/
theorem ended_of_decodeInto {b : Buffers} (h : (s.decodeInto b).1 = .ok .finished) :
    (s.decodeInto b).2.2.stage = .ended ∧
      (s.stage ≠ .ended → (s.coder.whole b.input.behind).outcome = .ended ∧
        (s.decodeInto b).2.1.input = b.input.advance (s.coder.whole b.input.behind).used) := by
  have hcall := s.called (.feed b.input.behind) b.output.behind.length
  have hpass : Coder.pass (.feed b.input.behind) b.output.behind.length s.coder =
    s.coder.pump b.input.behind b.output.behind.length := rfl
  rw [hpass] at hcall
  rw [decodeInto, process_eq] at h ⊢
  generalize s.call (.feed b.input.behind) b.output.behind.length = answer at *
  cases hcall with
  | ends _ _ hended =>
      refine ⟨rfl, fun _ => ?_⟩
      have hstop : (s.coder.pump b.input.behind b.output.behind.length).outcome ≠ .running := by
        simp [hended]
      obtain ⟨houtcome, hused, -⟩ := Decoder.pump_stopped _ hstop
      rw [houtcome, hused]
      exact ⟨hended, rfl⟩
  | ended hstage => exact ⟨hstage, fun hlive => absurd hstage hlive⟩
  | goesOn | idles =>
      simp only [Bool.false_eq_true, if_false, Except.ok.injEq] at h
      split at h <;> cases h
  | stalls | breaks | refused => cases h

/-- The stream behind calls over some buffers. -/
def decodesInto (s : Stream Decoder) (bs : List Buffers) : Stream Decoder :=
  bs.foldl (fun s b => (s.decodeInto b).2.2) s

/-- A stream that no call changes stays as it is. -/
theorem decodesInto_of_still {answer : Except IoError DecodeStatus}
    (h : ∀ b, s.decodeInto b = (answer, b, s)) (bs : List Buffers) : s.decodesInto bs = s := by
  induction bs with
  | nil => rfl
  | cons b bs ih =>
      rw [decodesInto, List.foldl_cons, h]
      exact ih

/-- What a call of a decoder comes to, for all the calls behind it as well. -/
structure DecodesWithin (s : Stream Decoder) (b : Buffers) : Prop where
  contained : Contained s b (s.decodeInto b).1 (s.decodeInto b).2.1 (s.decodeInto b).2.2
  broken : (s.decodeInto b).1 = .error Fault.corruptData.toIoError → ∀ bs b',
    ((s.decodeInto b).2.2.decodesInto bs).decodeInto b' =
      (.error Fault.misuse.toIoError, b', (s.decodeInto b).2.2)
  finished : (s.decodeInto b).1 = .ok .finished → ∀ bs b',
    ((s.decodeInto b).2.2.decodesInto bs).decodeInto b' = (.ok .finished, b', (s.decodeInto b).2.2)
  marked : (s.decodeInto b).1 = .ok .finished → s.stage ≠ .ended →
    (s.coder.whole b.input.behind).outcome = .ended ∧
      (s.decodeInto b).2.1.input = b.input.advance (s.coder.whole b.input.behind).used

theorem decodesWithin (s : Stream Decoder) (b : Buffers) : s.DecodesWithin b := by
  refine ⟨s.contained_decodeInto b, ?_, ?_, fun hfinished => (ended_of_decodeInto hfinished).2⟩
  · intro hcorrupt bs b'
    have hstill := decodeInto_of_broken (broken_of_decodeInto hcorrupt)
    rw [decodesInto_of_still hstill, hstill]
  · intro hfinished bs b'
    have hstill := decodeInto_of_ended (ended_of_decodeInto hfinished).1
    rw [decodesInto_of_still hstill, hstill]

end Stream

/--
Whatever calls of a decoder or an encoder were made before and whatever buffers a call is handed,
its cursors stay inside, for they go on by what the stream has counted, and only if the call
succeeds; a failed call leaves both where they were, and what they have passed as it was. Behind
a fault in its payload a decoder refuses every call, and behind the end marker it answers every
call alike; neither moves anything any more, so what lies behind the marker is never taken.
-/
theorem calls_contained :
    (∀ (s : Stream Decoder) (b : Buffers), s.DecodesWithin b) ∧
      ∀ (s : Stream Encoder) (b : Buffers),
        Contained s b (s.encodeInto b).1 (s.encodeInto b).2.1 (s.encodeInto b).2.2 ∧
          Contained s b (s.finishInto b).1 (s.finishInto b).2.1 (s.finishInto b).2.2 :=
  ⟨Stream.decodesWithin, fun s b => ⟨s.contained_encodeInto b, s.contained_finishInto b⟩⟩

/--
A fault is met behind five bytes that were counted but not passed, and an end marker is met in
front of a byte that stays where it is.
-/
theorem calls_contained_of_payloads :
    let s : Stream Decoder := { coder := .start ⟨3, 0, 2⟩ 4096 }
    let faulty : Buffers := ⟨.ofList [0, 255, 255, 255, 255, 0], .ofList [7]⟩
    let marked : Buffers := ⟨.ofList [0, 131, 255, 251, 255, 255, 192, 0, 0, 0, 42], .ofList []⟩
    ((s.decodeInto faulty).1 = .error Fault.corruptData.toIoError ∧
        (s.decodeInto faulty).2.2.totalIn = 5 ∧ (s.decodeInto faulty).2.1.input = faulty.input ∧
        ∀ bs b', ((s.decodeInto faulty).2.2.decodesInto bs).decodeInto b' =
          (.error Fault.misuse.toIoError, b', (s.decodeInto faulty).2.2)) ∧
      (s.decodeInto marked).1 = .ok .finished ∧
        (s.decodeInto marked).2.1.input = marked.input.advance 10 ∧
        ∀ bs b', ((s.decodeInto marked).2.2.decodesInto bs).decodeInto b' =
          (.ok .finished, b', (s.decodeInto marked).2.2) := by
  intro s faulty marked
  have hfaulty : (s.decodeInto faulty).1 = .error Fault.corruptData.toIoError := by decide +kernel
  have hcounted : (s.decodeInto faulty).2.2.totalIn = 5 := by decide +kernel
  have hmarked : (s.decodeInto marked).1 = .ok .finished := by decide +kernel
  have hpassed : (s.decodeInto marked).2.1.input = marked.input.advance 10 := by decide +kernel
  have hwithin := calls_contained.1 s faulty
  exact ⟨⟨hfaulty, hcounted, (hwithin.contained.fails _ hfaulty).1, hwithin.broken hfaulty⟩,
    hmarked, hpassed, (calls_contained.1 s marked).finished hmarked⟩

end Lzma
