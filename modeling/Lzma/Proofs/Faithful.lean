import Lzma.Proofs.Trace

/-!
# The pump is faithful to source, decoder and sink

Whatever a source, a decoder and a sink answer, the pump passes on what it got: the
decoder is offered the bytes of each chunk in order, each of them until it takes it,
and the sink is offered all that the decoder gives, a piece for each call that gave
something, before anything else is done (`Record.Faithful`).

The invariant is a law of conservation. At the top of the inner loop, what was
consumed and what is left of the chunk make up what was pulled, and what was emitted
is what was offered (`Record.Held`). When the loop over a chunk is left for the next read,
nothing is left of the chunk and the decoder has given all that it held back for
lack of room (`Record.Rested`).
-/

namespace Lzma

namespace Record

/-- Something holds of each deed, told what was done before it. -/
def Each (P : List Deed → Deed → Prop) (ds : List Deed) : Prop :=
  ∀ before deed after, ds = before ++ deed :: after → P before deed

section

variable {P : List Deed → Deed → Prop} {ds : List Deed}

theorem Each.nil : Each P [] := by
  intro before deed after h
  exact absurd h (by simp)

theorem Each.concat {d : Deed} (h : Each P ds) (hd : P ds d) : Each P (ds ++ [d]) := by
  intro before deed after heq
  rcases List.eq_nil_or_concat after with rfl | ⟨after, last, rfl⟩
  · obtain ⟨rfl, hlast⟩ := List.append_inj' heq rfl
    cases hlast
    exact hd
  · rw [List.concat_eq_append, ← List.cons_append, ← List.append_assoc] at heq
    exact h before deed after (List.append_inj' heq rfl).1

theorem Each.left {es : List Deed} (h : Each P (ds ++ es)) : Each P ds := by
  rintro before deed after rfl
  exact h before deed (after ++ es) (by simp)

end

/-- A call after which the decoder has nothing to give without further input. -/
def Resting (moved : Decoded) : Prop :=
  moved.used = 0 ∧ moved.output = [] ∨ moved.status ≠ .outputFull

/--
What a deed of the pump keeps to, told all that was done before. The pump has `room` for
output and reads into a buffer that began as `s`.
-/
def Fits (room : Nat) (s : Staging) (before : List Deed) : Deed → Prop
  | .note _ => True
  | .read size _ =>
      size = s.size ∧ (∀ d ∈ before, d.Fine) ∧ offered before = emitted before ∧
        consumed before = (chunks s before).flatten ∧
        ∀ moved ∈ (moves before).getLast?, Resting moved
  | .decode input size _ =>
      size = room ∧ (∀ d ∈ before, d.Fine) ∧ offered before = emitted before ∧
        consumed before ++ input = (chunks s before).flatten ∧
        ∃ earlier chunk, chunks s before = earlier ++ [chunk] ∧ input <:+ chunk
  | .write bytes _ => offered before ++ [bytes] = emitted before

/--
The record of a pump that passes on what it gets: every deed fits in with what was done
before it, the bytes consumed never leave the order of the bytes pulled, and in the end
the sink was offered all that was emitted.
-/
structure Faithful (room : Nat) (s : Staging) (ds : List Deed) : Prop where
  fits : Each (Fits room s) ds
  consumed (before : List Deed) : before <+: ds → consumed before <+: (chunks s before).flatten
  offered : offered ds = emitted ds

theorem Each.consumed_prefix {room : Nat} {s : Staging} {ds : List Deed}
    (h : Each (Fits room s) ds) : consumed ds <+: (chunks s ds).flatten := by
  -- By the latest deed: only a call that succeeds consumes, from the front of what is left.
  induction hlength : ds.length generalizing ds with
  | zero =>
      obtain rfl := List.eq_nil_of_length_eq_zero hlength
      exact List.nil_prefix
  | succ n ih =>
      rcases List.eq_nil_or_concat ds with rfl | ⟨ds, d, rfl⟩
      · cases hlength
      · rw [List.concat_eq_append] at h hlength ⊢
        have hbefore := ih h.left (by simpa using hlength)
        have hd : Fits room s ds d := h ds d [] rfl
        rw [consumed_append, consumed_singleton, chunks_append, List.flatten_append]
        refine List.IsPrefix.trans ?_ (List.prefix_append _ _)
        cases d with
        | note | write | read => simpa using hbefore
        | decode input size result =>
            cases result with
            | error e => simpa using hbefore
            | ok moved =>
                rw [← hd.2.2.2.1, List.prefix_append_right_inj]
                exact List.take_prefix _ _

/-! ## The invariants of the two loops -/

/-- What holds of the record of a pump that may have stopped. -/
structure Kept (room : Nat) (s : Staging) (ds : List Deed) : Prop where
  fits : Each (Fits room s) ds
  offered : offered ds = emitted ds
  /-- A call takes something, gives something, or is the one idle call for its chunk. -/
  decodes : decodes ds ≤ (consumed ds).length + (emitted ds).length + (chunks s ds).length

/-- At the top of the inner loop, with a part of the last chunk still to be offered. -/
structure Held (room : Nat) (s : Staging) (ds : List Deed) (chunk : List UInt8) : Prop where
  fits : Each (Fits room s) ds
  fine : ∀ d ∈ ds, d.Fine
  offered : offered ds = emitted ds
  part : ∃ earlier whole, chunks s ds = earlier ++ [whole] ∧ chunk <:+ whole
  rest : consumed ds ++ chunk = (chunks s ds).flatten
  decodes : decodes ds < (consumed ds).length + (emitted ds).length + (chunks s ds).length

/-- At the top of the outer loop, with nothing left of any chunk. -/
structure Rested (room : Nat) (s : Staging) (ds : List Deed) : Prop where
  kept : Kept room s ds
  fine : ∀ d ∈ ds, d.Fine
  consumed : consumed ds = (chunks s ds).flatten
  last : ∀ moved ∈ (moves ds).getLast?, Resting moved

variable {room : Nat} {s : Staging} {ds : List Deed} {chunk : List UInt8}

theorem Kept.faithful (h : Kept room s ds) : Faithful room s ds where
  fits := h.fits
  consumed before hprefix := by
    obtain ⟨after, rfl⟩ := hprefix
    exact h.fits.left.consumed_prefix
  offered := h.offered

/-- Once the decoder has failed or finished it is not called again. -/
def Final (ds : List Deed) : Prop :=
  ∀ before input size result after, ds = before ++ .decode input size result :: after →
    (∀ moved, result = .ok moved → moved.status = .finished) → decodes after = 0

theorem Kept.final (h : Kept room s ds) : Final ds := by
  rintro before input size result after rfl hstop
  rw [Record.decodes, List.countP_eq_zero]
  intro d hd hdecode
  obtain ⟨earlier, later, rfl⟩ := List.append_of_mem hd
  have hfits := h.fits (before ++ .decode input size result :: earlier) d later (by simp)
  cases d with
  | decode input' size' result' =>
      obtain ⟨moved, rfl, hstatus⟩ := hfits.2.1 (.decode input size result) (by simp)
      exact hstatus (hstop moved rfl)
  | note | read | write => cases hdecode

theorem Rested.nil : Rested room s [] where
  kept := ⟨.nil, rfl, Nat.le_refl _⟩
  fine := by simp
  consumed := rfl
  last := by simp [moves]

theorem Kept.note (h : Kept room s ds) (event : Event) : Kept room s (ds ++ [.note event]) where
  fits := h.fits.concat trivial
  offered := by simpa using h.offered
  decodes := by simpa [chunks_append, chunks] using h.decodes

/-- A call of the decoder that succeeds, and the write of what it gave. -/
def passed (chunk : List UInt8) (room : Nat) (moved : Decoded) (answer : Except IoError Nat) :
    List Deed :=
  .decode chunk room (.ok moved) ::
    if moved.output = [] then [] else [.write moved.output answer]

section

variable (chunk room) (moved : Decoded) (answer : Except IoError Nat) (s)

@[simp] theorem consumed_passed :
    consumed (passed chunk room moved answer) = chunk.take moved.used := by
  rw [passed]
  split <;> simp [consumed]

@[simp] theorem moves_passed : moves (passed chunk room moved answer) = [moved] := by
  rw [passed]
  split <;> simp [moves]

@[simp] theorem offered_passed :
    offered (passed chunk room moved answer) = emitted (passed chunk room moved answer) := by
  rw [passed]
  split <;> rename_i h <;> simp [offered, emitted, h]

@[simp] theorem decodes_passed : decodes (passed chunk room moved answer) = 1 := by
  rw [passed]
  split <;> rfl

@[simp] theorem chunks_passed : chunks s (passed chunk room moved answer) = [] := by
  rw [passed]
  split <;> rfl

@[simp] theorem staging_passed : staging s (passed chunk room moved answer) = s := by
  rw [passed]
  split <;> rfl

end

namespace Held

variable {moved : Decoded} {answer : Except IoError Nat}

theorem fits_decode (h : Held room s ds chunk) (result : Except IoError Decoded) :
    Fits room s ds (.decode chunk room result) :=
  ⟨rfl, h.fine, h.offered, h.rest, h.part⟩

theorem kept_of_error (h : Held room s ds chunk) (e : IoError) :
    Kept room s (ds ++ [.decode chunk room (.error e)]) where
  fits := h.fits.concat (h.fits_decode _)
  offered := by simpa using h.offered
  decodes := by simpa [chunks_append, chunks] using Nat.succ_le_of_lt h.decodes

theorem kept_passed (h : Held room s ds chunk) (moved : Decoded) (answer : Except IoError Nat) :
    Kept room s (ds ++ passed chunk room moved answer) where
  fits := by
    have hcall := h.fits.concat (h.fits_decode (.ok moved))
    by_cases hout : moved.output = []
    · rw [passed, if_pos hout]
      exact hcall
    · rw [passed, if_neg hout, ← List.singleton_append, ← List.append_assoc]
      refine hcall.concat ?_
      simp [Fits, h.offered, hout]
  offered := by simp [h.offered]
  decodes := by
    have hcount := h.decodes
    simp [chunks_append]
    omega

theorem note (h : Held room s ds chunk) (event : Event) :
    Held room s (ds ++ [.note event]) chunk where
  fits := h.fits.concat trivial
  fine := by simpa [Deed.Fine, or_imp, forall_and] using h.fine
  offered := by simpa using h.offered
  part := by simpa [chunks_append, chunks] using h.part
  rest := by simpa [chunks_append, chunks] using h.rest
  decodes := by simpa [chunks_append, chunks] using h.decodes

theorem fine_passed (h : Held room s ds chunk) (hstatus : moved.status ≠ .finished)
    (hanswer : moved.output ≠ [] → answer = .ok moved.output.length) :
    ∀ d ∈ ds ++ passed chunk room moved answer, d.Fine := by
  rw [passed, List.forall_mem_append, List.forall_mem_cons]
  refine ⟨h.fine, ⟨moved, rfl, hstatus⟩, ?_⟩
  split <;> rename_i hout
  · simp
  · simpa [Deed.Fine] using hanswer hout

theorem held_passed (h : Held room s ds chunk) (hstatus : moved.status ≠ .finished)
    (hanswer : moved.output ≠ [] → answer = .ok moved.output.length)
    (hused : moved.used ≤ chunk.length) (hmoves : ¬(moved.used = 0 ∧ moved.output = [])) :
    Held room s (ds ++ passed chunk room moved answer) (chunk.drop moved.used) where
  fits := (h.kept_passed moved answer).fits
  fine := h.fine_passed hstatus hanswer
  offered := (h.kept_passed moved answer).offered
  part := by
    obtain ⟨earlier, whole, hchunks, hsuffix⟩ := h.part
    refine ⟨earlier, whole, by simpa [chunks_append] using hchunks, ?_⟩
    exact (List.drop_suffix _ _).trans hsuffix
  rest := by simpa [chunks_append] using h.rest
  decodes := by
    have hcount := h.decodes
    -- A call that takes nothing gives a piece, so it is counted by the one or the other.
    have hgain : 0 < moved.used ∨
        (emitted (passed chunk room moved answer)).length = 1 := by
      by_cases hout : moved.output = []
      · exact .inl (Nat.pos_of_ne_zero fun hzero => hmoves ⟨hzero, hout⟩)
      · exact .inr (by simp [passed, emitted, hout])
    simp [chunks_append]
    omega

/-- The chunk is used up, and the decoder holds nothing back for lack of room. -/
theorem rested_passed (h : Held room s ds chunk) (hstatus : moved.status ≠ .finished)
    (hanswer : moved.output ≠ [] → answer = .ok moved.output.length)
    (hrest : chunk.drop moved.used = []) (hresting : Resting moved) :
    Rested room s (ds ++ passed chunk room moved answer) where
  kept := h.kept_passed moved answer
  fine := h.fine_passed hstatus hanswer
  consumed := by
    have hall : chunk.take moved.used = chunk := by
      have hsplit := List.take_append_drop moved.used chunk
      rwa [hrest, List.append_nil] at hsplit
    simpa [chunks_append, hall] using h.rest
  last := by simpa using hresting

end Held

@[simp] theorem size_staging (s : Staging) (ds : List Deed) : (staging s ds).size = s.size := by
  fun_induction staging s ds with
  | case1 => rfl
  | case2 s room r ds ih => exact ih
  | case3 s d ds hd ih => exact ih

namespace Rested

theorem fits_read (h : Rested room s ds) (result : Except IoError Reading) :
    Fits room s ds (.read s.size result) :=
  ⟨rfl, h.fine, h.kept.offered, h.consumed, h.last⟩

theorem kept_read (h : Rested room s ds) (result : Except IoError Reading) :
    Kept room s (ds ++ [.read s.size result]) where
  fits := h.kept.fits.concat (h.fits_read result)
  offered := by simpa using h.kept.offered
  decodes := by
    have hcount := h.kept.decodes
    simp [chunks_append]
    omega

theorem held_read (h : Rested room s ds) {r : Reading} (hcount : r.count ≠ 0)
    (hle : r.count ≤ s.size) :
    Held room s (ds ++ [.read s.size (.ok r)])
      (((staging s ds).receive r.placed).chunk r.count) := by
  have hpos := Nat.pos_of_ne_zero hcount
  have hchunks : chunks s (ds ++ [.read s.size (.ok r)]) =
      chunks s ds ++ [((staging s ds).receive r.placed).chunk r.count] := by
    rw [chunks_append, chunks, if_pos ⟨hpos, hle⟩, chunks]
  refine ⟨h.kept.fits.concat (h.fits_read _), ?_, by simpa using h.kept.offered,
    ⟨_, _, hchunks, List.suffix_rfl⟩, ?_, ?_⟩
  · rw [List.forall_mem_append, List.forall_mem_singleton]
    exact ⟨h.fine, r, rfl, hpos, hle⟩
  · rw [hchunks]
    simpa using h.consumed
  · have hdecodes := h.kept.decodes
    rw [hchunks]
    simp
    omega

end Rested

end Record

/-! ## The loops -/

namespace Line

variable {ω : Type} [Pump ω] {l l₁ l₂ : Line (Traced ω)} {chunk : List UInt8} {room : Nat}

theorem deeds_decode_push {moved : Decoded} {result : Except Error Unit}
    (hdecode : l.decode chunk room = (.ok moved, l₁))
    (hpush : l₁.push moved.output = (result, l₂)) :
    ∃ answer, l₂.deeds = l.deeds ++ Record.passed chunk room moved answer ∧
      (result = .ok () → moved.output ≠ [] → answer = .ok moved.output.length) := by
  have hcall := deeds_decode hdecode
  rcases deeds_push hpush with ⟨hnil, rfl, -⟩ | ⟨hne, answer, hwrite, hok⟩
  · exact ⟨.ok 0, by rw [hcall, Record.passed, if_pos hnil], fun _ hne => absurd hnil hne⟩
  · refine ⟨answer, ?_, fun hres _ => hok hres⟩
    rw [hwrite, hcall, Record.passed, if_neg hne, List.append_assoc, List.singleton_append]

theorem used_decode_le {moved : Decoded} {l l₁ : Line ω}
    (hdecode : l.decode chunk room = (.ok moved, l₁)) : moved.used ≤ chunk.length :=
  Pump.used_decode_le (Prod.mk.inj hdecode).1

end Line

namespace Pump

open Record

variable {ω : Type} {room : Nat} {s : Staging}

/-- What the inner loop leaves behind. -/
structure Offered (room : Nat) (s : Staging) (l l' : Line (Traced ω)) (result : Except Error Bool) :
    Prop where
  kept : Kept room s l'.deeds
  chunks : chunks s l'.deeds = chunks s l.deeds
  staging : staging s l'.deeds = staging s l.deeds
  rested : result = .ok false → Rested room s l'.deeds

theorem Offered.of_passed {l l' : Line (Traced ω)} {chunk : List UInt8} {moved : Decoded}
    {answer : Except IoError Nat} {result : Except Error Bool} (h : Held room s l.deeds chunk)
    (hdeeds : l'.deeds = l.deeds ++ passed chunk room moved answer)
    (hrested : result = .ok false → Rested room s l'.deeds) : Offered room s l l' result where
  kept := by
    rw [hdeeds]
    exact h.kept_passed moved answer
  chunks := by simp [hdeeds, chunks_append]
  staging := by simp [hdeeds, staging_append]
  rested := hrested

variable [Pump ω]

theorem Offered.note {l l' : Line (Traced ω)} {result : Except Error Bool}
    (h : Offered room s l l' result) (hfinal : result ≠ .ok false) (event : Event) :
    Offered room s l (l'.note event) result where
  kept := h.kept.note event
  chunks := by simpa [Line.deeds_note, chunks_append, Record.chunks] using h.chunks
  staging := by simpa [Line.deeds_note, staging_append, Record.staging] using h.staging
  rested hres := absurd hres hfinal

/-- The inner loop keeps to the invariant, call after call. -/
theorem offer_kept {l : Line (Traced ω)} {chunk : List UInt8} (h : Held room s l.deeds chunk) :
    Offered room s l (offer room l chunk).2 (offer room l chunk).1 := by
  fun_induction offer room l chunk with
  | case1 l chunk e l₁ hdecode =>
      have hdeeds := Line.deeds_decode hdecode
      refine ⟨?_, ?_, ?_, by simp⟩ <;> rw [hdeeds]
      · exact h.kept_of_error e
      · simp [chunks_append, Record.chunks]
      · simp [staging_append, Record.staging]
  | case2 l chunk moved l₁ hdecode e l₂ hpush =>
      obtain ⟨answer, hdeeds, -⟩ := Line.deeds_decode_push hdecode hpush
      exact .of_passed h hdeeds (by simp)
  | case3 l chunk moved l₁ hdecode l₂ hpush rest =>
      obtain ⟨answer, hdeeds, -⟩ := Line.deeds_decode_push hdecode hpush
      have hoffered : Offered room s l l₂ (.ok true) := .of_passed h hdeeds (by simp)
      dsimp only
      split
      · exact hoffered
      · exact hoffered.note (by simp) _
  | case4 l chunk moved l₁ hdecode l₂ hpush rest =>
      rename_i hstatus hidle hrest
      obtain ⟨answer, hdeeds, hanswer⟩ := Line.deeds_decode_push hdecode hpush
      refine .of_passed h hdeeds fun _ => ?_
      rw [hdeeds]
      exact h.rested_passed hstatus (hanswer rfl) hrest (.inl hidle)
  | case5 l chunk moved l₁ hdecode l₂ hpush rest =>
      obtain ⟨answer, hdeeds, -⟩ := Line.deeds_decode_push hdecode hpush
      exact .of_passed h hdeeds (by simp)
  | case6 l chunk moved l₁ hdecode l₂ hpush rest =>
      rename_i hstatus hmoves hdone
      obtain ⟨answer, hdeeds, hanswer⟩ := Line.deeds_decode_push hdecode hpush
      refine .of_passed h hdeeds fun _ => ?_
      rw [hdeeds]
      exact h.rested_passed hstatus (hanswer rfl) hdone.1 (.inr hdone.2)
  | case7 l chunk moved l₁ hdecode l₂ hpush rest =>
      rename_i hstatus hmoves hmore ih
      obtain ⟨answer, hdeeds, hanswer⟩ := Line.deeds_decode_push hdecode hpush
      -- The next call is offered what is left, so the invariant stands at the top again.
      have hheld := h.held_passed hstatus (hanswer rfl) (Line.used_decode_le hdecode) hmoves
      rw [← hdeeds] at hheld
      have hrec := ih hheld
      refine ⟨hrec.kept, ?_, ?_, hrec.rested⟩
      · rw [hrec.chunks, hdeeds]
        simp [chunks_append]
      · rw [hrec.staging, hdeeds]
        simp [staging_append]

theorem pull_kept {l l₁ : Line (Traced ω)} {result : Except IoError Reading}
    (h : Rested room s l.deeds) (hpull : l.pull s.size = (result, l₁))
    (hnone : ∀ r, result = .ok r → r.count = 0) :
    Kept room s l₁.deeds ∧ chunks s l₁.deeds = chunks s l.deeds := by
  rcases Line.deeds_pull hpull with ⟨hdeeds, -⟩ | ⟨answer, hdeeds, hanswer⟩
  · rw [hdeeds]
    exact ⟨h.kept, rfl⟩
  · rw [hdeeds]
    refine ⟨h.kept_read answer, ?_⟩
    rw [chunks_append]
    cases answer with
    | error e => exact List.append_nil _
    | ok r =>
        have hcount : ¬(0 < r.count ∧ r.count ≤ s.size) := by
          rintro ⟨hpos, hle⟩
          exact Nat.ne_of_gt hpos (hnone r ((hanswer r).mpr ⟨rfl, hle⟩))
        rw [chunks, if_neg hcount]
        exact List.append_nil _

theorem pull_held {l l₁ : Line (Traced ω)} {r : Reading} (h : Rested room s l.deeds)
    (hpull : l.pull s.size = (.ok r, l₁)) (hcount : r.count ≠ 0) :
    Held room s (l₁.note (.decodingChunk r.count)).deeds
        (((staging s l.deeds).receive r.placed).chunk r.count) ∧
      staging s (l₁.note (.decodingChunk r.count)).deeds =
        (staging s l.deeds).receive r.placed ∧
      (chunks s (l₁.note (.decodingChunk r.count)).deeds).length =
        (chunks s l.deeds).length + 1 := by
  rcases Line.deeds_pull hpull with ⟨-, hr⟩ | ⟨answer, hdeeds, hanswer⟩
  · cases hr
    exact absurd rfl hcount
  · obtain ⟨rfl, hle⟩ := (hanswer r).mp rfl
    rw [Line.deeds_note, hdeeds]
    refine ⟨(h.held_read hcount hle).note _, ?_, ?_⟩
    · simp [staging_append, Record.staging]
    · have hpos := Nat.pos_of_ne_zero hcount
      simp [chunks_append, Record.chunks, hpos, hle]

/-- One turn of the outer loop. The chunk that it adds is paid for by the source. -/
theorem turn_kept {l l₁ l₂ : Line (Traced ω)} {r : Reading} {result : Except Error Bool}
    (h : Rested room s l.deeds) (hpull : l.pull s.size = (.ok r, l₁)) (hcount : r.count ≠ 0)
    (hoffer : offer room (l₁.note (.decodingChunk r.count))
      (((staging s l.deeds).receive r.placed).chunk r.count) = (result, l₂)) :
    Kept room s l₂.deeds ∧
      (chunks s l₂.deeds).length + l₂.credit ≤ (chunks s l.deeds).length + l.credit ∧
      staging s l₂.deeds = (staging s l.deeds).receive r.placed ∧
      (result = .ok false → Rested room s l₂.deeds) := by
  obtain ⟨hheld, hstaging, hchunks⟩ := pull_held h hpull hcount
  have hoffered := offer_kept hheld
  have hpaid := Line.credit_pull_lt hpull (Nat.pos_of_ne_zero hcount)
  have hnote := l₁.credit_note_le (.decodingChunk r.count)
  have hless := credit_offer_le room (l₁.note (.decodingChunk r.count))
    (((staging s l.deeds).receive r.placed).chunk r.count)
  rw [hoffer] at hoffered hless
  refine ⟨hoffered.kept, ?_, hoffered.staging.trans hstaging, hoffered.rested⟩
  rw [hoffered.chunks, hchunks]
  dsimp only at hless
  omega

theorem run_kept {l : Line (Traced ω)} (state : DecompressState) (h : Rested room s l.deeds) :
    Kept room s (run room (staging s l.deeds) l state).2.2.deeds ∧
      (chunks s (run room (staging s l.deeds) l state).2.2.deeds).length ≤
        (chunks s l.deeds).length + l.credit := by
  -- The loop passes the buffer on, and the record says what it is at each turn.
  generalize hstaging : staging s l.deeds = buffer
  fun_induction run room buffer l state with
  | case1 buffer l state e l₁ hpull =>
      rw [← hstaging, size_staging] at hpull
      obtain ⟨hkept, hchunks⟩ := pull_kept h hpull (by simp)
      exact ⟨hkept, by rw [hchunks]; exact Nat.le_add_right _ _⟩
  | case2 buffer l state r l₁ hpull hcount =>
      rw [← hstaging, size_staging] at hpull
      obtain ⟨hkept, hchunks⟩ := pull_kept h hpull fun r' hr => by
        cases hr
        exact hcount
      exact ⟨hkept, by rw [hchunks]; exact Nat.le_add_right _ _⟩
  | case3 buffer l state r l₁ hpull hcount state' buffer' e l₂ =>
      rename_i hoffer
      subst hstaging
      rw [size_staging] at hpull
      obtain ⟨hkept, hpaid, -⟩ := turn_kept h hpull hcount hoffer
      exact ⟨hkept, Nat.le_trans (Nat.le_add_right _ _) hpaid⟩
  | case4 buffer l state r l₁ hpull hcount state' buffer' l₂ =>
      rename_i hoffer
      subst hstaging
      rw [size_staging] at hpull
      obtain ⟨hkept, hpaid, -⟩ := turn_kept h hpull hcount hoffer
      exact ⟨hkept, Nat.le_trans (Nat.le_add_right _ _) hpaid⟩
  | case5 buffer l state r l₁ hpull hcount state' buffer' l₂ =>
      rename_i hoffer ih
      subst hstaging
      rw [size_staging] at hpull
      obtain ⟨-, hpaid, hreceive, hrested⟩ := turn_kept h hpull hcount hoffer
      obtain ⟨hkept, hle⟩ := ih (hrested rfl) hreceive
      exact ⟨hkept, Nat.le_trans hle hpaid⟩

/-- The record of a run of the pump. -/
def deeds (room : Nat) (s : Staging) (l : Line ω) (state : DecompressState) : List Deed :=
  (run room s l.traced state).2.2.deeds

/-- A run that is written down is the run. -/
theorem run_traced (room : Nat) (s : Staging) (l : Line ω) (state : DecompressState) :
    ∃ l', run room s l.traced state = ((run room s l state).1, (run room s l state).2.1, l') ∧
      l'.Alike Traced.Erases (run room s l state).2.2 := by
  obtain ⟨hresult, hstate, hl⟩ := run_alike Traced.pump_alike room s state l.traced_alike
  exact ⟨_, Prod.ext hresult (Prod.ext hstate rfl), hl⟩

theorem deeds_kept (room : Nat) (s : Staging) (l : Line ω) (state : DecompressState) :
    Kept room s (deeds room s l state) ∧
      (chunks s (deeds room s l state)).length ≤ l.credit := by
  obtain ⟨hkept, hpaid⟩ := run_kept (l := l.traced) state (.nil : Rested room s [])
  exact ⟨hkept, Nat.le_trans hpaid (Nat.le_of_eq (Nat.zero_add l.credit))⟩

end Pump

end Lzma
