import Lzma.Proofs.Outcome
import Lzma.Proofs.Settling
import Mathlib.Algebra.GroupWithZero.Nat

/-!
# The books of a run agree

Four things count the bytes of a run: the handle's totals, the record of its calls, the events
that it notes and the totals of its coder. They are kept in different places and are all exact,
whatever source and sink answer and however the run ends.

The totals follow the single calls, so they are invariants of these (`Line.counted`, and
`Line.accounted` for what is given). The events do not: a chunk is noted after it was read, and
in between the notes are behind by one read. `Line.Told` therefore has the bytes that were read
without a note as a parameter: none for a compressor, and the header for a decompressor. It also
says that no note has told of the end of the run yet, which only the handle itself does.

The coder's own totals agree with the handle's where no call fails, so of these it is the loops
that go on which carry them (`Line.Level`). What is left between the two when the end marker is
found is the part of the last chunk that no one has taken.
-/

namespace Lzma

variable {ω : Type}

/-! ## Views of a record -/

/-- What a read counts for: what it reports, if that fits the buffer. -/
@[simp] def Deed.received : Deed → Nat
  | .read room (.ok r) => if r.count ≤ room then r.count else 0
  | _ => 0

@[simp] def Deed.events : Deed → List Event
  | .note event => [event]
  | _ => []

/-- How many bytes an event says were read. -/
@[simp] def Event.chunk : Event → Nat
  | .encodingChunk count | .decodingChunk count => count
  | _ => 0

/-- How many bytes an event says were passed over. -/
@[simp] def Event.passedOver : Event → List Nat
  | .trailingData count => [count]
  | _ => []

/-- The events that tell how a run has ended. -/
@[simp] def Event.Ends : Event → Prop
  | .compressionFinished _ _ | .compressionFailed _ => True
  | .decompressionFinished _ _ | .decompressionFailed _ => True
  | _ => False

/-- An event that tells of no bytes and of no end. -/
structure Event.Silent (event : Event) : Prop where
  chunk : event.chunk = 0
  passedOver : event.passedOver = []
  goes : ¬event.Ends

/-- What a run goes on with when it has read. -/
@[simp] def countOf : Except IoError Reading → Nat
  | .error _ => 0
  | .ok r => r.count

namespace Record

def received (ds : List Deed) : Nat := (ds.map Deed.received).sum

def events (ds : List Deed) : List Event := ds.flatMap Deed.events

/-- What the notes of chunks add up to. -/
def reported (ds : List Deed) : Nat := ((events ds).map Event.chunk).sum

/-- What the warnings say was passed over. -/
def passedOver (ds : List Deed) : List Nat := (events ds).flatMap Event.passedOver

/-- No event tells that the run is over. -/
def Going (ds : List Deed) : Prop := ∀ event ∈ events ds, ¬event.Ends

section

variable (ds : List Deed) (d : Deed)

@[simp] theorem received_append (es : List Deed) :
    received (ds ++ es) = received ds + received es := by
  simp [received]

@[simp] theorem received_singleton : received [d] = d.received := by
  simp [received]

@[simp] theorem events_append (es : List Deed) : events (ds ++ es) = events ds ++ events es :=
  List.flatMap_append

@[simp] theorem events_singleton : events [d] = d.events := List.flatMap_singleton ..

theorem reported_note (event : Event) :
    reported (ds ++ [.note event]) = reported ds + event.chunk := by
  rw [reported, events_append, List.map_append, List.sum_append, reported]
  exact congrArg (_ + ·) (Nat.add_zero _)

theorem passedOver_note (event : Event) :
    passedOver (ds ++ [.note event]) = passedOver ds ++ event.passedOver := by
  rw [passedOver, events_append, List.flatMap_append, passedOver]
  exact congrArg (_ ++ ·) (List.append_nil _)

end

/-- What came of reads without a fault is what they report. -/
theorem received_eq_sum {ds : List Deed} (hfaultless : Faultless ds) {counts : List Nat}
    (hreads : reads ds = counts.map .ok) : received ds = counts.sum := by
  induction ds generalizing counts with
  | nil =>
      obtain rfl := List.map_eq_nil_iff.mp hreads.symm
      rfl
  | cons d ds ih =>
      obtain ⟨hd, hds⟩ := List.forall_mem_cons.mp hfaultless
      have hcons : d.reads ++ reads ds = counts.map .ok := hreads
      show d.received + received ds = counts.sum
      cases d with
      | read room answer =>
          obtain _ | ⟨count, counts⟩ := counts
          · cases hcons
          · obtain ⟨hanswer, hrest⟩ := List.cons.inj hcons
            rw [ih hds hrest, List.sum_cons]
            cases answer with
            | error e => cases hanswer
            | ok r =>
                obtain rfl : r.count = count := Except.ok.inj hanswer
                have hfits : r.count ≤ room := by
                  rw [Deed.fault] at hd
                  split at hd
                  · cases hd
                  · next hle => exact Nat.le_of_not_lt hle
                rw [Deed.received, if_pos hfits]
      | note | write | decode =>
          rw [ih hds hcons]
          exact Nat.zero_add _

/-- Where reading went on to its end, something was read each time but the last. -/
theorem ToEnd.counts {answers : List (Except IoError Nat)} (h : ToEnd answers (.ok ())) :
    ∃ counts : List Nat, answers = (counts ++ [0]).map .ok ∧ ∀ count ∈ counts, 0 < count := by
  obtain ⟨before, rfl⟩ := List.getLast?_eq_some_iff.mp (h.ended rfl)
  have hbrings := h.brings
  rw [List.dropLast_concat] at hbrings
  clear h
  induction before with
  | nil => exact ⟨[], rfl, by simp⟩
  | cons answer before ih =>
      obtain ⟨⟨count, rfl, hpos⟩, hrest⟩ := List.forall_mem_cons.mp hbrings
      obtain ⟨counts, hcounts, hall⟩ := ih hrest
      refine ⟨count :: counts, ?_, List.forall_mem_cons.mpr ⟨hpos, hall⟩⟩
      rw [List.cons_append, hcounts]
      rfl

end Record

open Record

/-! ## What is counted -/

section

variable [Channel ω]

/-- What a line counts as taken is what its reads have brought. -/
theorem Line.counted (limit : Nat) :
    Line.Invariant (ω := Traced ω) limit fun l => l.taken = received l.deeds where
  note event l hl := by
    rw [deeds_note, received_append, received_singleton]
    exact hl
  pull room l hl := by
    by_cases hroom : room = 0
    · rw [hroom, pull_zero]
      exact hl
    · rw [deeds_pull_of_ne hroom, received_append, received_singleton, ← hl, pull_of_ne hroom]
      show _ = l.taken + (Deed.read room (Channel.read room l.world).1).received
      rcases Channel.read room l.world with ⟨_ | r, t⟩
      · rfl
      · by_cases hcount : room < r.count
        · simp only [readVerdict, Deed.received, if_pos hcount, if_neg (Nat.not_le.mpr hcount)]
          rfl
        · simp only [readVerdict, Deed.received, if_neg hcount, if_pos (Nat.le_of_not_lt hcount)]
  push {bytes l} _ hl := by
    by_cases hne : bytes = []
    · rw [hne, push_nil]
      exact hl
    · rw [deeds_push_of_ne hne, received_append, received_singleton, taken_push]
      exact hl

end

section

variable [Channel ω] {l l' : Line ω} {room : Nat}

theorem Line.taken_pull {result : Except IoError Reading} (hpull : l.pull room = (result, l')) :
    l'.taken = l.taken + countOf result := by
  by_cases hroom : room = 0
  · rw [hroom, pull_zero] at hpull
    cases hpull
    rfl
  · rw [pull_of_ne hroom] at hpull
    split at hpull <;> cases hpull <;> rfl

theorem Line.count_le_of_pull {r : Reading} (hpull : l.pull room = (.ok r, l')) :
    r.count ≤ room := by
  by_cases hroom : room = 0
  · rw [hroom, pull_zero] at hpull
    cases hpull
    exact Nat.zero_le _
  · rw [pull_of_ne hroom] at hpull
    split at hpull <;> rename_i hverdict <;> cases hpull
    exact (readVerdict_eq_ok.mp hverdict).2

end

/-! ## What is told -/

/--
What the notes of a line have told: of each byte that was taken but for `plain` many, of what
was passed over, and not of an end.
-/
structure Line.Told (plain : Nat) (passed : List Nat) (l : Line (Traced ω)) : Prop where
  chunks : l.taken = plain + reported l.deeds
  passed : passedOver l.deeds = passed
  going : Going l.deeds

namespace Line.Told

variable {plain : Nat} {passed : List Nat} {l : Line (Traced ω)}

theorem start (w : ω) : Told 0 [] ({ world := ⟨w, []⟩ } : Line (Traced ω)) :=
  ⟨rfl, rfl, by simp [Going, events, deeds]⟩

/-- Only the events of a line count here. -/
theorem of_events {l' : Line (Traced ω)} (h : l.Told plain passed)
    (hevents : events l'.deeds = events l.deeds) (more : Nat)
    (htaken : l'.taken = l.taken + more) : l'.Told (plain + more) passed := by
  refine ⟨?_, ?_, ?_⟩
  · rw [htaken, h.chunks, reported, reported, hevents]
    omega
  · rw [passedOver, hevents]
    exact h.passed
  · rw [Going, hevents]
    exact h.going

variable [Channel ω]

theorem note (event : Event) (h : l.Told (plain + event.chunk) passed) (hgoing : ¬event.Ends) :
    (l.note event).Told plain (passed ++ event.passedOver) := by
  refine ⟨?_, ?_, ?_⟩
  · show l.taken = _
    rw [h.chunks, deeds_note, reported_note]
    omega
  · rw [deeds_note, passedOver_note, h.passed]
  · rw [Going, deeds_note, events_append, events_singleton]
    exact List.forall_mem_append.mpr ⟨h.going, List.forall_mem_singleton.mpr hgoing⟩

theorem push (h : l.Told plain passed) (bytes : List UInt8) :
    (l.push bytes).2.Told plain passed := by
  refine h.of_events ?_ 0 (taken_push l bytes)
  by_cases hne : bytes = []
  · rw [hne, push_nil]
  · rw [deeds_push_of_ne hne]
    simp

/-- A read is told of when its chunk is noted. -/
theorem note_chunk (event : Event) {count : Nat} (h : l.Told (plain + count) passed)
    (hchunk : event.chunk = count) (hpassed : event.passedOver = []) (hgoing : ¬event.Ends) :
    (l.note event).Told plain passed := by
  subst hchunk
  have hnote := h.note event hgoing
  rwa [hpassed, List.append_nil] at hnote

theorem note_silent (event : Event) (h : l.Told plain passed) (hsilent : event.Silent) :
    (l.note event).Told plain passed :=
  have hnone : l.Told (plain + 0) passed := h
  hnone.note_chunk event hsilent.chunk hsilent.passedOver hsilent.goes

theorem pull {room : Nat} (h : l.Told plain passed) {result : Except IoError Reading}
    {l' : Line (Traced ω)} (hpull : l.pull room = (result, l')) :
    l'.Told (plain + countOf result) passed := by
  refine h.of_events ?_ (countOf result) (taken_pull hpull)
  by_cases hroom : room = 0
  · rw [hroom, pull_zero] at hpull
    cases hpull
    rfl
  · have hdeeds := deeds_pull_of_ne hroom l
    rw [hpull] at hdeeds
    rw [hdeeds]
    simp

end Line.Told

theorem Event.OfMemory.silent {event : Event} (h : event.OfMemory) : event.Silent := by
  cases event with
  | shortBlock | engineRefused => exact ⟨rfl, rfl, id⟩
  | _ => exact h.elim

/-- Memory that is refused is all that is noted while memory is dealt with. -/
theorem Allocator.keeps_told [Channel ω] (a : Allocator ω) (plain : Nat) (passed : List Nat) :
    a.traced.KeepsLine (Line.Told plain passed) := fun taken given => {
  note := fun {event t} hmemory (ht : Line.Told plain passed ⟨t, taken, given⟩) =>
    ht.note_silent event hmemory.silent
  alloc := fun _ _ ht => ⟨ht.chunks, ht.passed, ht.going⟩
  free := fun _ _ ht => ⟨ht.chunks, ht.passed, ht.going⟩ }

/-! ### Compression -/

section

variable [Channel ω] {l : Line (Traced ω)}

/-- Each chunk is told of before anything is done with it. -/
theorem Encoding.run_told {s : Stream Encoder} {staging : Staging} {state : CompressState}
    (h : l.Told 0 []) : (run s staging l state).2.2.Told 0 [] := by
  fun_induction run s staging l state with
  | case1 s staging l state e l₁ hpull => exact h.pull hpull
  | case2 s staging l state r l₁ hpull state' hcount result l₂ =>
      rename_i hfinish
      have hread : l₁.Told (0 + r.count) [] := h.pull hpull
      rw [hcount] at hread
      have hrest := finish_keeps id (fun {bytes _} _ hl => hl.push bytes) s hread
      rwa [hfinish] at hrest
  | case3 s staging l state r l₁ hpull state' hcount staging' e l₂ =>
      rename_i hchunk
      have hnote : (l₁.note (.encodingChunk r.count)).Told 0 [] :=
        (h.pull hpull).note_chunk (.encodingChunk r.count) rfl rfl id
      have hrest := encodeChunk_keeps id (fun {bytes _} _ hl => hl.push bytes) s
        (staging'.chunk r.count) hnote
      rwa [hchunk] at hrest
  | case4 s staging l state r l₁ hpull state' hcount staging' s₁ l₂ =>
      rename_i hchunk ih
      have hnote : (l₁.note (.encodingChunk r.count)).Told 0 [] :=
        (h.pull hpull).note_chunk (.encodingChunk r.count) rfl rfl id
      have hrest := encodeChunk_keeps id (fun {bytes _} _ hl => hl.push bytes) s
        (staging'.chunk r.count) hnote
      rw [hchunk] at hrest
      exact ih hrest

namespace Compressor

theorem emit_told (c : Compressor (Traced ω)) (session : CompressSession (Traced ω))
    (state : CompressState) {t : Traced ω} (h : Line.Told 0 [] ({ world := t } : Line (Traced ω))) :
    (c.emit session state t).2.2.Told 0 [] := by
  rw [emit]
  split
  · exact h
  · have hheader := (h.note_silent (.compressionStarting c.options.header c.options.level)
      ⟨rfl, rfl, id⟩).push c.options.header.toBytes
    dsimp only
    split <;> rename_i hpush <;> rw [hpush] at hheader
    · exact hheader
    · exact Encoding.run_told hheader

variable [Provident]

theorem drive_told (c : Compressor ω) (w : ω) : (c.traced.drive ⟨w, []⟩).2.2.Told 0 [] := by
  have hkeeps := c.allocator.keeps_told 0 []
  rw [drive_eq]
  split <;> rename_i hacquire <;>
    have ht := CompressSession.keeps_acquire (hkeeps 0 0) (.start w) hacquire
  · exact ht
  · rename_i session t
    have hemit := emit_told c.traced session c.traced.state ht
    generalize c.traced.emit session c.traced.state t = p at hemit ⊢
    obtain ⟨result, state, l⟩ := p
    exact (CompressSession.served_of_acquire hacquire).keeps_release
      (hkeeps l.taken l.given).free
      (CompressSession.housekeeping_of_acquire hacquire).closing hemit

theorem counted_drive (c : Compressor ω) (w : ω) :
    (c.traced.drive ⟨w, []⟩).2.2.taken = received (c.traced.drive ⟨w, []⟩).2.2.deeds := by
  have hkeeps (taken : Nat) := c.allocator.keeps_traced (P := fun ds => taken = received ds)
    fun event ds _ hds => by simpa using hds
  have hdrive := keeps_drive (c := c.traced) (w := ⟨w, []⟩) (Line.counted _)
    (fun taken _ => hkeeps taken) rfl
  exact hdrive

/-- The event that a run ends with. -/
def ending (totalIn totalOut : Nat) : Except Error Unit → Event
  | .ok () => .compressionFinished totalIn totalOut
  | .error e => .compressionFailed e

variable {c : Compressor ω}

/-- What a handle makes of a run that its loops have come to the end of. -/
theorem run_closed (hfresh : c.isFresh = true) (w : ω) :
    (c.run w).1 = (c.traced.drive ⟨w, []⟩).1 ∧
      (c.run w).2.1.totalIn = (c.traced.drive ⟨w, []⟩).2.2.taken ∧
      (c.run w).2.1.totalOut = (c.traced.drive ⟨w, []⟩).2.2.given ∧
      c.deeds w = (c.traced.drive ⟨w, []⟩).2.2.deeds ++
        [.note (ending (c.run w).2.1.totalIn (c.run w).2.1.totalOut (c.run w).1)] := by
  have hrun := c.run_traced w
  have hdeeds : c.deeds w = (c.traced.run ⟨w, []⟩).2.2.deeds := rfl
  have hresult : (c.run w).1 = (c.traced.run ⟨w, []⟩).1 := by rw [hrun]
  have htotalIn : (c.run w).2.1.totalIn = (c.traced.run ⟨w, []⟩).2.1.totalIn := by rw [hrun]; rfl
  have htotalOut : (c.run w).2.1.totalOut = (c.traced.run ⟨w, []⟩).2.1.totalOut := by
    rw [hrun]
    rfl
  rw [hdeeds, hresult, htotalIn, htotalOut, run,
    if_pos (show c.traced.isFresh = true from hfresh)]
  rcases c.traced.drive ⟨w, []⟩ with ⟨_ | _, state, l⟩ <;> exact ⟨rfl, rfl, rfl, rfl⟩

/-- What the books of a run agree on. -/
structure Books (c : Compressor ω) (w : ω) : Prop where
  totalIn : (c.run w).2.1.totalIn = received (c.deeds w)
  totalOut : (c.run w).2.1.totalOut = (accepted (c.deeds w)).length
  chunks : reported (c.deeds w) = (c.run w).2.1.totalIn
  ending : ∃ before, Going before ∧ c.deeds w = before ++
    [.note (ending (c.run w).2.1.totalIn (c.run w).2.1.totalOut (c.run w).1)]
  /--
  A success has read the source to its end, and has written a header and what the encoder gave
  for all of that, up to the encoder's end.
  -/
  ok : (c.run w).1 = .ok () → ∃ (session : CompressSession ω) (w' : ω)
    (s : Stream Encoder) (counts : List Nat) (data payload : List UInt8),
    CompressSession.acquire c.options c.allocator w = (.ok session, w') ∧
    session.engine.stream.Emits data payload s ∧ s.stage = .ended ∧
    reads (c.deeds w) = (counts ++ [0]).map .ok ∧ (∀ count ∈ counts, 0 < count) ∧
    (c.run w).2.1.totalIn = counts.sum ∧ (c.run w).2.1.totalIn = s.totalIn ∧
    data.length = counts.sum ∧ accepted (c.deeds w) = c.options.header.toBytes ++ payload ∧
    accepted (c.deeds w) = c.options.stream data ∧
    (c.run w).2.1.totalOut = headerSize + s.totalOut

theorem drive_ok {w : ω} (h : (c.traced.drive ⟨w, []⟩).1 = .ok ()) :
    let l := (c.traced.drive ⟨w, []⟩).2.2
    ∃ (session : CompressSession (Traced ω)) (t : Traced ω) (s : Stream Encoder)
      (counts : List Nat) (data payload : List UInt8),
      CompressSession.acquire c.traced.options c.traced.allocator ⟨w, []⟩ = (.ok session, t) ∧
      session.engine.stream.Emits data payload s ∧ s.stage = .ended ∧
      reads l.deeds = (counts ++ [0]).map .ok ∧ (∀ count ∈ counts, 0 < count) ∧
      l.taken = counts.sum ∧ data.length = counts.sum ∧
      accepted l.deeds = c.options.header.toBytes ++ payload ∧
      accepted l.deeds = c.options.stream data := by
  have hcounted := c.counted_drive w
  have hkeeps := c.allocator.keeps_traced (P := fun ds => reads ds = [] ∧ accepted ds = [] ∧
    received ds = 0) fun event ds _ hds => by simpa using hds
  dsimp only
  rw [drive_eq] at h hcounted ⊢
  rcases hacquire : CompressSession.acquire c.traced.options c.traced.allocator ⟨w, []⟩ with
    ⟨e | session, t⟩ <;> rw [hacquire] at h hcounted
  · cases h
  · obtain ⟨hreads, haccepted, hreceived⟩ :=
      CompressSession.keeps_acquire hkeeps ⟨rfl, rfl, rfl⟩ hacquire
    obtain ⟨-, hstream⟩ := CompressSession.of_acquire hacquire
    have hdeeds {t : Traced ω} : (session.release t).deeds = t.deeds :=
      (CompressSession.served_of_acquire hacquire).keeps_release
        (I := fun t' => t'.deeds = t.deeds) (fun _ _ ht => ht)
        (CompressSession.housekeeping_of_acquire hacquire).closing rfl
    have hformat : c.options.format = .lzma := by
      cases hformat : c.options.format with
      | lzma => rfl
      | lzip =>
          have hne : c.traced.options.format ≠ .lzma := by
            rw [show c.traced.options.format = _ from hformat]
            decide
          dsimp only at h
          rw [emit, if_pos hne] at h
          cases h
    obtain ⟨answers, ⟨new, hnew, hcomes, hanswers⟩, hend⟩ :=
      emit_passes hstream (CompressSession.input_of_acquire hacquire) hformat c.traced.state t
    dsimp only at h hcounted hnew hcomes ⊢
    rcases hemit : c.traced.emit session c.traced.state t with ⟨result, state, l⟩
    rw [hemit] at h hcounted hnew hcomes hend
    obtain rfl : result = .ok () := h
    obtain ⟨data, payload, s, hlength, hemits, hended, hdata, hpayload⟩ := emit_ok hstream hemit
    obtain ⟨counts, rfl, hpos⟩ := hend.counts
    have hsum : l.taken = counts.sum := by
      have htaken : l.taken = received (session.release l.world).deeds := hcounted
      rw [htaken, hdeeds, show l.world.deeds = t.deeds ++ new from hnew, received_append,
        show received t.deeds = 0 from hreceived, received_eq_sum hcomes.faultless hanswers]
      simp
    have hwritten : accepted (session.release l.world).deeds =
        c.options.header.toBytes ++ payload := by
      rw [hdeeds, show l.world.deeds = l.deeds from rfl, hdata,
        show accepted t.deeds = [] from haccepted]
      rfl
    refine ⟨session, t, s, counts, data, payload, rfl, hemits, hended, ?_, hpos, hsum,
      hlength.symm.trans hsum, hwritten, ?_⟩
    · show reads (session.release l.world).deeds = _
      rw [hdeeds, show l.world.deeds = t.deeds ++ new from hnew, reads_append,
        show reads t.deeds = [] from hreads, hanswers]
      rfl
    · rw [hpayload] at hwritten
      exact hwritten

theorem books (hfresh : c.isFresh = true) (w : ω) : c.Books w := by
  obtain ⟨hresult, htotalIn, htotalOut, hdeeds⟩ := run_closed hfresh w
  have htold := c.drive_told w
  refine ⟨?_, totalOut_run hfresh w, ?_, ⟨_, htold.going, hdeeds⟩, ?_⟩
  · rw [htotalIn, c.counted_drive w, hdeeds]
    simp
  · have hending (m n : Nat) (result : Except Error Unit) : (ending m n result).chunk = 0 := by
      cases result <;> rfl
    rw [htotalIn, htold.chunks, hdeeds, reported_note, hending, Nat.zero_add, Nat.add_zero]
  · intro hok
    rw [hresult] at hok
    obtain ⟨session, t, s, counts, data, payload, hacquire, hemits, hended, hreads, hpos, hsum,
      hlength, hwritten, hdata⟩ := drive_ok hok
    obtain ⟨session', w', hacquire', halike, -⟩ := c.allocator.traced_lockstep.compress_ok
      (show Traced.Erases (⟨w, []⟩ : Traced ω) w from rfl) hacquire
    have hstream : session.engine.stream = session'.engine.stream := halike.engine.stream
    have hstart : session.engine.stream.totalIn = 0 ∧ session.engine.stream.totalOut = 0 := by
      rw [(CompressSession.of_acquire hacquire).2]
      exact ⟨rfl, rfl⟩
    obtain ⟨hin, hout⟩ := hemits.totals
    rw [hstart.1, Nat.zero_add] at hin
    rw [hstart.2, Nat.zero_add] at hout
    have haccepted : accepted (c.deeds w) = c.options.header.toBytes ++ payload := by
      rw [hdeeds, ← hwritten]
      simp
    refine ⟨session', w', s, counts, data, payload, hacquire', hstream ▸ hemits, hended, ?_, hpos,
      htotalIn.trans hsum, ?_, hlength, haccepted, ?_, ?_⟩
    · rw [hdeeds, ← hreads]
      simp
    · rw [hin, hlength]
      exact htotalIn.trans hsum
    · rw [haccepted, ← hwritten, hdata]
    · rw [totalOut_run hfresh, haccepted, List.length_append, Header.length_toBytes, hout]

end Compressor

end

/-! ### The header -/

section

variable [Channel ω] {l : Line (Traced ω)} {plain : Nat} {passed : List Nat}

/-- Of what is gathered nothing is told. -/
theorem Line.Told.gather (h : l.Told plain passed) (old : List UInt8) :
    ∃ count ≤ old.length, (l.gather old).2.Told (plain + count) passed ∧
      (l.gather old).2.taken = l.taken + count ∧
      ∀ bytes, (l.gather old).1 = .ok bytes → bytes.length = count := by
  fun_induction Line.gather l old generalizing plain with
  | case1 l old hempty =>
      refine ⟨0, Nat.zero_le _, h, rfl, ?_⟩
      rintro bytes ⟨⟩
      rfl
  | case2 l old hne e l₁ hpull =>
      have htaken := taken_pull hpull
      exact ⟨0, Nat.zero_le _, h.pull hpull, htaken, by simp⟩
  | case3 l old hne r l₁ hpull hcount =>
      have hread := h.pull hpull
      have htaken := taken_pull hpull
      rw [countOf, hcount] at hread htaken
      refine ⟨0, Nat.zero_le _, hread, htaken, ?_⟩
      rintro bytes ⟨⟩
      rfl
  | case4 l old hne r l₁ hpull hcount new e l₂ hgather =>
      rename_i ih
      obtain ⟨count, hle, htold, htaken, -⟩ := ih (h.pull hpull)
      rw [hgather] at htold htaken
      have hfits := count_le_of_pull hpull
      have htaken₁ := taken_pull hpull
      simp only [new, List.length_drop, length_overlay] at hle
      refine ⟨r.count + count, by omega, ?_, ?_, by simp⟩
      · rw [← Nat.add_assoc]
        exact htold
      · simp only [countOf] at htaken htaken₁ ⊢
        omega
  | case5 l old hne r l₁ hpull hcount new more l₂ hgather =>
      rename_i ih
      obtain ⟨count, hle, htold, htaken, hlength⟩ := ih (h.pull hpull)
      rw [hgather] at htold htaken hlength
      have hfits := count_le_of_pull hpull
      have htaken₁ := taken_pull hpull
      simp only [new, List.length_drop, length_overlay] at hle
      refine ⟨r.count + count, by omega, ?_, ?_, ?_⟩
      · rw [← Nat.add_assoc]
        exact htold
      · simp only [countOf] at htaken htaken₁ ⊢
        omega
      · rintro bytes ⟨⟩
        rw [List.length_append, hlength more rfl, List.length_take, length_overlay]
        omega

/-- A header is not told of, and no more than a header is read for it. -/
theorem Decompressor.readHeader_told {result : Except Error Header} {w : ω}
    {l : Line (Traced ω)}
    (h : readHeader ({ world := ⟨w, []⟩ } : Line (Traced ω)) = (result, l)) :
    l.taken ≤ headerSize ∧ l.Told l.taken [] ∧
      ∀ header, result = .ok header → l.taken = headerSize := by
  obtain ⟨count, hle, htold, htaken, hlength⟩ :=
    (Line.Told.start w).gather (List.replicate headerSize 0)
  rw [List.length_replicate] at hle
  rw [Nat.zero_add] at htold htaken
  rw [readHeader] at h
  split at h <;> rename_i hgather <;> rw [hgather] at htold htaken hlength
  · cases h
    obtain rfl : l.taken = count := htaken
    exact ⟨hle, htold, by simp⟩
  · rename_i bytes l₁
    obtain rfl : l₁.taken = count := htaken
    split at h <;> rename_i hshort <;> cases h
    · exact ⟨hle, htold, by simp⟩
    · have hbytes := hlength bytes rfl
      exact ⟨hle, htold, fun _ _ => by omega⟩

end

/-! ### The payload -/

/-- A stream counts what its calls move. -/
theorem Stream.totals_decode {s s' : Stream Decoder} {input : List UInt8} {room : Nat}
    {moved : Decoded} (h : s.decode input room = (.ok moved, s')) :
    s'.totalIn = s.totalIn + moved.used ∧
      s'.totalOut = s.totalOut + moved.output.length := by
  obtain ⟨hused, houtput, rfl⟩ := eq_of_decode h
  rw [hused, houtput]
  exact s.totals_call (.feed input) room

/--
The handle's totals and those of a decoder that began behind `plain` bytes, with some bytes of
a chunk still to be taken.
-/
structure Line.Level (plain left : Nat) (l : Line (Decoding ω)) : Prop where
  taken : l.taken = plain + l.world.stream.totalIn + left
  given : l.given = l.world.stream.totalOut

/-- What is told of bytes that were passed over, if there are any. -/
def warning (left : Nat) : List Nat := if left = 0 then [] else [left]

namespace Pump

variable [Channel ω] {plain room : Nat} {l l₁ l₂ : Line (Decoding (Traced ω))}

theorem outer_decode {chunk : List UInt8} {result : Except IoError Decoded}
    (hdecode : l.decode chunk room = (result, l₁)) : l₁.outer = l.outer :=
  congrArg (fun p => p.2.outer) hdecode.symm

theorem level_passed {chunk : List UInt8} {moved : Decoded} (h : l.Level plain chunk.length)
    (hdecode : l.decode chunk room = (.ok moved, l₁))
    (hpush : l₁.push moved.output = (.ok (), l₂)) :
    l₂.Level plain (chunk.drop moved.used).length := by
  obtain ⟨hin, hout⟩ := Stream.totals_decode (Line.stream_decode hdecode)
  have hused : moved.used ≤ chunk.length := Line.used_decode_le hdecode
  have hstream : l₂.world.stream = l₁.world.stream := by
    have hstream := l₁.stream_push moved.output
    rwa [hpush] at hstream
  have htaken : l₂.taken = l.taken := by
    have htaken := l₁.taken_push moved.output
    rw [hpush] at htaken
    exact htaken.trans (congrArg (fun l => l.taken) (outer_decode hdecode))
  have hgiven : l₂.given = l.given + moved.output.length := by
    have hcalled : l₁.given = l.given := congrArg (fun l => l.given) (outer_decode hdecode)
    rw [Line.given_push hpush, hcalled]
  refine ⟨?_, ?_⟩
  · rw [htaken, h.taken, hstream, hin, List.length_drop]
    omega
  · rw [hgiven, h.given, hstream, hout]

theorem told_passed {passed : List Nat} {chunk : List UInt8} {result : Except IoError Decoded}
    (h : l.outer.Told plain passed) (hdecode : l.decode chunk room = (result, l₁)) :
    l₁.outer.Told plain passed := by
  rw [outer_decode hdecode]
  exact h

theorem told_push {passed : List Nat} {bytes : List UInt8} {result : Except Error Unit}
    (h : l.outer.Told plain passed) (hpush : l.push bytes = (result, l₁)) :
    l₁.outer.Told plain passed := by
  have houter := l.outer_push bytes
  rw [hpush] at houter
  rw [houter]
  exact h.push bytes

/-- What the books show behind an offer, as it went. -/
def Shows (plain : Nat) : Except Error Bool → Line (Decoding (Traced ω)) → Prop
  | .error _, l => l.outer.Told plain []
  | .ok false, l => l.outer.Told plain [] ∧ l.Level plain 0
  | .ok true, l => ∃ left, l.outer.Told plain (warning left) ∧ l.Level plain left

theorem offer_shows {chunk : List UInt8} (htold : l.outer.Told plain [])
    (hlevel : l.Level plain chunk.length) :
    Shows plain (offer room l chunk).1 (offer room l chunk).2 := by
  fun_induction offer room l chunk with
  | case1 l chunk e l₁ hdecode => exact told_passed htold hdecode
  | case2 l chunk moved l₁ hdecode e l₂ hpush =>
      exact told_push (told_passed htold hdecode) hpush
  | case3 l chunk moved l₁ hdecode l₂ hpush rest =>
      have htold₂ := told_push (told_passed htold hdecode) hpush
      have hlevel₂ := level_passed hlevel hdecode hpush
      refine ⟨rest.length, ?_, ?_⟩
      · dsimp only
        split <;> rename_i hrest
        · rw [hrest]
          exact htold₂
        · rw [warning, if_neg (mt List.length_eq_zero_iff.mp hrest)]
          exact htold₂.note (.trailingData rest.length) id
      · dsimp only
        split <;> exact ⟨hlevel₂.taken, hlevel₂.given⟩
  | case4 l chunk moved l₁ hdecode l₂ hpush rest hstatus hidle hrest =>
      have hlevel₂ := level_passed hlevel hdecode hpush
      rw [show chunk.drop moved.used = [] from hrest] at hlevel₂
      exact ⟨told_push (told_passed htold hdecode) hpush, hlevel₂⟩
  | case5 l chunk moved l₁ hdecode l₂ hpush rest =>
      exact told_push (told_passed htold hdecode) hpush
  | case6 l chunk moved l₁ hdecode l₂ hpush rest hstatus hmoves hdone =>
      have hlevel₂ := level_passed hlevel hdecode hpush
      rw [show chunk.drop moved.used = [] from hdone.1] at hlevel₂
      exact ⟨told_push (told_passed htold hdecode) hpush, hlevel₂⟩
  | case7 l chunk moved l₁ hdecode l₂ hpush rest hstatus hmoves hmore ih =>
      exact ih (told_push (told_passed htold hdecode) hpush) (level_passed hlevel hdecode hpush)

theorem turn_shows (room : Nat) {staging : Staging} {r : Reading} (htold : l.outer.Told plain [])
    (hlevel : l.Level plain 0) (hpull : l.pull staging.size = (.ok r, l₁)) :
    Shows plain
      (offer room (l₁.note (.decodingChunk r.count)) ((staging.receive r.placed).chunk r.count)).1
      (offer room (l₁.note (.decodingChunk r.count))
        ((staging.receive r.placed).chunk r.count)).2 := by
  obtain ⟨hlength, htaken⟩ := Line.length_chunk hpull
  have hgiven := l.given_pull staging.size
  have hstream := l.stream_pull staging.size
  have houter := l.pull_outer staging.size
  rw [hpull] at hgiven hstream houter
  apply offer_shows
  · exact (htold.pull houter).note_chunk (.decodingChunk r.count) rfl rfl id
  · rw [hlength]
    refine ⟨?_, ?_⟩
    · show l₁.taken = plain + l₁.world.stream.totalIn + r.count
      rw [htaken, hlevel.taken, hstream]
      rfl
    · show l₁.given = l₁.world.stream.totalOut
      rw [hgiven, hlevel.given, hstream]

/-- The books of the payload's part of a run. -/
theorem run_shows {staging : Staging} {state : DecompressState} (htold : l.outer.Told plain [])
    (hlevel : l.Level plain 0) :
    Shows plain ((run room staging l state).1.map fun _ => true)
      (run room staging l state).2.2 := by
  fun_induction run room staging l state with
  | case1 staging l state e l₁ hpull =>
      have houter := l.pull_outer staging.size
      rw [hpull] at houter
      exact htold.pull houter
  | case2 staging l state r l₁ hpull hcount =>
      have houter := l.pull_outer staging.size
      rw [hpull] at houter
      have hread := htold.pull houter
      rw [countOf, hcount] at hread
      exact hread
  | case3 staging l state r l₁ hpull hcount state' staging' e l₂ =>
      rename_i hoffer
      have hturn := turn_shows room htold hlevel hpull
      rw [hoffer] at hturn
      exact hturn
  | case4 staging l state r l₁ hpull hcount state' staging' l₂ =>
      rename_i hoffer
      have hturn := turn_shows room htold hlevel hpull
      rw [hoffer] at hturn
      exact hturn
  | case5 staging l state r l₁ hpull hcount state' staging' l₂ =>
      rename_i hoffer ih
      have hturn := turn_shows room htold hlevel hpull
      rw [hoffer] at hturn
      exact ih hturn.1 hturn.2

end Pump

/-! ### Decompression -/

namespace Decompressor

variable [Channel ω] [Provident] {c : Decompressor ω} {w : ω}

theorem counted_drive (c : Decompressor ω) (w : ω) :
    (c.traced.drive ⟨w, []⟩).2.2.2.taken = received (c.traced.drive ⟨w, []⟩).2.2.2.deeds := by
  have hkeeps (taken : Nat) := c.allocator.keeps_traced (P := fun ds => taken = received ds)
    fun event ds _ hds => by simpa using hds
  have hdrive := keeps_drive (c := c.traced) (w := ⟨w, []⟩) (Line.counted _)
    (fun taken _ => hkeeps taken) rfl
  exact hdrive

/-- The decoder as the payload has left it. -/
def decoderAfter (session : DecompressSession ω) (l : Line ω) : Stream Decoder :=
  (session.pump DecompressState.allocated l).2.2.world.stream

/-- What the books of a run come to before its handle closes them. -/
theorem drive_told (c : Decompressor ω) (w : ω) :
    let p := c.traced.drive ⟨w, []⟩
    match p.1 with
    | .error _ => ∃ plain, p.2.2.2.Told plain [] ∧
        (plain = headerSize ∨ p.2.2.2.taken = plain ∧ plain ≤ headerSize)
    | .ok () => ∃ session l left, c.traced.opening ⟨w, []⟩ = some (session, l) ∧
        p.2.2.2.Told headerSize (warning left) ∧
        p.2.2.2.taken = headerSize + (decoderAfter session l).totalIn + left ∧
        p.2.2.2.given = (decoderAfter session l).totalOut := by
  have hkeeps := c.allocator.keeps_told
  dsimp only
  rw [drive_eq, opening]
  rcases hheader : readHeader ({ world := ⟨w, []⟩ } : Line (Traced ω)) with ⟨e | header, l⟩ <;>
    obtain ⟨hle, htold, hwhole⟩ := readHeader_told hheader
  · exact ⟨l.taken, htold, .inr ⟨rfl, hle⟩⟩
  · rw [hwhole header rfl] at htold
    have hnote : (l.note (.decompressionStarting header)).Told headerSize [] :=
      htold.note_silent _ ⟨rfl, rfl, id⟩
    dsimp only
    rcases hacquire : DecompressSession.acquire header c.traced.allocator
      (l.note (.decompressionStarting header)).world with ⟨e | session, t⟩ <;>
      have ht := DecompressSession.keeps_acquire (hkeeps headerSize []
        (l.note (.decompressionStarting header)).taken
        (l.note (.decompressionStarting header)).given) hnote hacquire
    · exact ⟨headerSize, ht, .inl rfl⟩
    · have hstream : session.engine.stream.totalIn = 0 ∧ session.engine.stream.totalOut = 0 := by
        obtain ⟨d, -, hstream⟩ := DecompressSession.stream_of_acquire hacquire
        rw [hstream]
        exact ⟨rfl, rfl⟩
      have hgiven := readHeader_keeps (I := fun l : Line (Traced ω) => l.given = 0)
        (fun room {l} hl => (l.given_pull room).trans hl) (l := { world := ⟨w, []⟩ }) rfl
      rw [hheader] at hgiven
      have hlevel : Line.Level headerSize 0
          ({ l.note (.decompressionStarting header) with
            world := { world := t, stream := session.engine.stream } } :
            Line (Decoding (Traced ω))) := by
        refine ⟨?_, hgiven.trans hstream.2.symm⟩
        show l.taken = headerSize + session.engine.stream.totalIn + 0
        rw [hwhole header rfl, hstream.1]
        rfl
      have hshows : Pump.Shows headerSize
          ((session.pump DecompressState.allocated
            { l.note (.decompressionStarting header) with world := t }).1.map fun _ => true)
          (session.pump DecompressState.allocated
            { l.note (.decompressionStarting header) with world := t }).2.2 :=
        Pump.run_shows ht hlevel
      dsimp only
      have hreleased {plain : Nat} {passed : List Nat} {l : Line (Traced ω)}
          (hl : l.Told plain passed) :
          Line.Told plain passed { l with world := session.release l.world } :=
        (DecompressSession.served_of_acquire hacquire).keeps_release
          (hkeeps plain passed l.taken l.given).free
          (DecompressSession.housekeeping_of_acquire hacquire).closing hl
      split <;> rename_i hresult <;> rw [hresult] at hshows
      · exact ⟨headerSize, hreleased hshows, .inl rfl⟩
      · obtain ⟨left, hpassed, hlevel'⟩ := hshows
        exact ⟨session, _, left, rfl, hreleased hpassed, hlevel'.taken, hlevel'.given⟩

/-- Writing down has no part in how a run gets to its payload, nor in what its decoder does. -/
theorem opening_traced {session : DecompressSession (Traced ω)} {l : Line (Traced ω)}
    (h : c.traced.opening ⟨w, []⟩ = some (session, l)) :
    ∃ session' l', c.opening w = some (session', l') ∧
      decoderAfter session l = decoderAfter session' l' := by
  have hR := (Traced.channel_alike (ω := ω)).lockstep
  have hw : Traced.Erases ⟨w, []⟩ w := rfl
  rw [opening] at h ⊢
  rcases readHeader_lockstep hR (Line.alike_start hw) with hsame | ⟨_, -, hnever⟩
  · rcases hheader : readHeader ({ world := ⟨w, []⟩ } : Line (Traced ω)) with ⟨e | header, l₁⟩ <;>
      obtain ⟨l₁', hheader', hl₁⟩ := hsame.of_eq hheader <;> rw [hheader] at h
    · cases h
    · rw [hheader']
      have hnote := hl₁.note hR (.decompressionStarting header)
      dsimp only at h ⊢
      split at h <;> rename_i hacquire <;> cases h
      rename_i t
      obtain ⟨session', w', hacquire', halike, hw'⟩ :=
        c.allocator.traced_lockstep.decompress_ok hnote.world hacquire
      rw [hacquire']
      refine ⟨session', _, rfl, ?_⟩
      have hinput : session.input.buffer = session'.input.buffer := halike.input
      have houtput : session.output.buffer = session'.output.buffer := halike.output
      have hinner : Line.Alike (Decoding.Beside Traced.Erases)
          { l₁.note (.decompressionStarting header) with
            world := { world := t, stream := session.engine.stream } }
          { l₁'.note (.decompressionStarting header) with
            world := { world := w', stream := session'.engine.stream } } :=
        ⟨⟨hw', halike.engine.stream⟩, hnote.taken, hnote.given⟩
      have hrun := Pump.run_lockstep (Decoding.lockstep hR.host) session.output.size
        (.ofList session.input.buffer.bytes) .allocated hinner
      rw [decoderAfter, decoderAfter, DecompressSession.pump, DecompressSession.pump, ← hinput,
        show session'.output.size = session.output.size by rw [Block.size, Block.size, houtput]]
      rcases hrun with ⟨-, -, hl⟩ | ⟨_, -, hnever⟩
      · exact hl.world.2
      · exact hnever.elim
  · exact hnever.elim

def ending (totalIn totalOut : Nat) : Except Error Unit → Event
  | .ok () => .decompressionFinished totalIn totalOut
  | .error e => .decompressionFailed e

theorem run_closed (hfresh : c.state = .created) (w : ω) :
    (c.run w).1 = (c.traced.drive ⟨w, []⟩).1 ∧
      (c.run w).2.1.totalIn = (c.traced.drive ⟨w, []⟩).2.2.2.taken ∧
      (c.run w).2.1.totalOut = (c.traced.drive ⟨w, []⟩).2.2.2.given ∧
      c.deeds w = (c.traced.drive ⟨w, []⟩).2.2.2.deeds ++
        [.note (ending (c.run w).2.1.totalIn (c.run w).2.1.totalOut (c.run w).1)] := by
  have hrun := c.run_traced w
  have hdeeds : c.deeds w = (c.traced.run ⟨w, []⟩).2.2.deeds := rfl
  have hresult : (c.run w).1 = (c.traced.run ⟨w, []⟩).1 := by rw [hrun]
  have htotalIn : (c.run w).2.1.totalIn = (c.traced.run ⟨w, []⟩).2.1.totalIn := by rw [hrun]; rfl
  have htotalOut : (c.run w).2.1.totalOut = (c.traced.run ⟨w, []⟩).2.1.totalOut := by
    rw [hrun]
    rfl
  rw [hdeeds, hresult, htotalIn, htotalOut, run,
    if_pos (show c.traced.state = .created from hfresh)]
  rcases c.traced.drive ⟨w, []⟩ with ⟨_ | _, state, header, l⟩ <;> exact ⟨rfl, rfl, rfl, rfl⟩

structure Books (c : Decompressor ω) (w : ω) : Prop where
  totalIn : (c.run w).2.1.totalIn = received (c.deeds w)
  totalOut : (c.run w).2.1.totalOut = (accepted (c.deeds w)).length
  /-- The chunks are what was read behind the header, once that was read in full. -/
  chunks : (headerSize ≤ (c.run w).2.1.totalIn →
      (c.run w).2.1.totalIn = headerSize + reported (c.deeds w)) ∧
    ((c.run w).2.1.totalIn < headerSize → reported (c.deeds w) = 0)
  ending : ∃ before, Going before ∧ c.deeds w = before ++
    [.note (ending (c.run w).2.1.totalIn (c.run w).2.1.totalOut (c.run w).1)]
  error (e : Error) : (c.run w).1 = .error e → passedOver (c.deeds w) = []
  /-- A success has read the header, what the decoder took, and what was left of a chunk. -/
  ok : (c.run w).1 = .ok () → ∃ session l left, c.opening w = some (session, l) ∧
    (c.run w).2.1.totalIn = headerSize + (decoderAfter session l).totalIn + left ∧
    (c.run w).2.1.totalOut = (decoderAfter session l).totalOut ∧
    passedOver (c.deeds w) = warning left

theorem books (hfresh : c.state = .created) (w : ω) : c.Books w := by
  obtain ⟨hresult, htotalIn, htotalOut, hdeeds⟩ := run_closed hfresh w
  have htold := c.drive_told w
  have hcounted := c.counted_drive w
  have haccounted := c.accounted_drive w
  have hending (m n : Nat) (result : Except Error Unit) :
      (ending m n result).chunk = 0 ∧ (ending m n result).passedOver = [] := by
    cases result <;> exact ⟨rfl, rfl⟩
  dsimp only at htold
  rw [← hresult] at htold
  generalize (c.traced.drive ⟨w, []⟩).2.2.2 = l at *
  have hin : (c.run w).2.1.totalIn = received (c.deeds w) := by
    rw [htotalIn, hcounted, hdeeds]
    simp
  have hout : (c.run w).2.1.totalOut = (accepted (c.deeds w)).length := by
    rw [htotalOut, haccounted, hdeeds]
    simp
  have hchunks : reported (c.deeds w) = reported l.deeds := by
    rw [hdeeds, reported_note, (hending _ _ _).1]
    rfl
  have hpassed : passedOver (c.deeds w) = passedOver l.deeds := by
    rw [hdeeds, passedOver_note, (hending _ _ _).2, List.append_nil]
  rcases hrun : (c.run w).1 with e | _ <;> rw [hrun] at htold
  · obtain ⟨plain, htold, hplain⟩ := htold
    have htaken := htold.chunks
    refine ⟨hin, hout, ⟨?_, ?_⟩, ⟨l.deeds, htold.going, hdeeds⟩,
      fun _ _ => hpassed.trans htold.passed, ?_⟩
    · intro hle
      rw [htotalIn] at hle ⊢
      rw [hchunks]
      omega
    · intro hlt
      rw [htotalIn] at hlt
      rw [hchunks]
      omega
    · intro hok
      rw [hrun] at hok
      cases hok
  · obtain ⟨session, l₁, left, hopening, htold, htaken, hgiven⟩ := htold
    have hall := htold.chunks
    obtain ⟨session', l₁', hopening', hdecoder⟩ := opening_traced hopening
    rw [hdecoder] at htaken hgiven
    refine ⟨hin, hout, ⟨?_, ?_⟩, ⟨l.deeds, htold.going, hdeeds⟩, ?_, fun _ => ?_⟩
    · intro _
      rw [htotalIn, hchunks]
      exact hall
    · intro hlt
      rw [htotalIn] at hlt
      omega
    · intro e he
      rw [hrun] at he
      cases he
    · exact ⟨session', l₁', left, hopening', htotalIn.trans htaken, htotalOut.trans hgiven,
        hpassed.trans htold.passed⟩

end Decompressor

/--
The books of every run agree, however it ends. A handle's totals are what came of the reads that
fit their buffer, and what the sink took in one piece. The chunks that were noted add up to what
was read, but for the header. Where a compressor succeeds it has read up to the first read that
brought nothing, and has written a header and what its encoder gave for as many bytes, up to its
end; the encoder counts the same. Where a decompressor does, what it has read is the header, what
its decoder counts as taken, and what it warns of, if that is anything; and what it has written is
what the decoder counts as given. One event tells of the end of a run, and it is the last one.
-/
theorem books_agree {ω : Type} [Channel ω] [Provident] (w : ω) :
    (∀ c : Compressor ω, c.isFresh = true → c.Books w) ∧
      ∀ c : Decompressor ω, c.state = .created → c.Books w :=
  ⟨fun _ hfresh => Compressor.books hfresh w, fun _ hfresh => Decompressor.books hfresh w⟩

/-- The second run succeeds with two bytes behind the end marker. -/
theorem books_agree_of_trailing :
    let c : Compressor (Exchange ScriptedSource ScriptedSink Unit) := {}
    let d : Decompressor (Exchange ScriptedSource ScriptedSink Unit) := {}
    let x := Exchange.ofBytes 2 [97, 98, 97] ()
    let y := Exchange.ofBytes 9
      (Header.stream { lc := 3, pb := 2, dictSize := 4096 } [] ++ [7, 7]) ()
    (c.isFresh = true ∧ (c.run x).1 = .ok () ∧ c.Books x) ∧
      d.state = .created ∧ (d.run y).1 = .ok () ∧ d.Books y := by
  intro c d x y
  have hc : (c.run x).1 = .ok () := by
    obtain ⟨_, _, _, hrun, -⟩ := Compressor.run_spec (c := c) rfl Allocator.grants_standard
      (by decide) (by decide) (by decide) rfl
      (Exchange.scene_ofBytes 2 [97, 98, 97] () (by decide))
    rw [hrun]
  have hd : (d.run y).1 = .ok () := by
    obtain ⟨_, _, _, _, _, hrun, -⟩ := Decompressor.run_spec Allocator.grants_standard
      (Exchange.scene_ofBytes 9 (Header.stream { lc := 3, pb := 2, dictSize := 4096 } [] ++ [7, 7])
        () (by decide))
    rw [Extraction.of_stream [] (by decide) (by decide) (by decide)] at hrun
    exact congrArg Prod.fst hrun
  exact ⟨⟨rfl, hc, (books_agree x).1 c rfl⟩, rfl, hd, (books_agree y).2 d rfl⟩

end Lzma
