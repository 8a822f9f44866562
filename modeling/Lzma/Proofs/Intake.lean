import Lzma.Proofs.Gathering

/-!
# What is gathered is what is taken

Bytes are gathered before they are looked at, and whoever gathers must not take more than it
gives, or the bytes behind would be lost. `Intake` says that nothing is: of the calls that were
made, of the bytes that came of them, of the error if one came instead, and of the source, which
is left just as these calls leave it.

Calls are made of a source one by one, so what can be said of "the bytes before the first end" is
said of a source that is read on for however long (`more` in `Intake`): gathering has come to the
first of these bytes, up to the size of the buffer.

The calls, and what they come to, are fixed by what the source answers (`Record.Gathers.unique`).
So this is no different for a source that never ends: it is asked for no more than as many reads
as the buffer has bytes, and any limit that allows for these is as good as none
(`Line.gather_metered`).
-/

namespace Lzma

/-- A read that comes to the end of the input. -/
def Deed.isEnd : Deed → Bool
  | .read _ (.ok r) => r.count == 0
  | _ => false

/-- A source was read as the record says, gave these answers, and is left in this state. -/
def Answers {σ : Type} (read : Nat → σ → Except IoError Reading × σ) : σ → List Deed → σ → Prop
  | s, [], s' => s' = s
  | s, .read room answer :: ds, s' => answer = (read room s).1 ∧ Answers read (read room s).2 ds s'
  | _, _ :: _, _ => False

theorem Answers.snoc {σ : Type} {read : Nat → σ → Except IoError Reading × σ} {s s' : σ}
    {ds : List Deed} (h : Answers read s ds s') (room : Nat) :
    Answers read s (ds ++ [.read room (read room s').1]) (read room s').2 := by
  induction ds generalizing s with
  | nil =>
      obtain rfl : s' = s := h
      exact ⟨rfl, rfl⟩
  | cons d ds ih =>
      cases d with
      | read room' answer => exact ⟨h.1, ih h.2⟩
      | note | write | decode => exact h.elim

namespace Record

/-- The calls before the first read that comes to the end of the input. -/
def untilEnd (ds : List Deed) : List Deed := ds.takeWhile fun d => !d.isEnd

section

variable {room : Nat} {r : Reading} (ds : List Deed)

theorem untilEnd_of_end (hcount : r.count = 0) : untilEnd (.read room (.ok r) :: ds) = [] := by
  simp [untilEnd, Deed.isEnd, hcount]

theorem untilEnd_of_pos (hpos : 0 < r.count) :
    untilEnd (.read room (.ok r) :: ds) = .read room (.ok r) :: untilEnd ds := by
  simp [untilEnd, Deed.isEnd, Nat.ne_of_gt hpos]

/-- There is but one way to split a record of one call. -/
theorem eq_of_split {x d : Deed} {before after : List Deed} (h : [x] = before ++ d :: after) :
    before = [] ∧ d = x := by
  cases before with
  | nil =>
      cases h
      exact ⟨rfl, rfl⟩
  | cons y before => cases before <;> cases h

theorem received_of_fits (hfits : r.count ≤ room) :
    received (.read room (.ok r) :: ds) = r.count + received ds := by
  rw [← List.singleton_append, received_append, received_singleton, Deed.received, if_pos hfits]

end

/-! ## The calls -/

namespace Gathers

variable {old bytes : List UInt8} {ds : List Deed} {result : Except Error (List UInt8)}

/-- Each call is a read for all that is missing, and something is missing. -/
theorem asks (h : Gathers old ds result) {before after : List Deed} {d : Deed}
    (hds : ds = before ++ d :: after) :
    received before < old.length ∧ ∃ answer, d = .read (old.length - received before) answer := by
  have hfirst {old : List UInt8} (hne : old ≠ []) (answer : Except IoError Reading) :
      received [] < old.length ∧
        ∃ answer', Deed.read old.length answer = .read (old.length - received []) answer' :=
    ⟨List.length_pos_iff.mpr hne, answer, rfl⟩
  induction h generalizing before with
  | full => cases before <;> cases hds
  | @fails old answer e hne h =>
      obtain ⟨rfl, rfl⟩ := eq_of_split hds
      exact hfirst hne answer
  | @ended old r hne hcount =>
      obtain ⟨rfl, rfl⟩ := eq_of_split hds
      exact hfirst hne (.ok r)
  | @more old r ds result hpos hfits h ih =>
      obtain _ | ⟨d', before⟩ := before
      · cases hds
        exact hfirst (List.length_pos_iff.mp (Nat.lt_of_lt_of_le hpos hfits)) (.ok r)
      · obtain ⟨rfl, hrest⟩ := List.cons.inj hds
        -- A later read asks for what is missing of the buffer without what this one has brought.
        obtain ⟨hlt, answer, rfl⟩ := ih hrest
        rw [List.length_drop, length_overlay] at hlt ⊢
        rw [received_of_fits before hfits]
        exact ⟨by omega, answer, by rw [Nat.sub_sub]⟩

/-- All reads but the last one have brought something. -/
theorem goesOn (h : Gathers old ds result) : ∀ d ∈ ds.dropLast, d.Fine := by
  induction h with
  | full | fails | ended => simp
  | @more old r ds result hpos hfits h ih =>
      cases ds with
      | nil => simp
      | cons d ds =>
          rw [List.dropLast_cons_cons]
          exact List.forall_mem_cons.mpr ⟨⟨r, rfl, hpos, hfits⟩, ih⟩

/-- A read that brings something pays for itself, and one that does not is the last. -/
theorem length_le (h : Gathers old ds result) : ds.length ≤ old.length := by
  induction h with
  | full => exact Nat.le_refl _
  | fails hne | ended hne => exact List.length_pos_iff.mpr hne
  | more hpos hfits h ih =>
      rw [List.length_drop, length_overlay] at ih
      rw [List.length_cons]
      omega

/-! ## What they come to -/

/-- What lies before the cursor is as long as what was counted. -/
theorem length_fill (h : Gathers old ds result) (before : List UInt8) :
    (fill ⟨before, old⟩ ds).before.length = before.length + received ds := by
  induction h generalizing before with
  | full => rfl
  | @fails old answer e hne h =>
      cases answer with
      | error e' => rfl
      | ok r =>
          have hover := not_le_of_error h
          simp [fill, Deed.fill, received, hover]
  | @ended old r hne hcount => simp [fill, Deed.fill, received, Cursor.put, Cursor.advance, hcount]
  | @more old r ds result hpos hfits h ih =>
      rw [fill_of_fits ds before hfits, ih, received_of_fits ds hfits, List.length_append,
        List.length_take, length_overlay, Nat.min_eq_left hfits, Nat.add_assoc]

/-- No more comes than there is room for. -/
theorem received_le (h : Gathers old ds result) : received ds ≤ old.length := by
  obtain ⟨got, rest, hfill, hroom, -⟩ := h.fills []
  have hlength := h.length_fill []
  rw [hfill] at hlength
  simp only [List.nil_append, List.length_nil, Nat.zero_add] at hlength
  omega

/-- However the source is read on, what has come is all before its first end that fits. -/
theorem length_ok (h : Gathers old ds result) (hok : result = .ok bytes) (more : List Deed) :
    bytes.length = min old.length (received (untilEnd (ds ++ more))) := by
  induction h generalizing bytes with
  | full =>
      cases hok
      exact (Nat.zero_min _).symm
  | fails => cases hok
  | ended hne hcount =>
      cases hok
      rw [List.singleton_append, untilEnd_of_end more hcount]
      exact (Nat.min_zero _).symm
  | @more old r ds result hpos hfits h ih =>
      cases result with
      | error e => cases hok
      | ok rest =>
          cases hok
          have hrest := ih rfl
          rw [List.length_drop, length_overlay] at hrest
          -- This read is not the end, so the first end lies behind it, in `ds` or in `more`.
          rw [List.cons_append, untilEnd_of_pos _ hpos, received_of_fits _ hfits,
            List.length_append, hrest, List.length_take, length_overlay]
          omega

/-- If the source places what it reports, these are its first bytes. -/
theorem brought_ok (h : Gathers old ds result) (hok : result = .ok bytes) (hplaced : Placed ds)
    (more : List Deed) : bytes = (Record.brought (untilEnd (ds ++ more))).take old.length := by
  induction h generalizing bytes with
  | full =>
      cases hok
      exact List.take_zero.symm
  | fails => cases hok
  | ended hne hcount =>
      cases hok
      rw [List.singleton_append, untilEnd_of_end more hcount]
      exact List.take_nil.symm
  | @more old r ds result hpos hfits h ih =>
      cases result with
      | error e => cases hok
      | ok rest =>
          cases hok
          obtain ⟨hread, hlater⟩ := List.forall_mem_cons.mp hplaced
          have hall : r.count ≤ r.placed.length := hread hfits
          have hlength : (r.placed.take r.count).length = r.count := by
            rw [List.length_take, Nat.min_eq_left hall]
          have hrest := ih rfl hlater
          rw [List.length_drop, length_overlay] at hrest
          rw [List.cons_append, untilEnd_of_pos _ hpos, brought_of_fits _ hfits, List.take_append,
            hlength, List.take_of_length_le (hlength.trans_le hfits), ← hrest]
          exact congrArg (· ++ rest) (Line.Along.take_overlay hall hfits)

/-- Gathering fails just if its last read does, be it that this reports too much. -/
theorem fails_iff (h : Gathers old ds result) (e : Error) :
    result = .error e ↔ ∃ before room answer cause, ds = before ++ [.read room answer] ∧
      readVerdict room answer = .error cause ∧ e = .input cause := by
  induction h generalizing e with
  | full => simp
  | @fails old answer cause hne h =>
      constructor
      · intro he
        cases he
        exact ⟨[], old.length, answer, cause, rfl, h, rfl⟩
      · intro hlast
        obtain ⟨before, room, answer', cause', hds, hverdict, rfl⟩ := hlast
        cases (eq_of_split hds).2
        rw [h] at hverdict
        cases hverdict
        rfl
  | @ended old r hne hcount =>
      simp only [reduceCtorEq, false_iff]
      intro hlast
      obtain ⟨before, room, answer, cause, hds, hverdict, -⟩ := hlast
      cases (eq_of_split hds).2
      exact not_le_of_error hverdict (by omega)
  | @more old r ds result hpos hfits h ih =>
      have hmap : result.map ((overlay r.placed old).take r.count ++ ·) = .error e ↔
          result = .error e := by
        cases result <;> simp [Except.map]
      rw [hmap, ih]
      constructor
      · intro hlast
        obtain ⟨before, room, answer, cause, rfl, hrest⟩ := hlast
        exact ⟨.read old.length (.ok r) :: before, room, answer, cause, rfl, hrest⟩
      · intro hlast
        obtain ⟨before, room, answer, cause, hds, hverdict, he⟩ := hlast
        cases before with
        | nil =>
            cases hds
            exact absurd hfits (not_le_of_error hverdict)
        | cons d before =>
            obtain ⟨-, hrest⟩ := List.cons.inj hds
            exact ⟨before, room, answer, cause, hrest, hverdict, he⟩

/-- What a source answers fixes the calls, what they come to and what is left of it. -/
theorem unique {σ : Type} {read : Nat → σ → Except IoError Reading × σ} {s s₁ s₂ : σ}
    {es : List Deed} {result' : Except Error (List UInt8)} (h : Gathers old ds result)
    (hs : Answers read s ds s₁) (h' : Gathers old es result') (hs' : Answers read s es s₂) :
    es = ds ∧ result' = result ∧ s₂ = s₁ := by
  -- Both begin with the same read, and what is answered to it leaves one way to go on.
  induction h generalizing s es result' with
  | full =>
      obtain rfl := hs
      cases h' with
      | full =>
          obtain rfl := hs'
          exact ⟨rfl, rfl, rfl⟩
      | fails hne | ended hne => exact absurd rfl hne
      | more hpos hfits => exact absurd (Nat.lt_of_lt_of_le hpos hfits) (Nat.lt_irrefl 0)
  | @fails old answer e hne h =>
      obtain ⟨rfl, rfl⟩ := hs
      cases h' with
      | full => exact absurd rfl hne
      | fails hne' hverdict =>
          obtain ⟨rfl, rfl⟩ := hs'
          cases h.symm.trans hverdict
          exact ⟨rfl, rfl, rfl⟩
      | ended hne' hcount =>
          rw [← hs'.1] at h
          exact absurd (by omega) (not_le_of_error h)
      | more hpos hfits =>
          rw [← hs'.1] at h
          exact absurd hfits (not_le_of_error h)
  | @ended old r hne hcount =>
      obtain ⟨hanswer, rfl⟩ := hs
      cases h' with
      | full => exact absurd rfl hne
      | fails hne' hverdict =>
          rw [hs'.1, ← hanswer] at hverdict
          exact absurd (by omega) (not_le_of_error hverdict)
      | ended hne' hcount' =>
          obtain ⟨hanswer', rfl⟩ := hs'
          cases hanswer.trans hanswer'.symm
          exact ⟨rfl, rfl, rfl⟩
      | more hpos hfits =>
          cases hanswer.trans hs'.1.symm
          exact absurd hcount (Nat.ne_of_gt hpos)
  | @more old r ds result hpos hfits h ih =>
      obtain ⟨hanswer, hs⟩ := hs
      cases h' with
      | full => exact absurd (Nat.lt_of_lt_of_le hpos hfits) (Nat.lt_irrefl 0)
      | fails hne' hverdict =>
          rw [hs'.1, ← hanswer] at hverdict
          exact absurd hfits (not_le_of_error hverdict)
      | ended hne' hcount =>
          cases hanswer.trans hs'.1.symm
          exact absurd hcount (Nat.ne_of_gt hpos)
      | more hpos' hfits' h' =>
          obtain ⟨hanswer', hs'⟩ := hs'
          cases hanswer.trans hanswer'.symm
          obtain ⟨rfl, rfl, rfl⟩ := ih hs h' hs'
          exact ⟨rfl, rfl, rfl⟩

end Gathers

end Record

open Record

/-! ## What gathering says of a source -/

/--
A buffer that holds `old` was filled from a source, by these calls and with this result, and the
source is left in this state.
-/
structure Intake {σ : Type} (read : Nat → σ → Except IoError Reading × σ) (old : List UInt8)
    (s : σ) (ds : List Deed) (result : Except Error (List UInt8)) (s' : σ) : Prop where
  answers : Answers read s ds s'
  /-- Each call asks for all that is missing, and none is made once nothing is. -/
  asks (before : List Deed) (d : Deed) (after : List Deed) : ds = before ++ d :: after →
    received before < old.length ∧ ∃ answer, d = .read (old.length - received before) answer
  goesOn : ∀ d ∈ ds.dropLast, d.Fine
  /-- So many bytes are there as the reads have reported, whatever the result is. -/
  placed : (fill (.ofList old) ds).before.length = received ds ∧ received ds ≤ old.length
  count (bytes : List UInt8) : result = .ok bytes → ∀ more,
    bytes.length = min old.length (received (untilEnd (ds ++ more)))
  bytes (bytes : List UInt8) : result = .ok bytes → bytes = (fill (.ofList old) ds).before ∧
    (Placed ds → ∀ more, bytes = (brought (untilEnd (ds ++ more))).take old.length)
  fails (e : Error) : result = .error e ↔ ∃ before room answer cause,
    ds = before ++ [.read room answer] ∧ e = .input cause ∧ (answer = .error cause ∨
      ∃ r, answer = .ok r ∧ room < r.count ∧ cause = .overReported)

theorem readVerdict_eq_error {room : Nat} {answer : Except IoError Reading} {e : IoError} :
    readVerdict room answer = .error e ↔
      answer = .error e ∨ ∃ r, answer = .ok r ∧ room < r.count ∧ e = .overReported := by
  cases answer with
  | error e' => simp [readVerdict]
  | ok r =>
      rw [readVerdict]
      split <;> rename_i hcount <;> simp [hcount, eq_comm]

theorem Record.Gathers.intake {σ : Type} {read : Nat → σ → Except IoError Reading × σ}
    {old : List UInt8} {s s' : σ} {ds : List Deed} {result : Except Error (List UInt8)}
    (h : Gathers old ds result) (hs : Answers read s ds s') :
    Intake read old s ds result s' where
  answers := hs
  asks _ _ _ := h.asks
  goesOn := h.goesOn
  placed := ⟨(h.length_fill []).trans (Nat.zero_add _), h.received_le⟩
  count _ := h.length_ok
  bytes bytes hok := by
    obtain ⟨got, rest, hfill, -, hgot, -⟩ := h.fills []
    refine ⟨?_, h.brought_ok hok⟩
    rw [Cursor.ofList, hfill]
    exact hgot bytes hok
  fails e := by
    rw [h.fails_iff]
    simp only [readVerdict_eq_error, and_comm]

/-- A read counts for what a run goes on with. -/
theorem countOf_readVerdict (room : Nat) (answer : Except IoError Reading) :
    countOf (readVerdict room answer) = (Deed.read room answer).received := by
  cases answer with
  | error e => rfl
  | ok r =>
      rw [readVerdict, Deed.received]
      split <;> rename_i hcount
      · exact (if_neg (Nat.not_le_of_lt hcount)).symm
      · exact (if_pos (Nat.le_of_not_lt hcount)).symm

namespace Line

section

variable {ω : Type} [Channel ω]

/-- A read is one more answer. -/
theorem answers_pull {w : ω} {t : Line (Traced ω)} (room : Nat)
    (ht : Answers Channel.read w t.deeds t.world.world) :
    Answers Channel.read w (t.pull room).2.deeds (t.pull room).2.world.world := by
  by_cases hroom : room = 0
  · rw [hroom, pull_zero]
    exact ht
  · rw [deeds_pull_of_ne hroom, world_pull hroom]
    exact ht.snoc room

theorem received_pull {t : Line (Traced ω)} {taken : Nat} (room : Nat)
    (ht : t.taken = taken + received t.deeds) :
    (t.pull room).2.taken = taken + received (t.pull room).2.deeds := by
  by_cases hroom : room = 0
  · rw [hroom, pull_zero]
    exact ht
  · rcases hread : t.pull room with ⟨verdict, t'⟩
    obtain ⟨answer, rfl, hdeeds⟩ := recorded_pull hroom hread
    dsimp only
    rw [taken_pull hread, countOf_readVerdict, hdeeds, received_append, received_singleton, ht,
      Nat.add_assoc]

/-- Gathering in a world that writes down what is done to it. -/
theorem gather_traced (l : Line ω) (old : List UInt8) :
    ∃ t : Line (Traced ω), l.traced.gather old = ((l.gather old).1, t) ∧
      t.Alike Traced.Erases (l.gather old).2 ∧ Gathers old t.deeds (l.gather old).1 ∧
      Answers Channel.read l.world t.deeds t.world.world ∧
      t.taken = l.taken + received t.deeds ∧ t.given = l.given := by
  have hanswers := gather_keeps
    (I := fun t : Line (Traced ω) => Answers Channel.read l.world t.deeds t.world.world)
    (fun room _ => answers_pull room) (l := l.traced) rfl old
  have htaken := gather_keeps
    (I := fun t : Line (Traced ω) => t.taken = l.taken + received t.deeds)
    (fun room _ => received_pull room) (l := l.traced) rfl old
  have hgiven := gather_keeps (I := fun t : Line (Traced ω) => t.given = l.given)
    (fun room t ht => (t.given_pull room).trans ht) (l := l.traced) rfl old
  obtain ⟨ds, hdeeds, hgathers⟩ := l.traced.gathers old
  obtain rfl : (l.traced.gather old).2.deeds = ds := hdeeds
  rcases l.traced_alike.gather_or Traced.channel_alike.lockstep old with ⟨hresult, halike⟩ |
    ⟨_, -, hnever⟩
  · rw [hresult] at hgathers
    exact ⟨_, Prod.ext hresult rfl, halike, hgathers, hanswers, htaken, hgiven⟩
  · exact hnever.elim

/-- No more is taken than is gathered, and the world is as these reads leave it. -/
theorem gather_gathers (l : Line ω) (old : List UInt8) :
    ∃ ds w' result, l.gather old = (result, ⟨w', l.taken + received ds, l.given⟩) ∧
      Gathers old ds result ∧ Answers Channel.read l.world ds w' := by
  obtain ⟨t, -, halike, hgathers, hanswers, htaken, hgiven⟩ := l.gather_traced old
  rcases hgather : l.gather old with ⟨result, w', taken, given⟩
  rw [hgather] at halike hgathers
  obtain ⟨hworld, htaken', hgiven'⟩ := halike
  obtain rfl : t.world.world = w' := hworld
  refine ⟨t.deeds, _, result, ?_, hgathers, hanswers⟩
  rw [← htaken, ← hgiven, htaken', hgiven']

end

end Line

/-! ## Sources without end -/

section

variable {σ τ μ : Type} [RawSource σ] [Sink τ]

/-- As long as there are calls left, a metered source answers as the source itself. -/
theorem Answers.of_metered {s : σ} {left : Nat} {sink : τ} {memory : μ} {events : List Event}
    {ds : List Deed} {x' : Exchange (Metered σ) τ μ}
    (h : Answers Channel.read { source := ⟨s, left⟩, sink, memory, events } ds x')
    (hleft : ds.length ≤ left) : ∃ s', Answers RawSource.read s ds s' ∧
      x' = { source := ⟨s', left - ds.length⟩, sink, memory, events } := by
  induction ds generalizing s left with
  | nil => exact ⟨s, rfl, h⟩
  | cons d ds ih =>
      cases d with
      | note | write | decode => exact h.elim
      | read room answer =>
          obtain _ | left := left
          · exact absurd hleft (Nat.not_succ_le_zero _)
          · obtain ⟨hanswer, hrest⟩ := h
            have hnext : Answers Channel.read
                { source := ⟨(RawSource.read room s).2, left⟩, sink, memory, events } ds x' := hrest
            obtain ⟨s', hs', rfl⟩ := ih hnext (Nat.le_of_succ_le_succ hleft)
            refine ⟨s', ⟨hanswer, hs'⟩, ?_⟩
            rw [List.length_cons, Nat.add_sub_add_right]

namespace Line

/-- A line in a world whose source may be read so many times. -/
def meteredAt (s : σ) (left : Nat) (sink : τ) (memory : μ) (events : List Event)
    (taken given : Nat) : Line (Exchange (Metered σ) τ μ) :=
  ⟨{ source := ⟨s, left⟩, sink, memory, events }, taken, given⟩

theorem gather_meteredAt (s : σ) (sink : τ) (memory : μ) (events : List Event)
    (taken given : Nat) (old : List UInt8) {left : Nat} (hleft : old.length ≤ left) :
    ∃ ds s' result, Gathers old ds result ∧ Answers RawSource.read s ds s' ∧
      (meteredAt s left sink memory events taken given).gather old =
        (result,
          meteredAt s' (left - ds.length) sink memory events (taken + received ds) given) := by
  obtain ⟨ds, x', result, hgather, hgathers, hanswers⟩ :=
    (meteredAt s left sink memory events taken given).gather_gathers old
  obtain ⟨s', hs', rfl⟩ := hanswers.of_metered (hgathers.length_le.trans hleft)
  exact ⟨ds, s', result, hgathers, hs', hgather⟩

/-- What is gathered from a source is the same for all limits that allow for it. -/
theorem gather_metered (s : σ) (sink : τ) (memory : μ) (old : List UInt8) :
    ∃ ds s' result, Intake RawSource.read old s ds result s' ∧
      ∀ left events taken given, old.length ≤ left →
        (meteredAt s left sink memory events taken given).gather old = (result,
          meteredAt s' (left - ds.length) sink memory events (taken + received ds) given) := by
  obtain ⟨ds, s', result, hgathers, hs', -⟩ :=
    gather_meteredAt s sink memory [] 0 0 old (Nat.le_refl old.length)
  -- The calls are those of the least limit; no greater one can change them.
  refine ⟨ds, s', result, hgathers.intake hs', fun left events taken given hleft => ?_⟩
  obtain ⟨es, s'', result', hgathers', hs'', hgather⟩ :=
    gather_meteredAt s sink memory events taken given old hleft
  obtain ⟨rfl, rfl, rfl⟩ := hgathers.unique hs' hgathers' hs''
  exact hgather

end Line

end

/-! ## Streams -/

/-- Where the source has a stream to give, its beginning is gathered, and the rest is left. -/
theorem Line.Along.gather_stream {ω : Type} [Channel ω] [Fair ω] {l : Line ω} {total : Nat}
    {ahead out : List UInt8} {ending : Ending} (hl : l.Along total ⟨ahead, some ending, out⟩)
    (old : List UInt8) :
    ∃ l' ending', l.gather old =
        (if old.length ≤ ahead.length then .ok (ahead.take old.length)
          else match ending with | .ended => .ok ahead | .failure e => .error (.input e), l') ∧
      l'.Along total ⟨ahead.drop old.length, ending', out⟩ ∧
      (old.length ≤ ahead.length → ending' = some ending) := by
  by_cases hle : old.length ≤ ahead.length
  · obtain ⟨l', hgather, hl'⟩ := hl.gather old hle
    rw [if_pos hle]
    exact ⟨l', some ending, hgather, hl', fun _ => rfl⟩
  · obtain ⟨l', ending', hgather, hl'⟩ := hl.gather_short old (Nat.lt_of_not_le hle)
    rw [if_neg hle, List.drop_eq_nil_of_le (Nat.le_of_not_le hle)]
    exact ⟨l', ending', hgather, hl', fun h => absurd h hle⟩

/-! ## Runs -/

/--
The record of a run, split behind the reads for its header, which came to this answer and have left
the world like this.
-/
structure Decompressor.HeaderFirst {ω : Type} [Channel ω] [Provident] (c : Decompressor ω)
    (w : ω) (head rest : List Deed) (answer : Except Error (List UInt8)) (w' : ω) : Prop where
  deeds : c.deeds w = head ++ rest
  header : Intake Channel.read (List.replicate headerSize 0) w head answer w'
  /-- Only behind a whole header is anything read. -/
  whole : (∃ d ∈ rest, d.Reads) → ∃ bytes, answer = .ok bytes ∧ bytes.length = headerSize
  /-- The first read behind it comes just behind the header's last byte. -/
  payload (before : List Deed) (d : Deed) (after : List Deed) : rest = before ++ d :: after →
    d.Reads → (∀ x ∈ before, ¬x.Reads) → received (head ++ before) = headerSize
  bytes : (∃ d ∈ rest, d.Reads) → Placed (c.deeds w) →
    brought rest = (brought (c.deeds w)).drop headerSize

theorem Record.received_of_not_reads {ds : List Deed} (h : ∀ d ∈ ds, ¬d.Reads) :
    received ds = 0 := by
  induction ds with
  | nil => rfl
  | cons d ds ih =>
      obtain ⟨hd, hds⟩ := List.forall_mem_cons.mp h
      rw [← List.singleton_append, received_append, received_singleton, ih hds]
      cases d with
      | read => exact absurd trivial hd
      | note | write | decode => rfl

namespace Decompressor

section

variable {ω : Type} [Channel ω] [Provident]

/-- What is taken beyond the size of a header is read behind it. -/
theorem HeaderFirst.exists_reads {c : Decompressor ω} {w w' : ω} {head rest : List Deed}
    {answer : Except Error (List UInt8)} (h : c.HeaderFirst w head rest answer w')
    (hmore : headerSize < received (c.deeds w)) : ∃ d ∈ rest, d.Reads := by
  apply Classical.byContradiction
  intro hnone
  have hrest : received rest = 0 :=
    received_of_not_reads fun d hd hreads => hnone ⟨d, hd, hreads⟩
  have hhead := h.header.placed.2
  rw [List.length_replicate] at hhead
  rw [h.deeds, received_append, hrest] at hmore
  omega

/-- Nothing is read behind a header that did not come. -/
theorem headerFirst_of_error {c : Decompressor ω} {w : ω} (hfresh : c.state = .created)
    {head : Line (Traced ω)} {answer : Except Error (List UInt8)} {e : Error}
    (hheader : readHeader ({ world := ⟨w, []⟩ } : Line (Traced ω)) = (.error e, head))
    (hintake : Intake Channel.read (List.replicate headerSize 0) w head.deeds answer
      head.world.world) : ∃ rest, c.HeaderFirst w head.deeds rest answer head.world.world := by
  obtain ⟨-, -, -, hdeeds⟩ := run_closed hfresh w
  rw [drive_of_error (c := c.traced) hheader] at hdeeds
  have hnone {event : Event} : ¬∃ d ∈ [Deed.note event], d.Reads := by
    intro h
    obtain ⟨d, hd, hreads⟩ := h
    obtain rfl := List.mem_singleton.mp hd
    exact hreads
  refine ⟨_, hdeeds, hintake, fun h => absurd h hnone, ?_, fun h => absurd h hnone⟩
  intro before d after hrest hreads
  obtain ⟨-, rfl⟩ := eq_of_split hrest
  exact hreads.elim

/-- A whole header has been read to its last byte and no further. -/
theorem headerFirst_of_ok {c : Decompressor ω} {w : ω} (hfresh : c.state = .created)
    {head : Line (Traced ω)} {header : Header} {bytes : List UInt8}
    (hheader : readHeader ({ world := ⟨w, []⟩ } : Line (Traced ω)) = (.ok header, head))
    (hgathers : Gathers (List.replicate headerSize 0) head.deeds (.ok bytes))
    (hlength : bytes.length = headerSize)
    (hanswers : Answers Channel.read w head.deeds head.world.world) :
    ∃ rest, c.HeaderFirst w head.deeds rest (.ok bytes) head.world.world := by
  have hintake := hgathers.intake hanswers
  -- Bytes that parse are as many as a header has, and as many were taken for them.
  have hreceived : received head.deeds = headerSize := by
    rw [← hintake.placed.1, ← (hintake.bytes bytes rfl).1, hlength]
  obtain ⟨rest, hdeeds⟩ := begins_with_header hfresh hheader
  refine ⟨rest, hdeeds.symm, hintake, fun _ => ⟨bytes, rfl, hlength⟩, ?_, ?_⟩
  · intro before d after _ _ hbefore
    rw [received_append, hreceived, received_of_not_reads hbefore, Nat.add_zero]
  · intro _ hplaced
    have hbrought := hgathers.brought (hplaced.earlier ⟨rest, hdeeds⟩) []
    have hfirst : (brought head.deeds).length = headerSize := by
      rw [← hreceived, ← hintake.placed.1, Cursor.ofList, hbrought, List.nil_append]
    rw [← hdeeds, brought_append, List.drop_left' hfirst]

theorem headerFirst {c : Decompressor ω} (hfresh : c.state = .created) (w : ω) :
    ∃ head rest answer w', c.HeaderFirst w head rest answer w' := by
  rcases hheader : readHeader ({ world := ⟨w, []⟩ } : Line (Traced ω)) with ⟨result, head⟩
  obtain ⟨answer, hgathers, hresult⟩ := readHeader_deeds hheader
  have hanswers := readHeader_keeps
    (I := fun t : Line (Traced ω) => Answers Channel.read w t.deeds t.world.world)
    (fun room _ => Line.answers_pull room) (l := { world := ⟨w, []⟩ }) rfl
  rw [hheader] at hanswers
  cases result with
  | error e =>
      obtain ⟨rest, hrest⟩ := headerFirst_of_error hfresh hheader (hgathers.intake hanswers)
      exact ⟨_, rest, _, _, hrest⟩
  | ok header =>
      cases answer with
      | error e => cases hresult
      | ok bytes =>
          dsimp only [Except.bind] at hresult
          split at hresult
          · cases hresult
          · obtain ⟨rest, hrest⟩ := headerFirst_of_ok hfresh hheader hgathers
              (Header.length_of_parse hresult.symm) hanswers
            exact ⟨_, rest, _, _, hrest⟩

/-- Where the source has a stream to give, its payload begins just behind the header. -/
theorem along_opening [Fair ω] {c : Decompressor ω} (ha : c.allocator.Grants) {w : ω}
    {bytes : List UInt8} {ending : Ending} (hw : Fair.scene w = some ⟨bytes, some ending, []⟩)
    {session : DecompressSession ω} {l : Line ω} (hopening : c.opening w = some (session, l)) :
    l.Along bytes.length ⟨bytes.drop headerSize, some ending, []⟩ := by
  obtain ⟨l₁, ending₁, hheader, hl₁, hending⟩ := readHeader_spec (Line.Along.start hw)
  rw [opening, hheader] at hopening
  cases hparse : Header.ofStream bytes ending with
  | error e =>
      rw [hparse] at hopening
      cases hopening
  | ok header =>
      rw [hparse] at hopening
      have hle : headerSize ≤ bytes.length := by
        apply Nat.le_of_not_lt
        intro hlt
        rw [Header.ofStream_of_lt hlt] at hparse
        cases hparse
      rw [Header.ofStream_of_le hle] at hparse
      obtain rfl := hending hle
      have hl₂ := hl₁.note (.decompressionStarting header)
      dsimp only at hopening
      cases hdecoder : Engine.decoderFor header with
      | error fault =>
          obtain ⟨w₂, hacquire, -⟩ := DecompressSession.acquire_error ha.lends hl₂.scene hdecoder
          rw [hacquire] at hopening
          cases hopening
      | ok decoder =>
          obtain ⟨session', w₂, hacquire, -, hw₂⟩ := DecompressSession.acquire_ok ha.lends
            hl₂.scene hdecoder
          rw [hacquire] at hopening
          cases hopening
          exact ⟨hw₂, hl₂.taken, hl₂.given⟩

end

end Decompressor

/-! ## What gathering takes -/

/--
Gathering takes just the bytes that it gives. Whatever a source answers, each read asks for all
that the buffer still lacks and none is made of a full buffer; what comes of it are the bytes up
to the first end, or up to the size of the buffer, unless a read fails or reports too much before,
which is the error then; what was counted is what was placed; and the source is left as these reads
leave it. A source need not come to an end for this. If it has a stream to give, the next byte that
it gives is the one behind those that were gathered. So in a run of a decompressor the first read
behind the header's comes just behind the last byte of a header that is complete.
-/
theorem gathering_exact :
    (∀ {ω : Type} [Channel ω] (l : Line ω) (old : List UInt8), ∃ ds w' result,
        l.gather old = (result, ⟨w', l.taken + received ds, l.given⟩) ∧
          Intake Channel.read old l.world ds result w') ∧
    (∀ {σ τ μ : Type} [RawSource σ] [Sink τ] (s : σ) (sink : τ) (memory : μ) (old : List UInt8),
      ∃ ds s' result, Intake RawSource.read old s ds result s' ∧
        ∀ left events taken given, old.length ≤ left →
          (Line.meteredAt s left sink memory events taken given).gather old = (result,
            Line.meteredAt s' (left - ds.length) sink memory events (taken + received ds) given)) ∧
    (∀ {ω : Type} [Channel ω] [Fair ω] {l : Line ω} {total : Nat} {ahead out : List UInt8}
      {ending : Ending}, l.Along total ⟨ahead, some ending, out⟩ → ∀ old : List UInt8,
        ∃ l' ending', l.gather old =
            (if old.length ≤ ahead.length then .ok (ahead.take old.length)
              else match ending with | .ended => .ok ahead | .failure e => .error (.input e), l') ∧
          l'.Along total ⟨ahead.drop old.length, ending', out⟩ ∧
          (old.length ≤ ahead.length → ending' = some ending)) ∧
    (∀ {ω : Type} [Channel ω] [Provident] (c : Decompressor ω) (w : ω), c.state = .created →
      ∃ head rest answer w', c.HeaderFirst w head rest answer w') ∧
    ∀ {ω : Type} [Channel ω] [Fair ω] [Provident] (c : Decompressor ω) (w : ω)
      (bytes : List UInt8) (ending : Ending), c.allocator.Grants →
        Fair.scene w = some ⟨bytes, some ending, []⟩ →
        ∀ session l, c.opening w = some (session, l) →
          l.Along bytes.length ⟨bytes.drop headerSize, some ending, []⟩ := by
  refine ⟨?_, ?_, ?_, ?_, ?_⟩
  · intro ω _ l old
    obtain ⟨ds, w', result, hgather, hgathers, hanswers⟩ := l.gather_gathers old
    exact ⟨ds, w', result, hgather, hgathers.intake hanswers⟩
  · intro σ τ μ _ _ s sink memory old
    exact Line.gather_metered s sink memory old
  · intro ω _ _ l total ahead out ending hl old
    exact hl.gather_stream old
  · intro ω _ _ c w hfresh
    exact Decompressor.headerFirst hfresh w
  · intro ω _ _ _ c w bytes ending ha hw session l hopening
    exact Decompressor.along_opening ha hw hopening

/-- A source without end, five bytes in pieces of two, and a stream that comes to its payload. -/
theorem gathering_exact_of_pieces :
    let old : List UInt8 := [0, 0, 0]
    let x : Exchange ScriptedSource ScriptedSink Unit := Exchange.ofBytes 2 [7, 6, 5, 4, 3] ()
    let bytes := Header.stream { lc := 3, pb := 2, dictSize := 4096 } []
    let y : Exchange ScriptedSource ScriptedSink Unit := Exchange.ofBytes 4 bytes ()
    let d : Decompressor (Exchange ScriptedSource ScriptedSink Unit) := {}
    (old.length ≤ 8 ∧ ∃ ds s' result, Intake RawSource.read old (⟨9⟩ : Forever) ds result s' ∧
      (Line.meteredAt (⟨9⟩ : Forever) 8 ({} : ScriptedSink) () [] 0 0).gather old = (result,
        Line.meteredAt s' (8 - ds.length) {} () [] (0 + received ds) 0)) ∧
    (({ world := x } : Line _).Along 5 ⟨[7, 6, 5, 4, 3], some .ended, []⟩ ∧
      ∃ l' ending', ({ world := x } : Line _).gather old = (.ok [7, 6, 5], l') ∧
        l'.Along 5 ⟨[4, 3], ending', []⟩) ∧
    (d.state = .created ∧
      ∃ head rest answer w', d.HeaderFirst y head rest answer w' ∧ ∃ d' ∈ rest, d'.Reads) ∧
    d.allocator.Grants ∧ Fair.scene y = some ⟨bytes, some .ended, []⟩ ∧
      ∃ session l, d.opening y = some (session, l) ∧
        l.Along bytes.length ⟨bytes.drop headerSize, some .ended, []⟩ := by
  intro old x bytes y d
  have hleft : old.length ≤ 8 := by decide
  obtain ⟨ds, s', result, hintake, hgather⟩ :=
    gathering_exact.2.1 (⟨9⟩ : Forever) ({} : ScriptedSink) () old
  have hx : ({ world := x } : Line _).Along 5 ⟨[7, 6, 5, 4, 3], some .ended, []⟩ :=
    Line.Along.start (Exchange.scene_ofBytes 2 [7, 6, 5, 4, 3] () (by decide))
  obtain ⟨l', ending', hpieces, hl', -⟩ := gathering_exact.2.2.1 hx old
  have hy : Fair.scene y = some ⟨bytes, some .ended, []⟩ :=
    Exchange.scene_ofBytes 4 bytes () (by decide)
  have ha : d.allocator.Grants := Allocator.grants_standard
  have hsome : (d.opening y).isSome = true := by decide +kernel
  obtain ⟨⟨session, l⟩, hopening⟩ := Option.isSome_iff_exists.mp hsome
  obtain ⟨head, rest, answer, w', hfirst⟩ := gathering_exact.2.2.2.1 d y rfl
  have hmore : headerSize < received (d.deeds y) := by
    obtain ⟨c, _, _, _, _, hrun, -, -, -, -, -, -, hextent⟩ := Decompressor.run_spec ha hy
    have hstream := Extraction.of_stream (h := { lc := 3, pb := 2, dictSize := 4096 }) []
      (by decide) (by decide) (by decide) [] .ended
    rw [List.append_nil] at hstream
    rw [hstream] at hextent
    have hlonger : headerSize < bytes.length := by decide +kernel
    rw [← (Decompressor.books (c := d) rfl y).totalIn,
      show (d.run y).2.1 = c from congrArg (·.2.1) hrun]
    exact Nat.lt_of_lt_of_le hlonger (hextent (Nat.le_of_lt hlonger))
  exact ⟨⟨hleft, ds, s', result, hintake, hgather 8 [] 0 0 hleft⟩, ⟨hx, l', ending', hpieces, hl'⟩,
    ⟨rfl, head, rest, answer, w', hfirst, hfirst.exists_reads hmore⟩, ha, hy, session, l, hopening,
    gathering_exact.2.2.2.2 d y bytes .ended ha hy session l hopening⟩

end Lzma
