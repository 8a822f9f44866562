import Lzma.Proofs.Account
import Lzma.Proofs.Endless
import Mathlib.Algebra.BigOperators.Group.List.Basic
import Mathlib.Data.List.Chain

/-!
# What decides on the outcome of the pump

Each answer that the pump gets either decides what the run comes to or leaves it open
(`Deed.decides`). A read decides if it fails, ends the input or claims too much, a write if it
is not accepted whole, a call of the decoder if it fails, reports the end marker or stands
still before bytes that it could take. The run stops at the first answer that decides anything
and comes to what that answer says. There is one exception: the bytes that are given with the
end marker are written before the run ends, and if the sink refuses them, it is the sink that
has the last word.

`Record.Settles` says just that of a record and a result, and all else is read off it: which
result there is for which answer (`Settles.ok_iff`, `Settles.error_iff`), and that there is
nothing else that a run can fail with (`Deed.Fails`).

A call that was offered nothing, moves nothing and does not finish is no failure. What comes
next is a read (`Onward`). The inner loop may end with such a call, where only the turn that
follows shows the read, so the records of the loops are joined on one of two grounds: the first
does not end so, or the second begins with a read (`Onward.append`).
-/

namespace Lzma

/-! ## Answers that decide -/

namespace Deed

/-- What such an answer decides about a run of the pump, if it decides something. -/
def decides : Deed → Option (Except Error Unit)
  | .note _ => none
  | .read _ (.error e) => some (.error (.input e))
  | .read room (.ok r) =>
      if r.count = 0 then some (.error .insufficientInput)
      else if room < r.count then some (.error (.input .overReported))
      else none
  | .write bytes answer =>
      match writeVerdict bytes answer with
      | .error e => some (.error e)
      | .ok () => none
  | .decode _ _ (.error e) => some (.error (.decompress e))
  | .decode input _ (.ok moved) =>
      if moved.status = .finished then some (.ok ())
      else if moved.used = 0 ∧ moved.output = [] ∧ input ≠ [] then
        some (.error (.decompress Pump.stuck))
      else none

/-- A call of the decoder, offered nothing, that neither moved anything nor finished. -/
def Rests : Deed → Prop
  | .decode input _ (.ok moved) =>
      input = [] ∧ moved.status ≠ .finished ∧ moved.used = 0 ∧ moved.output = []
  | _ => False

/-- A call of the source. -/
def Reads : Deed → Prop
  | .read _ _ => True
  | _ => False

theorem decides_read_error {room : Nat} {answer : Except IoError Reading} {e : IoError}
    (h : readVerdict room answer = .error e) :
    (read room answer).decides = some (.error (.input e)) := by
  cases answer with
  | error e' =>
      cases h
      rfl
  | ok r =>
      rw [readVerdict] at h
      split at h
      · next hcount =>
          cases h
          exact (if_neg (by omega)).trans (if_pos hcount)
      · cases h

theorem decides_read_ok {room : Nat} {answer : Except IoError Reading} {r : Reading}
    (h : readVerdict room answer = .ok r) : (read room answer).decides =
      if r.count = 0 then some (.error .insufficientInput) else none := by
  obtain ⟨rfl, hle⟩ := readVerdict_eq_ok.mp h
  rw [decides, if_neg (Nat.not_lt_of_le hle)]

theorem decides_write {bytes : List UInt8} {answer : Except IoError Nat} {e : Error}
    (h : writeVerdict bytes answer = .error e) :
    (write bytes answer).decides = some (.error e) := by
  rw [decides, h]

theorem decides_write_ok {bytes : List UInt8} {answer : Except IoError Nat}
    (h : writeVerdict bytes answer = .ok ()) : (write bytes answer).decides = none := by
  rw [decides, h]

/-- The answers that a run fails with. -/
inductive Fails : Deed → Error → Prop
  | ended (room : Nat) {r : Reading} (hcount : r.count = 0) :
      Fails (.read room (.ok r)) .insufficientInput
  | read {room : Nat} {answer : Except IoError Reading} {e : IoError}
      (h : readVerdict room answer = .error e) : Fails (.read room answer) (.input e)
  | write {bytes : List UInt8} {answer : Except IoError Nat} {e : Error}
      (h : writeVerdict bytes answer = .error e) : Fails (.write bytes answer) e
  | decode (input : List UInt8) (room : Nat) (e : IoError) :
      Fails (.decode input room (.error e)) (.decompress e)
  | stuck {input : List UInt8} (room : Nat) {moved : Decoded} (hstatus : moved.status ≠ .finished)
      (hused : moved.used = 0) (hout : moved.output = []) (hinput : input ≠ []) :
      Fails (.decode input room (.ok moved)) (.decompress Pump.stuck)

theorem decides_eq_error {d : Deed} {e : Error} : d.decides = some (.error e) ↔ d.Fails e := by
  constructor
  · intro h
    cases d with
    | note => cases h
    | read room answer =>
        cases hverdict : readVerdict room answer with
        | error e' =>
            rw [decides_read_error hverdict] at h
            cases h
            exact .read hverdict
        | ok r =>
            rw [decides_read_ok hverdict] at h
            split at h <;> cases h
            obtain ⟨rfl, -⟩ := readVerdict_eq_ok.mp hverdict
            exact .ended room ‹_›
    | write bytes answer =>
        cases hverdict : writeVerdict bytes answer with
        | error e' =>
            rw [decides_write hverdict] at h
            cases h
            exact .write hverdict
        | ok =>
            rw [decides_write_ok hverdict] at h
            cases h
    | decode input room answer =>
        cases answer with
        | error e' =>
            cases h
            exact .decode input room e'
        | ok moved =>
            rw [decides] at h
            split at h
            · cases h
            · split at h <;> cases h
              obtain ⟨hused, hout, hinput⟩ := ‹_ ∧ _›
              exact .stuck room ‹_› hused hout hinput
  · intro h
    cases h with
    | ended room hcount => exact if_pos hcount
    | read h => exact decides_read_error h
    | write h => exact decides_write h
    | decode => rfl
    | stuck room hstatus hused hout hinput =>
        exact (if_neg hstatus).trans (if_pos ⟨hused, hout, hinput⟩)

end Deed

/-- A sink can only make a run fail on its output. -/
theorem output_of_writeVerdict {bytes : List UInt8} {answer : Except IoError Nat} {e : Error}
    (h : writeVerdict bytes answer = .error e) :
    ∃ expected written cause, e = .output expected written cause := by
  cases answer with
  | error e' =>
      cases h
      exact ⟨_, _, _, rfl⟩
  | ok count =>
      rw [writeVerdict] at h
      split at h <;> cases h
      exact ⟨_, _, _, rfl⟩

namespace Record

/-- No answer decides anything. -/
def Undecided (ds : List Deed) : Prop := ∀ d ∈ ds, d.decides = none

theorem undecided_append {ds es : List Deed} :
    Undecided (ds ++ es) ↔ Undecided ds ∧ Undecided es :=
  List.forall_mem_append

theorem undecided_cons {d : Deed} {ds : List Deed} :
    Undecided (d :: ds) ↔ d.decides = none ∧ Undecided ds :=
  List.forall_mem_cons

/--
What was done came to this, by the first answer that decides something: it is the last one, or it
is the end marker, behind which there is only the write of what was given with it.
-/
inductive Settles : List Deed → Except Error Unit → Prop
  | fails {before : List Deed} {d : Deed} {e : Error} (hbefore : Undecided before)
      (hd : d.decides = some (.error e)) : Settles (before ++ [d]) (.error e)
  | overruled {before : List Deed} {input : List UInt8} {room : Nat} {moved : Decoded}
      {answer : Except IoError Nat} {e : Error} (hbefore : Undecided before)
      (hstatus : moved.status = .finished) (hout : moved.output ≠ [])
      (hwrite : writeVerdict moved.output answer = .error e) :
      Settles (before ++ passed input room moved answer) (.error e)
  | finishes {before after : List Deed} {input : List UInt8} {room : Nat} {moved : Decoded}
      {answer : Except IoError Nat} (hbefore : Undecided before)
      (hstatus : moved.status = .finished)
      (hwrite : moved.output ≠ [] → writeVerdict moved.output answer = .ok ())
      (hafter : after = [] ∨ ∃ event, after = [.note event]) :
      Settles (before ++ passed input room moved answer ++ after) (.ok ())

variable {ds es before : List Deed} {result : Except Error Unit} {e : Error}

theorem settles_alone {d : Deed} (hd : d.decides = some (.error e)) : Settles [d] (.error e) :=
  @Settles.fails [] d e (List.forall_mem_nil _) hd

theorem Settles.after (hds : Undecided ds) (h : Settles es result) : Settles (ds ++ es) result := by
  cases h with
  | fails hbefore hd =>
      rw [← List.append_assoc]
      exact .fails (undecided_append.mpr ⟨hds, hbefore⟩) hd
  | overruled hbefore hstatus hout hwrite =>
      rw [← List.append_assoc]
      exact .overruled (undecided_append.mpr ⟨hds, hbefore⟩) hstatus hout hwrite
  | finishes hbefore hstatus hwrite hafter =>
      rw [← List.append_assoc, ← List.append_assoc]
      exact .finishes (undecided_append.mpr ⟨hds, hbefore⟩) hstatus hwrite hafter

theorem decides_finished {input : List UInt8} {room : Nat} {moved : Decoded}
    (h : moved.status = .finished) : (Deed.decode input room (.ok moved)).decides = some (.ok ()) :=
  if_pos h

/-- What a run came to is decided by the answers that decide something, in their order. -/
theorem Settles.decided (h : Settles ds result) :
    ds.filterMap Deed.decides = [result] ∨
      ∃ e, result = .error e ∧ ds.filterMap Deed.decides = [.ok (), .error e] := by
  cases h with
  | fails hbefore hd =>
      refine .inl ?_
      rw [List.filterMap_append, List.filterMap_eq_nil_iff.mpr hbefore]
      simp [hd]
  | overruled hbefore hstatus hout hwrite =>
      refine .inr ⟨_, rfl, ?_⟩
      rw [List.filterMap_append, List.filterMap_eq_nil_iff.mpr hbefore, passed, if_neg hout]
      simp [decides_finished hstatus, Deed.decides_write hwrite]
  | @finishes before after input room moved answer hbefore hstatus hwrite hafter =>
      refine .inl ?_
      have hnotes : after.filterMap Deed.decides = [] := by
        rcases hafter with rfl | ⟨event, rfl⟩ <;> rfl
      rw [List.filterMap_append, List.filterMap_append, List.filterMap_eq_nil_iff.mpr hbefore,
        hnotes, passed]
      split <;> rename_i hout
      · simp [decides_finished hstatus]
      · simp [decides_finished hstatus, Deed.decides_write_ok (hwrite hout)]

/-- A run fails just with what some answer decides. -/
theorem Settles.error_iff (h : Settles ds result) (e : Error) :
    result = .error e ↔ ∃ d ∈ ds, d.decides = some (.error e) := by
  rw [← List.mem_filterMap]
  rcases h.decided with hdecided | ⟨e', rfl, hdecided⟩ <;> rw [hdecided]
  · simp [eq_comm]
  · simp [eq_comm]

/-- There is but one answer that is the first to decide something. -/
theorem first_unique {before before' after after' : List Deed} {d d' : Deed}
    (h : before ++ d :: after = before' ++ d' :: after') (hbefore : Undecided before)
    (hbefore' : Undecided before') (hd : d.decides ≠ none) (hd' : d'.decides ≠ none) :
    before = before' ∧ d = d' ∧ after = after' := by
  induction before generalizing before' with
  | nil =>
      cases before' with
      | nil =>
          obtain ⟨rfl, rfl⟩ := List.cons.inj h
          exact ⟨rfl, rfl, rfl⟩
      | cons x before' =>
          obtain ⟨rfl, -⟩ := List.cons.inj h
          exact absurd (undecided_cons.mp hbefore').1 hd
  | cons x before ih =>
      cases before' with
      | nil =>
          obtain ⟨rfl, -⟩ := List.cons.inj h
          exact absurd (undecided_cons.mp hbefore).1 hd'
      | cons x' before' =>
          obtain ⟨rfl, hrest⟩ := List.cons.inj h
          obtain ⟨rfl, hsame⟩ :=
            ih hrest (undecided_cons.mp hbefore).2 (undecided_cons.mp hbefore').2
          exact ⟨rfl, hsame⟩

/-- A run succeeds just if the decoder finishes while all is open and the sink takes the rest. -/
theorem Settles.ok_iff (h : Settles ds result) :
    result = .ok () ↔ ∃ before input room moved answer after,
      ds = before ++ passed input room moved answer ++ after ∧ Undecided before ∧
        moved.status = .finished ∧
        (moved.output ≠ [] → writeVerdict moved.output answer = .ok ()) := by
  constructor
  · rintro rfl
    cases h with
    | finishes hbefore hstatus hwrite => exact ⟨_, _, _, _, _, _, rfl, hbefore, hstatus, hwrite⟩
  · rintro ⟨before, input, room, moved, answer, after, hds, hbefore, hstatus, hwrite⟩
    have hd : (Deed.decode input room (.ok moved)).decides = some (.ok ()) :=
      decides_finished hstatus
    rw [passed, List.append_assoc, List.cons_append] at hds
    cases h with
    | finishes => rfl
    | fails hbefore' hd' =>
        obtain ⟨-, rfl, -⟩ := first_unique hds hbefore' hbefore (by simp [hd']) (by simp [hd])
        cases hd'.symm.trans hd
    | overruled hbefore' hstatus' hout hwrite' =>
        rw [passed] at hds
        obtain ⟨-, hsame, hrest⟩ := first_unique hds hbefore' hbefore
          (by simp [decides_finished hstatus']) (by simp [hd])
        cases hsame
        rw [if_neg hout, if_neg hout, List.singleton_append] at hrest
        obtain ⟨hsame, -⟩ := List.cons.inj hrest
        cases hsame
        cases hwrite'.symm.trans (hwrite hout)

/-! ## Calls that have nothing to do -/

/-- A call of the decoder that has nothing to do is followed by a call of the source. -/
def Onward (ds : List Deed) : Prop := ds.IsChain fun d d' => d.Rests → d'.Reads

/-- The last thing that was done is not such a call. -/
def Awake (ds : List Deed) : Prop := ∀ d ∈ ds.getLast?, ¬d.Rests

theorem awake_concat (ds : List Deed) {d : Deed} (hd : ¬d.Rests) : Awake (ds ++ [d]) := by
  intro d' hd'
  rw [List.getLast?_concat] at hd'
  obtain rfl := Option.some.inj hd'
  exact hd

theorem Onward.append (h : Onward ds) (h' : Onward es)
    (hjoin : Awake ds ∨ ∀ d ∈ es.head?, d.Reads) : Onward (ds ++ es) := by
  refine List.isChain_append.mpr ⟨h, h', ?_⟩
  intro d hd d' hd' hrests
  rcases hjoin with hawake | hreads
  · exact absurd hrests (hawake d hd)
  · exact hreads d' hd'

theorem Onward.next {after : List Deed} {d : Deed} (h : Onward (before ++ d :: after))
    (hawake : Awake (before ++ d :: after)) (hd : d.Rests) :
    ∃ room answer rest, after = .read room answer :: rest := by
  cases after with
  | nil => exact absurd hd (hawake d (by simp))
  | cons d' rest =>
      have hchain := (List.isChain_append.mp h).2.1
      have hreads := (List.isChain_cons_cons.mp hchain).1 hd
      cases d' with
      | read room answer => exact ⟨room, answer, rest, rfl⟩
      | note | write | decode => cases hreads

section

variable (input : List UInt8) (room : Nat) (moved : Decoded) (answer : Except IoError Nat)

theorem onward_passed : Onward (passed input room moved answer) := by
  rw [passed]
  split
  · exact List.isChain_singleton _
  · next hout =>
      refine List.isChain_cons_cons.mpr ⟨?_, List.isChain_singleton _⟩
      intro hrests
      exact absurd hrests.2.2.2 hout

theorem awake_passed
    (h : moved.status = .finished ∨ ¬(moved.used = 0 ∧ moved.output = []) ∨ input ≠ []) :
    Awake (passed input room moved answer) := by
  rw [passed]
  split
  · refine awake_concat [] ?_
    rintro ⟨hinput, hstatus, hidle⟩
    rcases h with h | h | h
    · exact hstatus h
    · exact h hidle
    · exact h hinput
  · exact awake_concat [_] id

theorem undecided_passed (hstatus : moved.status ≠ .finished)
    (hmoves : ¬(moved.used = 0 ∧ moved.output = [] ∧ input ≠ []))
    (hwrite : moved.output ≠ [] → writeVerdict moved.output answer = .ok ()) :
    Undecided (passed input room moved answer) := by
  rw [passed, undecided_cons]
  refine ⟨(if_neg hstatus).trans (if_neg hmoves), ?_⟩
  split
  · exact List.forall_mem_nil _
  · next hout =>
      intro d hd
      obtain rfl := List.mem_singleton.mp hd
      exact Deed.decides_write_ok (hwrite hout)

/-- The sink refuses what the decoder gave, whatever the decoder said. -/
theorem settles_refused {input : List UInt8} {room : Nat} {moved : Decoded}
    {answer : Except IoError Nat} (hout : moved.output ≠ [])
    (hwrite : writeVerdict moved.output answer = .error e) :
    Settles (passed input room moved answer) (.error e) := by
  by_cases hstatus : moved.status = .finished
  · exact @Settles.overruled [] _ _ _ _ _ (List.forall_mem_nil _) hstatus hout hwrite
  · rw [passed, if_neg hout]
    refine @Settles.fails [_] _ _ ?_ (Deed.decides_write hwrite)
    rw [undecided_cons]
    exact ⟨(if_neg hstatus).trans (if_neg fun hidle => hout hidle.2.1), List.forall_mem_nil _⟩

end

/-! ## What the loops add to a record -/

/-- What the inner loop has done, with its result. -/
structure Offering (ds : List Deed) (result : Except Error Bool) : Prop where
  goesOn : result = .ok false → Undecided ds
  ends : result = .ok true → Settles ds (.ok ())
  fails (e : Error) : result = .error e → Settles ds (.error e)
  onward : Onward ds
  awake : result ≠ .ok false → Awake ds

theorem Awake.append (h : Awake es) (hds : es = [] → Awake ds) : Awake (ds ++ es) := by
  intro d hd
  rw [List.getLast?_append, Option.mem_def, Option.or_eq_some_iff] at hd
  rcases hd with hd | ⟨hnone, hd⟩
  · exact h d hd
  · exact hds (List.getLast?_eq_none_iff.mp hnone) d hd

theorem Onward.append_note (h : Onward ds) (hawake : Awake ds) {notes : List Deed}
    (hnotes : notes = [] ∨ ∃ event, notes = [.note event]) :
    Onward (ds ++ notes) ∧ Awake (ds ++ notes) := by
  rcases hnotes with rfl | ⟨event, rfl⟩
  · rw [List.append_nil]
    exact ⟨h, hawake⟩
  · exact ⟨h.append (List.isChain_singleton _) (.inl hawake), awake_concat ds id⟩

theorem Offering.after {result : Except Error Bool} (h : Offering es result)
    (hds : Undecided ds) (honward : Onward ds) (hawake : Awake ds) :
    Offering (ds ++ es) result where
  goesOn hresult := undecided_append.mpr ⟨hds, h.goesOn hresult⟩
  ends hresult := (h.ends hresult).after hds
  fails e hresult := (h.fails e hresult).after hds
  onward := honward.append h.onward (.inl hawake)
  awake hresult := (h.awake hresult).append fun _ => hawake

/-- What the outer loop has done, with its result. -/
structure Running (ds : List Deed) (result : Except Error Unit) : Prop where
  settled : Settles ds result
  reads : ∃ room answer rest, ds = .read room answer :: rest
  onward : Onward ds
  awake : Awake ds

theorem Running.of_read {room : Nat} {answer : Except IoError Reading}
    (hd : (Deed.read room answer).decides = some (.error e)) :
    Running [.read room answer] (.error e) where
  settled := settles_alone hd
  reads := ⟨room, answer, [], rfl⟩
  onward := List.isChain_singleton _
  awake := awake_concat [] id

/-- A read that brings something, and all that comes of it. -/
theorem Running.of_turn {room : Nat} {answer : Except IoError Reading}
    (hread : (Deed.read room answer).decides = none) (event : Event) (hsettles : Settles ds result)
    (honward : Onward ds) (hawake : Awake ds) :
    Running ([.read room answer, .note event] ++ ds) result where
  settled := hsettles.after (by
    rw [undecided_cons, undecided_cons]
    exact ⟨hread, rfl, List.forall_mem_nil _⟩)
  reads := ⟨room, answer, _, rfl⟩
  onward := Onward.append (List.isChain_cons_cons.mpr ⟨nofun, List.isChain_singleton _⟩) honward
    (.inl (awake_concat [_] id))
  awake := hawake.append fun _ => awake_concat [_] id

end Record

/-! ## The loops -/

namespace Line

variable {ω : Type}

theorem recorded_pull [Channel ω] {l l' : Line (Traced ω)} {room : Nat}
    {result : Except IoError Reading} (hroom : room ≠ 0) (h : l.pull room = (result, l')) :
    ∃ answer, result = readVerdict room answer ∧ l'.deeds = l.deeds ++ [.read room answer] := by
  have hdeeds := l.deeds_pull_of_ne hroom
  rw [h] at hdeeds
  refine ⟨_, ?_, hdeeds⟩
  rw [pull_of_ne hroom, Traced.read_eq] at h
  dsimp only at h
  split at h <;> rename_i hverdict <;> cases h <;> exact hverdict.symm

theorem recorded_push [Channel ω] {l l' : Line (Traced ω)} {bytes : List UInt8}
    {result : Except Error Unit} (hne : bytes ≠ []) (h : l.push bytes = (result, l')) :
    ∃ answer, result = writeVerdict bytes answer ∧ l'.deeds = l.deeds ++ [.write bytes answer] := by
  have hdeeds := l.deeds_push_of_ne hne
  rw [h] at hdeeds
  refine ⟨_, ?_, hdeeds⟩
  rw [push_of_ne hne, Traced.write_eq] at h
  dsimp only at h
  split at h <;> rename_i hverdict <;> cases h <;> exact hverdict.symm

variable [Pump ω] {l l₁ l₂ : Line (Traced ω)} {chunk : List UInt8} {room : Nat} {moved : Decoded}
variable {result : Except Error Unit}

/-- A call of the decoder, and what the sink makes of its output if there is any. -/
theorem recorded_passed (hdecode : l.decode chunk room = (.ok moved, l₁))
    (hpush : l₁.push moved.output = (result, l₂)) :
    ∃ answer, l₂.deeds = l.deeds ++ Record.passed chunk room moved answer ∧
      (moved.output = [] → result = .ok ()) ∧
      (moved.output ≠ [] → writeVerdict moved.output answer = result) := by
  have hcall := deeds_decode hdecode
  by_cases hout : moved.output = []
  · rw [hout, push_nil] at hpush
    cases hpush
    refine ⟨.ok 0, ?_, fun _ => rfl, fun hne => absurd hout hne⟩
    rw [hcall, Record.passed, if_pos hout]
  · obtain ⟨answer, hverdict, hdeeds⟩ := recorded_push hout hpush
    refine ⟨answer, ?_, fun hnil => absurd hnil hout, fun _ => hverdict.symm⟩
    rw [hdeeds, hcall, Record.passed, if_neg hout, List.append_assoc, List.singleton_append]

end Line

namespace Pump

open Record

variable {ω : Type} [Pump ω] {room : Nat}

/-- What the inner loop adds to the record decides its result. -/
theorem offer_decides (room : Nat) (l : Line (Traced ω)) (chunk : List UInt8) :
    ∃ new, (offer room l chunk).2.deeds = l.deeds ++ new ∧
      Offering new (offer room l chunk).1 := by
  fun_induction offer room l chunk with
  | case1 l chunk e l₁ hdecode =>
      refine ⟨_, Line.deeds_decode hdecode, by simp, by simp, ?_, List.isChain_singleton _,
        fun _ => awake_concat [] id⟩
      rintro e' ⟨⟩
      exact settles_alone rfl
  | case2 l chunk moved l₁ hdecode e l₂ hpush =>
      obtain ⟨answer, hdeeds, hnone, hwrite⟩ := Line.recorded_passed hdecode hpush
      have hout : moved.output ≠ [] := by
        intro hnil
        cases hnone hnil
      refine ⟨_, hdeeds, by simp, by simp, ?_, onward_passed _ _ _ _, fun _ => ?_⟩
      · rintro e' ⟨⟩
        exact settles_refused hout (hwrite hout)
      · exact awake_passed _ _ _ _ (.inr (.inl fun hidle => hout hidle.2))
  | case3 l chunk moved l₁ hdecode l₂ hpush rest hstatus =>
      obtain ⟨answer, hdeeds, -, hwrite⟩ := Line.recorded_passed hdecode hpush
      have hends (notes : List Deed) (hnotes : notes = [] ∨ ∃ event, notes = [.note event]) :
          Offering (passed chunk room moved answer ++ notes) (.ok true) := by
        obtain ⟨honward, hawake⟩ := (onward_passed chunk room moved answer).append_note
          (awake_passed _ _ _ _ (.inl hstatus)) hnotes
        refine ⟨by simp, fun _ => ?_, by simp, honward, fun _ => hawake⟩
        exact @Settles.finishes [] _ _ _ _ _ (List.forall_mem_nil _) hstatus hwrite hnotes
      dsimp only
      split
      · exact ⟨_, by rw [hdeeds, List.append_nil], hends [] (.inl rfl)⟩
      · refine ⟨_, ?_, hends [.note (.trailingData rest.length)] (.inr ⟨_, rfl⟩)⟩
        rw [Line.deeds_note, hdeeds, List.append_assoc]
  | case4 l chunk moved l₁ hdecode l₂ hpush rest hstatus hidle hrest =>
      obtain ⟨answer, hdeeds, -, hwrite⟩ := Line.recorded_passed hdecode hpush
      refine ⟨_, hdeeds, fun _ => ?_, by simp, by simp, onward_passed _ _ _ _, by simp⟩
      refine undecided_passed _ _ _ _ hstatus ?_ hwrite
      rintro ⟨hused, -, hinput⟩
      have hall : chunk.drop moved.used = [] := hrest
      rw [hused] at hall
      exact hinput hall
  | case5 l chunk moved l₁ hdecode l₂ hpush rest hstatus hidle hrest =>
      obtain ⟨answer, hdeeds, -, hwrite⟩ := Line.recorded_passed hdecode hpush
      have hinput : chunk ≠ [] := by
        rintro rfl
        exact hrest (List.drop_nil)
      refine ⟨_, hdeeds, by simp, by simp, ?_, onward_passed _ _ _ _, fun _ => ?_⟩
      · rintro e ⟨⟩
        rw [passed, if_pos hidle.2]
        exact settles_alone ((if_neg hstatus).trans (if_pos ⟨hidle.1, hidle.2, hinput⟩))
      · exact awake_passed _ _ _ _ (.inr (.inr hinput))
  | case6 l chunk moved l₁ hdecode l₂ hpush rest hstatus hmoves hdone =>
      obtain ⟨answer, hdeeds, -, hwrite⟩ := Line.recorded_passed hdecode hpush
      refine ⟨_, hdeeds, fun _ => ?_, by simp, by simp, onward_passed _ _ _ _, by simp⟩
      exact undecided_passed _ _ _ _ hstatus (fun hidle => hmoves ⟨hidle.1, hidle.2.1⟩) hwrite
  | case7 l chunk moved l₁ hdecode l₂ hpush rest hstatus hmoves hmore ih =>
      obtain ⟨answer, hdeeds, -, hwrite⟩ := Line.recorded_passed hdecode hpush
      obtain ⟨new, hnew, hoffering⟩ := ih
      rw [hdeeds, List.append_assoc] at hnew
      refine ⟨_, hnew, hoffering.after ?_ ?_ ?_⟩
      · exact undecided_passed _ _ _ _ hstatus (fun hidle => hmoves ⟨hidle.1, hidle.2.1⟩) hwrite
      · exact onward_passed _ _ _ _
      · exact awake_passed _ _ _ _ (.inr (.inl hmoves))

/-- A read that brings something, and the inner loop over what it brought. -/
theorem turn_decides {s : Staging} (hsize : 0 < s.size) {l l₁ l₂ : Line (Traced ω)} {r : Reading}
    {chunk : List UInt8} {result : Except Error Bool} (hpull : l.pull s.size = (.ok r, l₁))
    (hcount : r.count ≠ 0)
    (hoffer : offer room (l₁.note (.decodingChunk r.count)) chunk = (result, l₂)) :
    ∃ answer new,
      l₂.deeds = l.deeds ++ ([.read s.size answer, .note (.decodingChunk r.count)] ++ new) ∧
        (Deed.read s.size answer).decides = none ∧ Offering new result := by
  obtain ⟨answer, hanswer, hdeeds⟩ := Line.recorded_pull (Nat.ne_of_gt hsize) hpull
  obtain ⟨new, hnew, hoffering⟩ := offer_decides room (l₁.note (.decodingChunk r.count)) chunk
  rw [hoffer] at hnew hoffering
  refine ⟨answer, new, ?_, (Deed.decides_read_ok hanswer.symm).trans (if_neg hcount), hoffering⟩
  rw [hnew, Line.deeds_note, hdeeds, List.append_assoc, List.append_assoc]
  rfl

/-- What the outer loop adds to the record decides its result. -/
theorem run_decides (room : Nat) {s : Staging} (hsize : 0 < s.size) (l : Line (Traced ω))
    (state : DecompressState) :
    ∃ new, (run room s l state).2.2.deeds = l.deeds ++ new ∧
      Running new (run room s l state).1 := by
  fun_induction run room s l state with
  | case1 s l state e l₁ hpull =>
      obtain ⟨answer, hanswer, hdeeds⟩ := Line.recorded_pull (Nat.ne_of_gt hsize) hpull
      exact ⟨_, hdeeds, .of_read (Deed.decides_read_error hanswer.symm)⟩
  | case2 s l state r l₁ hpull hcount =>
      obtain ⟨answer, hanswer, hdeeds⟩ := Line.recorded_pull (Nat.ne_of_gt hsize) hpull
      exact ⟨_, hdeeds, .of_read ((Deed.decides_read_ok hanswer.symm).trans (if_pos hcount))⟩
  | case3 s l state r l₁ hpull hcount state' s' e l₂ =>
      rename_i hoffer
      obtain ⟨answer, new, hnew, hread, hoffering⟩ := turn_decides hsize hpull hcount hoffer
      exact ⟨_, hnew, .of_turn hread _ (hoffering.fails e rfl) hoffering.onward
        (hoffering.awake (by simp))⟩
  | case4 s l state r l₁ hpull hcount state' s' l₂ =>
      rename_i hoffer
      obtain ⟨answer, new, hnew, hread, hoffering⟩ := turn_decides hsize hpull hcount hoffer
      exact ⟨_, hnew, .of_turn hread _ (hoffering.ends rfl) hoffering.onward
        (hoffering.awake (by simp))⟩
  | case5 s l state r l₁ hpull hcount state' s' l₂ =>
      rename_i hoffer ih
      obtain ⟨answer, new, hnew, hread, hoffering⟩ := turn_decides hsize hpull hcount hoffer
      obtain ⟨rest, hrest, hrunning⟩ := ih hsize
      obtain ⟨room', answer', more, hreads⟩ := hrunning.reads
      have hne : rest ≠ [] := by simp [hreads]
      rw [hnew, List.append_assoc, List.append_assoc] at hrest
      -- A call that has nothing to do may end the inner loop, and the next turn begins with a read.
      refine ⟨_, hrest, .of_turn hread _ (hrunning.settled.after (hoffering.goesOn rfl)) ?_ ?_⟩
      · refine hoffering.onward.append hrunning.onward (.inr ?_)
        rw [hreads]
        intro d hd
        obtain rfl := Option.some.inj hd
        trivial
      · exact hrunning.awake.append fun hnil => absurd hnil hne

end Pump

/-! ## The verdict -/

namespace Record

/-- A record and a result that its first decisive answer fixes. -/
structure Verdict (s : Staging) (ds : List Deed) (result : Except Error Unit) : Prop where
  first : Settles ds result
  ok : result = .ok () ↔ ∃ before input room moved answer after,
    ds = before ++ passed input room moved answer ++ after ∧ Undecided before ∧
      moved.status = .finished ∧ (moved.output ≠ [] → answer = .ok moved.output.length)
  insufficientInput : result = .error .insufficientInput ↔
    ∃ room r, .read room (.ok r) ∈ ds ∧ r.count = 0
  input (e : IoError) : result = .error (.input e) ↔
    ∃ room answer, .read room answer ∈ ds ∧ readVerdict room answer = .error e
  output (expected written : Nat) (cause : Option IoError) :
    result = .error (.output expected written cause) ↔ ∃ bytes answer,
      .write bytes answer ∈ ds ∧ writeVerdict bytes answer = .error (.output expected written cause)
  decompress (e : IoError) : result = .error (.decompress e) ↔ ∃ input room answer,
    .decode input room answer ∈ ds ∧ (answer = .error e ∨ e = Pump.stuck ∧ ∃ moved,
      answer = .ok moved ∧ moved.status ≠ .finished ∧ moved.used = 0 ∧ moved.output = [] ∧
        input ≠ [])
  kinds (e : Error) : result = .error e → e = .insufficientInput ∨ (∃ cause, e = .input cause) ∨
    (∃ expected written cause, e = .output expected written cause) ∨ ∃ cause, e = .decompress cause
  onward (before : List Deed) (d : Deed) (after : List Deed) : ds = before ++ d :: after →
    d.Rests → ∃ room answer rest, after = .read room answer :: rest
  decodes : decodes ds ≤ (consumed ds).length + (emitted ds).flatten.length + (chunks s ds).length

theorem Settles.fails_iff {ds : List Deed} {result : Except Error Unit} (h : Settles ds result)
    (e : Error) : result = .error e ↔ ∃ d ∈ ds, d.Fails e := by
  simp only [h.error_iff, Deed.decides_eq_error]

/-- There are no more pieces than bytes in them, if none of them is empty. -/
theorem length_le_flatten {pieces : List (List UInt8)} (h : ∀ piece ∈ pieces, piece ≠ []) :
    pieces.length ≤ pieces.flatten.length := by
  have hlengths := List.length_le_sum_of_one_le (pieces.map List.length) (by
    intro n hn
    obtain ⟨piece, hpiece, rfl⟩ := List.mem_map.mp hn
    exact List.length_pos_iff.mpr (h piece hpiece))
  rwa [List.length_map, ← List.length_flatten] at hlengths

theorem length_emitted_le (ds : List Deed) :
    (emitted ds).length ≤ (emitted ds).flatten.length := by
  apply length_le_flatten
  intro piece hpiece
  obtain ⟨d, -, hd⟩ := List.mem_flatMap.mp hpiece
  unfold Deed.emitted at hd
  split at hd
  · split at hd
    · cases hd
    · next hout =>
        obtain rfl := List.mem_singleton.mp hd
        exact hout
  · cases hd

theorem Running.verdict {room : Nat} {s : Staging} {ds : List Deed} {result : Except Error Unit}
    (h : Running ds result) (hkept : Kept room s ds) : Verdict s ds result where
  first := h.settled
  ok := by
    simp only [h.settled.ok_iff, writeVerdict_eq_ok]
  insufficientInput := by
    rw [h.settled.fails_iff]
    constructor
    · rintro ⟨d, hd, hfails⟩
      cases hfails with
      | ended room hcount => exact ⟨room, _, hd, hcount⟩
      | write hverdict =>
          obtain ⟨_, _, _, he⟩ := output_of_writeVerdict hverdict
          cases he
    · rintro ⟨room, r, hd, hcount⟩
      exact ⟨_, hd, .ended room hcount⟩
  input e := by
    rw [h.settled.fails_iff]
    constructor
    · rintro ⟨d, hd, hfails⟩
      cases hfails with
      | read hverdict => exact ⟨_, _, hd, hverdict⟩
      | write hverdict =>
          obtain ⟨_, _, _, he⟩ := output_of_writeVerdict hverdict
          cases he
    · rintro ⟨room, answer, hd, hverdict⟩
      exact ⟨_, hd, .read hverdict⟩
  output expected written cause := by
    rw [h.settled.fails_iff]
    constructor
    · rintro ⟨d, hd, hfails⟩
      cases hfails with
      | write hverdict => exact ⟨_, _, hd, hverdict⟩
    · rintro ⟨bytes, answer, hd, hverdict⟩
      exact ⟨_, hd, .write hverdict⟩
  decompress e := by
    rw [h.settled.fails_iff]
    constructor
    · rintro ⟨d, hd, hfails⟩
      cases hfails with
      | decode => exact ⟨_, _, _, hd, .inl rfl⟩
      | stuck room hstatus hused hout hinput =>
          exact ⟨_, _, _, hd, .inr ⟨rfl, _, rfl, hstatus, hused, hout, hinput⟩⟩
      | write hverdict =>
          obtain ⟨_, _, _, he⟩ := output_of_writeVerdict hverdict
          cases he
    · rintro ⟨input, room, answer, hd, rfl | ⟨rfl, moved, rfl, hstatus, hused, hout, hinput⟩⟩
      · exact ⟨_, hd, .decode input room e⟩
      · exact ⟨_, hd, .stuck room hstatus hused hout hinput⟩
  kinds e he := by
    obtain ⟨d, -, hfails⟩ := (h.settled.fails_iff e).mp he
    cases hfails with
    | ended => exact .inl rfl
    | read => exact .inr (.inl ⟨_, rfl⟩)
    | write hverdict => exact .inr (.inr (.inl (output_of_writeVerdict hverdict)))
    | decode | stuck => exact .inr (.inr (.inr ⟨_, rfl⟩))
  onward before d after hds hrests := by
    subst hds
    exact h.onward.next h.awake hrests
  decodes := by
    have hpieces := length_emitted_le ds
    have hcount := hkept.decodes
    omega

end Record

namespace Pump

open Record

variable {ω : Type} [Pump ω] {s : Staging}

theorem run_running (room : Nat) (hsize : 0 < s.size) (l : Line ω) (state : DecompressState) :
    Running (deeds room s l state) (run room s l state).1 := by
  obtain ⟨new, hnew, hrunning⟩ := run_decides room hsize l.traced state
  obtain ⟨l', hrun, -⟩ := run_traced room s l state
  have hdeeds : deeds room s l state = new := hnew
  rw [hrun] at hrunning
  rwa [hdeeds]

/-- The run of a pump is decided by the first answer that decides anything. -/
theorem run_verdict (room : Nat) (hsize : 0 < s.size) (l : Line ω) (state : DecompressState) :
    Verdict s (deeds room s l state) (run room s l state).1 :=
  (run_running room hsize l state).verdict (deeds_kept room s l state).1

end Pump

end Lzma
