import Lzma.Proofs.Account
import Lzma.Proofs.Custody
import Mathlib.Data.List.Induction

/-!
# Handles run once

A handle may be called as often as one likes, and every run may be called in a world of its
own: nothing is assumed of what becomes of a source, a sink or memory between two calls. What
the calls of a sequence do is nevertheless fixed by where the first run stands in it. Before
that a compressor waits (`Compressor.Waits`) and a call can only replace its options. From then
on it is spent (`Compressor.Spent`) and every call is turned away.

These two are the invariant. A call on a handle that waits leaves one that waits, unless it is
a run, and that leaves one that is spent, however it ends: the states that a run passes through
are not among those that it leaves behind. With the last options alone a handle that waits runs
as a new one would that was given these, so nothing else of the calls before has a part in it.
-/

namespace Lzma

variable {ω : Type}

/-- What came of a call on a handle, and what was done on the way. -/
structure Use (κ : Type) where
  result : Except Error Unit
  handle : κ
  /-- The reads, the writes and the notes. -/
  deeds : List Deed
  /-- The requests for memory, and the memory that went back. -/
  dealings : List Dealing

/-- A call that was turned away: nothing was done, and the handle is as it was. -/
def Use.refused {κ : Type} (e : Error) (handle : κ) : Use κ := ⟨.error e, handle, [], []⟩

variable [Channel ω] [Manner]

/-! ## Compressors -/

namespace Compressor

inductive Call (ω : Type) where
  | configure (o : Options)
  | run (w : ω)

/-- What the callbacks of the handle were asked and given in a run. -/
def dealings (c : Compressor ω) (w : ω) : List Dealing :=
  (c.audited.run ⟨w, []⟩).2.2.dealings

def use (c : Compressor ω) : Call ω → Use (Compressor ω)
  | .configure o => ⟨(c.configure o).1, (c.configure o).2, [], []⟩
  | .run w => ⟨(c.run w).1, (c.run w).2.1, c.deeds w, c.dealings w⟩

/-- The handle after some calls, new before the first of them. -/
def after (a : Allocator ω) (calls : List (Call ω)) : Compressor ω :=
  calls.foldl (fun c call => (c.use call).handle) { allocator := a }

/-- A handle with one setting of its options, or with none. -/
def withLast (a : Allocator ω) (setups : List Options) : Compressor ω :=
  { allocator := a, options := setups.getLast?.getD {} }

/-- A run ends well or it does not, and this is what it leaves. -/
def Ended (result : Except Error Unit) (c : Compressor ω) : Prop :=
  (result = .ok () ∧ c.state = .done) ∨ (∃ e, result = .error e) ∧ c.state = .failed

/-- A handle that has not run, and that stands for a new one with its last options. -/
structure Waits (a : Allocator ω) (setups : List Options) (c : Compressor ω) : Prop where
  allocator : c.allocator = a
  state : c.state = if setups = [] then .created else .configured
  options : c.options = setups.getLast?.getD {}
  totals : c.totalIn = 0 ∧ c.totalOut = 0
  configure (o : Options) : c.use (.configure o) =
    ⟨.ok (), { c with options := o, state := .configured }, [], []⟩
  run (w : ω) : c.use (.run w) = (withLast a setups).use (.run w)
  ended (w : ω) : Ended (c.run w).1 (c.run w).2.1

/-- A handle that has run. -/
structure Spent (c : Compressor ω) : Prop where
  state : c.state = .done ∨ c.state = .failed
  refuses (call : Call ω) : c.use call = .refused alreadyRan c

/-- What a sequence of calls comes to. -/
inductive Life (a : Allocator ω) (calls : List (Call ω)) : Prop
  | waits (setups : List Options) : calls = setups.map .configure →
      (after a calls).Waits a setups → Life a calls
  | spent (setups : List Options) (w : ω) (later : List (Call ω)) :
      calls = setups.map .configure ++ .run w :: later →
      after a calls = ((withLast a setups).run w).2.1 →
      Ended ((withLast a setups).run w).1 (after a calls) → (after a calls).Spent →
      Life a calls

variable {c : Compressor ω} {a : Allocator ω} {setups : List Options}

/-! ### One call -/

/-- The state that a run sets out from is of no account to what it does. -/
theorem drive_state (c : Compressor ω) (state : CompressState) (w : ω) :
    ({ c with state } : Compressor ω).drive w =
      ((c.drive w).1, (({ c with state } : Compressor ω).drive w).2.1, (c.drive w).2.2) := by
  rw [drive, drive, follow, follow]
  dsimp only
  rcases CompressSession.acquire c.options c.allocator w with ⟨_ | session, w₁⟩
  · rfl
  · dsimp only
    rw [emit, emit]
    dsimp only
    split
    · rfl
    · split <;> rfl

theorem ended_run (hfresh : c.isFresh = true) (w : ω) : Ended (c.run w).1 (c.run w).2.1 := by
  rw [run, if_pos hfresh]
  rcases c.drive w with ⟨e | _, state, l⟩
  · exact .inr ⟨⟨e, rfl⟩, rfl⟩
  · exact .inl ⟨rfl, rfl⟩

/-- Of a handle that has not run its allocator and its options make up its run. -/
theorem run_fresh (hfresh : c.isFresh = true) (w : ω) :
    c.run w = ({ allocator := c.allocator, options := c.options } : Compressor ω).run w := by
  obtain ⟨allocator, options, state, totalIn, totalOut⟩ := c
  have hdrive := drive_state { allocator, options, totalIn, totalOut } state w
  have hplain : ({ allocator, options, totalIn, totalOut } : Compressor ω).drive w =
      ({ allocator, options } : Compressor ω).drive w := rfl
  have hnew : ({ allocator, options } : Compressor ω).isFresh = true := rfl
  rw [run, run, if_pos hfresh, if_pos hnew, hdrive, hplain]

theorem deeds_fresh (hfresh : c.isFresh = true) (w : ω) :
    c.deeds w = ({ allocator := c.allocator, options := c.options } : Compressor ω).deeds w := by
  rw [deeds, run_fresh (c := c.traced) hfresh]
  rfl

theorem dealings_fresh (hfresh : c.isFresh = true) (w : ω) :
    c.dealings w =
      ({ allocator := c.allocator, options := c.options } : Compressor ω).dealings w := by
  rw [dealings, run_fresh (c := c.audited) hfresh]
  rfl

theorem waits_of_fresh (hstate : c.state = if setups = [] then .created else .configured)
    (hallocator : c.allocator = a) (hoptions : c.options = setups.getLast?.getD {})
    (htotals : c.totalIn = 0 ∧ c.totalOut = 0) : c.Waits a setups := by
  have hfresh : c.isFresh = true := by
    rw [isFresh, hstate]
    split <;> rfl
  refine ⟨hallocator, hstate, hoptions, htotals, ?_, ?_, ended_run hfresh⟩
  · intro o
    rw [use, configure, if_pos hfresh]
  · intro w
    rw [use, use, withLast, run_fresh hfresh, deeds_fresh hfresh, dealings_fresh hfresh,
      hallocator, hoptions]

theorem spent_of_state (hstate : c.state = .done ∨ c.state = .failed) : c.Spent := by
  have hspent : ¬c.isFresh = true := by
    rw [isFresh]
    rcases hstate with h | h <;> rw [h] <;> decide
  refine ⟨hstate, ?_⟩
  intro call
  cases call with
  | configure o =>
      rw [use, configure, if_neg hspent]
      rfl
  | run w =>
      have htraced : ¬c.traced.isFresh = true := hspent
      have haudited : ¬c.audited.isFresh = true := hspent
      rw [use, deeds, dealings, run, run, run, if_neg hspent, if_neg htraced, if_neg haudited]
      rfl

theorem Ended.spent {result : Except Error Unit} (h : Ended result c) : c.Spent :=
  spent_of_state (h.imp And.right And.right)

/-! ### Sequences of calls -/

theorem after_snoc (a : Allocator ω) (calls : List (Call ω)) (call : Call ω) :
    after a (calls ++ [call]) = ((after a calls).use call).handle := by
  rw [after, List.foldl_append]
  rfl

theorem life_step {calls : List (Call ω)} (h : Life a calls) (call : Call ω) :
    Life a (calls ++ [call]) := by
  have hafter := after_snoc a calls call
  cases h with
  | waits setups heq hwaits =>
      cases call with
      | configure o =>
          rw [hwaits.configure] at hafter
          refine .waits (setups ++ [o]) (by rw [heq, List.map_append]; rfl) ?_
          rw [hafter]
          exact waits_of_fresh (by simp) hwaits.allocator (by simp) hwaits.totals
      | run w =>
          rw [hwaits.run] at hafter
          have hrun : after a (calls ++ [.run w]) = ((withLast a setups).run w).2.1 := hafter
          have hended := ended_run (c := withLast a setups) rfl w
          rw [← hrun] at hended
          exact .spent setups w [] (by rw [heq]) hrun hended hended.spent
  | spent setups w later heq hrun hended hspent =>
      rw [hspent.refuses] at hafter
      have hsame : after a (calls ++ [call]) = after a calls := hafter
      refine .spent setups w (later ++ [call]) ?_ ?_ ?_ ?_
      · rw [heq, List.append_assoc, List.cons_append]
      · rw [hsame, hrun]
      · rwa [hsame]
      · rwa [hsame]

theorem life (a : Allocator ω) (calls : List (Call ω)) : Life a calls := by
  induction calls using List.reverseRecOn with
  | nil => exact .waits [] rfl (waits_of_fresh rfl rfl rfl ⟨rfl, rfl⟩)
  | append_singleton calls call ih => exact life_step ih call

end Compressor

/-! ## Decompressors -/

namespace Decompressor

def dealings (c : Decompressor ω) (w : ω) : List Dealing :=
  (c.audited.run ⟨w, []⟩).2.2.dealings

def use (c : Decompressor ω) (w : ω) : Use (Decompressor ω) :=
  ⟨(c.run w).1, (c.run w).2.1, c.deeds w, c.dealings w⟩

/-- The handle after it was run in some worlds, new before the first of them. -/
def after (a : Allocator ω) (worlds : List ω) : Decompressor ω :=
  worlds.foldl (fun c w => (c.use w).handle) { allocator := a }

def Ended (result : Except Error Unit) (c : Decompressor ω) : Prop :=
  (result = .ok () ∧ c.state = .finished) ∨ (∃ e, result = .error e) ∧ c.state = .failed

structure Spent (c : Decompressor ω) : Prop where
  state : c.state = .finished ∨ c.state = .failed
  refuses (w : ω) : c.use w = .refused alreadyRan c

inductive Life (a : Allocator ω) (worlds : List ω) : Prop
  | waits : worlds = [] → after a worlds = { allocator := a } → Life a worlds
  | spent (w : ω) (later : List ω) :
      worlds = w :: later → after a worlds = (({ allocator := a } : Decompressor ω).run w).2.1 →
      Ended (({ allocator := a } : Decompressor ω).run w).1 (after a worlds) →
      (after a worlds).Spent → Life a worlds

variable {c : Decompressor ω} {a : Allocator ω}

theorem ended_run (hfresh : c.state = .created) (w : ω) : Ended (c.run w).1 (c.run w).2.1 := by
  rw [run, if_pos hfresh]
  rcases c.drive w with ⟨e | _, state, header, l⟩
  · exact .inr ⟨⟨e, rfl⟩, rfl⟩
  · exact .inl ⟨rfl, rfl⟩

theorem spent_of_state (hstate : c.state = .finished ∨ c.state = .failed) : c.Spent := by
  have hspent : ¬c.state = .created := by
    rcases hstate with h | h <;> rw [h] <;> decide
  refine ⟨hstate, ?_⟩
  intro w
  have htraced : ¬c.traced.state = .created := hspent
  have haudited : ¬c.audited.state = .created := hspent
  rw [use, deeds, dealings, run, run, run, if_neg hspent, if_neg htraced, if_neg haudited]
  rfl

theorem Ended.spent {result : Except Error Unit} (h : Ended result c) : c.Spent :=
  spent_of_state (h.imp And.right And.right)

theorem after_snoc (a : Allocator ω) (worlds : List ω) (w : ω) :
    after a (worlds ++ [w]) = ((after a worlds).use w).handle := by
  rw [after, List.foldl_append]
  rfl

theorem life_step {worlds : List ω} (h : Life a worlds) (w : ω) : Life a (worlds ++ [w]) := by
  have hafter := after_snoc a worlds w
  cases h with
  | waits heq hnew =>
      rw [hnew] at hafter
      have hrun : after a (worlds ++ [w]) = (({ allocator := a } : Decompressor ω).run w).2.1 :=
        hafter
      have hended := ended_run (c := { allocator := a }) rfl w
      rw [← hrun] at hended
      exact .spent w [] (by rw [heq]; rfl) hrun hended hended.spent
  | spent first later heq hrun hended hspent =>
      rw [hspent.refuses] at hafter
      have hsame : after a (worlds ++ [w]) = after a worlds := hafter
      refine .spent first (later ++ [w]) ?_ ?_ ?_ ?_
      · rw [heq, List.cons_append]
      · rw [hsame, hrun]
      · rwa [hsame]
      · rwa [hsame]

theorem life (a : Allocator ω) (worlds : List ω) : Life a worlds := by
  induction worlds using List.reverseRecOn with
  | nil => exact .waits rfl rfl
  | append_singleton worlds w ih => exact life_step ih w

end Decompressor

/--
Every sequence of calls on a handle sets it up, runs it once and is turned away from then on. Up
to the first run a compressor is as good as a new one with its last options, and so is that run.
It leaves the state that tells how it has ended. No call behind it reads, writes, notes or deals
with memory, and none changes anything that the handle tells.
-/
theorem handles_run_once (a : Allocator ω) :
    (∀ calls : List (Compressor.Call ω), Compressor.Life a calls) ∧
      ∀ worlds : List ω, Decompressor.Life a worlds :=
  ⟨Compressor.life a, Decompressor.life a⟩

end Lzma
