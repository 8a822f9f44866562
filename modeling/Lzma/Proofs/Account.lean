import Lzma.Proofs.Acceptance
import Lzma.Proofs.Alongside

/-!
# The record of a whole run

A run in a traced world is the run itself with its record beside it (`Compressor.run_traced`,
`Decompressor.run_traced`). The record begins with what is noted while memory is asked for,
and ends with the one note that tells how the run has ended.

Two things hold of every such record, whatever the world answers, for they are invariants of
the counted calls. What is counted as given is what the sink took whole (`Line.accounted`).
And nothing is offered to the sink but buffers that hold something, and no more than the coder
had room for (`Line.measured`).
-/

namespace Lzma

variable {ω : Type}

/-! ## Recording a run -/

theorem Allocator.traced_lockstep [Journal ω] (a : Allocator ω) :
    a.traced.Lockstep Traced.Erases Never a := by
  refine Allocator.lockstep_of_alike ?_ ?_ ?_
  · rintro event t _ rfl
    rfl
  · rintro size t _ rfl
    exact ⟨rfl, rfl⟩
  · rintro buffer t _ rfl
    rfl

/-- Dealing with memory adds nothing to a record but notes. -/
theorem Allocator.keeps_traced [Journal ω] (a : Allocator ω) {P : List Deed → Prop}
    (hnote : ∀ event ds, event.OfMemory → P ds → P (ds ++ [.note event])) :
    a.traced.Keeps fun t => P t.deeds where
  note {event t} hmemory ht := hnote event t.deeds hmemory ht
  alloc _ _ ht := ht
  free _ _ ht := ht

def Decompressor.traced (c : Decompressor ω) : Decompressor (Traced ω) :=
  { c with allocator := c.allocator.traced }

section

variable [Channel ω] [Manner]

omit [Manner] in
theorem Traced.credit_erases (t : Traced ω) (w : ω) (h : Erases t w) :
    Channel.credit t = Channel.credit w :=
  congrArg Channel.credit (show t.world = w from h)

namespace Compressor

/-- What a run does, in order. -/
def deeds (c : Compressor ω) (w : ω) : List Deed := (c.traced.run ⟨w, []⟩).2.2.deeds

theorem fixed_run (c : Compressor ω) (w : ω) :
    (c.run w).2.1.allocator = c.allocator ∧ (c.run w).2.1.options = c.options := by
  rw [run]
  split
  · rcases c.drive w with ⟨_ | _, state, l⟩ <;> exact ⟨rfl, rfl⟩
  · exact ⟨rfl, rfl⟩

/-- The record has no part in what a run does. -/
theorem run_traced (c : Compressor ω) (w : ω) :
    c.traced.run ⟨w, []⟩ =
      ((c.run w).1, (c.run w).2.1.traced, ⟨(c.run w).2.2, c.deeds w⟩) := by
  have halike : c.traced.Lockstep Traced.Erases Never c :=
    ⟨⟨rfl, rfl, rfl, rfl⟩, c.allocator.traced_lockstep⟩
  obtain ⟨hresult, hhandle, hworld⟩ := run_alike_of_credit Traced.channel_alike
    Traced.credit_erases halike (show Traced.Erases ⟨w, []⟩ w from rfl)
  have hallocator : (c.traced.run ⟨w, []⟩).2.1.allocator = (c.run w).2.1.allocator.traced := by
    rw [(fixed_run c.traced _).1, (fixed_run c w).1]
    rfl
  have hhandles : (c.traced.run ⟨w, []⟩).2.1 = (c.run w).2.1.traced := by
    rcases hleft : (c.traced.run ⟨w, []⟩).2.1 with ⟨allocator, options, state, totalIn, totalOut⟩
    rw [hleft] at hhandle hallocator
    obtain ⟨⟨hoptions, hstate, htotalIn, htotalOut⟩, -⟩ := hhandle
    dsimp only at hallocator hoptions hstate htotalIn htotalOut
    rw [hallocator, hoptions, hstate, htotalIn, htotalOut]
    rfl
  have hworlds : (c.traced.run ⟨w, []⟩).2.2 = ⟨(c.run w).2.2, c.deeds w⟩ := by
    rw [← hworld]
    rfl
  exact Prod.ext hresult (Prod.ext hhandles hworlds)

end Compressor

namespace Decompressor

def deeds (c : Decompressor ω) (w : ω) : List Deed := (c.traced.run ⟨w, []⟩).2.2.deeds

theorem fixed_run (c : Decompressor ω) (w : ω) : (c.run w).2.1.allocator = c.allocator := by
  rw [run]
  split
  · rcases c.drive w with ⟨_ | _, state, header, l⟩ <;> rfl
  · rfl

theorem run_traced (c : Decompressor ω) (w : ω) :
    c.traced.run ⟨w, []⟩ =
      ((c.run w).1, (c.run w).2.1.traced, ⟨(c.run w).2.2, c.deeds w⟩) := by
  have halike : c.traced.Lockstep Traced.Erases Never c :=
    ⟨⟨rfl, rfl, rfl, rfl⟩, c.allocator.traced_lockstep⟩
  obtain ⟨hresult, hhandle, hworld⟩ := run_alike_of_credit Traced.channel_alike
    Traced.credit_erases halike (show Traced.Erases ⟨w, []⟩ w from rfl)
  have hallocator : (c.traced.run ⟨w, []⟩).2.1.allocator = (c.run w).2.1.allocator.traced := by
    rw [fixed_run c.traced, fixed_run c w]
    rfl
  have hhandles : (c.traced.run ⟨w, []⟩).2.1 = (c.run w).2.1.traced := by
    rcases hleft : (c.traced.run ⟨w, []⟩).2.1 with ⟨allocator, state, header, totalIn, totalOut⟩
    rw [hleft] at hhandle hallocator
    obtain ⟨⟨hstate, hheader, htotalIn, htotalOut⟩, -⟩ := hhandle
    dsimp only at hallocator hstate hheader htotalIn htotalOut
    rw [hallocator, hstate, hheader, htotalIn, htotalOut]
    rfl
  have hworlds : (c.traced.run ⟨w, []⟩).2.2 = ⟨(c.run w).2.2, c.deeds w⟩ := by
    rw [← hworld]
    rfl
  exact Prod.ext hresult (Prod.ext hhandles hworlds)

end Decompressor

end

/-! ## What every record shows -/

open Record

variable [Channel ω]

theorem Record.offered_snoc_note (ds : List Deed) (event : Event) :
    offered (ds ++ [.note event]) = offered ds := by
  simp

namespace Line

theorem deeds_pull_of_ne {room : Nat} (hroom : room ≠ 0) (l : Line (Traced ω)) :
    (l.pull room).2.deeds =
      l.deeds ++ [.read room (Channel.read room l.world.world).1] := by
  rw [deeds, world_pull hroom]
  rfl

theorem deeds_push_of_ne {bytes : List UInt8} (hne : bytes ≠ []) (l : Line (Traced ω)) :
    (l.push bytes).2.deeds =
      l.deeds ++ [.write bytes (Channel.write bytes l.world.world).1] := by
  rw [deeds, world_push hne]
  rfl

/-- What a line counts as given is what the sink has taken. -/
theorem accounted (limit : Nat) :
    Line.Invariant (ω := Traced ω) limit fun l => l.given = (accepted l.deeds).length where
  note event l hl := by
    show l.given = _
    rw [accepted_note]
    exact hl
  pull room l hl := by
    by_cases hroom : room = 0
    · rw [hroom, pull_zero]
      exact hl
    · have hgiven : (l.pull room).2.given = l.given := by
        rw [pull_of_ne hroom]
        split <;> rfl
      rw [hgiven, deeds_pull_of_ne hroom, hl]
      simp
  push {bytes l} _ hl := by
    by_cases hne : bytes = []
    · rw [hne, push_nil]
      exact hl
    · rw [deeds_push_of_ne hne, accepted_append, accepted_singleton, List.length_append, ← hl]
      rw [push_of_ne hne]
      show _ = l.given + (Deed.write bytes (Channel.write bytes l.world).1).accepted.length
      rcases Channel.write bytes l.world with ⟨_ | count, t⟩
      · rfl
      · by_cases hcount : count = bytes.length
        · simp only [writeVerdict, Deed.accepted, if_pos hcount]
        · simp only [writeVerdict, Deed.accepted, if_neg hcount]
          rfl

/-- Whatever more is offered to the sink is not empty, and the coder had room for it. -/
theorem measured (limit : Nat) (first : List (List UInt8)) :
    Line.Invariant (ω := Traced ω) limit fun l =>
      ∃ more, offered l.deeds = first ++ more ∧
        ∀ bytes ∈ more, bytes ≠ [] ∧ bytes.length ≤ limit where
  note event l hl := by simpa [deeds_note] using hl
  pull room l hl := by
    by_cases hroom : room = 0
    · rw [hroom, pull_zero]
      exact hl
    · rw [deeds_pull_of_ne hroom]
      simpa using hl
  push {bytes l} hlimit hl := by
    by_cases hne : bytes = []
    · rw [hne, push_nil]
      exact hl
    · obtain ⟨more, hoffered, hmore⟩ := hl
      refine ⟨more ++ [bytes], ?_, ?_⟩
      · rw [deeds_push_of_ne hne, offered_append, offered_singleton, hoffered, List.append_assoc]
        rfl
      · intro offer hoffer
        rcases List.mem_append.mp hoffer with hoffer | hoffer
        · exact hmore offer hoffer
        · obtain rfl := List.mem_singleton.mp hoffer
          exact ⟨hne, hlimit⟩

end Line

variable [Provident]

theorem Compressor.accounted_drive (c : Compressor ω) (w : ω) :
    (c.traced.drive ⟨w, []⟩).2.2.given =
      (accepted (c.traced.drive ⟨w, []⟩).2.2.deeds).length := by
  have hkeeps (given : Nat) := c.allocator.keeps_traced
    (P := fun ds => given = (accepted ds).length) fun event ds _ hds => by simpa using hds
  have hdrive := keeps_drive (c := c.traced) (w := ⟨w, []⟩) (Line.accounted _)
    (fun _ given => hkeeps given) rfl
  exact hdrive

theorem Decompressor.accounted_drive (c : Decompressor ω) (w : ω) :
    (c.traced.drive ⟨w, []⟩).2.2.2.given =
      (accepted (c.traced.drive ⟨w, []⟩).2.2.2.deeds).length := by
  have hkeeps (given : Nat) := c.allocator.keeps_traced
    (P := fun ds => given = (accepted ds).length) fun event ds _ hds => by simpa using hds
  have hdrive := keeps_drive (c := c.traced) (w := ⟨w, []⟩) (Line.accounted _)
    (fun _ given => hkeeps given) rfl
  exact hdrive

/-- What a handle counts as written is what its sink has taken. -/
theorem Compressor.totalOut_run {c : Compressor ω} (hfresh : c.isFresh = true) (w : ω) :
    (c.run w).2.1.totalOut = (accepted (c.deeds w)).length := by
  have hdrive := c.accounted_drive w
  have htotal : (c.traced.run ⟨w, []⟩).2.1.totalOut = (accepted (c.deeds w)).length := by
    rw [deeds, run, if_pos (show c.traced.isFresh = true from hfresh)]
    generalize c.traced.drive ⟨w, []⟩ = p at hdrive ⊢
    obtain ⟨_ | _, state, l⟩ := p <;> simpa [Journal.note, Line.deeds] using hdrive
  rw [run_traced] at htotal
  exact htotal

/-- In a fair world the sink takes the whole stream that the options ask for. -/
theorem Compressor.length_accepted [Fair ω] {c : Compressor ω} {w : ω} {data : List UInt8}
    (hfresh : c.isFresh = true) (ha : c.allocator.Grants) (hok : c.options.Accepted)
    (hformat : c.options.format = .lzma) (hw : Fair.scene w = some ⟨data, some .ended, []⟩) :
    (accepted (c.deeds w)).length = (c.options.stream data).length := by
  obtain ⟨c', w', ending, hrun, -, -, htotal⟩ :=
    run_spec hfresh ha hok.preset hok.coding hok.dictSize hformat hw
  rw [← totalOut_run hfresh, hrun]
  exact htotal

end Lzma
