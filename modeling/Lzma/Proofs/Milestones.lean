import Lzma.Proofs.Gathering

/-!
# The state of a handle tells how far its run got

While a run is going on the handle's state moves on behind the calls that it is about, and what
the run leaves in it says which of them succeeded. This is stated twice.

The first statement is about all states that a run sets on its way. They are not to be seen in a
run, which keeps the last one only, but the same run in a register that keeps all of them has
them (`Compressor.history`, `Decompressor.history`). A run is that one but for the states that are
forgotten (`Compressor.drive_eq_history`, `Decompressor.drive_eq_history`).

The second is about the last state and the record of the calls. For a compressor it is what became
of the first write and of the first read that decides (`Compressor.Reached`), for a decompressor
the bytes of the header, the memory that was granted, and whether anything was read behind the
header (`Decompressor.Reached`).
-/

namespace Lzma

/-- States are passed in this order. -/
def CompressState.rank : CompressState → Nat
  | .created => 0
  | .configured => 1
  | .headerWritten => 2
  | .encoding => 3
  | .done => 4
  | .failed => 5

def DecompressState.rank : DecompressState → Nat
  | .created => 0
  | .headerRead => 1
  | .allocated => 2
  | .decoding => 3
  | .finished => 4
  | .failed => 5

/-! ## Runs with a history -/

namespace Encoding

variable {ω : Type} [Host ω]

/-- Where a loop keeps all states, the latest is the one that it leaves otherwise. -/
theorem run_eq_history (s : Stream Encoder) (staging : Staging) (l : Line ω)
    (history : List CompressState) (start : CompressState) :
    run s staging l (history.headD start) = ((run s staging l history).1,
      (run s staging l history).2.1.headD start, (run s staging l history).2.2) := by
  fun_induction run s staging l history with
  | case1 s staging l history e l₁ hpull =>
      rw [run_eq, hpull]
  | case2 s staging l history r l₁ hpull history₁ hcount result l₂ hfinish =>
      rw [run_eq, hpull]
      dsimp only
      rw [if_pos hcount, hfinish]
      rfl
  | case3 s staging l history r l₁ hpull history₁ hcount staging₁ e l₂ hchunk =>
      rw [run_eq, hpull]
      dsimp only
      rw [if_neg hcount, hchunk]
      rfl
  | case4 s staging l history r l₁ hpull history₁ hcount staging₁ s₁ l₂ hchunk ih =>
      rw [run_eq, hpull]
      dsimp only
      rw [if_neg hcount, hchunk]
      exact ih

/-- Each read that succeeds, the one at the end included, sets the same state. -/
theorem run_states (s : Stream Encoder) (staging : Staging) (l : Line ω)
    (history : List CompressState) :
    ∃ n, (run s staging l history).2.1 = List.replicate n .encoding ++ history ∧
      (n = 0 ↔ ∃ e, (l.pull staging.size).1 = .error e) := by
  fun_induction run s staging l history with
  | case1 s staging l history e l₁ hpull => exact ⟨0, rfl, by simp [hpull]⟩
  | case2 s staging l history r l₁ hpull history₁ hcount result l₂ hfinish
  | case3 s staging l history r l₁ hpull history₁ hcount staging₁ e l₂ hchunk =>
      exact ⟨1, rfl, by simp [hpull]⟩
  | case4 s staging l history r l₁ hpull history₁ hcount staging₁ s₁ l₂ hchunk ih =>
      obtain ⟨n, hn, -⟩ := ih
      refine ⟨n + 1, ?_, by simp [hpull]⟩
      rw [hn, List.replicate_succ', List.append_assoc]
      rfl

/-- The first read decides on the state that the loop leaves. -/
theorem state_run (s : Stream Encoder) (staging : Staging) (l : Line ω) (state : CompressState) :
    (run s staging l state).2.1 =
      match (l.pull staging.size).1 with
      | .error _ => state
      | .ok _ => .encoding := by
  have hlatest := run_eq_history s staging l [] state
  obtain ⟨n, hstates, hnone⟩ := run_states s staging l []
  rw [List.headD_nil, hstates] at hlatest
  rw [hlatest]
  cases hpull : (l.pull staging.size).1 with
  | error e =>
      rw [hnone.mpr ⟨e, hpull⟩]
      rfl
  | ok r =>
      have hsome : n ≠ 0 := by
        intro hzero
        obtain ⟨e, he⟩ := hnone.mp hzero
        rw [hpull] at he
        cases he
      obtain ⟨k, rfl⟩ := Nat.exists_eq_succ_of_ne_zero hsome
      rfl

end Encoding

namespace Compressor

theorem emit_eq_history {ω ν : Type} [Host ν] (c : Compressor ω) (session : CompressSession ω)
    (history : List CompressState) (start : CompressState) (w : ν) :
    c.emit session (history.headD start) w = ((c.emit session history w).1,
      (c.emit session history w).2.1.headD start, (c.emit session history w).2.2) := by
  rw [emit, emit]
  split
  · rfl
  · dsimp only
    split
    · rfl
    · exact Encoding.run_eq_history _ _ _ (.headerWritten :: history) start

variable {ω : Type} [Channel ω] [Manner]

/-- The states that a run sets, the latest first. -/
def history (c : Compressor ω) (w : ω) : List CompressState :=
  (c.follow ([] : List CompressState) w).2.1

/-- A run leaves the latest state that it sets, or the one that it set out with. -/
theorem drive_eq_history (c : Compressor ω) (w : ω) :
    c.drive w = ((c.follow ([] : List CompressState) w).1, (c.history w).headD c.state,
      (c.follow ([] : List CompressState) w).2.2) := by
  rw [drive, history, follow, follow]
  rcases CompressSession.acquire c.options c.allocator w with ⟨e | session, w₁⟩
  · rfl
  · have hemit := c.emit_eq_history session [] c.state (session.engine.host w₁)
    rw [List.headD_nil] at hemit
    dsimp only
    rw [hemit]

/-- What a run sets is the state behind its header, and after that the one behind its reads. -/
theorem history_cases (c : Compressor ω) (w : ω) :
    c.history w = [] ∨ ∃ n, c.history w = List.replicate n .encoding ++ [.headerWritten] := by
  rw [history, follow]
  split
  · exact .inl rfl
  · dsimp only
    rw [emit]
    split
    · exact .inl rfl
    · dsimp only
      split
      · exact .inl rfl
      · obtain ⟨n, hn, -⟩ := Encoding.run_states (ω := Hosting ω) _ _ _ [.headerWritten]
        exact .inr ⟨n, hn⟩

/-- The states of a run only go forward, and the run does not set those that tell of its end. -/
theorem forward (c : Compressor ω) (hfresh : c.isFresh = true) (w : ω) :
    (c.history w ++ [c.state]).Pairwise (fun a b => b.rank ≤ a.rank) ∧
      ∀ state ∈ c.history w, state ≠ .done ∧ state ≠ .failed := by
  have hstart : c.state.rank ≤ CompressState.rank .headerWritten := by
    simp only [isFresh, Bool.or_eq_true, beq_iff_eq] at hfresh
    rcases hfresh with h | h <;> rw [h] <;> decide
  rcases c.history_cases w with hnone | ⟨n, hstates⟩
  · rw [hnone]
    simp
  · rw [hstates, List.append_assoc]
    refine ⟨List.pairwise_append.mpr ⟨?_, ?_, ?_⟩, ?_⟩
    · exact List.pairwise_replicate.mpr (.inr (Nat.le_refl _))
    · simpa using hstart
    · intro a ha b hb
      rw [List.eq_of_mem_replicate ha]
      simp only [List.cons_append, List.nil_append, List.mem_cons, List.not_mem_nil,
        or_false] at hb
      rcases hb with rfl | rfl
      · decide
      · exact Nat.le_trans hstart (by decide)
    · intro state hmem
      rcases List.mem_append.mp hmem with hmem | hmem
      · rw [List.eq_of_mem_replicate hmem]
        decide
      · rw [List.mem_singleton.mp hmem]
        decide

end Compressor

namespace Pump

variable {ω : Type} [Pump ω]

theorem run_eq_history (room : Nat) (staging : Staging) (l : Line ω)
    (history : List DecompressState) (start : DecompressState) :
    run room staging l (history.headD start) = ((run room staging l history).1,
      (run room staging l history).2.1.headD start, (run room staging l history).2.2) := by
  fun_induction run room staging l history with
  | case1 staging l history e l₁ hpull =>
      rw [run_eq, hpull]
  | case2 staging l history r l₁ hpull hcount =>
      rw [run_eq, hpull]
      dsimp only
      rw [if_pos hcount]
  | case3 staging l history r l₁ hpull hcount history₁ staging₁ e l₂ hoffer
  | case4 staging l history r l₁ hpull hcount history₁ staging₁ l₂ hoffer =>
      rw [run_eq, hpull]
      dsimp only
      rw [if_neg hcount, hoffer]
      rfl
  | case5 staging l history r l₁ hpull hcount history₁ staging₁ l₂ hoffer ih =>
      rw [run_eq, hpull]
      dsimp only
      rw [if_neg hcount, hoffer]
      exact ih

/-- Each read that brings bytes sets the same state. -/
theorem run_states (room : Nat) (staging : Staging) (l : Line ω)
    (history : List DecompressState) :
    ∃ n, (run room staging l history).2.1 = List.replicate n .decoding ++ history ∧
      (n = 0 ↔ countOf (l.pull staging.size).1 = 0) := by
  fun_induction run room staging l history with
  | case1 staging l history e l₁ hpull => exact ⟨0, rfl, by simp [hpull]⟩
  | case2 staging l history r l₁ hpull hcount => exact ⟨0, rfl, by simp [hpull, hcount]⟩
  | case3 staging l history r l₁ hpull hcount history₁ staging₁ e l₂ hoffer
  | case4 staging l history r l₁ hpull hcount history₁ staging₁ l₂ hoffer =>
      exact ⟨1, rfl, by simp [hpull, hcount]⟩
  | case5 staging l history r l₁ hpull hcount history₁ staging₁ l₂ hoffer ih =>
      obtain ⟨n, hn, -⟩ := ih
      refine ⟨n + 1, ?_, by simp [hpull, hcount]⟩
      rw [hn, List.replicate_succ', List.append_assoc]
      rfl

end Pump

namespace Decompressor

variable {ω : Type} [Channel ω]

theorem extract_eq_history (session : DecompressSession ω) (history : List DecompressState)
    (start : DecompressState) (l : Line ω) :
    extract session (history.headD start) l = ((extract session history l).1,
      (extract session history l).2.1.headD start, (extract session history l).2.2) := by
  rw [extract, extract, DecompressSession.pump, DecompressSession.pump, Pump.run_eq_history]

variable [Manner]

/-- The states that a run sets, the latest first. -/
def history (c : Decompressor ω) (w : ω) : List DecompressState :=
  (c.follow ([] : List DecompressState) w).2.1

/-- A run leaves the latest state that it sets, or the one that it set out with. -/
theorem drive_eq_history (c : Decompressor ω) (w : ω) :
    c.drive w = ((c.follow ([] : List DecompressState) w).1, (c.history w).headD c.state,
      (c.follow ([] : List DecompressState) w).2.2) := by
  rw [drive, history, follow, follow]
  rcases readHeader ({ world := w } : Line ω) with ⟨e | header, l⟩
  · rfl
  · dsimp only
    rcases DecompressSession.acquire header c.allocator
      (l.note (.decompressionStarting header)).world with ⟨e | session, w₁⟩
    · rfl
    · have hextract := extract_eq_history session [.allocated, .headerRead] c.state
        { l.note (.decompressionStarting header) with world := w₁ }
      exact congrArg (fun p => (p.1, p.2.1, some header, p.2.2)) hextract

/-- What a run sets is one state for each step of its start, and then the one behind its reads. -/
theorem history_cases (c : Decompressor ω) (w : ω) :
    c.history w = [] ∨ c.history w = [.headerRead] ∨
      ∃ n, c.history w = List.replicate n .decoding ++ [.allocated, .headerRead] := by
  rw [history, follow]
  rcases readHeader ({ world := w } : Line ω) with ⟨e | header, l⟩
  · exact .inl rfl
  · dsimp only
    rcases DecompressSession.acquire header c.allocator
      (l.note (.decompressionStarting header)).world with ⟨e | session, w₁⟩
    · exact .inr (.inl rfl)
    · obtain ⟨n, hn, -⟩ :=
        Pump.run_states (ω := Decoding (Hosting ω)) _ _ _ [.allocated, .headerRead]
      exact .inr (.inr ⟨n, hn⟩)

theorem forward (c : Decompressor ω) (hfresh : c.state = .created) (w : ω) :
    (c.history w ++ [c.state]).Pairwise (fun a b => b.rank ≤ a.rank) ∧
      ∀ state ∈ c.history w, state ≠ .finished ∧ state ≠ .failed := by
  rw [hfresh]
  rcases c.history_cases w with hnone | hheader | ⟨n, hstates⟩
  · rw [hnone]
    simp
  · rw [hheader]
    decide
  · rw [hstates, List.append_assoc]
    refine ⟨List.pairwise_append.mpr ⟨?_, by decide, ?_⟩, ?_⟩
    · exact List.pairwise_replicate.mpr (.inr (Nat.le_refl _))
    · intro a ha
      rw [List.eq_of_mem_replicate ha]
      decide
    · have hstart : ∀ state ∈ [DecompressState.allocated, .headerRead],
          state ≠ .finished ∧ state ≠ .failed := by decide
      intro state hmem
      rcases List.mem_append.mp hmem with hmem | hmem
      · rw [List.eq_of_mem_replicate hmem]
        decide
      · exact hstart state hmem

end Decompressor

/-! ## The calls that a state is about -/

@[simp] def Deed.isRead : Deed → Bool
  | .read _ _ => true
  | _ => false

@[simp] def Deed.isWrite : Deed → Bool
  | .write _ _ => true
  | _ => false

namespace Record

/-- The sink was first offered these bytes, and has taken them whole. -/
def Took (bytes : List UInt8) (ds : List Deed) : Prop :=
  ds.find? Deed.isWrite = some (.write bytes (.ok bytes.length))

/-- The first read has failed, or has reported more than there was room for. -/
def FirstReadFails (ds : List Deed) : Prop :=
  ∃ room answer e, ds.find? Deed.isRead = some (.read room answer) ∧
    readVerdict room answer = .error e

/-- The first call of its kind is that of the whole record. -/
theorem find_of_begins {p : Deed → Bool} {before ds : List Deed} {d : Deed}
    (h : before ++ [d] <+: ds) (hbefore : ∀ x ∈ before, ¬p x = true) (hd : p d = true) :
    ds.find? p = some d := by
  obtain ⟨after, rfl⟩ := h
  rw [List.append_assoc, List.find?_append, List.find?_eq_none.mpr hbefore]
  simp [hd]

theorem OnlyNotes.not {ds : List Deed} (h : OnlyNotes ds) {p : Deed → Bool}
    (hp : ∀ event, ¬p (.note event) = true) : ∀ d ∈ ds, ¬p d = true := by
  intro d hd
  obtain ⟨event, rfl⟩ := h d hd
  exact hp event

end Record

open Record

/-- What holds behind a read holds behind all that comes of it. -/
theorem Host.Invariant.encode_of_pull {ω : Type} [Host ω] {I : Line ω → Prop}
    (hI : Invariant Staging.defaultSize I)
    {s : Stream Encoder} {staging : Staging} {state : CompressState} {l l₁ : Line ω}
    {result : Except IoError Reading} (hpull : l.pull staging.size = (result, l₁)) (hl : I l₁) :
    I (Encoding.run s staging l state).2.2 := by
  cases result with
  | error e =>
      rw [Encoding.run_eq, hpull]
      exact hl
  | ok r =>
      by_cases hcount : r.count = 0
      · rw [Encoding.run_eq, hpull]
        dsimp only
        rw [if_pos hcount]
        exact hI.finish s hl
      · exact hI.encode_rest state hpull hcount
          (hI.encodeChunk s _ (hI.note (.encodingChunk r.count) hl))

/-- What was taken is not given back. -/
theorem Line.keeps_taken {ω : Type} [Channel ω] (count limit : Nat) :
    Line.Invariant (ω := ω) limit fun l => count ≤ l.taken where
  note _ _ hl := hl
  pull room l hl := by
    have htaken : (l.pull room).2.taken = l.taken + countOf (l.pull room).1 := taken_pull rfl
    rw [htaken]
    exact Nat.le_add_right_of_le hl
  push {bytes l} _ hl := by
    rw [taken_push]
    exact hl

/-! ## Compression -/

namespace Compressor

variable {ω : Type} [Channel ω] [Provident] {c : Compressor ω} {w : ω}

/-- How far a run got, by the record of its calls. -/
inductive Reached (c : Compressor ω) (w : ω) : CompressState → Prop
  | start : ¬Took c.options.header.toBytes (c.deeds w) → Reached c w c.state
  | header : Took c.options.header.toBytes (c.deeds w) → FirstReadFails (c.deeds w) →
      Reached c w .headerWritten
  | payload : Took c.options.header.toBytes (c.deeds w) → ¬FirstReadFails (c.deeds w) →
      Reached c w .encoding

theorem state_traced (c : Compressor ω) (w : ω) :
    (c.traced.drive ⟨w, []⟩).2.1 = (c.drive w).2.1 := by
  have halike : c.traced.Lockstep Traced.Erases Never c :=
    ⟨⟨rfl, rfl, rfl, rfl⟩, c.allocator.traced_lockstep⟩
  rcases drive_lockstep Traced.channel_alike.lockstep halike
    (show Traced.Erases ⟨w, []⟩ w from rfl) with ⟨-, hstate, -⟩ | ⟨_, -, hnever⟩
  · exact hstate
  · exact hnever.elim

omit [Provident] in
/-- Where the record tells of no write, the header was not taken. -/
theorem not_took_of_notes {bytes : List UInt8} {ds : List Deed} (h : OnlyNotes ds) :
    ¬Took bytes ds := by
  intro htook
  have hnone : ds.find? Deed.isWrite = none :=
    List.find?_eq_none.mpr (h.not (by simp))
  rw [Took, hnone] at htook
  cases htook

/-- The loops leave the state that their first read stands for. -/
theorem reached_of_emit (hfresh : c.isFresh = true) {s : CompressSession (Traced ω)}
    {t : Traced ω} (hnotes : OnlyNotes t.deeds)
    (hacquire : CompressSession.acquire c.traced.options c.traced.allocator ⟨w, []⟩ =
      (.ok s, t)) : c.Reached w (c.traced.emit s c.state t).2.1 := by
  obtain ⟨event, hdeeds⟩ := emit_deeds hfresh hacquire
  have hbegins := emit_begins hfresh hacquire
  have hstaging : (Staging.ofList s.input.buffer.bytes).size ≠ 0 := by
    rw [Block.size_staging, CompressSession.input_of_acquire hacquire]
    decide
  rw [emit] at hdeeds hbegins ⊢
  split at hdeeds <;> rename_i hformat
  · rw [if_pos hformat]
    refine .start (not_took_of_notes ?_)
    rw [hdeeds]
    exact hnotes.note event
  · rw [if_neg hformat] at hbegins ⊢
    have hstarted := hnotes.note (.compressionStarting c.options.header c.options.level)
    have hne : c.options.header.toBytes ≠ [] := by
      intro hnil
      have hlength := c.options.header.length_toBytes
      rw [hnil] at hlength
      cases hlength
    dsimp only at hdeeds hbegins ⊢
    rcases hpush : (({ world := t } : Line (Traced ω)).note (.compressionStarting c.options.header
      c.options.level)).push c.options.header.toBytes with ⟨e | _, l⟩ <;>
      obtain ⟨answer, hverdict, hwritten⟩ := Line.recorded_push hne hpush <;>
      dsimp only [Compressor.traced] at hdeeds hbegins ⊢ <;> rw [hpush] at hdeeds hbegins ⊢
    · refine .start ?_
      intro htook
      have hfirst : (c.deeds w).find? Deed.isWrite =
          some (.write c.options.header.toBytes answer) := by
        refine find_of_begins ?_ (hstarted.not (by simp)) rfl
        rw [hdeeds]
        dsimp only
        rw [hwritten]
        exact List.prefix_append _ _
      rw [Took, hfirst] at htook
      cases htook
      rw [writeVerdict, if_pos rfl] at hverdict
      cases hverdict
    · obtain rfl := writeVerdict_eq_ok.mp hverdict.symm
      have hdeeds₁ : l.deeds = t.deeds ++
          [.note (.compressionStarting c.options.header c.options.level)] ++
          [.write c.options.header.toBytes (.ok c.options.header.toBytes.length)] := hwritten
      have hgrows (ds : List Deed) :=
        ((Traced.keeps_earlier (ω := ω) ds).line Staging.defaultSize).host
      have hbefore : ∀ d ∈ l.deeds, ¬d.isRead = true := by
        rw [hdeeds₁]
        exact List.forall_mem_append.mpr ⟨hstarted.not (by simp), by simp⟩
      have htook : Took c.options.header.toBytes (c.deeds w) := by
        refine find_of_begins ?_ (hstarted.not (by simp)) rfl
        rw [← hdeeds₁]
        exact ((hgrows l.deeds).encode _ _ _ (List.prefix_refl _)).trans hbegins
      rcases hpull : l.pull (Staging.ofList s.input.buffer.bytes).size with ⟨result, l₁⟩
      obtain ⟨answer, hverdict', hread⟩ := Line.recorded_pull hstaging hpull
      have hfirst : (c.deeds w).find? Deed.isRead =
          some (.read (Staging.ofList s.input.buffer.bytes).size answer) := by
        refine find_of_begins ?_ hbefore rfl
        rw [← hread]
        exact ((hgrows l₁.deeds).encode_of_pull hpull (List.prefix_refl _)).trans hbegins
      dsimp only
      rw [Encoding.state_run, hpull]
      cases result with
      | error e => exact .header htook ⟨_, answer, e, hfirst, hverdict'.symm⟩
      | ok r =>
          refine .payload htook ?_
          intro hfails
          obtain ⟨room, answer', e, hfind, herror⟩ := hfails
          rw [hfirst] at hfind
          cases hfind
          rw [← hverdict'] at herror
          cases herror

theorem reached (hfresh : c.isFresh = true) (w : ω) : c.Reached w (c.drive w).2.1 := by
  have hkeeps := c.allocator.keeps_traced (P := OnlyNotes) fun event ds _ hds => hds.note event
  have hnone : OnlyNotes (⟨w, []⟩ : Traced ω).deeds := by simp [OnlyNotes]
  rw [← state_traced, drive_eq]
  rcases hacquire : CompressSession.acquire c.traced.options c.traced.allocator ⟨w, []⟩ with
    ⟨e | s, t⟩ <;>
    have hnotes := CompressSession.keeps_acquire hkeeps hnone hacquire
  · obtain ⟨-, -, -, hdeeds⟩ := run_closed hfresh w
    have hdrive : c.traced.drive ⟨w, []⟩ = (.error e, c.state, { world := t }) := by
      rw [drive_eq, hacquire]
      rfl
    rw [hdrive] at hdeeds
    refine .start (not_took_of_notes ?_)
    rw [hdeeds]
    exact hnotes.note _
  · exact reached_of_emit hfresh hnotes hacquire

end Compressor

/-! ## Decompression -/

/-- Where the pump leaves its first state, it has taken nothing. -/
theorem Pump.state_run {ω : Type} [Channel ω] (room : Nat) (staging : Staging)
    (l : Line (Decoding ω)) (state : DecompressState) :
    (run room staging l state).2.1 = state ∧ (run room staging l state).2.2.taken = l.taken ∨
      (run room staging l state).2.1 = .decoding ∧
        l.taken < (run room staging l state).2.2.taken := by
  have hlatest := run_eq_history room staging l [] state
  obtain ⟨n, hstates, hnone⟩ := run_states room staging l []
  rw [List.headD_nil, hstates, List.append_nil] at hlatest
  have hstate : (run room staging l state).2.1 =
    (List.replicate n DecompressState.decoding).headD state := congrArg (·.2.1) hlatest
  rcases hpull : l.pull staging.size with ⟨result, l₁⟩
  have htaken := Line.taken_pull hpull
  rw [hpull] at hnone
  rw [hstate]
  by_cases hcount : countOf result = 0
  · refine .inl ⟨by rw [hnone.mpr hcount]; rfl, ?_⟩
    rw [run_eq, hpull]
    cases result with
    | error e => exact htaken
    | ok r =>
        dsimp only [countOf] at hcount htaken ⊢
        rw [if_pos hcount, htaken, hcount, Nat.add_zero]
  · obtain ⟨k, rfl⟩ := Nat.exists_eq_succ_of_ne_zero (mt hnone.mp hcount)
    refine .inr ⟨rfl, ?_⟩
    cases result with
    | error e => exact absurd rfl hcount
    | ok r =>
        have hI := ((Line.keeps_taken (ω := ω) l₁.taken room).host).inner
        have hrest : l₁.taken ≤ (run room staging l state).2.2.taken :=
          hI.run_rest state hpull hcount
            (hI.offer _ (hI.note (.decodingChunk r.count) (Nat.le_refl _)))
        dsimp only [countOf] at hcount htaken
        omega

theorem DecompressSession.pump_state {ω : Type} [Channel ω] (s : DecompressSession ω)
    (state : DecompressState) (l : Line ω) :
    (s.pump state l).2.1 = state ∧ (s.pump state l).2.2.outer.taken = l.taken ∨
      (s.pump state l).2.1 = .decoding ∧ l.taken < (s.pump state l).2.2.outer.taken :=
  Pump.state_run _ _ _ _

namespace Decompressor

variable {ω : Type} [Channel ω] [Provident] {c : Decompressor ω} {w : ω}

/-- A decoder for such a header and all the memory of the run were to be had. -/
def Equipped (c : Decompressor ω) (w : ω) (header : Header) : Prop :=
  header.coding.Supported ∧ AllGranted (c.dealings w)

/-- The bytes that were read for the header say this. -/
def HeaderCame (c : Decompressor ω) (w : ω) (header : Header) : Prop :=
  Header.parse (gathered headerSize (c.deeds w)) = .ok header

/-- How far a run got, by the record of its calls, and the header that it leaves. -/
inductive Reached (c : Decompressor ω) (w : ω) : DecompressState → Option Header → Prop
  | start : (∀ header, ¬c.HeaderCame w header) → Reached c w c.state c.header
  | header {header : Header} : c.HeaderCame w header → ¬c.Equipped w header →
      Reached c w .headerRead (some header)
  | memory {header : Header} : c.HeaderCame w header → c.Equipped w header →
      received (c.deeds w) = headerSize → Reached c w .allocated (some header)
  | payload {header : Header} : c.HeaderCame w header → c.Equipped w header →
      headerSize < received (c.deeds w) → Reached c w .decoding (some header)

theorem state_traced (c : Decompressor ω) (w : ω) :
    (c.traced.drive ⟨w, []⟩).2.1 = (c.drive w).2.1 ∧
      (c.traced.drive ⟨w, []⟩).2.2.1 = (c.drive w).2.2.1 := by
  have halike : c.traced.Lockstep Traced.Erases Never c :=
    ⟨⟨rfl, rfl, rfl, rfl⟩, c.allocator.traced_lockstep⟩
  rcases drive_lockstep Traced.channel_alike.lockstep halike
    (show Traced.Erases ⟨w, []⟩ w from rfl) with ⟨-, hstate, hheader, -⟩ | ⟨_, -, hnever⟩
  · exact ⟨hstate, hheader⟩
  · exact hnever.elim

theorem reached (hfresh : c.state = .created) (w : ω) :
    c.Reached w (c.drive w).2.1 (c.drive w).2.2.1 := by
  obtain ⟨hstate, hheader⟩ := c.state_traced w
  obtain ⟨-, htotal, -, -⟩ := run_closed hfresh w
  have hreceived := (books hfresh w).totalIn
  rw [← hstate, ← hheader]
  rcases hread : readHeader ({ world := ⟨w, []⟩ } : Line (Traced ω)) with ⟨e | header, l⟩
  · rw [drive_of_error hread]
    refine .start ?_
    intro header hcame
    rw [HeaderCame, gathered_run hfresh hread] at hcame
    cases ((readHeader_gathers hread).1 header).mpr hcame
  · have hcame : c.HeaderCame w header := by
      rw [HeaderCame, gathered_run hfresh hread]
      exact ((readHeader_gathers hread).1 header).mp rfl
    obtain ⟨-, -, hwhole⟩ := readHeader_told hread
    obtain ⟨all, result, t, hsetup⟩ := c.traced.setUp (w := ⟨w, []⟩) (I := fun _ => True) hfresh
      ⟨fun _ _ => id, fun _ _ => id⟩ hread trivial
    have hgranted := hsetup.granted
    rw [dealings_traced] at hgranted
    have hcomes := hsetup.comes
    rw [drive_of_ok hread, unpack, hsetup.acquired] at htotal ⊢
    cases result with
    | error e =>
        refine .header hcame ?_
        intro hequipped
        cases hcomes with
        | rejected hno => exact hno hequipped.1
        | denied => cases hgranted.mp hequipped.2
    | ok s =>
        obtain ⟨hdecoder, -⟩ := hcomes
        have hequipped : c.Equipped w header := by
          refine ⟨?_, hgranted.mpr rfl⟩
          rw [Engine.decoderFor] at hdecoder
          split at hdecoder
          · assumption
          · cases hdecoder
        have hnoted : (l.note (.decompressionStarting header)).taken = headerSize :=
          hwhole header rfl
        have hpump := s.pump_state .allocated
          { l.note (.decompressionStarting header) with world := t }
        dsimp only at htotal hpump ⊢
        rw [extract_eq (DecompressSession.housekeeping_of_acquire hsetup.acquired)] at htotal ⊢
        rcases hpump with ⟨hkept, htaken⟩ | ⟨hmoved, htaken⟩
        · rw [hkept]
          refine .memory hcame hequipped ?_
          rw [← hreceived, htotal, ← hnoted]
          exact htaken
        · rw [hmoved]
          refine .payload hcame hequipped ?_
          rw [← hreceived, htotal, ← hnoted]
          exact htaken

end Decompressor

/-! ## What the states tell -/

/-- What the state that a run leaves says of its calls, and which states it sets on its way. -/
structure Compressor.Tells {ω : Type} [Channel ω] [Provident] (c : Compressor ω) (w : ω) :
    Prop where
  unchanged : (c.drive w).2.1 = c.state ↔ ¬Took c.options.header.toBytes (c.deeds w)
  headerWritten : (c.drive w).2.1 = .headerWritten ↔
    Took c.options.header.toBytes (c.deeds w) ∧ FirstReadFails (c.deeds w)
  encoding : (c.drive w).2.1 = .encoding ↔
    Took c.options.header.toBytes (c.deeds w) ∧ ¬FirstReadFails (c.deeds w)
  history : c.drive w = ((c.follow ([] : List CompressState) w).1, (c.history w).headD c.state,
    (c.follow ([] : List CompressState) w).2.2)
  forward : (c.history w ++ [c.state]).Pairwise fun a b => b.rank ≤ a.rank
  never : ∀ state ∈ c.history w, state ≠ .done ∧ state ≠ .failed

/-- The same for a decompressor, whose header is there just if it was read. -/
structure Decompressor.Tells {ω : Type} [Channel ω] [Provident] (c : Decompressor ω) (w : ω) :
    Prop where
  created : (c.drive w).2.1 = .created ∧ (c.drive w).2.2.1 = none ↔
    ∀ header, ¬c.HeaderCame w header
  headerRead : (c.drive w).2.1 = .headerRead ↔
    ∃ header, c.HeaderCame w header ∧ ¬c.Equipped w header
  allocated : (c.drive w).2.1 = .allocated ↔
    ∃ header, c.HeaderCame w header ∧ c.Equipped w header ∧ received (c.deeds w) = headerSize
  decoding : (c.drive w).2.1 = .decoding ↔
    ∃ header, c.HeaderCame w header ∧ c.Equipped w header ∧ headerSize < received (c.deeds w)
  header (header : Header) : (c.drive w).2.2.1 = some header ↔ c.HeaderCame w header
  history : c.drive w = ((c.follow ([] : List DecompressState) w).1, (c.history w).headD c.state,
    (c.follow ([] : List DecompressState) w).2.2)
  forward : (c.history w ++ [c.state]).Pairwise fun a b => b.rank ≤ a.rank
  never : ∀ state ∈ c.history w, state ≠ .finished ∧ state ≠ .failed

section

variable {ω : Type} [Channel ω] [Provident]

theorem Compressor.tells {c : Compressor ω} (hfresh : c.isFresh = true) (w : ω) : c.Tells w := by
  obtain ⟨hforward, hnever⟩ := c.forward hfresh w
  have hstart : c.state ≠ .headerWritten ∧ c.state ≠ .encoding := by
    simp only [isFresh, Bool.or_eq_true, beq_iff_eq] at hfresh
    rcases hfresh with h | h <;> rw [h] <;> decide
  have hreached := reached hfresh w
  generalize hstate : (c.drive w).2.1 = state at hreached
  refine ⟨?_, ?_, ?_, c.drive_eq_history w, hforward, hnever⟩ <;> rw [hstate]
  · cases hreached with
    | start hnot => simp [hnot]
    | header htook hfails => simp [htook, hstart.1.symm]
    | payload htook hreads => simp [htook, hstart.2.symm]
  · cases hreached with
    | start hnot => simp [hnot, hstart.1]
    | header htook hfails => simp [htook, hfails]
    | payload htook hreads => simp [hreads]
  · cases hreached with
    | start hnot => simp [hnot, hstart.2]
    | header htook hfails => simp [hfails]
    | payload htook hreads => simp [htook, hreads]

namespace Decompressor

variable {c : Decompressor ω} {w : ω} {header : Header}

/-- The bytes say one thing only. -/
theorem HeaderCame.exists_iff (h : c.HeaderCame w header) {P : Header → Prop} :
    (∃ header, c.HeaderCame w header ∧ P header) ↔ P header := by
  constructor
  · intro hother
    obtain ⟨header', h', hp⟩ := hother
    rw [HeaderCame, h] at h'
    cases h'
    exact hp
  · intro hp
    exact ⟨header, h, hp⟩

theorem HeaderCame.not_forall (h : c.HeaderCame w header) :
    ¬∀ header, ¬c.HeaderCame w header :=
  fun hnone => hnone header h

theorem HeaderCame.some_iff (h : c.HeaderCame w header) (header' : Header) :
    some header = some header' ↔ c.HeaderCame w header' := by
  rw [HeaderCame, show Header.parse _ = _ from h, Option.some.injEq, Except.ok.injEq]

theorem tells (hfresh : c.state = .created) (hnone : c.header = none) (w : ω) : c.Tells w := by
  obtain ⟨hforward, hnever⟩ := c.forward hfresh w
  have hreached := reached hfresh w
  generalize hstate : (c.drive w).2.1 = state at hreached
  generalize hheader : (c.drive w).2.2.1 = header at hreached
  cases hreached with
  | start hnot =>
      rw [hfresh] at hstate
      rw [hnone] at hheader
      refine ⟨?_, ?_, ?_, ?_, ?_, c.drive_eq_history w, hforward, hnever⟩
      · simp [hstate, hheader, hnot]
      · simp [hstate, hnot]
      · simp [hstate, hnot]
      · simp [hstate, hnot]
      · simp [hheader, hnot]
  | header hcame hno =>
      refine ⟨?_, ?_, ?_, ?_, ?_, c.drive_eq_history w, hforward, hnever⟩
      · simp [hheader, hcame.not_forall]
      · simp [hstate, hcame.exists_iff, hno]
      · simp [hstate, hcame.exists_iff, hno]
      · simp [hstate, hcame.exists_iff, hno]
      · simp [hheader, hcame.some_iff]
  | memory hcame hequipped hall =>
      refine ⟨?_, ?_, ?_, ?_, ?_, c.drive_eq_history w, hforward, hnever⟩
      · simp [hheader, hcame.not_forall]
      · simp [hstate, hcame.exists_iff, hequipped]
      · simp [hstate, hcame.exists_iff, hequipped, hall]
      · simp [hstate, hall]
      · simp [hheader, hcame.some_iff]
  | payload hcame hequipped hmore =>
      refine ⟨?_, ?_, ?_, ?_, ?_, c.drive_eq_history w, hforward, hnever⟩
      · simp [hheader, hcame.not_forall]
      · simp [hstate, hcame.exists_iff, hequipped]
      · simp [hstate, Nat.ne_of_gt hmore]
      · simp [hstate, hcame.exists_iff, hequipped, hmore]
      · simp [hheader, hcame.some_iff]

end Decompressor

end

/--
The state that a run leaves, before the handle makes it that of a success or a failure, tells how
far the run got. A compressor's is the one that it set out with unless the sink has taken the
whole header; if it has, the state tells whether the first read has failed. A decompressor's tells
in this order whether the bytes of a header came, whether a decoder and all the memory were to be
had for it, and whether anything was read behind it. On its way a run only ever sets states that
are further on, and it does not set the ones that tell of its end.
-/
theorem state_tells_progress {ω : Type} [Channel ω] [Provident] (w : ω) :
    (∀ c : Compressor ω, c.isFresh = true → c.Tells w) ∧
      ∀ c : Decompressor ω, c.state = .created → c.header = none → c.Tells w :=
  ⟨fun _ hfresh => Compressor.tells hfresh w,
    fun _ hfresh hnone => Decompressor.tells hfresh hnone w⟩

/-- A source that fails at once, and one that ends within the header. -/
theorem state_tells_progress_of_faults :
    let c : Compressor (Exchange ScriptedSource ScriptedSink Unit) := {}
    let d : Decompressor (Exchange ScriptedSource ScriptedSink Unit) := {}
    let x : Exchange ScriptedSource ScriptedSink Unit :=
      { source := { steps := [.failure (.ofKind .brokenPipe)] }, sink := {}, memory := () }
    let y : Exchange ScriptedSource ScriptedSink Unit :=
      { source := { steps := [.bytes [93, 0, 0], .bytes [1, 0]] }, sink := {}, memory := () }
    (c.isFresh = true ∧ c.Tells x ∧
        Took c.options.header.toBytes (c.deeds x) ∧ FirstReadFails (c.deeds x)) ∧
      d.state = .created ∧ d.header = none ∧ d.Tells y ∧ ∀ header, ¬d.HeaderCame y header := by
  intro c d x y
  have hc : c.Tells x := (state_tells_progress x).1 c rfl
  have hd : d.Tells y := (state_tells_progress y).2 d rfl rfl
  have hwritten : (c.drive x).2.1 = .headerWritten := by decide +kernel
  have hcreated : (d.drive y).2.1 = .created := by decide +kernel
  have hnone : (d.drive y).2.2.1.isNone = true := by decide +kernel
  exact ⟨⟨rfl, hc, hc.headerWritten.mp hwritten⟩, rfl, rfl, hd,
    hd.created.mp ⟨hcreated, Option.isNone_iff_eq_none.mp hnone⟩⟩

end Lzma
