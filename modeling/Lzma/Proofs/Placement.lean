import Lzma.Proofs.Account
import Lzma.Proofs.Scripted

/-!
# What a buffer held before it was read into

A chunk is what the buffer holds as far as a read reports. Where the source has placed as many
bytes as it reports, none of them was there before, and so a run is the same whatever the buffer
held (`Encoding.run_staging`, `Pump.run_staging`). Where it has placed nothing of what it reports,
it is what the buffer held that is encoded (`Encoding.run_unfilled`).

That all reads of a run were of that kind can be seen in its record, which only grows. So the
hypothesis is one about the record of the whole run, and each step of a loop finds its own read
in there.
-/

namespace Lzma

variable {ω : Type}

/-- A read that reports no more than it has placed, if the report can be believed at all. -/
def Deed.Placed : Deed → Prop
  | .read room (.ok r) => r.count ≤ room → r.count ≤ r.placed.length
  | _ => True

/-- The source has placed all that it has reported. -/
def Record.Placed (ds : List Deed) : Prop := ∀ d ∈ ds, d.Placed

open Record

theorem Record.Placed.earlier {ds es : List Deed} (h : Placed es) (hbegins : ds <+: es) :
    Placed ds :=
  fun d hd => h d (hbegins.subset hd)

theorem Record.placed_append {ds es : List Deed} : Placed (ds ++ es) ↔ Placed ds ∧ Placed es :=
  List.forall_mem_append

variable [Channel ω]

/-- A record only grows. -/
theorem Traced.keeps_earlier (ds : List Deed) :
    Channel.Keeps fun t : Traced ω => ds <+: t.deeds where
  note _ _ h := h.trans (List.prefix_append _ _)
  read _ _ h := h.trans (List.prefix_append _ _)
  write _ _ h := h.trans (List.prefix_append _ _)

/-- Two buffers of one size look alike as far as a read has filled them. -/
theorem Line.chunk_of_pull {l l₁ : Line (Traced ω)} {staging staging' : Staging} {r : Reading}
    (hsize : staging.size = staging'.size) (hpull : l.pull staging.size = (.ok r, l₁))
    (hplaced : Placed l₁.deeds) :
    (staging'.receive r.placed).chunk r.count = (staging.receive r.placed).chunk r.count := by
  rcases deeds_pull hpull with ⟨-, heq⟩ | ⟨answer, hdeeds, hanswer⟩
  · cases heq
    rfl
  · obtain ⟨rfl, hfits⟩ := (hanswer r).mp rfl
    rw [hdeeds] at hplaced
    have hall : r.count ≤ r.placed.length :=
      hplaced (.read staging.size (.ok r)) (by simp) hfits
    rw [Staging.chunk_receive hall hfits, Staging.chunk_receive hall (hsize ▸ hfits)]

/-! ## Compression -/

namespace Encoding

theorem run_staging {ρ : Type} [Register CompressState ρ] {s : Stream Encoder}
    {staging staging' : Staging} {l : Line (Traced ω)} {state : ρ}
    (hsize : staging.size = staging'.size)
    (hplaced : Placed (run s staging l state).2.2.deeds) :
    run s staging' l state = run s staging l state := by
  have hgrows (ds : List Deed) := (Traced.keeps_earlier (ω := ω) ds).host.line Staging.defaultSize
  fun_induction run s staging l state generalizing staging' with
  | case1 s staging l state e l₁ hpull =>
      rw [run_eq, ← hsize, hpull]
  | case2 s staging l state r l₁ hpull state' hcount result l₂ =>
      rename_i hfinish
      rw [run_eq, ← hsize, hpull]
      dsimp only
      rw [if_pos hcount, hfinish]
  | case3 s staging l state r l₁ hpull state' hcount staging₁ e l₂ =>
      rename_i hchunk
      have hbegins := (hgrows l₁.deeds).encodeChunk s (staging₁.chunk r.count)
        (l := l₁.note (.encodingChunk r.count)) (List.prefix_append _ _)
      rw [hchunk] at hbegins
      have hsame := Line.chunk_of_pull hsize hpull (hplaced.earlier hbegins)
      rw [run_eq, ← hsize, hpull]
      dsimp only
      rw [if_neg hcount, hsame, hchunk]
  | case4 s staging l state r l₁ hpull state' hcount staging₁ s' l₂ =>
      rename_i hchunk ih
      have hbegins := (hgrows l₁.deeds).encodeChunk s (staging₁.chunk r.count)
        (l := l₁.note (.encodingChunk r.count)) (List.prefix_append _ _)
      rw [hchunk] at hbegins
      have hrest := (hgrows l₁.deeds).encode s' staging₁ state' hbegins
      have hsame := Line.chunk_of_pull hsize hpull (hplaced.earlier hrest)
      rw [run_eq, ← hsize, hpull]
      dsimp only
      rw [if_neg hcount, hsame, hchunk]
      exact ih hsize hplaced

end Encoding

/-- A read that places nothing and reports a full buffer has the buffer encoded as it was. -/
theorem Encoding.run_unfilled [Fair ω] {s : Stream Encoder} {t : Settings} {staging : Staging}
    (hsize : 0 < staging.size) (state : CompressState)
    (hs : s.Serves t staging.held staging.held []) {l l₁ : Line ω}
    (hpull : l.pull staging.size = (.ok ⟨[], staging.size⟩, l₁)) {total : Nat}
    {before : List UInt8} (hl : l₁.Along total ⟨[], some .ended, before⟩) :
    ∃ l' ending, run s staging l state = (.ok (), .encoding, l') ∧ l'.Along total
      ⟨[], ending, before ++ payload t.props t.dictSize (symbolsFor t staging.held.toArray)⟩ := by
  have hchunk : (staging.receive []).chunk staging.size = staging.held := by
    simp [Staging.chunk, Staging.receive, ← staging.length_held]
  have hserves : s.Serves t staging.held ((staging.receive []).chunk staging.size ++ []) [] := by
    rwa [hchunk, List.append_nil]
  obtain ⟨s', l₂, more, hencoded, hs', hl₂⟩ :=
    encodeChunk_spec hserves (hl.note (.encodingChunk staging.size))
  have hleft : 0 < (staging.receive []).size := hsize
  obtain ⟨l', ending, rest, hrun, hall, hl'⟩ := run_spec hleft .encoding hs' hl₂
  refine ⟨l', ending, ?_, ?_⟩
  · rw [run_eq, hpull]
    dsimp only
    rw [if_neg (Nat.ne_of_gt hsize), hencoded]
    exact hrun
  · rw [← hall, List.nil_append, ← List.append_assoc]
    exact hl'

/-- What the buffer for its input holds has no part in a compression run. -/
theorem Compressor.emit_staging {c : Compressor (Traced ω)} {s s' : CompressSession (Traced ω)}
    (hstream : s.engine.stream = s'.engine.stream) (hsize : s.input.size = s'.input.size)
    (state : CompressState) {t : Traced ω} (hplaced : Placed (c.emit s state t).2.2.deeds) :
    c.emit s' state t = c.emit s state t := by
  have hstaging : (Staging.ofList s.input.buffer.bytes).size =
      (Staging.ofList s'.input.buffer.bytes).size := by
    rw [Block.size_staging, Block.size_staging, hsize]
  rw [emit] at hplaced
  rw [emit, emit]
  split
  · rfl
  · next hformat =>
      rw [if_neg hformat] at hplaced
      dsimp only at hplaced ⊢
      rcases hpush : (({ world := t } : Line (Traced ω)).note (.compressionStarting c.options.header
        c.options.level)).push c.options.header.toBytes with ⟨e | _, l⟩
      · rfl
      · rw [hpush] at hplaced
        rw [← hstream]
        exact Encoding.run_staging hstaging hplaced

/-! ## Decompression -/

namespace Pump

theorem run_staging {ρ : Type} [Register DecompressState ρ] {room : Nat}
    {staging staging' : Staging} {l : Line (Decoding (Traced ω))} {state : ρ}
    (hsize : staging.size = staging'.size)
    (hplaced : Placed (run room staging l state).2.2.outer.deeds) :
    run room staging' l state = run room staging l state := by
  have hgrows (ds : List Deed) := ((Traced.keeps_earlier (ω := ω) ds).host.line room).inner
  have hsame {staging staging' : Staging} {l l₁ : Line (Decoding (Traced ω))} {r : Reading}
      (hsize : staging.size = staging'.size) (hpull : l.pull staging.size = (.ok r, l₁))
      (hplaced : Placed l₁.outer.deeds) :
      (staging'.receive r.placed).chunk r.count = (staging.receive r.placed).chunk r.count := by
    have houter := l.pull_outer staging.size
    rw [hpull] at houter
    exact Line.chunk_of_pull hsize houter hplaced
  fun_induction run room staging l state generalizing staging' with
  | case1 staging l state e l₁ hpull =>
      rw [run_eq, ← hsize, hpull]
  | case2 staging l state r l₁ hpull hcount =>
      rw [run_eq, ← hsize, hpull]
      dsimp only
      rw [if_pos hcount]
  | case3 staging l state r l₁ hpull hcount state' staging₁ e l₂
  | case4 staging l state r l₁ hpull hcount state' staging₁ l₂ =>
      rename_i hoffer
      have hbegins := (hgrows l₁.outer.deeds).offer (staging₁.chunk r.count)
        (l := l₁.note (.decodingChunk r.count)) (List.prefix_append _ _)
      rw [hoffer] at hbegins
      rw [run_eq, ← hsize, hpull]
      dsimp only
      rw [if_neg hcount, hsame hsize hpull (hplaced.earlier hbegins), hoffer]
  | case5 staging l state r l₁ hpull hcount state' staging₁ l₂ =>
      rename_i hoffer ih
      have hbegins := (hgrows l₁.outer.deeds).offer (staging₁.chunk r.count)
        (l := l₁.note (.decodingChunk r.count)) (List.prefix_append _ _)
      rw [hoffer] at hbegins
      have hrest := (hgrows l₁.outer.deeds).run staging₁ state' hbegins
      rw [run_eq, ← hsize, hpull]
      dsimp only
      rw [if_neg hcount, hsame hsize hpull (hplaced.earlier hrest), hoffer]
      exact ih hsize hplaced

end Pump

/-- What its two buffers hold has no part in a decompression run. -/
theorem DecompressSession.pump_staging {s s' : DecompressSession (Traced ω)}
    (hstream : s.engine.stream = s'.engine.stream) (hinput : s.input.size = s'.input.size)
    (houtput : s.output.size = s'.output.size) (state : DecompressState) {l : Line (Traced ω)}
    (hplaced : Placed (s.pump state l).2.2.outer.deeds) : s'.pump state l = s.pump state l := by
  have hstaging : (Staging.ofList s.input.buffer.bytes).size =
      (Staging.ofList s'.input.buffer.bytes).size := by
    rw [Block.size_staging, Block.size_staging, hinput]
  rw [pump, ← hstream, ← houtput]
  exact Pump.run_staging hstaging hplaced

/-- So a session may have any buffer of that size for its input. -/
theorem DecompressSession.exists_staged {s : DecompressSession (Traced ω)} (buffer : Buffer)
    (hinput : s.input.size = buffer.size) (state : DecompressState) {l : Line (Traced ω)}
    (hplaced : Placed (s.pump state l).2.2.outer.deeds) :
    ∃ s₁ : DecompressSession (Traced ω), s₁.engine.stream = s.engine.stream ∧
      s₁.input.buffer = buffer ∧ s₁.output.size = s.output.size ∧
      s₁.pump state l = s.pump state l := by
  let s₁ : DecompressSession (Traced ω) :=
    { s with input := { s.input with buffer } }
  have hstream : s.engine.stream = s₁.engine.stream := rfl
  exact ⟨s₁, rfl, rfl, rfl, pump_staging hstream hinput rfl state hplaced⟩

/-! ## Scripts -/

omit [Channel ω]

/-- A script places what it reports, unless a step of it says otherwise. -/
theorem ReadStep.serve_placed (room : Nat) {steps : List ReadStep}
    (h : ∀ excess, overReport excess ∉ steps) :
    (∀ r, (serve room steps).1 = .ok r → r.count ≤ r.placed.length) ∧
      ∀ excess, overReport excess ∉ (serve room steps).2 := by
  obtain _ | ⟨step, rest⟩ := steps
  · exact ⟨by rintro r ⟨⟩; exact Nat.le_refl _, h⟩
  · have hrest (excess : Nat) : overReport excess ∉ rest :=
      fun hmem => h excess (List.mem_cons_of_mem _ hmem)
    cases step with
    | bytes chunk =>
        refine ⟨by rintro r ⟨⟩; exact Nat.le_refl _, fun excess => ?_⟩
        rw [serve]
        dsimp only
        split
        · exact hrest excess
        · simp [hrest excess]
    | ended => exact ⟨by rintro r ⟨⟩; exact Nat.le_refl _, hrest⟩
    | failure e => exact ⟨by rintro r ⟨⟩, hrest⟩
    | overReport excess => exact absurd List.mem_cons_self (h excess)

end Lzma
