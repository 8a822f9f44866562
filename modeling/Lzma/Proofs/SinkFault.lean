import Lzma.Proofs.Account
import Lzma.Proofs.Endless
import Lzma.Proofs.Scripted

/-!
# A fault of the sink cuts a run short

Two worlds that differ in their sinks alone are indistinguishable to a run as long as both
sinks take what they are offered. So the run in front of a sink that takes everything tells
all about a run in front of any other sink: either that one takes all of the same buffers, and
the runs are the same, or there is a first buffer that it does not take as it should. The run
ends with that write. It is the one that the other run makes there too, with the same calls
before it, and nothing is made up for afterwards.

The relation that carries this (`Exchange.Abreast`) says that both worlds have been through
the same calls, and where the one sink must be by now, given what it was offered. It breaks at
a write and nowhere else; what is left then (`Exchange.Severed`) speaks of the one world's
record and of a beginning of the other's, so the other run cannot undo it.

Memory must not know of the sink for this. The callbacks of the handles here work on the
memory of an exchange and see nothing else of it.
-/

namespace Lzma

variable {σ τ τ' μ : Type}

/-! ## Sinks that take what they are offered -/

namespace Sink

variable [Sink τ] {s : τ}

/-- The sink after it has taken some buffers, each of them whole. -/
def pass : List (List UInt8) → τ → Option τ
  | [], s => some s
  | bytes :: rest, s =>
      match writeVerdict bytes (write bytes s).1 with
      | .ok () => pass rest (write bytes s).2
      | .error _ => none

theorem pass_cons {bytes : List UInt8} (h : writeVerdict bytes (write bytes s).1 = .ok ())
    (rest : List (List UInt8)) : pass (bytes :: rest) s = pass rest (write bytes s).2 := by
  rw [pass, h]

theorem pass_append (buffers rest : List (List UInt8)) (s : τ) :
    pass (buffers ++ rest) s = (pass buffers s).bind (pass rest) := by
  induction buffers generalizing s with
  | nil => rfl
  | cons bytes buffers ih =>
      rw [List.cons_append, pass, pass]
      split
      · exact ih _
      · rfl

theorem pass_snoc {buffers : List (List UInt8)} {s₀ : τ} (hpass : pass buffers s₀ = some s)
    {bytes : List UInt8} (h : writeVerdict bytes (write bytes s).1 = .ok ()) :
    pass (buffers ++ [bytes]) s₀ = some (write bytes s).2 := by
  rw [pass_append, hpass]
  exact pass_cons h []

theorem pass_snoc_error {buffers : List (List UInt8)} {s₀ : τ} (hpass : pass buffers s₀ = some s)
    {bytes : List UInt8} {e : Error} (h : writeVerdict bytes (write bytes s).1 = .error e) :
    pass (buffers ++ [bytes]) s₀ = none := by
  rw [pass_append, hpass]
  show pass [bytes] s = none
  rw [pass, h]

/-- A sink misbehaves for the first time only once. -/
theorem pass_unique {first first' rest rest' : List (List UInt8)} {bytes bytes' : List UInt8}
    {s₀ : τ} (hfirst : (pass first s₀).isSome) (hnext : pass (first ++ [bytes]) s₀ = none)
    (hfirst' : (pass first' s₀).isSome) (hnext' : pass (first' ++ [bytes']) s₀ = none)
    (h : first ++ bytes :: rest = first' ++ bytes' :: rest') : first = first' ∧ bytes = bytes' := by
  have hbeyond {xs ys : List (List UInt8)} {x : List UInt8} (hnone : pass (xs ++ [x]) s₀ = none) :
      pass (xs ++ x :: ys) s₀ = none := by
    rw [List.append_cons, pass_append, hnone]
    rfl
  rcases List.append_eq_append_iff.mp h with ⟨_ | ⟨b, more⟩, hlonger, hrest⟩ |
    ⟨_ | ⟨b, more⟩, hlonger, hrest⟩
  · rw [List.append_nil] at hlonger
    exact ⟨hlonger.symm, (List.cons.inj hrest).1⟩
  · obtain ⟨rfl, -⟩ := List.cons.inj hrest
    rw [hlonger, hbeyond hnext] at hfirst'
    cases hfirst'
  · rw [List.append_nil] at hlonger
    exact ⟨hlonger, (List.cons.inj hrest).1.symm⟩
  · obtain ⟨rfl, -⟩ := List.cons.inj hrest
    rw [hlonger, hbeyond hnext'] at hfirst
    cases hfirst

/-- A sink that takes whatever it is offered, for ever. -/
def Generous (s : τ) : Prop := ∀ buffers, (pass buffers s).isSome = true

theorem Generous.write (h : Generous s) (bytes : List UInt8) :
    (Sink.write bytes s).1 = .ok bytes.length ∧ Generous (Sink.write bytes s).2 := by
  have hone := h [bytes]
  rw [pass] at hone
  split at hone
  · next hverdict =>
      refine ⟨writeVerdict_eq_ok.mp hverdict, ?_⟩
      intro buffers
      rw [← pass_cons hverdict]
      exact h (bytes :: buffers)
  · cases hone

end Sink

namespace Record

/-- Every write was taken as a whole. -/
def AllTaken (ds : List Deed) : Prop :=
  ∀ bytes answer, .write bytes answer ∈ ds → answer = .ok bytes.length

theorem AllTaken.append {ds : List Deed} (h : AllTaken ds) {d : Deed}
    (hd : ∀ bytes answer, d = .write bytes answer → answer = .ok bytes.length) :
    AllTaken (ds ++ [d]) := by
  intro bytes answer hmem
  rcases List.mem_append.mp hmem with hmem | hmem
  · exact h bytes answer hmem
  · exact hd bytes answer (List.mem_singleton.mp hmem).symm

theorem accepted_of_allTaken {ds : List Deed} (h : AllTaken ds) :
    accepted ds = (offered ds).flatten := by
  induction ds with
  | nil => rfl
  | cons d ds ih =>
      have hrest := ih fun bytes answer hmem => h bytes answer (List.mem_cons_of_mem _ hmem)
      show d.accepted ++ accepted ds = (d.offered ++ offered ds).flatten
      rw [List.flatten_append, hrest]
      congr 1
      cases d with
      | write bytes answer =>
          rw [h bytes answer List.mem_cons_self]
          simp
      | note event => rfl
      | read room result => rfl
      | decode input room result => rfl

end Record

/-! ## Two worlds and their sinks -/

/-- Callbacks that work on the memory of an exchange. -/
def Allocator.inMemory (a : Allocator μ) : Allocator (Exchange σ τ μ) where
  alloc size x := let (r, memory) := a.alloc size x.memory; (r, { x with memory })
  free buffer x := { x with memory := a.free buffer x.memory }
  custom := a.custom

/-- A handle whose callbacks know of their memory and of nothing else. -/
def Compressor.within (c : Compressor μ) : Compressor (Exchange σ τ μ) :=
  { c with allocator := c.allocator.inMemory }

def Decompressor.within (c : Decompressor μ) : Decompressor (Exchange σ τ μ) :=
  { c with allocator := c.allocator.inMemory }

namespace Exchange

open Record

/-- The same world with another sink. -/
def facing (x : Exchange σ τ μ) (s : τ') : Exchange σ τ' μ := { x with sink := s }

/-- Two worlds that have been through the same calls, the second with a sink that takes all. -/
inductive Abreast [Sink τ] [Sink τ'] (s₀ : τ') :
    Traced (Exchange σ τ' μ) → Traced (Exchange σ τ μ) → Prop
  | mk {source : σ} {sink : τ'} {sink' : τ} {memory : μ} {events : List Event}
      {deeds : List Deed} (passed : Sink.pass (offered deeds) s₀ = some sink)
      (taken : AllTaken deeds) (generous : Sink.Generous sink') :
      Abreast s₀ ⟨⟨source, sink, memory, events⟩, deeds⟩ ⟨⟨source, sink', memory, events⟩, deeds⟩

/-- The first world's sink has failed at `bytes`, which the second one's has taken. -/
structure SeveredAt [Sink τ'] (s₀ : τ') (before : List Deed) (bytes : List UInt8) (s : τ')
    (e : Error) (t : Traced (Exchange σ τ' μ)) (t' : Traced (Exchange σ τ μ)) : Prop where
  passed : Sink.pass (offered before) s₀ = some s
  taken : AllTaken before
  fault : writeVerdict bytes (Sink.write bytes s).1 = .error e
  deeds : t.deeds = before ++ [.write bytes (Sink.write bytes s).1]
  sink : t.world.sink = (Sink.write bytes s).2
  follows : before ++ [.write bytes (.ok bytes.length)] <+: t'.deeds

def Severed [Sink τ'] (s₀ : τ') (e : Error) (t : Traced (Exchange σ τ' μ))
    (t' : Traced (Exchange σ τ μ)) : Prop :=
  ∃ before bytes s, SeveredAt s₀ before bytes s e t t'

theorem Severed.later [Sink τ'] {s₀ : τ'} {t : Traced (Exchange σ τ' μ)}
    {t' t'' : Traced (Exchange σ τ μ)} {e : Error} (h : Severed s₀ e t t')
    (hdeeds : t'.deeds <+: t''.deeds) : Severed s₀ e t t'' := by
  obtain ⟨before, bytes, s, hsevered⟩ := h
  exact ⟨before, bytes, s, { hsevered with follows := hsevered.follows.trans hdeeds }⟩

variable [Source σ] [Sink τ] [Sink τ']

theorem abreast_lockstep (s₀ : τ') :
    Channel.Lockstep (Abreast (σ := σ) (τ := τ) (μ := μ) s₀) (Severed s₀) where
  note event t t' h := by
    obtain ⟨hpassed, htaken, hgenerous⟩ := h
    refine ⟨?_, htaken.append (by simp), hgenerous⟩
    simpa using hpassed
  read room t t' h := by
    obtain ⟨hpassed, htaken, hgenerous⟩ := h
    refine .inl ⟨rfl, ⟨?_, htaken.append (by simp), hgenerous⟩⟩
    simpa using hpassed
  write bytes t t' h := by
    obtain @⟨source, sink, sink', memory, events, deeds, hpassed, htaken, hgenerous⟩ := h
    obtain ⟨hanswer', hgenerous'⟩ := hgenerous.write bytes
    have hwrite' : Channel.write bytes
        (⟨⟨source, sink', memory, events⟩, deeds⟩ : Traced (Exchange σ τ μ)) =
        (.ok bytes.length, ⟨⟨source, (Sink.write bytes sink').2, memory, events⟩,
          deeds ++ [.write bytes (.ok bytes.length)]⟩) := by
      rw [← hanswer']
      rfl
    rw [hwrite']
    rcases hverdict : writeVerdict bytes (Sink.write bytes sink).1 with e | _
    · exact .inr ⟨e, rfl, deeds, bytes, sink, hpassed, htaken, hverdict, rfl, rfl,
        List.prefix_rfl⟩
    · have hanswer := writeVerdict_eq_ok.mp hverdict
      have hwrite : Channel.write bytes
          (⟨⟨source, sink, memory, events⟩, deeds⟩ : Traced (Exchange σ τ' μ)) =
          (.ok bytes.length, ⟨⟨source, (Sink.write bytes sink).2, memory, events⟩,
            deeds ++ [.write bytes (.ok bytes.length)]⟩) := by
        rw [← hanswer]
        rfl
      rw [hwrite]
      refine .inl ⟨rfl, ⟨?_, htaken.append ?_, hgenerous'⟩⟩
      · rw [offered_append, offered_singleton]
        exact Sink.pass_snoc hpassed hverdict
      · rintro _ _ ⟨⟩
        rfl
  later e t := {
    note := fun _ _ h => h.later (List.prefix_append _ _)
    read := fun _ _ h => h.later (List.prefix_append _ _)
    write := fun _ _ h => h.later (List.prefix_append _ _) }

theorem inMemory_lockstep (a : Allocator μ) (s₀ : τ') :
    (a.inMemory.traced : Allocator (Traced (Exchange σ τ' μ))).Lockstep
      (Abreast (σ := σ) (τ := τ) s₀) (Severed s₀) a.inMemory.traced where
  note := (abreast_lockstep s₀).note
  alloc size t t' h := by
    obtain ⟨hpassed, htaken, hgenerous⟩ := h
    exact ⟨rfl, hpassed, htaken, hgenerous⟩
  free buffer t t' h := by
    obtain ⟨hpassed, htaken, hgenerous⟩ := h
    exact ⟨hpassed, htaken, hgenerous⟩
  closing e buffer t t' h := by
    obtain ⟨before, bytes, s, hsevered⟩ := h
    exact ⟨before, bytes, s, { hsevered with }⟩
  later e t := {
    note := fun _ h => h.later (List.prefix_append _ _)
    alloc := fun _ _ h => h.later List.prefix_rfl
    free := fun _ _ h => h.later List.prefix_rfl }

end Exchange

/-! ## Two runs -/

open Record

/-- A run's end in front of a sink that has taken all that the other run has offered. -/
structure Exchange.Passed [Sink τ'] (s₀ : τ') (full : List Deed) (x' : Exchange σ τ' μ)
    (x : Exchange σ τ μ) : Prop where
  passed : Sink.pass (offered full) s₀ = some x'.sink
  taken : AllTaken full
  source : x'.source = x.source
  memory : x'.memory = x.memory
  events : x'.events = x.events

/-- A record that breaks off at a write of another record. -/
structure Record.CutShort [Sink τ'] (s₀ : τ') (noted : Error → Event)
    (full cut before after : List Deed) (bytes : List UInt8) (s : τ') (e : Error) : Prop where
  passed : Sink.pass (offered before) s₀ = some s
  fault : writeVerdict bytes (Sink.write bytes s).1 = .error e
  full : full = before ++ .write bytes (.ok bytes.length) :: after
  cut : cut = before ++ [.write bytes (Sink.write bytes s).1, .note (noted e)]

theorem writeVerdict_error {bytes : List UInt8} {answer : Except IoError Nat} {e : Error}
    (h : writeVerdict bytes answer = .error e) : (Deed.write bytes answer).accepted = [] := by
  cases answer with
  | error e => rfl
  | ok count =>
      rw [writeVerdict] at h
      split at h
      · cases h
      · next hcount => exact if_neg hcount

/-- What a severed world's record shows, once the failure is noted in it. -/
theorem Exchange.Severed.cut [Sink τ'] {s₀ : τ'} {e : Error} {t : Traced (Exchange σ τ' μ)}
    {t' : Traced (Exchange σ τ μ)} (h : Severed s₀ e t t') {given : Nat}
    (hgiven : given = (accepted t.deeds).length) (noted : Error → Event) :
    ∃ before after bytes s,
      Record.CutShort s₀ noted t'.deeds (t.deeds ++ [.note (noted e)]) before after bytes s e ∧
        given = (offered before).flatten.length ∧ t.world.sink = (Sink.write bytes s).2 := by
  obtain ⟨before, bytes, s, hpassed, htaken, hfault, hdeeds, hsink, after, hfollows⟩ := h
  refine ⟨before, after, bytes, s, ⟨hpassed, hfault, ?_, ?_⟩, ?_, hsink⟩
  · rw [← hfollows, List.append_assoc]
    rfl
  · rw [hdeeds, List.append_assoc]
    rfl
  · rw [hgiven, hdeeds, accepted_append, accepted_singleton, writeVerdict_error hfault,
      List.append_nil, accepted_of_allTaken htaken]

theorem Exchange.Abreast.passed_of [Sink τ] [Sink τ'] {s₀ : τ'} {t : Traced (Exchange σ τ' μ)}
    {t' : Traced (Exchange σ τ μ)} (h : Abreast s₀ t t') :
    Passed s₀ t'.deeds t.world t'.world := by
  obtain ⟨hpassed, htaken, -⟩ := h
  exact ⟨hpassed, htaken, rfl, rfl, rfl⟩

theorem Exchange.abreast_start [Sink τ] [Sink τ'] {x : Exchange σ τ μ}
    (hx : Sink.Generous x.sink) (s₀ : τ') : Abreast s₀ ⟨x.facing s₀, []⟩ ⟨x, []⟩ :=
  ⟨rfl, by simp [AllTaken], hx⟩

section

variable [Source σ] [Sink τ] [Sink τ'] [Provident] {x : Exchange σ τ μ}

/-- In front of another sink a run comes to the same, or that sink cuts it short. -/
theorem Compressor.within_cases (c : Compressor μ) (hx : Sink.Generous x.sink) (s₀ : τ') :
    ((c.within.run (x.facing s₀)).1 = (c.within.run x).1 ∧
        (c.within.run (x.facing s₀)).2.1.Agrees (c.within.run x).2.1 ∧
        Exchange.Passed s₀ (c.within.deeds x) (c.within.run (x.facing s₀)).2.2
          (c.within.run x).2.2) ∨
      ∃ e before after bytes s,
        Record.CutShort s₀ .compressionFailed (c.within.deeds x) (c.within.deeds (x.facing s₀))
          before after bytes s e ∧
        (c.within.run (x.facing s₀)).1 = .error e ∧
        (c.within.run (x.facing s₀)).2.1.state = .failed ∧
        (c.within.run (x.facing s₀)).2.1.totalOut = (offered before).flatten.length ∧
        (c.within.run (x.facing s₀)).2.2.sink = (Sink.write bytes s).2 := by
  have hc : (c.within : Compressor (Exchange σ τ' μ)).traced.Lockstep (Exchange.Abreast s₀)
      (Exchange.Severed s₀) (c.within : Compressor (Exchange σ τ μ)).traced :=
    ⟨⟨rfl, rfl, rfl, rfl⟩, Exchange.inMemory_lockstep c.allocator s₀⟩
  have hgiven := accounted_drive (c.within : Compressor (Exchange σ τ' μ)) (x.facing s₀)
  rcases run_lockstep (Exchange.abreast_lockstep s₀) hc (Exchange.abreast_start hx s₀) with
    ⟨hresult, hhandle, hworld⟩ | ⟨e, hrun, hsevered⟩
  · rw [run_traced, run_traced] at hresult hhandle hworld
    obtain ⟨hoptions, hstate, htotalIn, htotalOut⟩ := hhandle.toAgrees
    exact .inl ⟨hresult, ⟨hoptions, hstate, htotalIn, htotalOut⟩, hworld.passed_of⟩
  · obtain ⟨before, after, bytes, s, hcut, htotal, hsink⟩ :=
      hsevered.cut hgiven .compressionFailed
    have hdeeds : c.within.deeds (x.facing s₀) = _ := congrArg (fun p => p.2.2.deeds) hrun
    rw [run_traced] at hrun
    refine .inr ⟨e, before, after, bytes, s, ?_, congrArg Prod.fst hrun,
      congrArg (fun p => p.2.1.state) hrun,
      (congrArg (fun p => p.2.1.totalOut) hrun).trans htotal,
      (congrArg (fun p => p.2.2.world.sink) hrun).trans hsink⟩
    rw [hdeeds]
    exact hcut

theorem Decompressor.within_cases (c : Decompressor μ) (hx : Sink.Generous x.sink) (s₀ : τ') :
    ((c.within.run (x.facing s₀)).1 = (c.within.run x).1 ∧
        (c.within.run (x.facing s₀)).2.1.Agrees (c.within.run x).2.1 ∧
        Exchange.Passed s₀ (c.within.deeds x) (c.within.run (x.facing s₀)).2.2
          (c.within.run x).2.2) ∨
      ∃ e before after bytes s,
        Record.CutShort s₀ .decompressionFailed (c.within.deeds x) (c.within.deeds (x.facing s₀))
          before after bytes s e ∧
        (c.within.run (x.facing s₀)).1 = .error e ∧
        (c.within.run (x.facing s₀)).2.1.state = .failed ∧
        (c.within.run (x.facing s₀)).2.1.totalOut = (offered before).flatten.length ∧
        (c.within.run (x.facing s₀)).2.2.sink = (Sink.write bytes s).2 := by
  have hc : (c.within : Decompressor (Exchange σ τ' μ)).traced.Lockstep (Exchange.Abreast s₀)
      (Exchange.Severed s₀) (c.within : Decompressor (Exchange σ τ μ)).traced :=
    ⟨⟨rfl, rfl, rfl, rfl⟩, Exchange.inMemory_lockstep c.allocator s₀⟩
  have hgiven := accounted_drive (c.within : Decompressor (Exchange σ τ' μ)) (x.facing s₀)
  rcases run_lockstep (Exchange.abreast_lockstep s₀) hc (Exchange.abreast_start hx s₀) with
    ⟨hresult, hhandle, hworld⟩ | ⟨e, hrun, hsevered⟩
  · rw [run_traced, run_traced] at hresult hhandle hworld
    obtain ⟨hstate, hheader, htotalIn, htotalOut⟩ := hhandle.toAgrees
    exact .inl ⟨hresult, ⟨hstate, hheader, htotalIn, htotalOut⟩, hworld.passed_of⟩
  · obtain ⟨before, after, bytes, s, hcut, htotal, hsink⟩ :=
      hsevered.cut hgiven .decompressionFailed
    have hdeeds : c.within.deeds (x.facing s₀) = _ := congrArg (fun p => p.2.2.deeds) hrun
    rw [run_traced] at hrun
    refine .inr ⟨e, before, after, bytes, s, ?_, congrArg Prod.fst hrun,
      congrArg (fun p => p.2.1.state) hrun,
      (congrArg (fun p => p.2.1.totalOut) hrun).trans htotal,
      (congrArg (fun p => p.2.2.world.sink) hrun).trans hsink⟩
    rw [hdeeds]
    exact hcut

end

/-! ## What is offered -/

section

variable {ω : Type} [Channel ω]

/-- A run that has written anything has begun with its header. -/
theorem Compressor.offered_emit (c : Compressor (Traced ω)) (s : CompressSession (Traced ω))
    (state : CompressState) {t : Traced ω} (ht : offered t.deeds = []) :
    offered (c.emit s state t).2.2.deeds = [] ∨
      ∃ more, offered (c.emit s state t).2.2.deeds = c.options.header.toBytes :: more ∧
        ∀ bytes ∈ more, bytes ≠ [] ∧ bytes.length ≤ Staging.defaultSize := by
  have hne : c.options.header.toBytes ≠ [] := by
    rw [← List.length_pos_iff, Header.length_toBytes]
    decide
  have hheader := Line.deeds_push_of_ne hne (({ world := t } : Line (Traced ω)).note
    (.compressionStarting c.options.header c.options.level))
  rw [emit]
  split
  · exact .inl ht
  · have hfirst : ∃ more, offered (((({ world := t } : Line (Traced ω)).note
          (.compressionStarting c.options.header c.options.level)).push
            c.options.header.toBytes).2.deeds) = [c.options.header.toBytes] ++ more ∧
        ∀ bytes ∈ more, bytes ≠ [] ∧ bytes.length ≤ Staging.defaultSize := by
      refine ⟨[], ?_, by simp⟩
      rw [hheader, Line.deeds_note, offered_append, offered_append]
      show offered t.deeds ++ [] ++ [c.options.header.toBytes] = _
      rw [ht]
      rfl
    refine .inr ?_
    dsimp only
    split <;> rename_i hpush <;> rw [hpush] at hfirst
    · exact hfirst
    · exact (Line.measured _ _).host.encode _ _ _ hfirst

variable [Provident]

theorem Compressor.offered_drive (c : Compressor ω) (w : ω) :
    offered (c.traced.drive ⟨w, []⟩).2.2.deeds = [] ∨
      ∃ more, offered (c.traced.drive ⟨w, []⟩).2.2.deeds = c.options.header.toBytes :: more ∧
        ∀ bytes ∈ more, bytes ≠ [] ∧ bytes.length ≤ Staging.defaultSize := by
  have hkeeps := c.allocator.keeps_traced (P := fun ds => offered ds = [])
    fun event ds _ hds => by simpa using hds
  rw [drive_eq]
  split <;> rename_i hacquire <;> have ht := CompressSession.keeps_acquire hkeeps rfl hacquire
  · exact .inl ht
  · rename_i session t
    have hemit := offered_emit c.traced session c.traced.state ht
    generalize c.traced.emit session c.traced.state t = p at hemit ⊢
    obtain ⟨result, state, l⟩ := p
    -- Giving memory back adds nothing to the record.
    have hdeeds : (session.release l.world).deeds = l.deeds :=
      (CompressSession.served_of_acquire hacquire).keeps_release
        (I := fun t => t.deeds = l.deeds) (fun _ _ ht => ht)
        (CompressSession.housekeeping_of_acquire hacquire).closing rfl
    show offered (session.release l.world).deeds = [] ∨
      ∃ more, offered (session.release l.world).deeds = _ ∧ _
    rw [hdeeds]
    exact hemit

theorem Compressor.deeds_cases (c : Compressor ω) (w : ω) :
    c.deeds w = [] ∨
      ∃ event, c.deeds w = (c.traced.drive ⟨w, []⟩).2.2.deeds ++ [.note event] := by
  rw [deeds, run]
  split
  · rcases c.traced.drive ⟨w, []⟩ with ⟨_ | _, state, l⟩ <;> exact .inr ⟨_, rfl⟩
  · exact .inl rfl

theorem Decompressor.deeds_cases (c : Decompressor ω) (w : ω) :
    c.deeds w = [] ∨
      ∃ event, c.deeds w = (c.traced.drive ⟨w, []⟩).2.2.2.deeds ++ [.note event] := by
  rw [deeds, run]
  split
  · rcases c.traced.drive ⟨w, []⟩ with ⟨_ | _, state, header, l⟩ <;> exact .inr ⟨_, rfl⟩
  · exact .inl rfl

/-- What a run offers: its header, then pieces of at most 64 KiB. -/
theorem Compressor.offered_deeds (c : Compressor ω) (w : ω) :
    offered (c.deeds w) = [] ∨
      ∃ more, offered (c.deeds w) = c.options.header.toBytes :: more ∧
        ∀ bytes ∈ more, bytes ≠ [] ∧ bytes.length ≤ Staging.defaultSize := by
  rcases c.deeds_cases w with hdeeds | ⟨event, hdeeds⟩
  · rw [hdeeds]
    exact .inl rfl
  · have hdrive := c.offered_drive w
    rw [hdeeds, offered_snoc_note]
    exact hdrive

theorem Decompressor.offered_deeds (c : Decompressor ω) (w : ω) :
    ∀ bytes ∈ offered (c.deeds w), bytes ≠ [] ∧ bytes.length ≤ decodedSize := by
  rcases c.deeds_cases w with hdeeds | ⟨event, hdeeds⟩
  · rw [hdeeds]
    simp [offered]
  · obtain ⟨more, hoffered, hmore⟩ := keeps_drive (c := c.traced) (w := ⟨w, []⟩)
      (Line.measured decodedSize [])
      (fun _ _ => c.allocator.keeps_traced (P := fun ds => ∃ more, offered ds = [] ++ more ∧
        ∀ bytes ∈ more, bytes ≠ [] ∧ bytes.length ≤ decodedSize)
        fun event ds _ hds => by simpa using hds) ⟨[], rfl, by simp⟩
    rw [hdeeds, offered_snoc_note, hoffered]
    exact hmore

end

/-! ## The fault -/

/-- A sink that takes the first `k` buffers whole and answers to the next with something else. -/
structure Sink.Misbehaves [Sink τ'] (s₀ : τ') (buffers : List (List UInt8)) (k : Nat)
    (bytes : List UInt8) (answer : Except IoError Nat) : Prop where
  buffer : buffers[k]? = some bytes
  taken : ∃ s, pass (buffers.take k) s₀ = some s ∧ (write bytes s).1 = answer
  fault : answer ≠ .ok bytes.length

/--
A run whose record is cut at write number `k` of another one. The same calls come before it, no
call comes after it, and what is counted is what was written before it.
-/
structure Record.CutAt (full cut : List Deed) (k : Nat) (bytes : List UInt8)
    (answer : Except IoError Nat) (noted : Error → Event) (result : Except Error Unit)
    (totalOut : Nat) : Prop where
  record : ∃ before after written cause,
    full = before ++ .write bytes (.ok bytes.length) :: after ∧
      cut = before ++ [.write bytes answer, .note (noted (.output bytes.length written cause))] ∧
      offered before = (offered full).take k ∧
      result = .error (.output bytes.length written cause)
  totalOut : totalOut = ((offered full).take k).flatten.length

theorem writeVerdict_output {bytes : List UInt8} {answer : Except IoError Nat} {e : Error}
    (h : writeVerdict bytes answer = .error e) :
    ∃ written cause, e = .output bytes.length written cause := by
  cases answer with
  | error cause =>
      cases h
      exact ⟨0, some cause, rfl⟩
  | ok count =>
      rw [writeVerdict] at h
      split at h <;> cases h
      exact ⟨count, none, rfl⟩

namespace Sink.Misbehaves

variable [Sink τ'] {s₀ : τ'} {buffers : List (List UInt8)} {k : Nat} {bytes : List UInt8}
variable {answer : Except IoError Nat}

theorem next (h : Misbehaves s₀ buffers k bytes answer) :
    (pass (buffers.take k) s₀).isSome ∧ pass (buffers.take k ++ [bytes]) s₀ = none ∧
      buffers = buffers.take k ++ bytes :: buffers.drop (k + 1) := by
  obtain ⟨s, hpass, hanswer⟩ := h.taken
  refine ⟨by rw [hpass]; rfl, ?_, ?_⟩
  · cases hverdict : writeVerdict bytes (write bytes s).1 with
    | error e => exact pass_snoc_error hpass hverdict
    | ok _ =>
        rw [hanswer] at hverdict
        exact absurd (writeVerdict_eq_ok.mp hverdict) h.fault
  · calc
      buffers = buffers.take (k + 1) ++ buffers.drop (k + 1) :=
        (List.take_append_drop (k + 1) buffers).symm
      _ = buffers.take k ++ bytes :: buffers.drop (k + 1) := by
        rw [List.take_add_one, h.buffer, List.append_assoc]
        rfl

theorem not_passed {full : List Deed} {x' : Exchange σ τ' μ} {x : Exchange σ τ μ}
    (h : Misbehaves s₀ (offered full) k bytes answer) : ¬Exchange.Passed s₀ full x' x := by
  intro hpassed
  obtain ⟨-, hnone, hbuffers⟩ := h.next
  have hall := hpassed.passed
  rw [hbuffers, List.append_cons, pass_append, hnone] at hall
  cases hall

/-- The write at which a run is cut is the one at which its sink misbehaves. -/
theorem cutAt {full cut before after : List Deed} {bytes' : List UInt8} {s : τ'} {e : Error}
    {noted : Error → Event} {result : Except Error Unit} {totalOut : Nat}
    (h : Misbehaves s₀ (offered full) k bytes answer)
    (hcut : Record.CutShort s₀ noted full cut before after bytes' s e) (hresult : result = .error e)
    (htotal : totalOut = (offered before).flatten.length) :
    Record.CutAt full cut k bytes answer noted result totalOut := by
  obtain ⟨hfirst, hnext, hbuffers⟩ := h.next
  have hfull : offered full = offered before ++ bytes' :: offered after := by
    rw [hcut.full, offered_append]
    rfl
  have hsome : (pass (offered before) s₀).isSome := by
    rw [hcut.passed]
    rfl
  obtain ⟨hbefore, rfl⟩ := pass_unique hsome (pass_snoc_error hcut.passed hcut.fault) hfirst hnext
    (hfull.symm.trans hbuffers)
  obtain ⟨s', hpass, hanswer⟩ := h.taken
  obtain rfl : s = s' := by
    rw [← hbefore, hcut.passed] at hpass
    exact Option.some.inj hpass
  obtain ⟨written, cause, rfl⟩ := writeVerdict_output hcut.fault
  refine ⟨⟨before, after, written, cause, hcut.full, ?_, hbefore, hresult⟩, ?_⟩
  · rw [hcut.cut, hanswer]
  · rw [htotal, hbefore]

end Sink.Misbehaves

/-- A sink's fault cuts what both handles do in one world, and another world tells where. -/
structure Sink.FaultCuts [Source σ] [Sink τ] [Sink τ'] [Provident] (x : Exchange σ τ μ)
    (y : Exchange σ τ' μ) (s₀ : τ') (k : Nat) (bytes : List UInt8) (answer : Except IoError Nat) :
    Prop where
  compressor (c : Compressor μ) : Misbehaves s₀ (offered (c.within.deeds x)) k bytes answer →
    Record.CutAt (c.within.deeds x) (c.within.deeds y) k bytes answer .compressionFailed
      (c.within.run y).1 (c.within.run y).2.1.totalOut
  decompressor (c : Decompressor μ) : Misbehaves s₀ (offered (c.within.deeds x)) k bytes answer →
    Record.CutAt (c.within.deeds x) (c.within.deeds y) k bytes answer .decompressionFailed
      (c.within.run y).1 (c.within.run y).2.1.totalOut

theorem Sink.faultCuts [Source σ] [Sink τ] [Sink τ'] [Provident] {x : Exchange σ τ μ}
    (hx : Generous x.sink) (s₀ : τ') (k : Nat) (bytes : List UInt8)
    (answer : Except IoError Nat) : FaultCuts x (x.facing s₀) s₀ k bytes answer where
  compressor c hfaulty := by
    rcases c.within_cases hx s₀ with ⟨-, -, hpassed⟩ |
      ⟨e, before, after, bytes', s, hcut, hresult, -, htotal, -⟩
    · exact absurd hpassed hfaulty.not_passed
    · exact hfaulty.cutAt hcut hresult htotal
  decompressor c hfaulty := by
    rcases c.within_cases hx s₀ with ⟨-, -, hpassed⟩ |
      ⟨e, before, after, bytes', s, hcut, hresult, -, htotal, -⟩
    · exact absurd hpassed hfaulty.not_passed
    · exact hfaulty.cutAt hcut hresult htotal

/-! ## Sources without end -/

namespace Exchange

/-- The same world with a limit to the reads that its source answers. -/
def metered (x : Exchange σ τ μ) (limit : Nat) : Exchange (Metered σ) τ μ :=
  { x with source := ⟨x.source, limit⟩ }

/-- Two worlds that have been through the same, the second with no fewer reads left. -/
inductive Ahead : Traced (Exchange (Metered σ) τ μ) → Traced (Exchange (Metered σ) τ μ) → Prop
  | mk {source : σ} {left left' : Nat} {sink : τ} {memory : μ} {events : List Event}
      {deeds : List Deed} (hle : left ≤ left') :
      Ahead ⟨⟨⟨source, left⟩, sink, memory, events⟩, deeds⟩
        ⟨⟨⟨source, left'⟩, sink, memory, events⟩, deeds⟩

theorem Ahead.deeds {t t' : Traced (Exchange (Metered σ) τ μ)} (h : Ahead t t') :
    t.deeds = t'.deeds := by
  cases h
  rfl

/-- The last call of the first world was a read that was refused for the limit. -/
def Starved (_ : Error) (t _ : Traced (Exchange (Metered σ) τ μ)) : Prop :=
  ∃ before room, t.deeds = before ++ [.read room (.error Metered.refusal)]

variable [RawSource σ] [Sink τ]

theorem ahead_lockstep : Channel.Lockstep (Ahead (σ := σ) (τ := τ) (μ := μ)) Starved where
  note event _ _ h := by
    obtain ⟨hle⟩ := h
    exact ⟨hle⟩
  read room _ _ h := by
    obtain @⟨source, left, left', sink, memory, events, deeds, hle⟩ := h
    cases left with
    | zero => exact .inr ⟨Metered.refusal, rfl, fun _ => ⟨deeds, room, rfl⟩⟩
    | succ left =>
        obtain _ | left' := left'
        · exact absurd hle (Nat.not_succ_le_zero left)
        · exact .inl ⟨rfl, ⟨Nat.le_of_succ_le_succ hle⟩⟩
  write bytes _ _ h := by
    obtain ⟨hle⟩ := h
    exact .inl ⟨rfl, ⟨hle⟩⟩
  later _ _ := ⟨fun _ _ => id, fun _ _ => id, fun _ _ => id⟩

theorem inMemory_ahead (a : Allocator μ) :
    (a.inMemory.traced : Allocator (Traced (Exchange (Metered σ) τ μ))).Lockstep Ahead Starved
      a.inMemory.traced where
  note event _ _ h := ahead_lockstep.note event h
  alloc size _ _ h := by
    obtain ⟨hle⟩ := h
    exact ⟨rfl, ⟨hle⟩⟩
  free buffer _ _ h := by
    obtain ⟨hle⟩ := h
    exact ⟨hle⟩
  closing _ _ _ _ := id
  later _ _ := ⟨fun _ => id, fun _ _ => id, fun _ _ => id⟩

end Exchange

/-- A record of a run that failed as it was refused a read for the limit. -/
def Record.Starved (ds : List Deed) : Prop :=
  ∃ before room event, ds = before ++ [.read room (.error Metered.refusal), .note event]

theorem Exchange.Starved.record {e : Error} {t t' : Traced (Exchange (Metered σ) τ μ)}
    (h : Exchange.Starved e t t') (event : Event) : Record.Starved (t.deeds ++ [.note event]) := by
  obtain ⟨before, room, hdeeds⟩ := h
  refine ⟨before, room, event, ?_⟩
  rw [hdeeds, List.append_assoc]
  rfl

section

variable [RawSource σ] [Sink τ] [Provident] (x : Exchange σ τ μ) {limit limit' : Nat}

/-- A run that is not refused a read for the limit is the same with any greater one. -/
theorem Compressor.metered_cases (c : Compressor μ) (hle : limit ≤ limit') :
    Starved (c.within.deeds (x.metered limit)) ∨
      (c.within.run (x.metered limit')).1 = (c.within.run (x.metered limit)).1 ∧
        (c.within.run (x.metered limit')).2.1.totalOut =
          (c.within.run (x.metered limit)).2.1.totalOut ∧
        c.within.deeds (x.metered limit') = c.within.deeds (x.metered limit) := by
  have hc : (c.within : Compressor (Exchange (Metered σ) τ μ)).traced.Lockstep Exchange.Ahead
      Exchange.Starved c.within.traced :=
    ⟨⟨rfl, rfl, rfl, rfl⟩, Exchange.inMemory_ahead c.allocator⟩
  have hx : Exchange.Ahead ⟨x.metered limit, []⟩ ⟨x.metered limit', []⟩ := ⟨hle⟩
  rcases run_lockstep Exchange.ahead_lockstep hc hx with ⟨hresult, hhandle, hworld⟩ |
    ⟨e, hrun, hstarved⟩
  · rw [run_traced, run_traced] at hresult hhandle hworld
    exact .inr ⟨hresult.symm, hhandle.toAgrees.totalOut.symm, hworld.deeds.symm⟩
  · refine .inl ?_
    rw [deeds, hrun]
    exact hstarved.record (.compressionFailed e)

theorem Decompressor.metered_cases (c : Decompressor μ) (hle : limit ≤ limit') :
    Starved (c.within.deeds (x.metered limit)) ∨
      (c.within.run (x.metered limit')).1 = (c.within.run (x.metered limit)).1 ∧
        (c.within.run (x.metered limit')).2.1.totalOut =
          (c.within.run (x.metered limit)).2.1.totalOut ∧
        c.within.deeds (x.metered limit') = c.within.deeds (x.metered limit) := by
  have hc : (c.within : Decompressor (Exchange (Metered σ) τ μ)).traced.Lockstep Exchange.Ahead
      Exchange.Starved c.within.traced :=
    ⟨⟨rfl, rfl, rfl, rfl⟩, Exchange.inMemory_ahead c.allocator⟩
  have hx : Exchange.Ahead ⟨x.metered limit, []⟩ ⟨x.metered limit', []⟩ := ⟨hle⟩
  rcases run_lockstep Exchange.ahead_lockstep hc hx with ⟨hresult, hhandle, hworld⟩ |
    ⟨e, hrun, hstarved⟩
  · rw [run_traced, run_traced] at hresult hhandle hworld
    exact .inr ⟨hresult.symm, hhandle.toAgrees.totalOut.symm, hworld.deeds.symm⟩
  · refine .inl ?_
    rw [deeds, hrun]
    exact hstarved.record (.decompressionFailed e)

end

/-- A run that a write cuts was not refused a read. -/
theorem Record.CutAt.not_starved {full cut : List Deed} {k : Nat} {bytes : List UInt8}
    {answer : Except IoError Nat} {noted : Error → Event} {result : Except Error Unit}
    {totalOut : Nat} (h : CutAt full cut k bytes answer noted result totalOut) : ¬Starved cut := by
  obtain ⟨before, after, written, cause, -, hcut, -⟩ := h.record
  rintro ⟨before', room, event, hstarved⟩
  rw [hcut] at hstarved
  obtain ⟨-, hlast⟩ := List.append_inj' hstarved rfl
  cases hlast

/-- Behind the write that cuts a run a source without end has no part in it. -/
theorem Sink.faultCuts_metered [RawSource σ] [Sink τ] [Sink τ'] [Provident] {x : Exchange σ τ μ}
    (hx : Generous x.sink) (s₀ : τ') (k : Nat) (bytes : List UInt8) (answer : Except IoError Nat)
    {limit limit' : Nat} (hle : limit ≤ limit') :
    FaultCuts (x.metered limit) ((x.facing s₀).metered limit') s₀ k bytes answer where
  compressor c hfaulty := by
    have hcut := (faultCuts (x := x.metered limit) hx s₀ k bytes answer).compressor c hfaulty
    rcases c.metered_cases (x.facing s₀) hle with hstarved | ⟨hresult, htotal, hdeeds⟩
    · exact absurd hstarved hcut.not_starved
    · rw [hresult, htotal, hdeeds]
      exact hcut
  decompressor c hfaulty := by
    have hcut := (faultCuts (x := x.metered limit) hx s₀ k bytes answer).decompressor c hfaulty
    rcases c.metered_cases (x.facing s₀) hle with hstarved | ⟨hresult, htotal, hdeeds⟩
    · exact absurd hstarved hcut.not_starved
    · rw [hresult, htotal, hdeeds]
      exact hcut

/-! ## Runs in front of a faulty sink -/

/--
A sink that fails, or takes too few bytes or too many, cuts a run at that write and changes
nothing before it. So it does where the source has no end, for the reads before that write are
all that the run makes. And whatever the world is like, no write is empty; a compression run writes
its header first and then at most 64 KiB at a time, a decompression run at most 256 KiB.
-/
theorem Sink.fault_cuts_run [Provident] :
    (∀ {σ τ τ' μ : Type} [Source σ] [Sink τ] [Sink τ'] (x : Exchange σ τ μ) (s₀ : τ') (k : Nat)
        (bytes : List UInt8) (answer : Except IoError Nat), Generous x.sink →
      FaultCuts x (x.facing s₀) s₀ k bytes answer) ∧
    (∀ {σ τ τ' μ : Type} [RawSource σ] [Sink τ] [Sink τ'] (x : Exchange σ τ μ) (s₀ : τ') (k : Nat)
        (bytes : List UInt8) (answer : Except IoError Nat) (limit more : Nat), Generous x.sink →
      FaultCuts (x.metered limit) ((x.facing s₀).metered (limit + more)) s₀ k bytes answer) ∧
      ∀ {ω : Type} [Channel ω] (w : ω),
        (∀ c : Compressor ω, c.options.header.toBytes.length = 13 ∧
          (offered (c.deeds w) = [] ∨
            ∃ more, offered (c.deeds w) = c.options.header.toBytes :: more ∧
              ∀ bytes ∈ more, bytes ≠ [] ∧ bytes.length ≤ 65536)) ∧
        ∀ c : Decompressor ω, ∀ bytes ∈ offered (c.deeds w),
          bytes ≠ [] ∧ bytes.length ≤ 262144 := by
  refine ⟨?_, ?_, ?_⟩
  · intro σ τ τ' μ _ _ _ x s₀ k bytes answer hx
    exact faultCuts hx s₀ k bytes answer
  · intro σ τ τ' μ _ _ _ x s₀ k bytes answer limit more hx
    exact faultCuts_metered hx s₀ k bytes answer (Nat.le_add_right limit more)
  · intro ω _ w
    exact ⟨fun c => ⟨Header.length_toBytes _, c.offered_deeds w⟩, fun c => c.offered_deeds w⟩

theorem ScriptedSink.generous {s : ScriptedSink} (h : s.rules = []) : Sink.Generous s := by
  intro buffers
  induction buffers generalizing s with
  | nil => rfl
  | cons bytes buffers ih =>
      have hwrite := ScriptedSink.write_plain h bytes
      rw [Sink.pass_cons (by rw [hwrite]; exact if_pos rfl), hwrite]
      exact ih h

theorem Record.length_accepted_le (ds : List Deed) :
    (accepted ds).length ≤ (offered ds).flatten.length := by
  induction ds with
  | nil => exact Nat.le_refl _
  | cons d ds ih =>
      have hd : d.accepted.length ≤ d.offered.flatten.length := by
        cases d with
        | write bytes answer =>
            cases answer with
            | error e => exact Nat.zero_le _
            | ok count =>
                simp only [Deed.accepted, Deed.offered, List.flatten_singleton]
                split
                · exact Nat.le_refl _
                · exact Nat.zero_le _
        | _ => exact Nat.le_refl _
      show (d.accepted ++ accepted ds).length ≤ (d.offered ++ offered ds).flatten.length
      rw [List.flatten_append, List.length_append, List.length_append]
      exact Nat.add_le_add hd ih

/--
A sink that takes the header and one byte too few of what comes next, and one that takes too few
bytes of the header that is written for a source without end.
-/
theorem Sink.fault_cuts_run_after_header :
    let c : Compressor Unit := { options := { lc := 0, lp := 0, pb := 0, dictSize := 4096 } }
    let x : Exchange ScriptedSource ScriptedSink Unit := Exchange.ofBytes 2 [] ()
    let s₀ : ScriptedSink := { rules := [(1, .short 1)] }
    ∃ bytes, Generous x.sink ∧
      Misbehaves s₀ (offered (c.within.deeds x)) 1 bytes (.ok (bytes.length - 1)) ∧
      Record.CutAt (c.within.deeds x) (c.within.deeds (x.facing s₀)) 1 bytes
        (.ok (bytes.length - 1)) .compressionFailed (c.within.run (x.facing s₀)).1
        (c.within.run (x.facing s₀)).2.1.totalOut ∧
    let y : Exchange Forever ScriptedSink Unit := { source := ⟨7⟩, sink := {}, memory := () }
    let s₁ : ScriptedSink := { rules := [(0, .short 1)] }
    Misbehaves s₁ (offered (c.within.deeds (y.metered 0))) 0 c.options.header.toBytes (.ok 12) ∧
      ∀ more, Record.CutAt (c.within.deeds (y.metered 0))
        (c.within.deeds ((y.facing s₁).metered (0 + more))) 0 c.options.header.toBytes (.ok 12)
        .compressionFailed (c.within.run ((y.facing s₁).metered (0 + more))).1
        (c.within.run ((y.facing s₁).metered (0 + more))).2.1.totalOut := by
  intro c x s₀
  have hgenerous : Generous x.sink := ScriptedSink.generous rfl
  have hlong : 13 < (offered (c.within.deeds x)).flatten.length := by
    refine Nat.lt_of_lt_of_le ?_ (Record.length_accepted_le _)
    rw [Compressor.length_accepted (c := c.within) rfl Allocator.grants_standard
      ⟨by decide, by decide, by decide⟩ rfl (Exchange.scene_ofBytes 2 [] () (by decide))]
    show 13 < (c.options.stream []).length
    decide +kernel
  rcases Compressor.offered_deeds c.within x with hnil | ⟨_ | ⟨bytes, more⟩, hoffered, hmore⟩
  · rw [hnil] at hlong
    exact absurd hlong (by decide)
  · rw [hoffered] at hlong
    exact absurd hlong (by decide)
  · have hne := (hmore bytes List.mem_cons_self).1
    have hmisbehaves :
        Misbehaves s₀ (offered (c.within.deeds x)) 1 bytes (.ok (bytes.length - 1)) := by
      rw [hoffered]
      refine ⟨rfl, ⟨_, rfl, rfl⟩, ?_⟩
      have hlength := List.length_pos_iff.mpr hne
      intro heq
      have hcount : bytes.length - 1 = bytes.length := Except.ok.inj heq
      omega
    refine ⟨bytes, hgenerous, hmisbehaves,
      (fault_cuts_run.1 x s₀ 1 bytes _ hgenerous).compressor c hmisbehaves, ?_⟩
    intro y s₁
    have hfirst : Misbehaves s₁ (offered (c.within.deeds (y.metered 0))) 0
        c.options.header.toBytes (.ok 12) := by
      refine ⟨by decide +kernel, ⟨s₁, rfl, rfl⟩, ?_⟩
      intro heq
      exact absurd (Except.ok.inj heq) (by decide)
    exact ⟨hfirst, fun more =>
      (fault_cuts_run.2.1 y s₁ 0 _ _ 0 more (ScriptedSink.generous rfl)).compressor c hfirst⟩

end Lzma
