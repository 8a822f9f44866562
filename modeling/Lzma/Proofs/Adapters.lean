import Lzma.Proofs.SinkFault

/-!
# Readers and writers make no difference

A reader that is interrupted is called again, so a run over it is the run over the source that
gives the same without the interruptions. For this the two are followed call by call: an
interruption leaves the source where it is, and any other answer is one of both
(`Reader.Direct`). The relation is a parameter, since what lies behind a reader may be anything.

A writer that takes its buffers in parts is compared with a sink that takes them whole. A
`Logged` writer writes down its calls, and the log tells which of two things has happened. If
no call in it has failed, then all that was offered is stored and the runs come to the same.
Otherwise it is the last call that has failed, the buffer that it belongs to is the first that
does not count, and what is stored of that buffer is a beginning of it. Both are read off the
dichotomy for sinks (`Compressor.within_cases`), of which a writer is one more.
-/

namespace Lzma

variable {σ σ' τ τ' μ ρ υ : Type}

/-! ## Worlds whose parts answer alike -/

/-- Two worlds with related sources and sinks, and the same besides. -/
structure Exchange.Matches (S : σ → σ' → Prop) (T : τ → τ' → Prop) (x : Exchange σ τ μ)
    (x' : Exchange σ' τ' μ) : Prop where
  source : S x.source x'.source
  sink : T x.sink x'.sink
  memory : x.memory = x'.memory
  events : x.events = x'.events

/-- Two runs with one result and one state of the handle, in worlds that match. -/
structure Compressor.Matches (S : σ → σ' → Prop) (T : τ → τ' → Prop)
    (p : Except Error Unit × Compressor (Exchange σ τ μ) × Exchange σ τ μ)
    (p' : Except Error Unit × Compressor (Exchange σ' τ' μ) × Exchange σ' τ' μ) : Prop where
  result : p.1 = p'.1
  handle : p.2.1.Agrees p'.2.1
  world : p.2.2.Matches S T p'.2.2

structure Decompressor.Matches (S : σ → σ' → Prop) (T : τ → τ' → Prop)
    (p : Except Error Unit × Decompressor (Exchange σ τ μ) × Exchange σ τ μ)
    (p' : Except Error Unit × Decompressor (Exchange σ' τ' μ) × Exchange σ' τ' μ) : Prop where
  result : p.1 = p'.1
  handle : p.2.1.Agrees p'.2.1
  world : p.2.2.Matches S T p'.2.2

section

variable [Source σ] [Source σ'] [Sink τ] [Sink τ'] [Provident]
variable {S : σ → σ' → Prop} {T : τ → τ' → Prop} {x : Exchange σ τ μ} {x' : Exchange σ' τ' μ}

omit [Provident] in
theorem Exchange.channel_alike
    (hS : ∀ room s s', S s s' → Same S (Source.read room s) (Source.read room s'))
    (hT : ∀ bytes t t', T t t' → Same T (Sink.write bytes t) (Sink.write bytes t')) :
    Channel.Alike (Matches (μ := μ) S T) where
  note event x x' h := { h with events := congrArg (event :: ·) h.events }
  read room x x' h := by
    obtain ⟨hanswer, hsource⟩ := hS room _ _ h.source
    exact ⟨hanswer, hsource, h.sink, h.memory, h.events⟩
  write bytes x x' h := by
    obtain ⟨hanswer, hsink⟩ := hT bytes _ _ h.sink
    exact ⟨hanswer, h.source, hsink, h.memory, h.events⟩

omit [Source σ] [Source σ'] [Sink τ] [Sink τ'] [Provident] in
theorem Exchange.inMemory_alike (a : Allocator μ) :
    (a.inMemory : Allocator (Exchange σ τ μ)).Lockstep (Matches S T) Never a.inMemory := by
  refine Allocator.lockstep_of_alike ?_ ?_ ?_
  · intro event x x' h
    exact { h with events := congrArg (event :: ·) h.events }
  · rintro size ⟨source, sink, memory, events⟩ ⟨source', sink', _, _⟩ ⟨hsource, hsink, rfl, rfl⟩
    exact ⟨rfl, hsource, hsink, rfl, rfl⟩
  · rintro buffer ⟨source, sink, memory, events⟩ ⟨source', sink', _, _⟩ ⟨hsource, hsink, rfl, rfl⟩
    exact ⟨hsource, hsink, rfl, rfl⟩

theorem Compressor.within_matches (c : Compressor μ)
    (hS : ∀ room s s', S s s' → Same S (Source.read room s) (Source.read room s'))
    (hT : ∀ bytes t t', T t t' → Same T (Sink.write bytes t) (Sink.write bytes t'))
    (hx : x.Matches S T x') : Matches S T (c.within.run x) (c.within.run x') := by
  have halike : c.within.Lockstep (Exchange.Matches S T) Never c.within :=
    ⟨⟨rfl, rfl, rfl, rfl⟩, Exchange.inMemory_alike c.allocator⟩
  obtain ⟨hresult, hhandle, hworld⟩ := run_alike (Exchange.channel_alike hS hT) halike hx
  exact ⟨hresult, hhandle.toAgrees, hworld⟩

theorem Decompressor.within_matches (c : Decompressor μ)
    (hS : ∀ room s s', S s s' → Same S (Source.read room s) (Source.read room s'))
    (hT : ∀ bytes t t', T t t' → Same T (Sink.write bytes t) (Sink.write bytes t'))
    (hx : x.Matches S T x') : Matches S T (c.within.run x) (c.within.run x') := by
  have halike : c.within.Lockstep (Exchange.Matches S T) Never c.within :=
    ⟨⟨rfl, rfl, rfl, rfl⟩, Exchange.inMemory_alike c.allocator⟩
  obtain ⟨hresult, hhandle, hworld⟩ := run_alike (Exchange.channel_alike hS hT) halike hx
  exact ⟨hresult, hhandle.toAgrees, hworld⟩

end

/-! ## Readers -/

/-- A source that gives what a reader gives, without the interruptions. -/
structure Reader.Direct [Reader ρ] [Source σ] (S : ρ → σ → Prop) : Prop where
  interrupted {room : Nat} {r : ρ} {s : σ} {e : IoError} : S r s → (read room r).1 = .error e →
    e.kind = .interrupted → S (read room r).2 s
  answered (room : Nat) {r : ρ} {s : σ} : S r s →
    (∀ e, (read room r).1 = .error e → e.kind ≠ .interrupted) →
    Same S (read room r) (Source.read room s)

theorem Retrying.read_direct [Reader ρ] [Source σ] {S : ρ → σ → Prop} (hS : Reader.Direct S)
    (room : Nat) {r : ρ} {s : σ} (h : S r s) : Same S (read room r) (Source.read room s) := by
  fun_induction read room r with
  | case1 r answer r' hread =>
      have hsame := hS.answered room h (by rw [hread]; rintro e ⟨⟩)
      rwa [hread] at hsame
  | case2 r e r' hread hkind ih =>
      have hnext := hS.interrupted h (congrArg Prod.fst hread) hkind
      rw [hread] at hnext
      exact ih hnext
  | case3 r e r' hread hkind =>
      have hsame := hS.answered room h (by rw [hread]; rintro e ⟨⟩; exact hkind)
      rwa [hread] at hsame

/-! ## Writers -/

namespace Whole

variable [Writer υ] {s : Whole υ} {bytes : List UInt8}

theorem of_verdict_ok (h : writeVerdict bytes (Sink.write bytes s).1 = .ok ()) :
    write bytes s.writer = (.ok (), (Sink.write bytes s).2.writer) := by
  simp only [Sink.write] at h ⊢
  split at h <;> rename_i hwrite
  · rw [hwrite]
  · cases h

theorem of_verdict_error {e : Error}
    (h : writeVerdict bytes (Sink.write bytes s).1 = .error e) :
    ∃ cause, write bytes s.writer = (.error cause, (Sink.write bytes s).2.writer) ∧
      e = .output bytes.length 0 (some cause) := by
  simp only [Sink.write] at h ⊢
  split at h <;> rename_i hwrite
  · rw [writeVerdict, if_pos rfl] at h
    cases h
  · cases h
    exact ⟨_, by rw [hwrite], rfl⟩

theorem keeps_write {J : υ → Prop} (hJ : ∀ bytes u, bytes ≠ [] → J u → J (Writer.write bytes u).2)
    (bytes : List UInt8) {u : υ} (hu : J u) : J (write bytes u).2 := by
  have hstep {bytes : List UInt8} {u u' : υ} {answer : Except IoError Nat} (hne : bytes ≠ [])
      (hu : J u) (hwrite : Writer.write bytes u = (answer, u')) : J u' := by
    have hnext := hJ bytes u hne hu
    rwa [hwrite] at hnext
  fun_induction write bytes u with
  | case1 u => exact hu
  | case2 bytes u hne u₁ hwrite => exact hstep hne hu hwrite
  | case3 bytes u hne count u₁ hwrite hcount ih => exact ih (hstep hne hu hwrite)
  | case4 bytes u hne e u₁ hwrite hkind ih => exact ih (hstep hne hu hwrite)
  | case5 bytes u hne e u₁ hwrite hkind => exact hstep hne hu hwrite

end Whole

/-- What the calls of a writer keep, a run keeps. -/
theorem Exchange.keeps_writer [Source σ] [Writer υ] {J : υ → Prop}
    (hJ : ∀ bytes u, bytes ≠ [] → J u → J (Writer.write bytes u).2) :
    Channel.Keeps fun x : Exchange σ (Whole υ) μ => J x.sink.writer where
  note _ _ h := h
  read _ _ h := h
  write bytes x h := by
    have hwrite := Whole.keeps_write hJ bytes h
    simp only [Channel.write, Sink.write]
    generalize Whole.write bytes x.sink.writer = p at hwrite ⊢
    obtain ⟨_ | _, u⟩ := p <;> exact hwrite

structure WriterCall where
  bytes : List UInt8
  answer : Except IoError Nat

namespace WriterCall

def stored (call : WriterCall) : List UInt8 :=
  match call.answer with
  | .ok count => call.bytes.take count
  | .error _ => []

/-- The error that a write ends with at such a call, if it does. -/
def failure (call : WriterCall) : Option IoError :=
  match call.answer with
  | .ok count => if count = 0 then some .writeStalled else none
  | .error e => if e.kind = .interrupted then none else some e

end WriterCall

/-- A writer that takes something of each offer or is interrupted, now and later on. -/
structure Writer.Steady [Writer υ] (G : υ → Prop) : Prop where
  call {bytes : List UInt8} {u : υ} : bytes ≠ [] → G u →
    WriterCall.failure ⟨bytes, (write bytes u).1⟩ = none ∧ G (write bytes u).2

/-- A writer with a log of the calls that were made of it, the earliest call first. -/
structure Logged (υ : Type) where
  writer : υ
  calls : List WriterCall := []

namespace Logged

instance [Writer υ] : Writer (Logged υ) where
  write bytes x :=
    let (answer, writer) := Writer.write bytes x.writer
    (answer, ⟨writer, x.calls ++ [⟨bytes, answer⟩]⟩)
  count_write_le h := Writer.count_write_le h
  credit x := Writer.credit x.writer
  credit_write_le bytes x := Writer.credit_write_le bytes x.writer
  credit_interrupted_lt := Writer.credit_interrupted_lt

def stored (calls : List WriterCall) : List UInt8 := calls.flatMap WriterCall.stored

def Unfailing (calls : List WriterCall) : Prop := ∀ call ∈ calls, call.failure = none

variable [Writer υ] {x x' : Logged υ} {bytes : List UInt8}

theorem write_eq (bytes : List UInt8) (x : Logged υ) :
    Writer.write bytes x = ((Writer.write bytes x.writer).1,
      ⟨(Writer.write bytes x.writer).2,
        x.calls ++ [⟨bytes, (Writer.write bytes x.writer).1⟩]⟩) :=
  rfl

theorem of_write {answer : Except IoError Nat} (h : Writer.write bytes x = (answer, x')) :
    x'.calls = x.calls ++ [⟨bytes, answer⟩] := by
  cases h
  rfl

theorem write_ok (h : Whole.write bytes x = (.ok (), x')) :
    ∃ new, x'.calls = x.calls ++ new ∧ Unfailing new ∧ stored new = bytes := by
  fun_induction Whole.write bytes x with
  | case1 x =>
      cases h
      exact ⟨[], (List.append_nil _).symm, by simp [Unfailing], rfl⟩
  | case2 bytes x hne x₁ hwrite => cases h
  | case3 bytes x hne count x₁ hwrite hcount ih =>
      obtain ⟨new, hnew, hfine, hstored⟩ := ih h
      refine ⟨⟨bytes, .ok count⟩ :: new, ?_, ?_, ?_⟩
      · rw [hnew, of_write hwrite, List.append_assoc]
        rfl
      · exact List.forall_mem_cons.mpr ⟨if_neg hcount, hfine⟩
      · show bytes.take count ++ stored new = bytes
        rw [hstored, List.take_append_drop]
  | case4 bytes x hne e x₁ hwrite hkind ih =>
      obtain ⟨new, hnew, hfine, hstored⟩ := ih h
      refine ⟨⟨bytes, .error e⟩ :: new, ?_, ?_, ?_⟩
      · rw [hnew, of_write hwrite, List.append_assoc]
        rfl
      · exact List.forall_mem_cons.mpr ⟨if_pos hkind, hfine⟩
      · exact hstored
  | case5 bytes x hne e x₁ hwrite hkind => cases h

/-- A write that fails does so at its last call, with some of its buffer left. -/
theorem write_error {e : IoError} (h : Whole.write bytes x = (.error e, x')) :
    ∃ fine last rest, x'.calls = x.calls ++ (fine ++ [last]) ∧ Unfailing fine ∧
      last.failure = some e ∧ stored (fine ++ [last]) ++ rest = bytes ∧ rest ≠ [] := by
  fun_induction Whole.write bytes x with
  | case1 x => cases h
  | case2 bytes x hne x₁ hwrite =>
      cases h
      exact ⟨[], ⟨bytes, .ok 0⟩, bytes, of_write hwrite, by simp [Unfailing], rfl, rfl, hne⟩
  | case3 bytes x hne count x₁ hwrite hcount ih =>
      obtain ⟨fine, last, rest, hcalls, hfine, hlast, hstored, hrest⟩ := ih h
      refine ⟨⟨bytes, .ok count⟩ :: fine, last, rest, ?_, ?_, hlast, ?_, hrest⟩
      · rw [hcalls, of_write hwrite, List.append_assoc]
        rfl
      · exact List.forall_mem_cons.mpr ⟨if_neg hcount, hfine⟩
      · show bytes.take count ++ stored (fine ++ [last]) ++ rest = bytes
        rw [List.append_assoc, hstored, List.take_append_drop]
  | case4 bytes x hne e' x₁ hwrite hkind ih =>
      obtain ⟨fine, last, rest, hcalls, hfine, hlast, hstored, hrest⟩ := ih h
      refine ⟨⟨bytes, .error e'⟩ :: fine, last, rest, ?_, ?_, hlast, hstored, hrest⟩
      · rw [hcalls, of_write hwrite, List.append_assoc]
        rfl
      · exact List.forall_mem_cons.mpr ⟨if_pos hkind, hfine⟩
  | case5 bytes x hne e' x₁ hwrite hkind =>
      cases h
      exact ⟨[], ⟨bytes, .error e⟩, bytes, of_write hwrite, by simp [Unfailing], if_neg hkind, rfl,
        hne⟩

theorem writer_of_write {answer : Except IoError Nat} (h : Writer.write bytes x = (answer, x')) :
    Writer.write bytes x.writer = (answer, x'.writer) := by
  cases h
  rfl

/-- The log has no part in what a writer does. -/
theorem write_writer (bytes : List UInt8) (x : Logged υ) :
    Whole.write bytes x.writer = ((Whole.write bytes x).1, (Whole.write bytes x).2.writer) := by
  fun_induction Whole.write bytes x with
  | case1 x => rw [Whole.write, dif_pos rfl]
  | case2 bytes x hne x₁ hwrite =>
      rw [Whole.write, dif_neg hne]
      split <;> rename_i heq <;> rw [writer_of_write hwrite] at heq <;> cases heq
      rfl
  | case3 bytes x hne count x₁ hwrite hcount ih =>
      rw [Whole.write, dif_neg hne]
      split <;> rename_i heq <;> rw [writer_of_write hwrite] at heq <;> cases heq
      rw [dif_neg hcount]
      exact ih
  | case4 bytes x hne e x₁ hwrite hkind ih =>
      rw [Whole.write, dif_neg hne]
      split <;> rename_i heq <;> rw [writer_of_write hwrite] at heq <;> cases heq
      rw [dif_pos hkind]
      exact ih
  | case5 bytes x hne e x₁ hwrite hkind =>
      rw [Whole.write, dif_neg hne]
      split <;> rename_i heq <;> rw [writer_of_write hwrite] at heq <;> cases heq
      rw [dif_neg hkind]

theorem sink_alike (bytes : List UInt8) (s : Whole (Logged υ)) (s' : Whole υ)
    (h : s.writer.writer = s'.writer) :
    Same (fun (s : Whole (Logged υ)) (s' : Whole υ) => s.writer.writer = s'.writer)
      (Sink.write bytes s) (Sink.write bytes s') := by
  have hwrite := write_writer bytes s.writer
  rw [h] at hwrite
  simp only [Sink.write, hwrite]
  rcases Whole.write bytes s.writer with ⟨_ | _, x⟩ <;> exact ⟨rfl, rfl⟩

/-- Buffers that were taken are stored. -/
theorem of_pass {buffers : List (List UInt8)} {s s' : Whole (Logged υ)}
    (h : Sink.pass buffers s = some s') :
    ∃ new, s'.writer.calls = s.writer.calls ++ new ∧ Unfailing new ∧
      stored new = buffers.flatten := by
  induction buffers generalizing s with
  | nil =>
      cases h
      exact ⟨[], (List.append_nil _).symm, by simp [Unfailing], rfl⟩
  | cons bytes buffers ih =>
      rw [Sink.pass] at h
      split at h
      · next hverdict =>
          obtain ⟨first, hfirst, hfine, hstored⟩ := write_ok (Whole.of_verdict_ok hverdict)
          obtain ⟨new, hnew, hfine', hstored'⟩ := ih h
          refine ⟨first ++ new, ?_, List.forall_mem_append.mpr ⟨hfine, hfine'⟩, ?_⟩
          · rw [hnew, hfirst, List.append_assoc]
          · rw [stored, List.flatMap_append, List.flatten_cons, ← hstored, ← hstored']
            rfl
      · cases h

/-- A buffer that was not taken was stored in part, and the last call of all tells why. -/
theorem of_fault {buffers : List (List UInt8)} {writer : υ} {s : Whole (Logged υ)} {e : Error}
    (hpass : Sink.pass buffers (⟨{ writer }⟩ : Whole (Logged υ)) = some s)
    (hfault : writeVerdict bytes (Sink.write bytes s).1 = .error e) :
    ∃ fine last cause part, (Sink.write bytes s).2.writer.calls = fine ++ [last] ∧
      Unfailing fine ∧ last.failure = some cause ∧ e = .output bytes.length 0 (some cause) ∧
      stored (fine ++ [last]) = buffers.flatten ++ part ∧ part <+: bytes ∧ part ≠ bytes := by
  obtain ⟨before, hbefore, hfine, hstored⟩ := of_pass hpass
  obtain ⟨cause, hwrite, rfl⟩ := Whole.of_verdict_error hfault
  obtain ⟨fine, last, rest, hcalls, hfine', hlast, hpart, hrest⟩ := write_error hwrite
  refine ⟨before ++ fine, last, cause, stored (fine ++ [last]), ?_,
    List.forall_mem_append.mpr ⟨hfine, hfine'⟩, hlast, rfl, ?_, ⟨rest, hpart⟩, ?_⟩
  · rw [hcalls, hbefore, List.append_assoc before]
    rfl
  · rw [List.append_assoc, ← hstored]
    exact List.flatMap_append
  · intro hall
    rw [hall] at hpart
    exact hrest (List.append_right_eq_self.mp hpart)

/-- A log with a failure at its end has no other one. -/
theorem failure_unique {fine : List WriterCall} {last call : WriterCall} {cause e : IoError}
    (hfine : Unfailing fine) (hlast : last.failure = some cause) (hmem : call ∈ fine ++ [last])
    (h : call.failure = some e) : cause = e := by
  rcases List.mem_append.mp hmem with hmem | hmem
  · rw [hfine call hmem] at h
    cases h
  · obtain rfl := List.mem_singleton.mp hmem
    exact Option.some.inj (hlast.symm.trans h)

end Logged

/-! ## Runs over readers and writers -/

/-- The same world with a writer for its sink, and a log of the calls. -/
def Exchange.logging (x : Exchange σ τ μ) (writer : υ) : Exchange σ (Whole (Logged υ)) μ :=
  x.facing ⟨{ writer }⟩

/--
What is left of a run that a writer has stopped with an error `e`. Of the buffers that would
have been offered, some were stored, and of the next one a part.
-/
structure Writer.Stopped (offers : List (List UInt8)) (e : IoError) (result : Except Error Unit)
    (totalOut : Nat) (stored : List UInt8) : Prop where
  buffer : ∃ before bytes after part, offers = before ++ bytes :: after ∧
    result = .error (.output bytes.length 0 (some e)) ∧ totalOut = before.flatten.length ∧
    stored = before.flatten ++ part ∧ part <+: bytes ∧ part ≠ bytes

open Record

section

variable [Source σ] [Sink τ] [Writer υ] [Provident]

/-- A run over a writer, as the log of the writer tells it. -/
structure Compressor.WrittenBy (c : Compressor μ) (x : Exchange σ τ μ) (writer : υ) : Prop where
  logged : Matches Eq (fun (s : Whole (Logged υ)) s' => s.writer.writer = s'.writer)
    (c.within.run (x.logging writer)) (c.within.run (x.facing (⟨writer⟩ : Whole υ)))
  whole : Logged.Unfailing (c.within.run (x.logging writer)).2.2.sink.writer.calls →
    Matches Eq (fun s _ => Logged.stored s.writer.calls = accepted (c.within.deeds x))
      (c.within.run (x.logging writer)) (c.within.run x)
  steady {G : υ → Prop} : Writer.Steady G → G writer →
    Logged.Unfailing (c.within.run (x.logging writer)).2.2.sink.writer.calls
  stopped : ∀ call ∈ (c.within.run (x.logging writer)).2.2.sink.writer.calls, ∀ e,
    call.failure = some e →
      (c.within.run (x.logging writer)).2.1.state = .failed ∧
      Writer.Stopped (offered (c.within.deeds x)) e (c.within.run (x.logging writer)).1
        (c.within.run (x.logging writer)).2.1.totalOut
        (Logged.stored (c.within.run (x.logging writer)).2.2.sink.writer.calls)

structure Decompressor.WrittenBy (c : Decompressor μ) (x : Exchange σ τ μ) (writer : υ) :
    Prop where
  logged : Matches Eq (fun (s : Whole (Logged υ)) s' => s.writer.writer = s'.writer)
    (c.within.run (x.logging writer)) (c.within.run (x.facing (⟨writer⟩ : Whole υ)))
  whole : Logged.Unfailing (c.within.run (x.logging writer)).2.2.sink.writer.calls →
    Matches Eq (fun s _ => Logged.stored s.writer.calls = accepted (c.within.deeds x))
      (c.within.run (x.logging writer)) (c.within.run x)
  steady {G : υ → Prop} : Writer.Steady G → G writer →
    Logged.Unfailing (c.within.run (x.logging writer)).2.2.sink.writer.calls
  stopped : ∀ call ∈ (c.within.run (x.logging writer)).2.2.sink.writer.calls, ∀ e,
    call.failure = some e →
      (c.within.run (x.logging writer)).2.1.state = .failed ∧
      Writer.Stopped (offered (c.within.deeds x)) e (c.within.run (x.logging writer)).1
        (c.within.run (x.logging writer)).2.1.totalOut
        (Logged.stored (c.within.run (x.logging writer)).2.2.sink.writer.calls)

variable {x : Exchange σ τ μ}

omit [Source σ] [Sink τ] [Provident] in
theorem Logged.steady {G : υ → Prop} (hG : Writer.Steady G) (bytes : List UInt8) (u : Logged υ)
    (hne : bytes ≠ []) (h : G u.writer ∧ Unfailing u.calls) :
    G (Writer.write bytes u).2.writer ∧ Unfailing (Writer.write bytes u).2.calls := by
  obtain ⟨hnone, hnext⟩ := hG.call hne h.1
  exact ⟨hnext, List.forall_mem_append.mpr ⟨h.2, List.forall_mem_singleton.mpr hnone⟩⟩

omit [Sink τ] in
/-- What the calls of a writer keep holds of the log of a run. -/
theorem Compressor.keeps_logging (c : Compressor μ) {J : Logged υ → Prop}
    (hJ : ∀ bytes u, bytes ≠ [] → J u → J (Writer.write bytes u).2) {writer : υ}
    (hwriter : J { writer }) : J (c.within.run (x.logging writer)).2.2.sink.writer :=
  keeps_run (c := c.within) (w := x.logging writer) (Exchange.keeps_writer hJ)
    ⟨fun _ h => h, fun _ _ h => h, fun _ _ h => h⟩ hwriter

omit [Sink τ] in
theorem Decompressor.keeps_logging (c : Decompressor μ) {J : Logged υ → Prop}
    (hJ : ∀ bytes u, bytes ≠ [] → J u → J (Writer.write bytes u).2) {writer : υ}
    (hwriter : J { writer }) : J (c.within.run (x.logging writer)).2.2.sink.writer :=
  keeps_run (c := c.within) (w := x.logging writer) (Exchange.keeps_writer hJ)
    ⟨fun _ h => h, fun _ _ h => h, fun _ _ h => h⟩ hwriter

omit [Source σ] [Sink τ] [Provident] in
/-- A log of calls that all went well stores what was offered. -/
theorem Exchange.Passed.logged {full : List Deed} {writer : υ}
    {x' : Exchange σ (Whole (Logged υ)) μ} {x : Exchange σ τ μ}
    (h : Passed (⟨{ writer }⟩ : Whole (Logged υ)) full x' x) :
    Logged.Unfailing x'.sink.writer.calls ∧
      x'.Matches Eq (fun s _ => Logged.stored s.writer.calls = accepted full) x := by
  obtain ⟨new, hnew, hfine, hstored⟩ := Logged.of_pass h.passed
  have hcalls : x'.sink.writer.calls = new := hnew
  refine ⟨hcalls ▸ hfine, h.source, ?_, h.memory, h.events⟩
  rw [accepted_of_allTaken h.taken, hcalls, hstored]

omit [Source σ] [Sink τ] [Provident] in
/-- A log of calls of which one has failed tells what the run was stopped with. -/
theorem Record.CutShort.logged {noted : Error → Event} {full cut before after : List Deed}
    {bytes : List UInt8} {e : Error} {writer : υ} {s : Whole (Logged υ)}
    (h : CutShort (⟨{ writer }⟩ : Whole (Logged υ)) noted full cut before after bytes s e) :
    ¬Logged.Unfailing (Sink.write bytes s).2.writer.calls ∧
      ∀ call ∈ (Sink.write bytes s).2.writer.calls, ∀ cause, call.failure = some cause →
        Writer.Stopped (offered full) cause (.error e) (offered before).flatten.length
          (Logged.stored (Sink.write bytes s).2.writer.calls) := by
  obtain ⟨fine, last, cause, part, hcalls, hfine, hlast, rfl, hstored, hpart, hne⟩ :=
    Logged.of_fault h.passed h.fault
  rw [hcalls]
  constructor
  · intro hall
    have hnone := hall last (by simp)
    rw [hlast] at hnone
    cases hnone
  · intro call hcall cause' hfailure
    obtain rfl := Logged.failure_unique hfine hlast hcall hfailure
    refine ⟨offered before, bytes, offered after, part, ?_, rfl, rfl, hstored, hpart, hne⟩
    rw [h.full, offered_append]
    rfl

theorem Compressor.writtenBy (c : Compressor μ) (hx : Sink.Generous x.sink) (writer : υ) :
    c.WrittenBy x writer where
  logged := within_matches c (fun _ _ _ h => h ▸ ⟨rfl, rfl⟩) Logged.sink_alike
    ⟨rfl, rfl, rfl, rfl⟩
  whole hfine := by
    rcases c.within_cases hx (⟨{ writer }⟩ : Whole (Logged υ)) with ⟨hresult, hhandle, hpassed⟩ |
      ⟨e, before, after, bytes, s, hcut, -, -, -, hsink⟩
    · exact ⟨hresult, hhandle, hpassed.logged.2⟩
    · rw [Exchange.logging, hsink] at hfine
      exact absurd hfine hcut.logged.1
  steady hG hwriter :=
    (c.keeps_logging (Logged.steady hG) ⟨hwriter, List.forall_mem_nil _⟩).2
  stopped call hcall cause hfailure := by
    rcases c.within_cases hx (⟨{ writer }⟩ : Whole (Logged υ)) with ⟨-, -, hpassed⟩ |
      ⟨e, before, after, bytes, s, hcut, hresult, hstate, htotal, hsink⟩
    · rw [hpassed.logged.1 call hcall] at hfailure
      cases hfailure
    · rw [Exchange.logging] at hcall ⊢
      rw [hsink] at hcall ⊢
      rw [hresult, htotal]
      exact ⟨hstate, hcut.logged.2 call hcall cause hfailure⟩

theorem Decompressor.writtenBy (c : Decompressor μ) (hx : Sink.Generous x.sink) (writer : υ) :
    c.WrittenBy x writer where
  logged := within_matches c (fun _ _ _ h => h ▸ ⟨rfl, rfl⟩) Logged.sink_alike
    ⟨rfl, rfl, rfl, rfl⟩
  whole hfine := by
    rcases c.within_cases hx (⟨{ writer }⟩ : Whole (Logged υ)) with ⟨hresult, hhandle, hpassed⟩ |
      ⟨e, before, after, bytes, s, hcut, -, -, -, hsink⟩
    · exact ⟨hresult, hhandle, hpassed.logged.2⟩
    · rw [Exchange.logging, hsink] at hfine
      exact absurd hfine hcut.logged.1
  steady hG hwriter :=
    (c.keeps_logging (Logged.steady hG) ⟨hwriter, List.forall_mem_nil _⟩).2
  stopped call hcall cause hfailure := by
    rcases c.within_cases hx (⟨{ writer }⟩ : Whole (Logged υ)) with ⟨-, -, hpassed⟩ |
      ⟨e, before, after, bytes, s, hcut, hresult, hstate, htotal, hsink⟩
    · rw [hpassed.logged.1 call hcall] at hfailure
      cases hfailure
    · rw [Exchange.logging] at hcall ⊢
      rw [hsink] at hcall ⊢
      rw [hresult, htotal]
      exact ⟨hstate, hcut.logged.2 call hcall cause hfailure⟩

end

/-! ## What adapters leave as it was -/

/--
Readers and writers are as good as sources and sinks. A run over a reader is the run over the
source that gives the same without interruptions. A run over a writer whose calls do not fail,
whatever parts they take and however often they are interrupted, is the run over a sink that takes
its buffers whole, and stores the same. And where a call does fail, or takes nothing of what is
left of a buffer, the run is stopped with that error: the buffer does not count, and a part of it
is stored behind all those before it.
-/
theorem adapters_transparent :
    (∀ {ρ σ τ μ : Type} [Reader ρ] [Source σ] [Sink τ] [Provident] (S : ρ → σ → Prop)
        (reader : ρ) (source : σ) (sink : τ) (memory : μ), Reader.Direct S → S reader source →
      (∀ c : Compressor μ, Compressor.Matches (fun r s => S r.reader s) Eq
        (c.within.run { source := (⟨reader⟩ : Retrying ρ), sink, memory })
        (c.within.run { source, sink, memory })) ∧
      ∀ c : Decompressor μ, Decompressor.Matches (fun r s => S r.reader s) Eq
        (c.within.run { source := (⟨reader⟩ : Retrying ρ), sink, memory })
        (c.within.run { source, sink, memory })) ∧
      ∀ {σ τ υ μ : Type} [Source σ] [Sink τ] [Writer υ] [Provident] (x : Exchange σ τ μ)
        (writer : υ), Sink.Generous x.sink →
        (∀ c : Compressor μ, c.WrittenBy x writer) ∧
          ∀ c : Decompressor μ, c.WrittenBy x writer := by
  constructor
  · intro ρ σ τ μ _ _ _ _ S reader source sink memory hS h
    have hread (room : Nat) (r : Retrying ρ) (s : σ) (hr : S r.reader s) :
        Same (fun (r : Retrying ρ) s => S r.reader s) (Source.read room r) (Source.read room s) :=
      Retrying.read_direct hS room hr
    constructor
    · intro c
      exact c.within_matches hread (fun _ _ _ h => h ▸ ⟨rfl, rfl⟩) ⟨h, rfl, rfl, rfl⟩
    · intro c
      exact c.within_matches hread (fun _ _ _ h => h ▸ ⟨rfl, rfl⟩) ⟨h, rfl, rfl, rfl⟩
  · intro σ τ υ μ _ _ _ _ x writer hx
    exact ⟨fun c => c.writtenBy hx writer, fun c => c.writtenBy hx writer⟩

/-- A script without its interruptions. -/
def ReadStep.calm (steps : List ReadStep) : List ReadStep :=
  steps.filter fun
    | .failure e => e.kind != .interrupted
    | _ => true

theorem ScriptedSource.direct :
    Reader.Direct fun r s : ScriptedSource => s.steps = ReadStep.calm r.steps where
  interrupted {room r s e} h hread hkind := by
    obtain ⟨_ | ⟨_ | _ | e' | _, steps⟩, log⟩ := r <;> cases hread
    rw [h, ReadStep.calm, List.filter_cons_of_neg (by simp [hkind])]
    rfl
  answered room {r s} h hread := by
    obtain ⟨steps, log⟩ := r
    obtain ⟨_, log'⟩ := s
    obtain rfl := h
    cases steps with
    | nil => exact ⟨rfl, rfl⟩
    | cons step steps =>
        cases step with
        | bytes chunk =>
            refine ⟨rfl, ?_⟩
            show (if _ then _ else _) = ReadStep.calm (if _ then _ else _)
            split <;> rfl
        | ended => exact ⟨rfl, rfl⟩
        | overReport excess => exact ⟨rfl, rfl⟩
        | failure e =>
            have hkind : (e.kind != .interrupted) = true := bne_iff_ne.mpr (hread e rfl)
            have hcalm : ReadStep.calm (.failure e :: steps) = .failure e :: ReadStep.calm steps :=
              List.filter_cons_of_pos hkind
            dsimp only
            rw [hcalm]
            exact ⟨rfl, rfl⟩

/-- Every rule is an interruption, and where there is none the writer takes something. -/
theorem ScriptedSink.steady :
    Writer.Steady fun s : ScriptedSink =>
      (∀ rule ∈ s.rules, ∃ e, rule.2 = .failure e ∧ e.kind = .interrupted) ∧ s.limit ≠ some 0 where
  call {bytes s} hne h := by
    obtain ⟨hrules, hlimit⟩ := h
    cases hrule : s.rule with
    | some rule =>
        obtain ⟨before, after, hsplit, -⟩ := List.lookup_eq_some_iff.mp hrule
        obtain ⟨e, rfl, hkind⟩ : ∃ e, rule = .failure e ∧ e.kind = .interrupted :=
          hrules (s.calls, rule) (by rw [hsplit]; simp)
        simp only [Writer.write, writeSome, hrule]
        exact ⟨if_pos hkind, hrules, hlimit⟩
    | none =>
        simp only [Writer.write, writeSome, hrule]
        refine ⟨if_neg ?_, hrules, hlimit⟩
        have hlength := List.length_pos_iff.mpr hne
        cases hsome : s.limit with
        | none => simpa using hne
        | some limit =>
            have hpos : limit ≠ 0 := by
              rintro rfl
              exact hlimit hsome
            simp only [Option.getD_some]
            omega

theorem ScriptedSink.write_full {s : ScriptedSink} (h : s.rules = [] ∧ s.limit = some 0)
    (bytes : List UInt8) : Writer.write bytes s = s.took bytes 0 := by
  have hrule : s.rule = none := by
    rw [rule, h.1]
    rfl
  simp only [Writer.write, writeSome, hrule, h.2, Option.getD_some, Nat.zero_min]

/-- A reader that is interrupted, a writer that is and takes little, and one that takes nothing. -/
theorem adapters_transparent_of_scripts :
    let interrupted : IoError := .ofKind .interrupted
    let reader : ScriptedSource := { steps := [.bytes [97, 98], .failure interrupted, .bytes [97]] }
    let source : ScriptedSource := { steps := ReadStep.calm reader.steps }
    let x : Exchange ScriptedSource ScriptedSink Unit := { source, sink := {}, memory := () }
    let patient : ScriptedSink := { rules := [(1, .failure interrupted)], limit := some 5 }
    let full : ScriptedSink := { limit := some 0 }
    let c : Compressor Unit := {}
    Compressor.Matches (fun r s => s.steps = ReadStep.calm r.reader.steps) Eq
        (c.within.run
          { source := (⟨reader⟩ : Retrying ScriptedSource), sink := x.sink, memory := () })
        (c.within.run x) ∧
      Compressor.Matches Eq
        (fun s _ => Logged.stored s.writer.calls = accepted (c.within.deeds x))
        (c.within.run (x.logging patient)) (c.within.run x) ∧
      Writer.Stopped (offered (c.within.deeds x)) .writeStalled (c.within.run (x.logging full)).1
        (c.within.run (x.logging full)).2.1.totalOut
        (Logged.stored (c.within.run (x.logging full)).2.2.sink.writer.calls) := by
  intro interrupted reader source x patient full c
  have hx : Sink.Generous x.sink := ScriptedSink.generous rfl
  have hpatient := (adapters_transparent.2 x patient hx).1 c
  have hfull := (adapters_transparent.2 x full hx).1 c
  refine ⟨(adapters_transparent.1 _ reader source x.sink () ScriptedSource.direct rfl).1 c,
    hpatient.whole (hpatient.steady ScriptedSink.steady ?_), ?_⟩
  · simp [patient, interrupted, IoError.ofKind]
  · have hstalls (bytes : List UInt8) (u : Logged ScriptedSink) (_ : bytes ≠ [])
        (h : (u.writer.rules = [] ∧ u.writer.limit = some 0) ∧
          ∀ call ∈ u.calls, call.failure = some .writeStalled) :
        ((Writer.write bytes u).2.writer.rules = [] ∧
            (Writer.write bytes u).2.writer.limit = some 0) ∧
          ∀ call ∈ (Writer.write bytes u).2.calls, call.failure = some .writeStalled := by
      rw [Logged.write_eq, ScriptedSink.write_full h.1]
      exact ⟨h.1, List.forall_mem_append.mpr ⟨h.2, List.forall_mem_singleton.mpr rfl⟩⟩
    cases hcalls : (c.within.run (x.logging full)).2.2.sink.writer.calls with
    | cons call rest =>
        have hmem : call ∈ (c.within.run (x.logging full)).2.2.sink.writer.calls := by
          rw [hcalls]
          exact List.mem_cons_self
        have hall := (c.keeps_logging hstalls ⟨⟨rfl, rfl⟩, List.forall_mem_nil _⟩).2 call hmem
        have hstopped := (hfull.stopped call hmem _ hall).2
        rwa [hcalls] at hstopped
    | nil =>
        have hnothing := (hfull.whole (by rw [hcalls]; exact List.forall_mem_nil _)).world.sink
        have hlength := Compressor.length_accepted (c := c.within) (w := x) rfl
          Allocator.grants_standard ⟨by decide, by decide, by decide⟩ rfl
          (Exchange.scene_eq_some (s := ⟨[97, 98, 97], _, []⟩).mpr ⟨rfl, rfl, .ended, rfl, rfl⟩)
        have hheader := c.options.headerSize_le_stream [97, 98, 97]
        rw [← show _ = (c.options.stream [97, 98, 97]).length from hlength, ← hnothing,
          hcalls] at hheader
        exact absurd hheader (by decide)

end Lzma
