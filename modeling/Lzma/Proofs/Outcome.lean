import Lzma.Channel.Tap
import Lzma.Proofs.Account
import Lzma.Proofs.Scripted

/-!
# What decides on the outcome of a compression run

Where memory is granted there are three things that can end a run early: options that the
coder does not accept, a container that is not written, and the first answer of the source or
the sink that nothing can be done with. Every other run succeeds, so the record of a run tells
what it comes to (`Compressor.run_outcome`).

That the encoder is not a fourth thing is what the loops need an invariant for. A stream takes
its pending bytes (`Stream.Takes`) if it serves a payload in which they come next, whatever
comes behind them; the data as a whole is not known before the source has ended. Such a stream
neither fails nor stalls, and when nothing is pending it can be closed (`Stream.Closes`).
-/

namespace Lzma

variable {ω : Type}

/-! ## Answers that end a run -/

/-- The error that a run has to end with after such an answer, if it has to. -/
def Deed.fault : Deed → Option Error
  | .read _ (.error e) => some (.compress e)
  | .read room (.ok r) => if room < r.count then some (.compress .overReported) else none
  | .write bytes (.error e) => some (.output bytes.length 0 (some e))
  | .write bytes (.ok count) =>
      if count = bytes.length then none else some (.output bytes.length count none)
  | .note _ | .decode _ _ _ => none

theorem Deed.fault_read_error {room : Nat} {answer : Except IoError Reading} {e : IoError}
    (h : readVerdict room answer = .error e) : (read room answer).fault = some (.compress e) := by
  cases answer with
  | error e' =>
      cases h
      rfl
  | ok r =>
      rw [readVerdict] at h
      split at h
      · next hcount =>
          cases h
          exact if_pos hcount
      · cases h

theorem Deed.fault_read_ok {room : Nat} {answer : Except IoError Reading} {r : Reading}
    (h : readVerdict room answer = .ok r) : (read room answer).fault = none := by
  obtain ⟨rfl, hle⟩ := readVerdict_eq_ok.mp h
  exact if_neg (Nat.not_lt_of_le hle)

theorem Deed.fault_write_error {bytes : List UInt8} {answer : Except IoError Nat} {e : Error}
    (h : writeVerdict bytes answer = .error e) : (write bytes answer).fault = some e := by
  cases answer with
  | error e' =>
      cases h
      rfl
  | ok count =>
      rw [writeVerdict] at h
      split at h
      · cases h
      · next hcount =>
          cases h
          exact if_neg hcount

theorem Deed.fault_write_ok {bytes : List UInt8} {answer : Except IoError Nat}
    (h : writeVerdict bytes answer = .ok ()) : (write bytes answer).fault = none := by
  obtain rfl := writeVerdict_eq_ok.mp h
  exact if_pos rfl

@[simp] def Deed.reads : Deed → List (Except IoError Nat)
  | .read _ answer => [answer.map Reading.count]
  | _ => []

namespace Record

/-- What the source answered, in order. -/
def reads (ds : List Deed) : List (Except IoError Nat) := ds.flatMap Deed.reads

@[simp] theorem reads_append (ds es : List Deed) : reads (ds ++ es) = reads ds ++ reads es :=
  List.flatMap_append

@[simp] theorem reads_singleton (d : Deed) : reads [d] = d.reads := List.flatMap_singleton ..

def Faultless (ds : List Deed) : Prop := ∀ d ∈ ds, d.fault = none

/-- What was done came to this: there was a fault at its end, or there was none. -/
inductive ComesTo {α : Type} : List Deed → Except Error α → Prop
  | ok {ds : List Deed} {a : α} : Faultless ds → ComesTo ds (.ok a)
  | error {ds : List Deed} {d : Deed} {e : Error} : Faultless ds → d.fault = some e →
      ComesTo (ds ++ [d]) (.error e)

/-- Nothing was read behind a read that brought nothing, and a success came behind one. -/
structure ToEnd (answers : List (Except IoError Nat)) (result : Except Error Unit) : Prop where
  brings : ∀ answer ∈ answers.dropLast, ∃ n, answer = .ok n ∧ 0 < n
  ended : result = .ok () → answers.getLast? = some (.ok 0)

theorem ToEnd.cons {answers : List (Except IoError Nat)} {result : Except Error Unit}
    (h : ToEnd answers result) (hne : answers ≠ []) {n : Nat} (hn : 0 < n) :
    ToEnd (.ok n :: answers) result := by
  refine ⟨?_, ?_⟩
  · intro answer hanswer
    rw [List.dropLast_cons_of_ne_nil hne] at hanswer
    rcases List.mem_cons.mp hanswer with rfl | hanswer
    · exact ⟨n, rfl, hn⟩
    · exact h.brings answer hanswer
  · intro hok
    rw [List.getLast?_cons, h.ended hok]
    rfl

theorem faultless_append {ds es : List Deed} :
    Faultless (ds ++ es) ↔ Faultless ds ∧ Faultless es :=
  List.forall_mem_append

theorem faultless_singleton {d : Deed} : Faultless [d] ↔ d.fault = none :=
  List.forall_mem_singleton

namespace ComesTo

variable {α β : Type} {ds es : List Deed} {result : Except Error α} {e : Error}

theorem after (hds : Faultless ds) (h : ComesTo es result) : ComesTo (ds ++ es) result := by
  cases h with
  | ok hes => exact .ok (faultless_append.mpr ⟨hds, hes⟩)
  | error hes hd =>
      rw [← List.append_assoc]
      exact .error (faultless_append.mpr ⟨hds, hes⟩) hd

theorem faultless {a : α} (h : ComesTo ds (.ok a)) : Faultless ds := by
  cases h with
  | ok hds => exact hds

theorem fails (h : ComesTo (α := α) ds (.error e)) : ComesTo (α := β) ds (.error e) := by
  cases h with
  | error hds hd => exact .error hds hd

theorem ok_iff {result : Except Error Unit} (h : ComesTo ds result) :
    result = .ok () ↔ Faultless ds := by
  cases h with
  | ok hds => exact ⟨fun _ => hds, fun _ => rfl⟩
  | error hds hd =>
      refine ⟨by rintro ⟨⟩, ?_⟩
      intro hall
      have hnone := faultless_singleton.mp (faultless_append.mp hall).2
      rw [hd] at hnone
      cases hnone

/-- An error is about the last thing that was done. -/
theorem error_iff (h : ComesTo ds result) (e : Error) :
    result = .error e ↔ ∃ before d, ds = before ++ [d] ∧ Faultless before ∧ d.fault = some e := by
  constructor
  · rintro rfl
    cases h with
    | error hds hd => exact ⟨_, _, rfl, hds, hd⟩
  · rintro ⟨before, d, rfl, -, hd⟩
    generalize hall : before ++ [d] = all at h
    cases h with
    | ok hfine =>
        rw [← hall] at hfine
        have hnone := faultless_singleton.mp (faultless_append.mp hfine).2
        rw [hd] at hnone
        cases hnone
    | error hds hd' =>
        obtain ⟨-, rfl⟩ := List.append_inj' hall rfl |>.imp_right List.singleton_inj.mp
        rw [hd] at hd'
        rw [Option.some.inj hd']

end ComesTo

end Record

/-! ## Lines and what they come to -/

open Record

/-- What a line went through came to this result, with such answers from the source. -/
def Line.Passes {α : Type} (l : Line (Traced ω)) (answers : List (Except IoError Nat))
    (p : Except Error α × Line (Traced ω)) : Prop :=
  ∃ new, p.2.deeds = l.deeds ++ new ∧ ComesTo new p.1 ∧ reads new = answers

namespace Line

section

variable {α β : Type} {l l₁ : Line (Traced ω)} {xs ys : List (Except IoError Nat)}

theorem Passes.refl (l : Line (Traced ω)) (a : α) : l.Passes [] (.ok a, l) :=
  ⟨[], (List.append_nil _).symm, .ok (List.forall_mem_nil _), rfl⟩

theorem Passes.fault {d : Deed} {e : Error}
    (h : l₁.deeds = l.deeds ++ [d]) (hd : d.fault = some e) :
    l.Passes d.reads ((.error e : Except Error α), l₁) := by
  have hcomes : ComesTo ([] ++ [d]) (.error e : Except Error α) := .error (List.forall_mem_nil _) hd
  exact ⟨[d], h, hcomes, reads_singleton d⟩

theorem Passes.fine {d : Deed} (a : α)
    (h : l₁.deeds = l.deeds ++ [d]) (hd : d.fault = none) : l.Passes d.reads (.ok a, l₁) :=
  ⟨[d], h, .ok (faultless_singleton.mpr hd), reads_singleton d⟩

theorem Passes.trans {a : α} {p : Except Error β × Line (Traced ω)} (h : l.Passes xs (.ok a, l₁))
    (h₁ : l₁.Passes ys p) : l.Passes (xs ++ ys) p := by
  obtain ⟨new, hnew, hcomes, hreads⟩ := h
  obtain ⟨new₁, hnew₁, hcomes₁, hreads₁⟩ := h₁
  refine ⟨new ++ new₁, ?_, hcomes₁.after hcomes.faultless, ?_⟩
  · rw [hnew₁, hnew, List.append_assoc]
  · rw [reads_append, hreads, hreads₁]

theorem Passes.fails {e : Error} (h : l.Passes xs ((.error e : Except Error α), l₁)) :
    l.Passes xs ((.error e : Except Error β), l₁) := by
  obtain ⟨new, hnew, hcomes, hreads⟩ := h
  exact ⟨new, hnew, hcomes.fails, hreads⟩

end

variable [Channel ω]

theorem passes_note (l : Line (Traced ω)) (event : Event) :
    l.Passes [] (.ok (), l.note event) :=
  .fine (d := .note event) () rfl rfl

/-- A read that a run goes on from is no fault; any other one is. -/
theorem passes_pull {room : Nat} (hroom : room ≠ 0) (l : Line (Traced ω)) :
    ∃ answer, l.Passes [answer] ((l.pull room).1.mapError .compress, (l.pull room).2) ∧
      ∀ r, (l.pull room).1 = .ok r → answer = .ok r.count := by
  have hdeeds := deeds_pull_of_ne hroom l
  rw [pull_of_ne hroom] at hdeeds ⊢
  split at hdeeds <;> rename_i hverdict
  · refine ⟨_, .fault hdeeds (Deed.fault_read_error hverdict), ?_⟩
    rintro r ⟨⟩
  · refine ⟨_, .fine _ hdeeds (Deed.fault_read_ok hverdict), ?_⟩
    rintro r ⟨⟩
    have hanswer : (Channel.read room l.world.world).1 = .ok _ := (readVerdict_eq_ok.mp hverdict).1
    rw [hanswer]
    rfl

theorem passes_push (l : Line (Traced ω)) (bytes : List UInt8) : l.Passes [] (l.push bytes) := by
  by_cases hne : bytes = []
  · rw [hne, push_nil]
    exact .refl l ()
  · have hdeeds := deeds_push_of_ne hne l
    rw [push_of_ne hne] at hdeeds ⊢
    split at hdeeds <;> rename_i hverdict
    · exact .fault hdeeds (Deed.fault_write_error hverdict)
    · exact .fine () hdeeds (Deed.fault_write_ok hverdict)

end Line

/-! ## Encoders that do not fail -/

namespace Stream

variable {s s' : Stream Encoder}

/-- A stream serves a payload in whose data these bytes come next, whatever is behind them. -/
def Takes (s : Stream Encoder) (pending : List UInt8) : Prop :=
  ∃ t before out, ∀ rest, s.Serves t (before ++ rest) (pending ++ rest) out

theorem takes_start (t : Settings) : ({ coder := .start t } : Stream Encoder).Takes [] :=
  ⟨t, [], [], fun _ => ⟨rfl, rfl, .start _ _⟩⟩

theorem Takes.chunk (hs : s.Takes []) (chunk : List UInt8) : s.Takes chunk := by
  obtain ⟨t, before, out, hs⟩ := hs
  refine ⟨t, before ++ chunk, out, ?_⟩
  intro rest
  rw [List.append_assoc]
  exact hs (chunk ++ rest)

theorem Takes.of_encode {chunk : List UInt8} (hs : s.Takes chunk) (hne : chunk ≠ []) {room : Nat}
    (hroom : 0 < room) {result : Except IoError Encoded}
    (hcall : s.encode chunk room = (result, s')) :
    ∃ moved, result = .ok moved ∧ ¬(moved.used = 0 ∧ moved.output = []) ∧
      s'.Takes (chunk.drop moved.used) := by
  obtain ⟨t, before, out, hs⟩ := hs
  obtain ⟨moved, rfl, hmoves, -⟩ := (hs []).of_encode hne hroom hcall
  refine ⟨moved, rfl, hmoves, t, before, out ++ moved.output, ?_⟩
  intro rest
  obtain ⟨_, ⟨⟩, -, hs'⟩ := (hs rest).of_encode hne hroom hcall
  exact hs'

/-- A stream that has all of its data, and serves what is left of a payload. -/
def Closes (s : Stream Encoder) : Prop :=
  ∃ t data out, s.coder.Serves t data [] out ∧ (s.stage = .running ∨ s.stage = .finishing)

theorem Takes.closes (hs : s.Takes []) : s.Closes := by
  obtain ⟨t, before, out, hs⟩ := hs
  exact ⟨t, _, out, (hs []).coder, .inl (hs []).stage⟩

theorem Closes.of_finish (hs : s.Closes) {room : Nat} (hroom : 0 < room)
    {result : Except IoError Encoded} (hcall : s.finish room = (result, s')) :
    ∃ moved, result = .ok moved ∧ (¬moved.ended = true → moved.output ≠ [] ∧ s'.Closes) := by
  obtain ⟨t, data, out, hs, hstage⟩ := hs
  obtain ⟨moved, rfl, ⟨hended, -⟩ | ⟨-, hout, hstage', hs'⟩⟩ :=
    finish_cases hs hstage hroom hcall
  · exact ⟨moved, rfl, fun hgoes => absurd hended hgoes⟩
  · exact ⟨moved, rfl, fun _ => ⟨hout, t, data, _, hs', .inr hstage'⟩⟩

end Stream

namespace Encoding

variable [Channel ω] {l : Line (Traced ω)} {s : Stream Encoder}

theorem encodeChunk_passes {chunk : List UInt8} (hs : s.Takes chunk) :
    l.Passes [] (encodeChunk s l chunk) ∧
      ∀ s', (encodeChunk s l chunk).1 = .ok s' → s'.Takes [] := by
  have hroom : 0 < Staging.defaultSize := by decide
  fun_induction encodeChunk s l chunk with
  | case1 s l =>
      refine ⟨.refl l s, ?_⟩
      rintro s' ⟨⟩
      exact hs
  | case2 s l chunk hne e s₁ l₀ hcall =>
      obtain ⟨rfl, hcalled⟩ := Line.eq_of_encodeCall hcall
      obtain ⟨moved, hres, -⟩ := hs.of_encode hne hroom hcalled
      cases hres
  | case3 s l chunk hne moved s₁ l₀ hcall e l₁ hpush =>
      obtain ⟨rfl, hcalled⟩ := Line.eq_of_encodeCall hcall
      refine ⟨(hpush ▸ l.passes_push moved.output).fails, ?_⟩
      rintro s' ⟨⟩
  | case4 s l chunk hne moved s₁ l₀ hcall l₁ hpush hnone =>
      obtain ⟨rfl, hcalled⟩ := Line.eq_of_encodeCall hcall
      obtain ⟨moved', hres, hmoves, -⟩ := hs.of_encode hne hroom hcalled
      cases hres
      exact absurd hnone hmoves
  | case5 s l chunk hne moved s₁ l₀ hcall l₁ hpush hmoves ih =>
      obtain ⟨rfl, hcalled⟩ := Line.eq_of_encodeCall hcall
      obtain ⟨moved', hres, -, hs₁⟩ := hs.of_encode hne hroom hcalled
      cases hres
      obtain ⟨hpasses, htakes⟩ := ih hs₁
      exact ⟨.trans (hpush ▸ l.passes_push moved.output) hpasses, htakes⟩

theorem finish_passes (hs : s.Closes) : l.Passes [] (finish s l) := by
  have hroom : 0 < Staging.defaultSize := by decide
  fun_induction finish s l with
  | case1 s l e s₁ l₀ hcall =>
      obtain ⟨rfl, hcalled⟩ := Line.eq_of_encodeCall hcall
      obtain ⟨moved, hres, -⟩ := hs.of_finish hroom hcalled
      cases hres
  | case2 s l moved s₁ l₀ hcall e l₁ hpush =>
      obtain ⟨rfl, -⟩ := Line.eq_of_encodeCall hcall
      exact hpush ▸ l.passes_push moved.output
  | case3 s l moved s₁ l₀ hcall l₁ hpush hended =>
      obtain ⟨rfl, -⟩ := Line.eq_of_encodeCall hcall
      exact hpush ▸ l.passes_push moved.output
  | case4 s l moved s₁ l₀ hcall l₁ hpush hgoes hnone =>
      obtain ⟨rfl, hcalled⟩ := Line.eq_of_encodeCall hcall
      obtain ⟨moved', hres, hmoves⟩ := hs.of_finish hroom hcalled
      cases hres
      exact absurd hnone (hmoves hgoes).1
  | case5 s l moved s₁ l₀ hcall l₁ hpush hgoes hmoves ih =>
      obtain ⟨rfl, hcalled⟩ := Line.eq_of_encodeCall hcall
      obtain ⟨moved', hres, hcloses⟩ := hs.of_finish hroom hcalled
      cases hres
      exact .trans (hpush ▸ l.passes_push moved.output) (ih (hcloses hgoes).2)

theorem run_passes {staging : Staging} (hsize : staging.size ≠ 0) (state : CompressState)
    (hs : s.Takes []) :
    ∃ answers, l.Passes answers ((run s staging l state).1, (run s staging l state).2.2) ∧
      answers ≠ [] ∧ ToEnd answers (run s staging l state).1 := by
  fun_induction run s staging l state with
  | case1 s staging l state e l₁ hpull =>
      obtain ⟨answer, hpasses, -⟩ := l.passes_pull hsize
      rw [hpull] at hpasses
      exact ⟨[answer], Line.Passes.fails hpasses, by simp, by simp, by simp⟩
  | case2 s staging l state r l₁ hpull state' hcount result l₂ =>
      rename_i hfinish
      obtain ⟨answer, hpasses, hanswer⟩ := l.passes_pull hsize
      rw [hpull] at hpasses hanswer
      obtain rfl := hanswer r rfl
      have hrest := finish_passes (l := l₁) hs.closes
      rw [hfinish] at hrest
      exact ⟨[.ok r.count], hpasses.trans hrest, by simp, by simp, by simp [hcount]⟩
  | case3 s staging l state r l₁ hpull state' hcount staging' e l₂ =>
      rename_i hchunk
      obtain ⟨answer, hpasses, hanswer⟩ := l.passes_pull hsize
      rw [hpull] at hpasses hanswer
      obtain rfl := hanswer r rfl
      obtain ⟨hrest, -⟩ := encodeChunk_passes (l := l₁.note (.encodingChunk r.count))
        (hs.chunk (staging'.chunk r.count))
      rw [hchunk] at hrest
      exact ⟨[.ok r.count], hpasses.trans ((l₁.passes_note _).trans hrest.fails), by simp,
        by simp, by simp⟩
  | case4 s staging l state r l₁ hpull state' hcount staging' s₁ l₂ =>
      rename_i hchunk ih
      obtain ⟨answer, hpasses, hanswer⟩ := l.passes_pull hsize
      rw [hpull] at hpasses hanswer
      obtain rfl := hanswer r rfl
      obtain ⟨hrest, htakes⟩ := encodeChunk_passes (l := l₁.note (.encodingChunk r.count))
        (hs.chunk (staging'.chunk r.count))
      rw [hchunk] at hrest htakes
      obtain ⟨answers, hrun, hne, hend⟩ := ih hsize (htakes s₁ rfl)
      exact ⟨.ok r.count :: answers,
        hpasses.trans ((l₁.passes_note _).trans (hrest.trans hrun)), List.cons_ne_nil _ _,
        hend.cons hne (Nat.pos_of_ne_zero hcount)⟩

end Encoding

/-! ## Runs where memory is granted -/

/-- Every request that the process could be asked for is granted. -/
def Allocator.Granting (a : Allocator ω) : Prop :=
  ∀ size w, size ≤ maxBufferSize →
    ∃ buffer w', a.alloc size w = (.ok buffer, w') ∧ size ≤ buffer.size

theorem Allocator.granting_standard : (standard : Allocator ω).Granting := by
  intro size w hsize
  refine ⟨{ size }, w, ?_, Nat.le_refl size⟩
  show standardAlloc size w = _
  rw [standardAlloc, if_pos hsize]

/-- Nothing is noted on the way, for that is done where a request is not granted. -/
theorem Allocator.Granting.lends {a : Allocator ω} (ha : a.Granting) (ds : List Deed) :
    a.traced.Lends fun t => t.deeds = ds where
  alloc {t size} ht hsize := by
    obtain ⟨buffer, w', halloc, hle⟩ := ha size t.world hsize
    refine ⟨buffer, { t with world := w' }, ?_, hle, ht⟩
    simp only [traced, halloc]
  free _ _ ht := ht

namespace Compressor

section

variable [Channel ω] [Provident] {c : Compressor ω}

/-- How a run ends, as its options and the answers of its world decide. -/
structure Outcome (c : Compressor ω) (w : ω) : Prop where
  rejected : ¬c.options.Accepted → ∃ e, e.kind = .invalidInput ∧
    (c.run w).1 = .error (.encodingProperties e) ∧
    c.deeds w = [.note (.compressionFailed (.encodingProperties e))]
  unsupported : c.options.Accepted → c.options.format = .lzip →
    (c.run w).1 = .error (.unsupportedFormat .lzip) ∧
    c.deeds w = [.note (.compressionFailed (.unsupportedFormat .lzip))]
  ok : c.options.Accepted → c.options.format = .lzma →
    ((c.run w).1 = .ok () ↔ Faultless (c.deeds w))
  error : c.options.Accepted → c.options.format = .lzma → ∀ e,
    ((c.run w).1 = .error e ↔ ∃ before d,
      c.deeds w = before ++ [d, .note (.compressionFailed e)] ∧ Faultless before ∧
        d.fault = some e)
  reads : ToEnd (reads (c.deeds w)) (c.run w).1

theorem drive_rejected (ha : c.allocator.Granting) (w : ω) (hno : ¬c.options.Accepted) :
    ∃ e, e.kind = .invalidInput ∧ (c.traced.drive ⟨w, []⟩).1 = .error (.encodingProperties e) ∧
      (c.traced.drive ⟨w, []⟩).2.2.deeds = [] := by
  have hfails {e : Error} {t : Traced ω} (ht : t.deeds = [])
      (hacquire : CompressSession.acquire c.options c.allocator.traced ⟨w, []⟩ = (.error e, t)) :
      (c.traced.drive ⟨w, []⟩).1 = .error e ∧ (c.traced.drive ⟨w, []⟩).2.2.deeds = [] := by
    rw [drive_eq, show CompressSession.acquire c.traced.options c.traced.allocator ⟨w, []⟩ = _
      from hacquire]
    exact ⟨rfl, ht⟩
  by_cases hpreset : presetSupported c.options.level.number = true
  · have hencoder : Engine.encoderFor c.options = .error .unsupportedOptions :=
      if_neg fun h => hno ⟨hpreset, h.1, h.2⟩
    obtain ⟨t, hacquire, ht⟩ :=
      CompressSession.acquire_error (ha.lends []) (w := ⟨w, []⟩) rfl hpreset hencoder
    exact ⟨Fault.unsupportedOptions.toIoError, rfl, hfails ht hacquire⟩
  · refine ⟨(Fault.unsupportedPreset c.options.level.number).toIoError, rfl,
      hfails (t := ⟨w, []⟩) rfl ?_⟩
    rw [CompressSession.acquire_eq, if_neg hpreset]
    rfl

theorem drive_accepted (ha : c.allocator.Granting) (w : ω) (hok : c.options.Accepted) :
    ∃ (session : CompressSession (Traced ω)) (t : Traced ω),
      session.engine.stream = { coder := .start c.options.settings } ∧
      session.input.size = Staging.defaultSize ∧ t.deeds = [] ∧
      (c.traced.drive ⟨w, []⟩).1 = (c.traced.emit session c.state t).1 ∧
      (c.traced.drive ⟨w, []⟩).2.2.deeds = (c.traced.emit session c.state t).2.2.deeds := by
  obtain ⟨session, t, hacquire, hs, ht⟩ := CompressSession.acquire_ok (ha.lends [])
    (w := ⟨w, []⟩) rfl hok.preset (Engine.encoderFor_ok hok.coding hok.dictSize)
  have hdrive : c.traced.drive ⟨w, []⟩ = ((c.traced.emit session c.state t).1,
      (c.traced.emit session c.state t).2.1, { (c.traced.emit session c.state t).2.2 with
        world := session.release (c.traced.emit session c.state t).2.2.world }) := by
    rw [drive_eq, show CompressSession.acquire c.traced.options c.traced.allocator ⟨w, []⟩ = _
      from hacquire]
    rfl
  refine ⟨session, t, hs.stream, hs.inputSize, ht, by rw [hdrive], ?_⟩
  rw [hdrive]
  exact hs.release (ha.lends (c.traced.emit session c.state t).2.2.deeds) rfl

omit [Provident] in
theorem emit_passes {c : Compressor (Traced ω)} {session : CompressSession (Traced ω)}
    (hstream : session.engine.stream = { coder := .start c.options.settings })
    (hsize : session.input.size = Staging.defaultSize) (hformat : c.options.format = .lzma)
    (state : CompressState) (t : Traced ω) :
    ∃ answers, Line.Passes { world := t } answers
        ((c.emit session state t).1, (c.emit session state t).2.2) ∧
      ToEnd answers (c.emit session state t).1 := by
  have hstaging : (Staging.ofList session.input.buffer.bytes).size ≠ 0 := by
    rw [session.input.size_staging, hsize]
    decide
  have htakes : session.engine.stream.Takes [] := by
    rw [hstream]
    exact Stream.takes_start _
  have hnote := ({ world := t } : Line (Traced ω)).passes_note
    (.compressionStarting c.options.header c.options.level)
  have hheader := hnote.trans (Line.passes_push _ c.options.header.toBytes)
  rw [emit, if_neg (not_not_intro hformat)]
  dsimp only
  split
  · next e l hpush =>
      rw [hpush] at hheader
      exact ⟨[], hheader.fails, by simp, by simp⟩
  · next l hpush =>
      rw [hpush] at hheader
      obtain ⟨answers, hrun, -, hanswers⟩ :=
        Encoding.run_passes (l := l) hstaging .headerWritten htakes
      exact ⟨answers, hheader.trans hrun, hanswers⟩

/-- What a run adds to what its loops have come to is the one note of how it ended. -/
theorem run_noted (hfresh : c.isFresh = true) (w : ω) :
    (c.run w).1 = (c.traced.drive ⟨w, []⟩).1 ∧
      ∃ event, c.deeds w = (c.traced.drive ⟨w, []⟩).2.2.deeds ++ [.note event] ∧
        ∀ e, (c.traced.drive ⟨w, []⟩).1 = .error e → event = .compressionFailed e := by
  have hresult : (c.run w).1 = (c.traced.run ⟨w, []⟩).1 := by rw [run_traced]
  rw [hresult, deeds, run, if_pos (show c.traced.isFresh = true from hfresh)]
  rcases c.traced.drive ⟨w, []⟩ with ⟨_ | _, state, l⟩
  · refine ⟨rfl, _, rfl, ?_⟩
    rintro e ⟨⟩
    rfl
  · refine ⟨rfl, _, rfl, ?_⟩
    rintro e ⟨⟩

theorem Outcome.of_rejected (hfresh : c.isFresh = true) (ha : c.allocator.Granting) {w : ω}
    (hno : ¬c.options.Accepted) : c.Outcome w := by
  obtain ⟨hresult, event, hdeeds, hevent⟩ := run_noted hfresh w
  obtain ⟨e, hkind, hdrive, hrecord⟩ := drive_rejected ha w hno
  rw [hdrive] at hresult hevent
  rw [hrecord] at hdeeds
  obtain rfl := hevent _ rfl
  refine ⟨fun _ => ⟨e, hkind, hresult, hdeeds⟩, fun h => absurd h hno, fun h => absurd h hno,
    fun h => absurd h hno, ?_⟩
  rw [hresult, hdeeds]
  exact ⟨by simp, by simp⟩

theorem Outcome.of_lzip (hfresh : c.isFresh = true) (ha : c.allocator.Granting) {w : ω}
    (hok : c.options.Accepted) (hformat : c.options.format = .lzip) : c.Outcome w := by
  obtain ⟨hresult, event, hdeeds, hevent⟩ := run_noted hfresh w
  obtain ⟨session, t, -, -, ht, hdrive, hrecord⟩ := drive_accepted ha w hok
  have hemit : c.traced.emit session c.state t =
      (.error (.unsupportedFormat .lzip), c.state, { world := t }) := by
    rw [emit, show c.traced.options.format = .lzip from hformat]
    rfl
  rw [hdrive, hemit] at hresult hevent
  rw [hrecord, hemit, Line.deeds, ht] at hdeeds
  obtain rfl := hevent _ rfl
  have hother {p : Prop} (h : c.options.format = .lzma) : p := by
    rw [hformat] at h
    cases h
  refine ⟨fun hno => absurd hok hno, fun _ _ => ⟨hresult, hdeeds⟩, fun _ => hother,
    fun _ => hother, ?_⟩
  rw [hresult, hdeeds]
  exact ⟨by simp, by simp⟩

theorem Outcome.of_lzma (hfresh : c.isFresh = true) (ha : c.allocator.Granting) {w : ω}
    (hok : c.options.Accepted) (hformat : c.options.format = .lzma) : c.Outcome w := by
  obtain ⟨hresult, event, hdeeds, hevent⟩ := run_noted hfresh w
  obtain ⟨session, t, hstream, hsize, ht, hdrive, hrecord⟩ := drive_accepted ha w hok
  obtain ⟨answers, ⟨new, hnew, hcomes, hanswers⟩, hend⟩ :=
    emit_passes (c := c.traced) hstream hsize hformat c.state t
  rw [hnew, show ({ world := t } : Line (Traced ω)).deeds = [] from ht, List.nil_append] at hrecord
  rw [hdrive] at hresult hevent
  rw [← hresult] at hcomes hend hevent
  rw [hrecord] at hdeeds
  have hother {p : Prop} (h : c.options.format = .lzip) : p := by
    rw [hformat] at h
    cases h
  refine ⟨fun hno => absurd hok hno, fun _ => hother, fun _ _ => ?_, fun _ _ e => ?_, ?_⟩
  · rw [hcomes.ok_iff, hdeeds, faultless_append]
    exact ⟨fun h => ⟨h, faultless_singleton.mpr rfl⟩, fun h => h.1⟩
  · rw [hdeeds]
    constructor
    · intro he
      obtain ⟨before, d, rfl, hbefore, hd⟩ := (hcomes.error_iff e).mp he
      obtain rfl := hevent e he
      exact ⟨before, d, by simp, hbefore, hd⟩
    · rintro ⟨before, d, heq, hbefore, hd⟩
      rw [List.append_cons before d] at heq
      exact (hcomes.error_iff e).mpr ⟨before, d, (List.append_inj' heq rfl).1, hbefore, hd⟩
  · rw [hdeeds, reads_append, hanswers]
    simpa using hend

/--
The outcome of every run on a handle that has not run, where memory is granted. Options that the
coder does not accept are reported as invalid input, whatever the container; then the container
is looked at; and beyond that the answers of the world decide. The run succeeds if there is no
fault among them, and otherwise fails with the first one and makes no further call. This is so
as well for sources that are only known to end or fail after so many reads.
-/
theorem run_outcome :
    (∀ {ω : Type} [Channel ω] (c : Compressor ω) (w : ω), c.isFresh = true →
        c.allocator.Granting → c.Outcome w) ∧
      ∀ {σ τ μ : Type} [RawSource σ] [Sink τ] (s : σ) (n : Nat) (h : RawSource.Lasts n s)
        (sink : τ) (memory : μ) (c : Compressor (Exchange (Option (Tap σ)) τ μ)),
        c.isFresh = true → c.allocator.Granting →
        c.Outcome { source := some ⟨s, n, h⟩, sink, memory } := by
  have hall {ω : Type} [Channel ω] (c : Compressor ω) (w : ω) (hfresh : c.isFresh = true)
      (ha : c.allocator.Granting) : c.Outcome w := by
    by_cases hok : c.options.Accepted
    · cases hformat : c.options.format with
      | lzip => exact .of_lzip hfresh ha hok hformat
      | lzma => exact .of_lzma hfresh ha hok hformat
    · exact .of_rejected hfresh ha hok
  exact ⟨fun c w => hall c w, fun s n h sink memory c => hall c _⟩

end

/-- Both the source and the sink fail here, and the sink is the first to do so. -/
theorem run_outcome_of_short_header :
    let c : Compressor (Exchange ScriptedSource ScriptedSink Unit) := {}
    let x : Exchange ScriptedSource ScriptedSink Unit :=
      { source := { steps := [.failure (.ofKind .timedOut)] }
        sink := { rules := [(0, .accept 5)] }
        memory := () }
    c.isFresh = true ∧ c.allocator.Granting ∧ c.Outcome x ∧
      resultCode (c.run x).1 = .output := by
  intro c x
  have ha : c.allocator.Granting := Allocator.granting_standard
  exact ⟨rfl, ha, run_outcome.1 c x rfl ha, by decide +kernel⟩

end Compressor

end Lzma
