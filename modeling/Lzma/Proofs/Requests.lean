import Lzma.Proofs.Compression
import Lzma.Proofs.Lifecycle

/-!
# What comes of asking for memory

A set-up can fail in two ways: a request is not granted, or the coder does not do what it is
asked for. Which of them it was can be told from the record of what was asked and answered, and
it can be told from the result: a coder that is turned down has had all that it asked for up to
there, and memory that is not granted is reported as that whatever the coder would have said.

`Asked` is what is known of a stretch of dealings, one request or many of them: whether all was
granted, and what can be said of the world behind it if all was. Notes are made only of requests
that were not granted, so in that case the callbacks alone have had to do with the world.

The lemmas follow the set-up from a single request to a session. At each level the result is
given by a relation between what was to be had and whether all was granted; from the coder on
these have three cases each.
-/

namespace Lzma

variable {ω κ : Type}

/-! ## Dealings -/

/-- No buffer came of a request, or one that is too short. -/
@[simp] def Dealing.Denied : Dealing → Prop
  | .asked _ (.error _) => True
  | .asked size (.ok buffer) => buffer.size < size
  | .returned _ => False

instance : DecidablePred Dealing.Denied
  | .asked _ (.error _) => isTrue trivial
  | .asked size (.ok buffer) => inferInstanceAs (Decidable (buffer.size < size))
  | .returned _ => isFalse id

/-- Every request was granted. -/
def AllGranted (ds : List Dealing) : Prop := ∀ d ∈ ds, ¬d.Denied

instance (ds : List Dealing) : Decidable (AllGranted ds) :=
  inferInstanceAs (Decidable (∀ d ∈ ds, ¬d.Denied))

@[simp] theorem allGranted_nil : AllGranted [] := by simp [AllGranted]

@[simp] theorem allGranted_append {ds es : List Dealing} :
    AllGranted (ds ++ es) ↔ AllGranted ds ∧ AllGranted es :=
  List.forall_mem_append

@[simp] theorem allGranted_singleton {d : Dealing} : AllGranted [d] ↔ ¬d.Denied :=
  List.forall_mem_singleton

/-- A property of the world that callbacks do not take away. -/
structure Allocator.Leaves (a : Allocator ω) (I : ω → Prop) : Prop where
  alloc (size : Nat) {w : ω} : I w → I (a.alloc size w).2
  free (buffer : Buffer) {w : ω} : I w → I (a.free buffer w)

/-- What came of asking for memory between two moments: whether all of it was granted. -/
structure Asked (I : ω → Prop) (granted : Prop) (t t' : Audited ω) : Prop where
  new : ∃ new, t'.dealings = t.dealings ++ new ∧ (AllGranted new ↔ granted)
  leaves : granted → I t.world → I t'.world

namespace Asked

variable {I : ω → Prop} {p q : Prop} {t t' t'' : Audited ω}

theorem refl : Asked I True t t := ⟨⟨[], by simp, by simp⟩, fun _ => id⟩

theorem of_iff (h : Asked I p t t') (hpq : p ↔ q) : Asked I q t t' := propext hpq ▸ h

theorem trans (h : Asked I p t t') (h' : Asked I q t' t'') : Asked I (p ∧ q) t t'' := by
  obtain ⟨⟨new, hnew, hgranted⟩, hleaves⟩ := h
  obtain ⟨⟨new', hnew', hgranted'⟩, hleaves'⟩ := h'
  refine ⟨⟨new ++ new', ?_, ?_⟩, fun hpq hw => hleaves' hpq.2 (hleaves hpq.1 hw)⟩
  · rw [hnew', hnew, List.append_assoc]
  · rw [allGranted_append, hgranted, hgranted']

/-- Giving something back is no request. -/
theorem then_free (h : Asked I p t t') (h' : Asked I True t' t'') : Asked I p t t'' :=
  (h.trans h').of_iff (by simp)

theorem granted_iff {w : ω} (h : Asked I p ⟨w, []⟩ t) : AllGranted t.dealings ↔ p := by
  obtain ⟨⟨new, hnew, hgranted⟩, -⟩ := h
  rw [hnew]
  exact hgranted

end Asked

/-! ## Giving back -/

section

variable {a : Allocator ω} {I : ω → Prop} {t : Audited ω}

theorem Block.asked_release (ha : a.Leaves I) {b : Block (Audited ω)}
    (hb : b.free = a.audited.free) (t : Audited ω) : Asked I True t (b.release t) := by
  refine ⟨⟨[.returned b.buffer], dealings_release hb t, by simp⟩, fun _ hw => ?_⟩
  rw [release, hb]
  exact ha.free b.buffer hw

theorem Allocator.Leaves.asked_free (ha : a.Leaves I) (b : Buffer) (t' : Audited ω)
    (h : Asked I True t t') : Asked I True t (a.audited.free b t') :=
  h.then_free (Block.asked_release ha (b := ⟨b, a.audited.free⟩) rfl t')

/-- A coder that asks for nothing as it is given up only gives back. -/
theorem Heap.Served.asked_retire [Journal ω] (ha : a.Leaves I) {h : Heap (Audited ω)}
    (hh : h.Served a.audited) {closing : Usage} (hquiet : closing.Quiet) (t : Audited ω) :
    Asked I True t (h.retire closing t) :=
  hh.keeps_retire ha.asked_free hquiet .refl

theorem Heap.Served.asked_release (ha : a.Leaves I) {h : Heap (Audited ω)}
    (hh : h.Served a.audited) (key : Nat) (t : Audited ω) :
    Asked I True t (h.release key t).2 :=
  hh.keeps_release ha.asked_free .refl key

end

/-! ## Requests -/

section

variable [Journal ω] {a : Allocator ω} {I : ω → Prop} {t t' : Audited ω}

theorem Allocator.Leaves.request (ha : a.Leaves I) {size : Nat}
    {result : Except Denial (Block (Audited ω))} (h : a.audited.request size t = (result, t')) :
    Asked I (∃ b, result = .ok b) t t' := by
  have halloc := ha.alloc size (w := t.world)
  rw [Allocator.request, alloc_audited] at h
  generalize a.alloc size t.world = p at h halloc
  obtain ⟨denial | buffer, w⟩ := p
  · cases h
    refine ⟨⟨_, rfl, by simp⟩, fun hgranted => ?_⟩
    obtain ⟨b, hb⟩ := hgranted
    cases hb
  · dsimp only at h
    split at h <;> rename_i hsize <;> cases h
    · refine ⟨⟨[.asked size (.ok buffer), .returned buffer], ?_, ?_⟩, fun hgranted => ?_⟩
      · show t.dealings ++ [.asked size (.ok buffer)] ++ [.returned buffer] = _
        rw [List.append_assoc]
        rfl
      · simp [AllGranted, hsize]
      · obtain ⟨b, hb⟩ := hgranted
        cases hb
    · exact ⟨⟨_, rfl, by simp [Nat.le_of_not_lt hsize]⟩, fun _ => halloc⟩

namespace Heap.Served

variable {h h' : Heap (Audited ω)}

theorem asked_request (hh : h.Served a.audited) (ha : a.Leaves I) {size : Nat}
    (hsize : padded size < sizeLimit) {key : Option Nat}
    (heq : h.request size t = (key, h', t')) : Asked I (key.isSome = true) t t' := by
  rw [Heap.request, if_neg (Nat.not_le.mpr hsize), hh.allocator] at heq
  split at heq <;> rename_i hres <;> have hasked := ha.request hres <;> cases heq
  · exact hasked.of_iff (by simp)
  · -- The note of a refusal is made of the world, but not where all was granted.
    exact ⟨hasked.of_iff (by simp) |>.new, by simp⟩
  · exact hasked.of_iff (by simp)

/-- A coder that is exact about it has got what it needs just if all was granted. -/
theorem asked_use (hh : h.Served a.audited) (ha : a.Leaves I) {u : Usage} {all enough : Bool}
    (hu : u.Exacting all) (heq : h.use u t = (enough, h', t')) :
    ∃ p, Asked I p t t' ∧ (enough = true ↔ all = true ∧ p) := by
  induction u generalizing h t all with
  | done enough' =>
      obtain rfl : enough' = all := hu
      cases heq
      exact ⟨True, .refl, by simp⟩
  | request size next ih =>
      obtain ⟨hsize, hgranted, hrefused⟩ := hu
      rw [Heap.use] at heq
      rcases hres : h.request size t with ⟨key, h₁, t₁⟩
      rw [hres] at heq
      have hasked := hh.asked_request ha (Nat.lt_of_le_of_lt hsize (by decide)) hres
      cases key with
      | some key =>
          obtain ⟨p, hrest, hiff⟩ := ih (some key) (hh.of_request hres) (hgranted key) heq
          exact ⟨_, hasked.trans hrest, by simpa using hiff⟩
      | none =>
          obtain ⟨p, hrest, hiff⟩ := ih none (hh.of_request hres) hrefused heq
          exact ⟨_, hasked.trans hrest, by simpa using hiff⟩
  | release key next ih =>
      cases key with
      | none => exact ih hh hu heq
      | some key =>
          obtain ⟨p, hrest, hiff⟩ := ih (hh.release key t) hu heq
          exact ⟨_, (hh.asked_release ha key t).trans hrest, by simpa using hiff⟩

theorem asked_use_of_start (hh : h.Served a.audited) (ha : a.Leaves I) {u : Usage} {enough : Bool}
    (hu : u.Exacting true) (heq : h.use u t = (enough, h', t')) :
    Asked I (enough = true) t t' := by
  obtain ⟨p, hasked, hiff⟩ := hh.asked_use ha hu heq
  exact hasked.of_iff (by simpa using hiff.symm)

end Heap.Served

/-! ## Coders -/

/-- How setting up a coder ends, where all was granted and where it was not. -/
inductive Engine.Comes (coder : Except Fault κ) : Bool → Except Fault (Engine κ ω) → Prop
  | engine {k : κ} {e : Engine κ ω} : coder = .ok k → e.stream = { coder := k } →
      Comes coder true (.ok e)
  | rejected {fault : Fault} : coder = .error fault → Comes coder true (.error fault)
  | denied : Comes coder false (.error .outOfMemory)

variable {housekeeping : Housekeeping} {coder : Except Fault κ}

theorem Engine.comes_of_acquire (ha : a.Leaves I) (hk : housekeeping.Provident)
    {result : Except Fault (Engine κ (Audited ω))}
    (h : acquire housekeeping coder a.audited t = (result, t')) :
    ∃ all, Asked I (all = true) t t' ∧ Comes coder all result := by
  have hstart := Heap.Served.start a.audited
  rw [acquire] at h
  split at h <;> rename_i hres <;>
    have hasked := hstart.asked_use_of_start ha hk.records hres <;>
    have hserved := hstart.of_use hres
  · cases h
    exact ⟨false, hasked.then_free (hserved.asked_retire ha hk.closing _), .denied⟩
  · cases coder with
    | error fault =>
        cases h
        exact ⟨true, hasked.then_free (hserved.asked_retire ha hk.closing _), .rejected rfl⟩
    | ok k =>
        dsimp only at h
        split at h <;> rename_i hmore <;>
          have hasked' := hasked.trans (hserved.asked_use_of_start ha hk.workspace hmore) <;>
          cases h
        · exact ⟨false, (hasked'.of_iff (by simp)).then_free
            ((hserved.of_use hmore).asked_retire ha hk.closing _), .denied⟩
        · exact ⟨true, hasked'.of_iff (by simp), .engine rfl rfl⟩

theorem Engine.quiet_of_acquire (hk : housekeeping.Provident) {e : Engine κ (Audited ω)}
    (h : acquire housekeeping coder a.audited t = (.ok e, t')) :
    e.housekeeping.closing.Quiet := by
  rw [housekeeping_of_acquire h]
  exact hk.closing

/-! ## Coders with their buffers -/

inductive Outfit.Comes (coder : Except Fault κ) :
    Bool → Except (Option Fault) (Outfit κ ω) → Prop
  | outfit {k : κ} {x : Outfit κ ω} : coder = .ok k → x.engine.stream = { coder := k } →
      Comes coder true (.ok x)
  | rejected {fault : Fault} : coder = .error fault → Comes coder true (.error (some fault))
  | denied {cause : Option Fault} : cause = none ∨ cause = some .outOfMemory →
      Comes coder false (.error cause)

theorem Outfit.comes_of_acquire (ha : a.Leaves I) (hk : housekeeping.Provident)
    {inSize outSize : Nat} {result : Except (Option Fault) (Outfit κ (Audited ω))}
    (h : acquire housekeeping coder inSize outSize a.audited t = (result, t')) :
    ∃ all, Asked I (all = true) t t' ∧ Comes coder all result := by
  rw [acquire] at h
  split at h <;> rename_i hengine <;>
    obtain ⟨all, hasked, hcomes⟩ := Engine.comes_of_acquire ha hk hengine
  · cases h
    cases hcomes with
    | rejected hcoder => exact ⟨true, hasked, .rejected hcoder⟩
    | denied => exact ⟨false, hasked, .denied (by simp)⟩
  · obtain ⟨hcoder, hstream⟩ := hcomes
    have hheap := Engine.served_of_acquire hengine
    have hquiet := Engine.quiet_of_acquire hk hengine
    split at h <;> rename_i hinput <;> have hasked₁ := hasked.trans (ha.request hinput)
    · cases h
      exact ⟨false, (hasked₁.of_iff (by simp)).then_free (hheap.asked_retire ha hquiet _),
        .denied (by simp)⟩
    · split at h <;> rename_i houtput <;> have hasked₂ := hasked₁.trans (ha.request houtput) <;>
        cases h
      · exact ⟨false, ((hasked₂.of_iff (by simp)).then_free (Block.asked_release ha
          (Allocator.free_of_request hinput) _)).then_free (hheap.asked_retire ha hquiet _),
          .denied (by simp)⟩
      · exact ⟨true, hasked₂.of_iff (by simp), .outfit hcoder hstream⟩

/-! ## Sessions -/

/-- What is said of options that the coder does not accept. -/
def Options.rejection (o : Options) : Error :=
  CompressSession.setupError (if presetSupported o.level.number then .unsupportedOptions
    else .unsupportedPreset o.level.number)

inductive CompressSession.Comes (o : Options) :
    Bool → Except Error (CompressSession ω) → Prop
  | session {s : CompressSession ω} : o.Accepted →
      s.engine.stream = { coder := .start o.settings } → Comes o true (.ok s)
  | rejected : ¬o.Accepted → Comes o true (.error o.rejection)
  | denied : Comes o false (.error refused)

namespace CompressSession.Comes

variable {ω' : Type} {o : Options} {all : Bool}

omit [Journal ω]

theorem error {e : Error} (h : Comes (ω := ω) o all (.error e)) :
    Comes (ω := ω') o all (.error e) := by
  cases h with
  | rejected hno => exact .rejected hno
  | denied => exact .denied

theorem ok {s : CompressSession ω} {s' : CompressSession ω'} (h : Comes o all (.ok s))
    (hstream : s.engine.stream = s'.engine.stream) : Comes o all (.ok s') := by
  obtain ⟨hok, hs⟩ := h
  exact .session hok (hstream.symm.trans hs)

end CompressSession.Comes

theorem CompressSession.comes_of_acquire [Provident] (ha : a.Leaves I) {o : Options}
    {result : Except Error (CompressSession (Audited ω))}
    (h : acquire o a.audited t = (result, t')) :
    ∃ all, Asked I (all = true) t t' ∧ Comes o all result := by
  rw [acquire_eq] at h
  by_cases hpreset : presetSupported o.level.number = true
  · rw [if_pos hpreset] at h
    split at h <;> rename_i hx <;>
      obtain ⟨all, hasked, hcomes⟩ :=
        Outfit.comes_of_acquire ha (Provident.encoder_provident o) hx <;> cases h
    · refine ⟨all, hasked, ?_⟩
      cases hcomes with
      | rejected hcoder =>
          rw [Engine.encoderFor] at hcoder
          split at hcoder
          · cases hcoder
          · next hno =>
              cases hcoder
              have hreject := Comes.rejected (ω := Audited ω) (o := o)
                fun hok => hno ⟨hok.coding, hok.dictSize⟩
              rwa [Options.rejection, if_pos hpreset] at hreject
      | denied hcause => rcases hcause with rfl | rfl <;> exact .denied
    · refine ⟨all, hasked, ?_⟩
      cases hcomes with
      | outfit hcoder hstream =>
          rw [Engine.encoderFor] at hcoder
          split at hcoder
          · next hok =>
              cases hcoder
              exact .session ⟨hpreset, hok.1, hok.2⟩ hstream
          · cases hcoder
  · rw [if_neg hpreset] at h
    cases h
    have hreject := Comes.rejected (ω := Audited ω) (o := o) fun hok => hpreset hok.preset
    rw [Options.rejection, if_neg hpreset] at hreject
    exact ⟨true, Asked.refl.of_iff (by simp), hreject⟩

inductive DecompressSession.Comes (header : Header) :
    Bool → Except Error (DecompressSession ω) → Prop
  | session {s : DecompressSession ω} {d : Decoder} : Engine.decoderFor header = .ok d →
      s.engine.stream = { coder := d } → Comes header true (.ok s)
  | rejected : ¬header.coding.Supported →
      Comes header true (.error (.decompress Fault.misuse.toIoError))
  | denied : Comes header false (.error refused)

namespace DecompressSession.Comes

variable {ω' : Type} {header : Header} {all : Bool}

omit [Journal ω]

theorem error {e : Error} (h : Comes (ω := ω) header all (.error e)) :
    Comes (ω := ω') header all (.error e) := by
  cases h with
  | rejected hno => exact .rejected hno
  | denied => exact .denied

theorem ok {s : DecompressSession ω} {s' : DecompressSession ω'} (h : Comes header all (.ok s))
    (hstream : s.engine.stream = s'.engine.stream) : Comes header all (.ok s') := by
  obtain ⟨hd, hs⟩ := h
  exact .session hd (hstream.symm.trans hs)

end DecompressSession.Comes

theorem DecompressSession.comes_of_acquire [Provident] (ha : a.Leaves I) {header : Header}
    {result : Except Error (DecompressSession (Audited ω))}
    (h : acquire header a.audited t = (result, t')) :
    ∃ all, Asked I (all = true) t t' ∧ Comes header all result := by
  rw [acquire_eq] at h
  split at h <;> rename_i hx <;>
    obtain ⟨all, hasked, hcomes⟩ :=
      Outfit.comes_of_acquire ha (provident header) hx <;> cases h
  · refine ⟨all, hasked, ?_⟩
    cases hcomes with
    | rejected hcoder =>
        rw [Engine.decoderFor] at hcoder
        split at hcoder
        · cases hcoder
        · next hno =>
            cases hcoder
            exact .rejected hno
    | denied hcause => rcases hcause with rfl | rfl <;> exact .denied
  · obtain ⟨hcoder, hstream⟩ := hcomes
    exact ⟨true, hasked, .session hcoder hstream⟩

end

end Lzma
