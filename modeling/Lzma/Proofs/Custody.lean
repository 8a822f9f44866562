import Lzma.Proofs.Alongside
import Lzma.Proofs.Scripted
import Lzma.Proofs.Settling

/-!
# Every block goes back once

Between its beginning and its end a run holds memory in two places: the heap of its coder and
its staging buffers. A `Course` is what these can go through, step by step: a coder asks for
memory and gives back what it likes, under keys that stand for a block or for none, buffers
are staged and given back, and the world is read, written and told of events meanwhile. Every
run takes such a course from where nothing is held (`Custody`), and it ends with nothing held
(`Compressor.clear_run`, `Decompressor.clear_run`).

An `Audited` world writes down what its callbacks hand out and take back. Along every course
this agrees with what is held (`Course.accounted`): what was handed out is what was taken back
and what is held, no more and no less. The invariant asks for nothing but that the keys of a
heap are different, so whatever coder and callbacks do, nothing is lost or given back twice.
-/

namespace Lzma

variable {ω κ : Type}

/-! ## What a heap does -/

/-- A heap of blocks from one allocator, each under a key of its own. -/
structure Heap.Sound (h : Heap ω) (a : Allocator ω) : Prop extends h.Served a where
  keys : (h.blocks.map Prod.fst).Nodup
  below : ∀ entry ∈ h.blocks, entry.1 < h.fresh

namespace Heap

variable {a : Allocator ω} {h : Heap ω}

/-- A request that is not answered with a block leaves the heap as it is. -/
theorem request_cases [Journal ω] (h : Heap ω) (size : Nat) (w : ω) :
    h.request size w = (none, h, w) ∨
      (∃ denial w', h.allocator.request (padded size) w = (.error denial, w') ∧
        (h.request size w = (none, h, w') ∨
          h.request size w = (none, h, Journal.note (.engineRefused size) w'))) ∨
      ∃ block w', h.allocator.request (padded size) w = (.ok block, w') ∧
        h.request size w = (some h.fresh,
          { h with blocks := (h.fresh, block) :: h.blocks, fresh := h.fresh + 1 }, w') := by
  rw [request]
  split
  · exact .inl rfl
  · split <;> rename_i hres
    · exact .inr (.inr ⟨_, _, hres, rfl⟩)
    · exact .inr (.inl ⟨_, _, hres, .inr rfl⟩)
    · exact .inr (.inl ⟨_, _, hres, .inl rfl⟩)

theorem filter_key {blocks : List (Nat × Block ω)} {key : Nat}
    (hkey : key ∉ blocks.map Prod.fst) : (blocks.filter fun entry => entry.1 != key) = blocks := by
  apply List.filter_eq_self.mpr
  intro entry hentry
  apply bne_iff_ne.mpr
  rintro rfl
  exact hkey (List.mem_map_of_mem hentry)

/-- A key stands for no block, or for the one that goes back. -/
theorem release_cases (hkeys : (h.blocks.map Prod.fst).Nodup) (key : Nat) (w : ω) :
    h.release key w = (h, w) ∨
      ∃ before block after, h.blocks = before ++ (key, block) :: after ∧
        h.release key w = ({ h with blocks := before ++ after }, block.release w) := by
  rw [release]
  split
  · next block hlookup =>
      obtain ⟨before, after, hblocks, -⟩ := List.lookup_eq_some_iff.mp hlookup
      refine .inr ⟨before, block, after, hblocks, ?_⟩
      rw [hblocks, List.map_append, List.map_cons] at hkeys
      obtain ⟨-, hafter, hdisjoint⟩ := List.nodup_append.mp hkeys
      have hbefore : key ∉ before.map Prod.fst := fun hmem =>
        hdisjoint key hmem key List.mem_cons_self rfl
      rw [hblocks, List.filter_append, filter_key hbefore,
        List.filter_cons_of_neg (by simp), filter_key (List.nodup_cons.mp hafter).1]
  · exact .inl rfl

theorem sound_start (a : Allocator ω) : ({ allocator := a } : Heap ω).Sound a :=
  ⟨⟨rfl, by simp⟩, List.nodup_nil, by simp⟩

theorem Sound.request [Journal ω] (hh : h.Sound a) (size : Nat) (w : ω) :
    (h.request size w).2.1.Sound a := by
  rcases h.request_cases size w with heq | ⟨denial, w', hres, heq | heq⟩ |
    ⟨block, w', hres, heq⟩ <;> rw [heq]
  · exact hh
  · exact hh
  · exact hh
  · refine ⟨hh.toServed.of_request heq, ?_, ?_⟩
    · refine List.nodup_cons.mpr ⟨?_, hh.keys⟩
      intro hmem
      obtain ⟨entry, hentry, heq⟩ := List.mem_map.mp hmem
      exact absurd (hh.below entry hentry) (by omega)
    · intro entry hentry
      rcases List.mem_cons.mp hentry with rfl | hentry
      · exact Nat.lt_succ_self _
      · exact Nat.lt_succ_of_lt (hh.below entry hentry)

theorem Sound.release (hh : h.Sound a) (key : Nat) (w : ω) : (h.release key w).1.Sound a := by
  rcases release_cases hh.keys key w with heq | ⟨before, block, after, hblocks, heq⟩ <;> rw [heq]
  · exact hh
  · have hsub : (before ++ after).Sublist h.blocks := by
      rw [hblocks]
      exact List.Sublist.append_left (List.sublist_cons_self _ _) before
    exact ⟨⟨hh.allocator, fun entry hentry => hh.blocks entry (hsub.subset hentry)⟩,
      hh.keys.sublist (hsub.map _), fun entry hentry => hh.below entry (hsub.subset hentry)⟩

end Heap

/-! ## The course of a run's memory -/

/--
What is held, and in which world, once things have taken some course from where they stood. The
coder asks for memory and gives it back in any order, and so are buffers staged; neither reading
nor writing nor an event has a part in it.
-/
inductive Course [Channel ω] (a : Allocator ω) (h₀ : Heap ω) (staging₀ : List (Block ω)) (w₀ : ω) :
    Heap ω → List (Block ω) → ω → Prop
  | start : Course a h₀ staging₀ w₀ h₀ staging₀ w₀
  | request {h : Heap ω} {staging : List (Block ω)} {w : ω} (size : Nat) :
      Course a h₀ staging₀ w₀ h staging w →
      Course a h₀ staging₀ w₀ (h.request size w).2.1 staging (h.request size w).2.2
  | release {h : Heap ω} {staging : List (Block ω)} {w : ω} (key : Nat) :
      Course a h₀ staging₀ w₀ h staging w →
      Course a h₀ staging₀ w₀ (h.release key w).1 staging (h.release key w).2
  | stage {h : Heap ω} {staging : List (Block ω)} {w w' : ω} {size : Nat} {b : Block ω} :
      Course a h₀ staging₀ w₀ h staging w → a.request size w = (.ok b, w') →
      Course a h₀ staging₀ w₀ h (b :: staging) w'
  | refuse {h : Heap ω} {staging : List (Block ω)} {w w' : ω} {size : Nat} {denial : Denial} :
      Course a h₀ staging₀ w₀ h staging w → a.request size w = (.error denial, w') →
      Course a h₀ staging₀ w₀ h staging w'
  | unstage {h : Heap ω} {w : ω} {before after : List (Block ω)} {b : Block ω} :
      Course a h₀ staging₀ w₀ h (before ++ b :: after) w →
      Course a h₀ staging₀ w₀ h (before ++ after) (b.release w)
  | note {h : Heap ω} {staging : List (Block ω)} {w : ω} (event : Event) :
      Course a h₀ staging₀ w₀ h staging w →
      Course a h₀ staging₀ w₀ h staging (Journal.note event w)
  | read {h : Heap ω} {staging : List (Block ω)} {w : ω} (room : Nat) :
      Course a h₀ staging₀ w₀ h staging w →
      Course a h₀ staging₀ w₀ h staging (Channel.read room w).2
  | write {h : Heap ω} {staging : List (Block ω)} {w : ω} (bytes : List UInt8) :
      Course a h₀ staging₀ w₀ h staging w →
      Course a h₀ staging₀ w₀ h staging (Channel.write bytes w).2

/-- What is held after some course since nothing was held. -/
abbrev Custody [Channel ω] (a : Allocator ω) (w₀ : ω) (h : Heap ω) (staging : List (Block ω))
    (w : ω) : Prop :=
  Course a { allocator := a } [] w₀ h staging w

/-- Nothing is held after some course. -/
def Custody.Clear [Channel ω] (a : Allocator ω) (w₀ w : ω) : Prop :=
  ∃ h, h.blocks = [] ∧ Custody a w₀ h [] w

namespace Course

variable [Channel ω] {a : Allocator ω} {w₀ w w' : ω} {h h' : Heap ω} {staging : List (Block ω)}

theorem sound (hc : Custody a w₀ h staging w) :
    h.Sound a ∧ ∀ b ∈ staging, b.free = a.free := by
  induction hc with
  | start => exact ⟨Heap.sound_start a, by simp⟩
  | request size _ ih => exact ⟨ih.1.request size _, ih.2⟩
  | release key _ ih => exact ⟨ih.1.release key _, ih.2⟩
  | stage _ hrequest ih =>
      refine ⟨ih.1, List.forall_mem_cons.mpr ⟨Allocator.free_of_request hrequest, ih.2⟩⟩
  | unstage _ ih =>
      refine ⟨ih.1, ?_⟩
      intro b hb
      apply ih.2 b
      rcases List.mem_append.mp hb with hb | hb
      · exact List.mem_append_left _ hb
      · exact List.mem_append_right _ (List.mem_cons_of_mem _ hb)
  | refuse _ _ ih | note _ _ ih | read _ _ ih | write _ _ ih => exact ih

theorem unstage_head {b : Block ω} (hc : Custody a w₀ h (b :: staging) w) :
    Custody a w₀ h staging (b.release w) :=
  unstage (show Custody a w₀ h ([] ++ b :: staging) w from hc)

/-- Nothing but memory's own dealings changes what is held. -/
theorem keeps (a : Allocator ω) (w₀ : ω) (h : Heap ω) (staging : List (Block ω)) :
    Channel.Keeps (Custody a w₀ h staging) :=
  ⟨fun event _ => .note event, fun room _ => .read room, fun bytes _ => .write bytes⟩

/-- A heap that is closed gives its blocks back one by one. -/
theorem close (hc : Custody a w₀ h staging w) :
    ∃ h', h'.blocks = [] ∧ Custody a w₀ h' staging (h.close w) := by
  obtain ⟨allocator, blocks, fresh⟩ := h
  rw [Heap.close]
  dsimp only
  induction blocks generalizing w with
  | nil => exact ⟨_, rfl, hc⟩
  | cons entry blocks ih =>
      obtain ⟨key, block⟩ := entry
      refine ih ?_
      have hfirst := (List.nodup_cons.mp hc.sound.1.keys).1
      have hrelease : Heap.release { allocator, blocks := (key, block) :: blocks, fresh } key w =
          ({ allocator, blocks, fresh }, block.release w) := by
        rw [Heap.release, List.lookup_cons_self]
        dsimp only
        rw [List.filter_cons_of_neg (by simp), Heap.filter_key hfirst]
      have hnext := hc.release key
      rwa [hrelease] at hnext

/-- Whatever is held at some moment, giving it all up leaves nothing. -/
theorem give_up (hc : Custody a w₀ h staging w) :
    Custody.Clear a w₀ (staging.foldl (fun w b => b.release w) (h.close w)) := by
  obtain ⟨h', hblocks, hc'⟩ := hc.close
  clear hc
  generalize h.close w = w' at hc'
  induction staging generalizing w' with
  | nil => exact ⟨h', hblocks, hc'⟩
  | cons b staging ih => exact ih _ hc'.unstage_head

/-- Whatever a coder does with memory is a course of its heap. -/
theorem use (hc : Custody a w₀ h staging w) (u : Usage) :
    Custody a w₀ (h.use u w).2.1 staging (h.use u w).2.2 := by
  induction u generalizing h w with
  | done enough => exact hc
  | request size next ih =>
      have hnext := hc.request size
      rw [Heap.use]
      generalize h.request size w = p at hnext ⊢
      obtain ⟨key, h₁, w₁⟩ := p
      exact ih key hnext
  | release key next ih =>
      cases key with
      | none => exact ih hc
      | some key => exact ih (hc.release key)

/-- Whatever a coder does as it is given up, its heap is empty behind it. -/
theorem retire (hc : Custody a w₀ h staging w) (closing : Usage) :
    ∃ h', h'.blocks = [] ∧ Custody a w₀ h' staging (h.retire closing w) :=
  (hc.use closing).close

theorem engine {housekeeping : Housekeeping} {coder : Except Fault κ}
    {result : Except Fault (Engine κ ω)} (hc : Custody a w₀ { allocator := a } [] w)
    (heq : Engine.acquire housekeeping coder a w = (result, w')) :
    match result with
    | .error _ => Custody.Clear a w₀ w'
    | .ok e => Custody a w₀ e.heap [] w' := by
  rw [Engine.acquire] at heq
  have hc₁ := hc.use housekeeping.records
  split at heq <;> rename_i hrecords <;> rw [hrecords] at hc₁
  · cases heq
    exact hc₁.retire _
  · split at heq
    · cases heq
      exact hc₁.retire _
    · rename_i heap w₁ _ _
      have hc₂ := hc₁.use housekeeping.workspace
      split at heq <;> rename_i hworkspace <;> rw [hworkspace] at hc₂ <;> cases heq
      · exact hc₂.retire _
      · exact hc₂

theorem outfit {housekeeping : Housekeeping} {coder : Except Fault κ} {inSize outSize : Nat}
    {result : Except (Option Fault) (Outfit κ ω)} (hc : Custody a w₀ { allocator := a } [] w)
    (heq : Outfit.acquire housekeeping coder inSize outSize a w = (result, w')) :
    match result with
    | .error _ => Custody.Clear a w₀ w'
    | .ok x => Custody a w₀ x.engine.heap [x.output, x.input] w' := by
  rw [Outfit.acquire] at heq
  split at heq <;> rename_i hengine <;> have hc₁ := hc.engine hengine
  · cases heq
    exact hc₁
  · split at heq <;> rename_i hinput
    · cases heq
      exact (hc₁.refuse hinput).retire _
    · have hc₂ := hc₁.stage hinput
      split at heq <;> rename_i houtput <;> cases heq
      · exact (hc₂.refuse houtput).unstage_head.retire _
      · exact hc₂.stage houtput

theorem release_outfit {x : Outfit κ ω} (hc : Custody a w₀ x.engine.heap [x.output, x.input] w) :
    Custody.Clear a w₀ (x.release w) := by
  obtain ⟨h, hblocks, hc₁⟩ := hc.retire x.engine.housekeeping.closing
  have hc₂ := unstage (show Custody a w₀ h ([x.output] ++ x.input :: []) _ from hc₁)
  exact ⟨h, hblocks, hc₂.unstage_head⟩

end Course

theorem Custody.Clear.note [Channel ω] {a : Allocator ω} {w₀ w : ω} (hc : Clear a w₀ w)
    (event : Event) : Clear a w₀ (Journal.note event w) := by
  obtain ⟨h, hblocks, hc⟩ := hc
  exact ⟨h, hblocks, .note event hc⟩

/-! ## Coders at work -/

/-- A coder's memory beside a world, with some buffers staged, is what is held. -/
def Hosting.Custody [Channel ω] (a : Allocator ω) (w₀ : ω) (staging : List (Block ω))
    (h : Hosting ω) : Prop :=
  Lzma.Custody a w₀ h.heap staging h.world

/-- Whatever a coder does at its calls, and whatever is called besides, that stays so. -/
theorem Hosting.keeps_custody [Channel ω] (a : Allocator ω) (w₀ : ω) (staging : List (Block ω)) :
    Host.Keeps (Hosting.Custody a w₀ staging) where
  note event _ hc := .note event hc
  read room _ hc := .read room hc
  write bytes _ hc := .write bytes hc
  attend {h} hc := by
    show Hosting.Custody a w₀ staging h.attend.2
    cases hcall : h.calls h.turn with
    | none =>
        rw [attend_of_none hcall]
        exact hc
    | some usage =>
        by_cases hle : Channel.credit (h.heap.use usage h.world).2.2 ≤ Channel.credit h.world
        · rw [attend_of_le hcall hle]
          exact Course.use hc usage
        · rw [attend_of_lt hcall (Nat.lt_of_not_le hle)]
          exact hc

/-- Callbacks that give a source nothing more to give. -/
def Allocator.Apart [Channel ω] (a : Allocator ω) : Prop :=
  ∀ credit, a.Keeps fun w => Channel.credit w ≤ credit

/-- For such callbacks nothing of what a coder does at a call is left out. -/
theorem Hosting.attend_of_apart [Channel ω] {a : Allocator ω} {h : Hosting ω} {usage : Usage}
    (ha : a.Apart) (hh : h.heap.Served a) (hcall : h.calls h.turn = some usage) :
    h.attend = ((h.heap.use usage h.world).1, { h with
      heap := (h.heap.use usage h.world).2.1
      world := (h.heap.use usage h.world).2.2
      turn := h.turn + 1 }) :=
  attend_of_le hcall (hh.keeps_use (ha _) (Nat.le_refl _) rfl)

/-! ## Runs -/

section

variable [Channel ω] [Manner] {w₀ w w' : ω}

theorem CompressSession.custody {a : Allocator ω} {o : Options}
    {result : Except Error (CompressSession ω)} (heq : acquire o a w = (result, w')) :
    match result with
    | .error _ => Custody.Clear a w w'
    | .ok s => Custody a w s.engine.heap [s.output, s.input] w' := by
  rw [acquire_eq] at heq
  split at heq
  · split at heq <;> rename_i hx <;> have hc := Course.start.outfit hx <;> cases heq <;> exact hc
  · cases heq
    exact ⟨_, rfl, .start⟩

theorem DecompressSession.custody {a : Allocator ω} {header : Header}
    {result : Except Error (DecompressSession ω)} (hc : Custody a w₀ { allocator := a } [] w)
    (heq : acquire header a w = (result, w')) :
    match result with
    | .error _ => Custody.Clear a w₀ w'
    | .ok s => Custody a w₀ s.engine.heap [s.output, s.input] w' := by
  rw [acquire_eq] at heq
  split at heq <;> rename_i hx <;> have hx := hc.outfit hx <;> cases heq <;> exact hx

/-- From the time that a session is acquired it is what is held, up to where it is released. -/
theorem Compressor.custody_emit {c : Compressor ω} {session : CompressSession ω}
    (hacquire : CompressSession.acquire c.options c.allocator w = (.ok session, w')) :
    Hosting.Custody c.allocator w [session.output, session.input]
      (c.emit session c.state (session.engine.host w')).2.2.world :=
  ((Hosting.keeps_custody _ _ _).line _).emit c session c.state
    (show Hosting.Custody _ _ _ (session.engine.host w') from CompressSession.custody hacquire)

theorem Compressor.clear_run (c : Compressor ω) (w : ω) :
    Custody.Clear c.allocator w (c.run w).2.2 := by
  have hdrive : Custody.Clear c.allocator w (c.drive w).2.2.world := by
    rw [drive, follow]
    split <;> rename_i hacquire
    · exact CompressSession.custody hacquire
    · rename_i session w'
      exact Course.release_outfit (x := { session.outfit with
        engine := session.engine.after _ }) (custody_emit hacquire)
  rw [run]
  split
  · generalize c.drive w = p at hdrive ⊢
    obtain ⟨_ | _, state, l⟩ := p <;> exact hdrive.note _
  · exact ⟨_, rfl, .start⟩

theorem Decompressor.custody_opening {c : Decompressor ω} {session : DecompressSession ω}
    {l : Line ω} (h : c.opening w = some (session, l)) :
    Custody c.allocator w session.engine.heap [session.output, session.input] l.world := by
  rw [opening] at h
  have hheader := ((Course.keeps c.allocator w _ _).line 0).readHeader
    (l := { world := w }) .start
  split at h <;> rename_i hread <;> rw [hread] at hheader
  · cases h
  · rename_i header l₁
    dsimp only at h
    split at h <;> rename_i hacquire <;> cases h
    exact DecompressSession.custody (.note (.decompressionStarting header) hheader) hacquire

theorem Decompressor.custody_pump {c : Decompressor ω} {session : DecompressSession ω}
    {l : Line ω} (h : c.opening w = some (session, l)) :
    Hosting.Custody c.allocator w [session.output, session.input]
      (session.pump DecompressState.allocated
        { l with world := session.engine.host l.world }).2.2.outer.world :=
  ((Hosting.keeps_custody _ _ _).line _).pump session .allocated
    (show Hosting.Custody _ _ _ (session.engine.host l.world) from custody_opening h)

theorem Decompressor.clear_run (c : Decompressor ω) (w : ω) :
    Custody.Clear c.allocator w (c.run w).2.2 := by
  have hdrive : Custody.Clear c.allocator w (c.drive w).2.2.2.world := by
    have hheader := ((Course.keeps c.allocator w _ _).line 0).readHeader
      (l := { world := w }) .start
    rcases hread : readHeader ({ world := w } : Line ω) with ⟨e | header, l⟩ <;>
      rw [hread] at hheader
    · rw [drive_of_error hread]
      exact ⟨_, rfl, hheader⟩
    · rw [drive_of_ok hread, unpack]
      rcases hacquire : DecompressSession.acquire header c.allocator
        (l.note (.decompressionStarting header)).world with ⟨e | session, world⟩
      · exact DecompressSession.custody (.note (.decompressionStarting header) hheader) hacquire
      · have hopening : c.opening w =
            some (session, { l.note (.decompressionStarting header) with world }) := by
          rw [opening, hread]
          dsimp only
          rw [hacquire]
        exact Course.release_outfit (x := { session.outfit with
          engine := session.engine.after _ }) (custody_pump hopening)
  rw [run]
  split
  · generalize c.drive w = p at hdrive ⊢
    obtain ⟨_ | _, state, header, l⟩ := p <;> exact hdrive.note _
  · exact ⟨_, rfl, .start⟩

end

/-! ## Writing down what is handed out and taken back -/

/-- What passes between a run and its allocation callbacks. -/
inductive Dealing where
  | asked (size : Nat) (answer : Except Denial Buffer)
  | returned (buffer : Buffer)

/-- A world with a record of its callbacks' dealings, the earliest first. -/
structure Audited (ω : Type) where
  world : ω
  dealings : List Dealing := []

namespace Audited

instance [Journal ω] : Journal (Audited ω) where
  note event t := { t with world := Journal.note event t.world }

instance [Channel ω] : Channel (Audited ω) where
  toJournal := inferInstance
  read room t := let (r, world) := Channel.read room t.world; (r, { t with world })
  write bytes t := let (r, world) := Channel.write bytes t.world; (r, { t with world })
  credit t := Channel.credit t.world
  credit_read_lt := Channel.credit_read_lt
  credit_write_le bytes t := Channel.credit_write_le bytes t.world
  credit_note_le event t := Channel.credit_note_le event t.world

def Erases (t : Audited ω) (w : ω) : Prop := t.world = w

theorem channel_alike [Channel ω] : Channel.Alike (Erases (ω := ω)) where
  note event _ _ h := congrArg (Journal.note event) h
  read room {t w} h := by
    obtain rfl : t.world = w := h
    exact ⟨rfl, rfl⟩
  write bytes {t w} h := by
    obtain rfl : t.world = w := h
    exact ⟨rfl, rfl⟩

end Audited

def Allocator.audited (a : Allocator ω) : Allocator (Audited ω) where
  alloc size t :=
    let (answer, world) := a.alloc size t.world
    (answer, ⟨world, t.dealings ++ [.asked size answer]⟩)
  free buffer t := ⟨a.free buffer t.world, t.dealings ++ [.returned buffer]⟩
  custom := a.custom

theorem Allocator.Apart.audited [Channel ω] {a : Allocator ω} (ha : a.Apart) : a.audited.Apart :=
  fun credit => {
    note := (ha credit).note
    alloc := fun size _ ht => (ha credit).alloc size ht
    free := fun buffer t => (ha credit).free buffer t.world }

def Compressor.audited (c : Compressor ω) : Compressor (Audited ω) :=
  { c with allocator := c.allocator.audited }

def Decompressor.audited (c : Decompressor ω) : Decompressor (Audited ω) :=
  { c with allocator := c.allocator.audited }

namespace Dealing

/-- What was handed out, cut to the size that was asked for if there was more of it. -/
@[simp] def granted : Dealing → List Buffer
  | .asked size (.ok buffer) => [buffer.truncate size]
  | _ => []

@[simp] def taken : Dealing → List Buffer
  | .returned buffer => [buffer]
  | _ => []

end Dealing

/-- The buffers that were handed out. -/
def granted (ds : List Dealing) : List Buffer := ds.flatMap Dealing.granted

/-- The buffers that were taken back. -/
def returned (ds : List Dealing) : List Buffer := ds.flatMap Dealing.taken

/-- The buffers of a heap and of a session's staging. -/
def held (h : Heap ω) (staging : List (Block ω)) : List Buffer :=
  h.blocks.map (fun entry => entry.2.buffer) ++ staging.map Block.buffer

/-- The bytes of some buffers together. -/
def capacity : List Buffer → Nat
  | [] => 0
  | buffer :: more => buffer.size + capacity more

theorem capacity_eq_of_perm {buffers buffers' : List Buffer} (h : buffers.Perm buffers') :
    capacity buffers = capacity buffers' := by
  induction h with
  | nil => rfl
  | cons buffer _ ih => rw [capacity, capacity, ih]
  | swap buffer buffer' more =>
      simp only [capacity]
      omega
  | trans _ _ ih ih' => rw [ih, ih']

/-- What was handed out was taken back, each buffer once. -/
structure Balanced (ds : List Dealing) : Prop where
  buffers : (granted ds).Perm (returned ds)
  calls : (granted ds).length = (returned ds).length
  bytes : capacity (granted ds) = capacity (returned ds)

theorem Balanced.of_perm {ds : List Dealing} (h : (granted ds).Perm (returned ds)) :
    Balanced ds :=
  ⟨h, h.length_eq, capacity_eq_of_perm h⟩

section

variable {ds es : List Dealing} {d : Dealing}

@[simp] theorem granted_append : granted (ds ++ es) = granted ds ++ granted es :=
  List.flatMap_append

@[simp] theorem returned_append : returned (ds ++ es) = returned ds ++ returned es :=
  List.flatMap_append

@[simp] theorem granted_nil : granted [] = [] := rfl

@[simp] theorem granted_cons : granted (d :: ds) = d.granted ++ granted ds := rfl

@[simp] theorem returned_nil : returned [] = [] := rfl

@[simp] theorem returned_cons : returned (d :: ds) = d.taken ++ returned ds := rfl

end

/-! ## Accounts -/

section

variable {G R H₁ H₂ : List Buffer} {b : Buffer}

theorem account_grant (h : G.Perm (R ++ (H₁ ++ H₂))) :
    (G ++ [b]).Perm (R ++ (H₁ ++ b :: H₂)) := by
  rw [← List.append_assoc] at h ⊢
  exact (List.perm_append_singleton b G).trans ((h.cons b).trans List.perm_middle.symm)

theorem account_return (h : G.Perm (R ++ (H₁ ++ b :: H₂))) :
    G.Perm (R ++ [b] ++ (H₁ ++ H₂)) := by
  rw [← List.append_assoc] at h
  rw [List.append_assoc, List.singleton_append]
  refine h.trans (List.perm_middle.trans ?_)
  rw [List.append_assoc]
  exact List.perm_middle.symm

theorem account_refuse (more : List Buffer) (h : G.Perm (R ++ H₁)) :
    (G ++ more).Perm (R ++ more ++ H₁) := by
  refine (h.append_right more).trans ?_
  rw [List.append_assoc, List.append_assoc]
  exact List.perm_append_comm.append_left R

end

section

variable [Journal ω] {a : Allocator ω} {t t' : Audited ω} {size : Nat}

omit [Journal ω] in
theorem Allocator.alloc_audited (a : Allocator ω) (size : Nat) (t : Audited ω) :
    a.audited.alloc size t = ((a.alloc size t.world).1,
      ⟨(a.alloc size t.world).2, t.dealings ++ [.asked size (a.alloc size t.world).1]⟩) :=
  rfl

theorem Allocator.request_audited_ok {b : Block (Audited ω)}
    (h : a.audited.request size t = (.ok b, t')) :
    ∃ buffer, t'.dealings = t.dealings ++ [.asked size (.ok buffer)] ∧
      b.buffer = buffer.truncate size := by
  rw [request, alloc_audited] at h
  generalize a.alloc size t.world = p at h
  obtain ⟨_ | buffer, w⟩ := p
  · cases h
  · dsimp only at h
    split at h <;> cases h
    exact ⟨buffer, rfl, rfl⟩

/-- There was no buffer, or it was too short and went back at once. -/
theorem Allocator.request_audited_error {denial : Denial}
    (h : a.audited.request size t = (.error denial, t')) :
    (∃ denial, t'.dealings = t.dealings ++ [.asked size (.error denial)]) ∨
      ∃ buffer, buffer.size < size ∧
        t'.dealings = t.dealings ++ [.asked size (.ok buffer), .returned buffer] := by
  rw [request, alloc_audited] at h
  generalize a.alloc size t.world = p at h
  obtain ⟨denial' | buffer, w⟩ := p
  · cases h
    exact .inl ⟨_, rfl⟩
  · dsimp only at h
    split at h <;> rename_i hshort <;> cases h
    refine .inr ⟨buffer, hshort, ?_⟩
    show t.dealings ++ [.asked size (.ok buffer)] ++ [.returned buffer] = _
    rw [List.append_assoc]
    rfl

omit [Journal ω] in
theorem Block.dealings_release {b : Block (Audited ω)} (hb : b.free = a.audited.free)
    (t : Audited ω) : (b.release t).dealings = t.dealings ++ [.returned b.buffer] := by
  rw [release, hb]
  rfl

theorem account_request_ok (H₁ : List Buffer) {H₂ : List Buffer} {b : Block (Audited ω)}
    (h : a.audited.request size t = (.ok b, t'))
    (ht : (granted t.dealings).Perm (returned t.dealings ++ (H₁ ++ H₂))) :
    (granted t'.dealings).Perm (returned t'.dealings ++ (H₁ ++ b.buffer :: H₂)) := by
  obtain ⟨buffer, hdealings, hbuffer⟩ := Allocator.request_audited_ok h
  rw [hdealings, hbuffer]
  simpa using account_grant ht

theorem account_request_error {denial : Denial} {H : List Buffer}
    (h : a.audited.request size t = (.error denial, t'))
    (ht : (granted t.dealings).Perm (returned t.dealings ++ H)) :
    (granted t'.dealings).Perm (returned t'.dealings ++ H) := by
  rcases Allocator.request_audited_error h with ⟨denial', hdealings⟩ | ⟨buffer, hshort, hdealings⟩
  · rw [hdealings]
    simpa using ht
  · have hwhole : buffer.truncate size = buffer := by
      rw [Buffer.truncate, Nat.min_eq_left (Nat.le_of_lt hshort)]
    rw [hdealings]
    simpa [hwhole] using account_refuse [buffer] ht

end

section

variable [Channel ω] {a : Allocator ω} {w : ω} {h : Heap (Audited ω)}
variable {staging : List (Block (Audited ω))} {t : Audited ω}

/-- At every moment what was handed out is what was taken back and what is held. -/
theorem Course.accounted (hc : Custody a.audited ⟨w, []⟩ h staging t) :
    (granted t.dealings).Perm (returned t.dealings ++ held h staging) := by
  induction hc with
  | start => exact .refl _
  | @request h staging t size hc ih =>
      rcases h.request_cases size t with heq | ⟨denial, t', hres, heq | heq⟩ |
        ⟨block, t', hres, heq⟩ <;> rw [heq]
      · exact ih
      · rw [hc.sound.1.allocator] at hres
        exact account_request_error hres ih
      · rw [hc.sound.1.allocator] at hres
        -- The note of the refusal is not a dealing.
        show (granted t'.dealings).Perm (returned t'.dealings ++ held h staging)
        exact account_request_error hres ih
      · rw [hc.sound.1.allocator] at hres
        exact account_request_ok [] hres ih
  | @release h staging t key hc ih =>
      rcases Heap.release_cases hc.sound.1.keys key t with heq |
        ⟨before, block, after, hblocks, heq⟩ <;> rw [heq]
      · exact ih
      · have hfree := hc.sound.1.blocks (key, block) (by rw [hblocks]; simp)
        have hbuffers : (granted t.dealings).Perm (returned t.dealings ++
            (before.map (fun entry => entry.2.buffer) ++ block.buffer ::
              (after.map (fun entry => entry.2.buffer) ++ staging.map Block.buffer))) := by
          simpa [held, hblocks] using ih
        rw [Block.dealings_release hfree]
        simpa [held] using account_return hbuffers
  | stage _ hres ih => exact account_request_ok _ hres ih
  | refuse _ hres ih => exact account_request_error hres ih
  | @unstage h t before after b hc ih =>
      have hfree := hc.sound.2 b (by simp)
      have hbuffers : (granted t.dealings).Perm (returned t.dealings ++
          (h.blocks.map (fun entry => entry.2.buffer) ++ before.map Block.buffer ++
            b.buffer :: after.map Block.buffer)) := by
        simpa [held] using ih
      rw [Block.dealings_release hfree]
      simpa [held] using account_return hbuffers
  | note event _ ih | read room _ ih | write bytes _ ih => exact ih

/--
A moment of a course that leads on to where `h₁`, `staging₁` and `t₁` are. The record `ds` is
as it is at that moment, or it breaks off while a buffer that is too short is about to go back.
-/
def Course.Moment (a : Allocator ω) (w : ω) (ds : List Dealing) (h₁ : Heap (Audited ω))
    (staging₁ : List (Block (Audited ω))) (t₁ : Audited ω) : Prop :=
  ∃ h staging t more, Custody a.audited ⟨w, []⟩ h staging t ∧
    Course a.audited h staging t h₁ staging₁ t₁ ∧ ds = t.dealings ++ more ∧
    (more = [] ∨ ∃ size buffer, buffer.size < size ∧ more = [.asked size (.ok buffer)])

/-- One step adds at most one dealing, or the two for a buffer that is too short. -/
def Grows (ds ds' : List Dealing) : Prop :=
  ds' = ds ∨ (∃ d, ds' = ds ++ [d]) ∨
    ∃ size buffer, buffer.size < size ∧ ds' = ds ++ [.asked size (.ok buffer), .returned buffer]

theorem Grows.of_request {a : Allocator ω} {size : Nat} {t t' : Audited ω}
    {result : Except Denial (Block (Audited ω))}
    (hres : a.audited.request size t = (result, t')) : Grows t.dealings t'.dealings := by
  cases result with
  | ok b =>
      obtain ⟨buffer, hdealings, -⟩ := Allocator.request_audited_ok hres
      exact .inr (.inl ⟨_, hdealings⟩)
  | error denial =>
      rcases Allocator.request_audited_error hres with ⟨denial', hdealings⟩ |
        ⟨buffer, hshort, hdealings⟩
      · exact .inr (.inl ⟨_, hdealings⟩)
      · exact .inr (.inr ⟨size, buffer, hshort, hdealings⟩)

namespace Course

theorem moment (hc : Custody a.audited ⟨w, []⟩ h staging t) :
    Moment a w t.dealings h staging t :=
  ⟨h, staging, t, [], hc, .start, (List.append_nil _).symm, .inl rfl⟩

/-- The moments before a step are moments still, and so are those that the step adds. -/
theorem moments_of_grows {h' : Heap (Audited ω)} {staging' : List (Block (Audited ω))}
    {t' : Audited ω} (hc : Custody a.audited ⟨w, []⟩ h staging t)
    (hstep : ∀ {h₀ staging₀ t₀}, Course a.audited h₀ staging₀ t₀ h staging t →
      Course a.audited h₀ staging₀ t₀ h' staging' t')
    (hgrows : Grows t.dealings t'.dealings)
    (hall : ∀ ds, ds <+: t.dealings → Moment a w ds h staging t) (ds : List Dealing)
    (hds : ds <+: t'.dealings) : Moment a w ds h' staging' t' := by
  have hbefore {ds : List Dealing} (hds : ds <+: t.dealings) : Moment a w ds h' staging' t' := by
    obtain ⟨h₁, staging₁, t₁, more, hc₁, hrest, hmore⟩ := hall ds hds
    exact ⟨h₁, staging₁, t₁, more, hc₁, hstep hrest, hmore⟩
  rcases hgrows with heq | ⟨d, heq⟩ | ⟨size, buffer, hshort, heq⟩
  · rw [heq] at hds
    exact hbefore hds
  · rw [heq, List.prefix_concat_iff] at hds
    rcases hds with rfl | hds
    · rw [← heq]
      exact (hstep hc).moment
    · exact hbefore hds
  · rw [heq, List.append_cons, List.prefix_concat_iff, List.prefix_concat_iff] at hds
    rcases hds with rfl | rfl | hds
    · rw [← List.append_cons, ← heq]
      exact (hstep hc).moment
    · exact ⟨h, staging, t, _, hc, hstep .start, rfl, .inr ⟨size, buffer, hshort, rfl⟩⟩
    · exact hbefore hds

/-- However far the record of a course goes, things stood like that at some moment of it. -/
theorem moments (hc : Custody a.audited ⟨w, []⟩ h staging t) :
    ∀ ds, ds <+: t.dealings → Moment a w ds h staging t := by
  induction hc with
  | start =>
      intro ds hds
      rw [List.prefix_nil.mp hds]
      exact start.moment
  | @request h staging t size hc ih =>
      refine hc.moments_of_grows (fun hc => hc.request size) ?_ ih
      rcases h.request_cases size t with heq | ⟨denial, t', hres, heq | heq⟩ |
        ⟨block, t', hres, heq⟩ <;> rw [heq]
      · exact .inl rfl
      · rw [hc.sound.1.allocator] at hres
        exact .of_request hres
      · rw [hc.sound.1.allocator] at hres
        show Grows t.dealings t'.dealings
        exact .of_request hres
      · rw [hc.sound.1.allocator] at hres
        exact .of_request hres
  | @release h staging t key hc ih =>
      refine hc.moments_of_grows (fun hc => hc.release key) ?_ ih
      rcases Heap.release_cases hc.sound.1.keys key t with heq |
        ⟨before, block, after, hblocks, heq⟩ <;> rw [heq]
      · exact .inl rfl
      · have hfree := hc.sound.1.blocks (key, block) (by rw [hblocks]; simp)
        exact .inr (.inl ⟨_, Block.dealings_release hfree t⟩)
  | stage hc hres ih => exact hc.moments_of_grows (fun hc => hc.stage hres) (.of_request hres) ih
  | refuse hc hres ih => exact hc.moments_of_grows (fun hc => hc.refuse hres) (.of_request hres) ih
  | @unstage h t before after b hc ih =>
      refine hc.moments_of_grows (fun hc => hc.unstage)
        (.inr (.inl ⟨.returned b.buffer, ?_⟩)) ih
      exact Block.dealings_release (hc.sound.2 b (by simp)) t
  | note event hc ih => exact hc.moments_of_grows (fun hc => hc.note event) (.inl rfl) ih
  | read room hc ih => exact hc.moments_of_grows (fun hc => hc.read room) (.inl rfl) ih
  | write bytes hc ih => exact hc.moments_of_grows (fun hc => hc.write bytes) (.inl rfl) ih

end Course

/-- A run's memory in the end: a course that has come to where nothing is held. -/
structure Custody.Settled (a : Allocator ω) (w : ω) (t : Audited ω) : Prop where
  /-- Every beginning of the record is a moment of that course. -/
  course : ∃ h, h.blocks = [] ∧ Custody a.audited ⟨w, []⟩ h [] t ∧
    ∀ ds, ds <+: t.dealings → Course.Moment a w ds h [] t
  balanced : Balanced t.dealings

theorem Custody.Clear.settled (hc : Clear a.audited ⟨w, []⟩ t) : Settled a w t := by
  obtain ⟨h, hblocks, hc⟩ := hc
  have haccount := hc.accounted
  rw [held, hblocks] at haccount
  exact ⟨⟨h, hblocks, hc, hc.moments⟩, .of_perm (by simpa using haccount)⟩

end

/-! ## No block is lost, and none goes back twice -/

section

variable [Channel ω] [Manner]

/-- The memory of a run, from the time that its session is acquired to its end. -/
structure Compressor.Returns (c : Compressor ω) (w : ω) : Prop where
  /-- From its first call to its last a session and its coder's memory are what is held. -/
  session {s : CompressSession (Audited ω)} {t : Audited ω} :
    CompressSession.acquire c.options c.allocator.audited ⟨w, []⟩ = (.ok s, t) →
    Hosting.Custody c.allocator.audited ⟨w, []⟩ [s.output, s.input] (s.engine.host t) ∧
      Hosting.Custody c.allocator.audited ⟨w, []⟩ [s.output, s.input]
        (c.audited.emit s c.state (s.engine.host t)).2.2.world
  settled : Custody.Settled c.allocator w (c.audited.run ⟨w, []⟩).2.2
  /-- Writing down has no part in the run. -/
  erased : (c.audited.run ⟨w, []⟩).1 = (c.run w).1 ∧
    (c.audited.run ⟨w, []⟩).2.1.Agrees (c.run w).2.1 ∧
    (c.audited.run ⟨w, []⟩).2.2.world = (c.run w).2.2

structure Decompressor.Returns (c : Decompressor ω) (w : ω) : Prop where
  session {s : DecompressSession (Audited ω)} {l : Line (Audited ω)} :
    c.audited.opening ⟨w, []⟩ = some (s, l) →
    Hosting.Custody c.allocator.audited ⟨w, []⟩ [s.output, s.input] (s.engine.host l.world) ∧
      Hosting.Custody c.allocator.audited ⟨w, []⟩ [s.output, s.input]
        (s.pump DecompressState.allocated
          { l with world := s.engine.host l.world }).2.2.outer.world
  settled : Custody.Settled c.allocator w (c.audited.run ⟨w, []⟩).2.2
  erased : (c.audited.run ⟨w, []⟩).1 = (c.run w).1 ∧
    (c.audited.run ⟨w, []⟩).2.1.Agrees (c.run w).2.1 ∧
    (c.audited.run ⟨w, []⟩).2.2.world = (c.run w).2.2

omit [Channel ω] [Manner] in
theorem Allocator.audited_lockstep [Journal ω] (a : Allocator ω) :
    a.audited.Lockstep Audited.Erases Never a := by
  refine Allocator.lockstep_of_alike ?_ ?_ ?_
  · rintro event t _ rfl
    rfl
  · rintro size t _ rfl
    exact ⟨rfl, rfl⟩
  · rintro buffer t _ rfl
    rfl

omit [Manner] in
theorem Audited.credit_erases (t : Audited ω) (w : ω) (h : Erases t w) :
    Channel.credit t = Channel.credit w :=
  congrArg Channel.credit (show t.world = w from h)

theorem Compressor.returns (c : Compressor ω) (w : ω) : c.Returns w where
  session hacquire := ⟨CompressSession.custody hacquire, custody_emit (c := c.audited) hacquire⟩
  settled := (c.audited.clear_run ⟨w, []⟩).settled
  erased := by
    have halike : c.audited.Lockstep Audited.Erases Never c :=
      ⟨⟨rfl, rfl, rfl, rfl⟩, c.allocator.audited_lockstep⟩
    obtain ⟨hresult, hhandle, hworld⟩ := run_alike_of_credit Audited.channel_alike
      Audited.credit_erases halike (show Audited.Erases ⟨w, []⟩ w from rfl)
    exact ⟨hresult, hhandle.toAgrees, hworld⟩

theorem Decompressor.returns (c : Decompressor ω) (w : ω) : c.Returns w where
  session hopening := ⟨custody_opening hopening, custody_pump hopening⟩
  settled := (c.audited.clear_run ⟨w, []⟩).settled
  erased := by
    have halike : c.audited.Lockstep Audited.Erases Never c :=
      ⟨⟨rfl, rfl, rfl, rfl⟩, c.allocator.audited_lockstep⟩
    obtain ⟨hresult, hhandle, hworld⟩ := run_alike_of_credit Audited.channel_alike
      Audited.credit_erases halike (show Audited.Erases ⟨w, []⟩ w from rfl)
    exact ⟨hresult, hhandle.toAgrees, hworld⟩

end

/--
No block is lost and none goes back twice, whatever the callbacks answer, in whatever order a
coder asks for memory and gives it back, and however a run ends. At every moment the buffers that
were handed out are those that were taken back and those that are held, by the coder's heap or as
staging. Giving up all that is held makes both sides equal, and every run ends like that.

A coder may do what it likes with memory, while it is set up, at each of its calls and as it is
given up. No call of a run changes that a session and its coder's memory are what is held; and
where the callbacks keep apart from the source, a call does all that the coder does at it.
-/
theorem Custody.all_returned :
    (∀ {ω : Type} [Channel ω] (a : Allocator ω) (w : ω) (h : Heap (Audited ω))
        (staging : List (Block (Audited ω))) (t : Audited ω),
      Custody a.audited ⟨w, []⟩ h staging t →
        (granted t.dealings).Perm (returned t.dealings ++ held h staging) ∧
          Balanced (staging.foldl (fun t b => b.release t) (h.close t)).dealings) ∧
      (∀ {ω : Type} [Channel ω] (a : Allocator ω) (w : ω) (staging : List (Block (Audited ω))),
        Host.Keeps (Hosting.Custody a.audited ⟨w, []⟩ staging) ∧
          (a.Apart → ∀ (h : Hosting (Audited ω)) (usage : Usage),
            Hosting.Custody a.audited ⟨w, []⟩ staging h → h.calls h.turn = some usage →
              Host.attend h = ((h.heap.use usage h.world).1, { h with
                heap := (h.heap.use usage h.world).2.1
                world := (h.heap.use usage h.world).2.2
                turn := h.turn + 1 }))) ∧
        ∀ {ω : Type} [Channel ω] [Manner] (w : ω),
          (∀ c : Compressor ω, c.Returns w) ∧ ∀ c : Decompressor ω, c.Returns w := by
  refine ⟨?_, ?_, ?_⟩
  · intro ω _ a w h staging t hc
    exact ⟨hc.accounted, hc.give_up.settled.balanced⟩
  · intro ω _ a w staging
    refine ⟨Hosting.keeps_custody a.audited ⟨w, []⟩ staging, ?_⟩
    intro ha h usage hc hcall
    exact Hosting.attend_of_apart ha.audited (Course.sound hc).1.toServed hcall
  · intro ω _ _ w
    exact ⟨fun c => c.returns w, fun c => c.returns w⟩

/--
A coder that asks again after it was refused, gives back what it never had and what it has given
back before, deals with memory at each of its calls and as it is given up, and forgets much of it.
-/
def Housekeeping.wayward : Housekeeping where
  records := .request 100 fun _ => .request 50 fun _ => .request 60 fun _ =>
    .release none (.release (some 0) (.release (some 0) (.release (some 9) (.done true))))
  workspace := .request 30 fun _ => .done true
  calls turn := some (.request 10 fun _ => .release (some turn) (.done true))
  closing := .request 40 fun key => .release key (.done false)

@[reducible] def Manner.wayward : Manner := ⟨fun _ _ => .wayward, fun _ => .wayward⟩

/-- One request of such a coder was refused, and it has been called three times. -/
theorem Custody.all_returned_of_wayward :
    letI := Manner.wayward
    let p : GrantPolicy := { mode := .refusing, size := Heap.padded 50 }
    let c : Compressor (Exchange ScriptedSource ScriptedSink Ledger) := { allocator := p.allocator }
    let x : Exchange ScriptedSource ScriptedSink Ledger := Exchange.ofBytes 2 [1, 2, 3] {}
    c.Returns x ∧
      ∃ s t, CompressSession.acquire c.options c.allocator.audited ⟨x, []⟩ = (.ok s, t) ∧
        let h₀ := s.engine.host t
        let h := (Host.attend (Host.attend (Host.attend h₀).2).2).2
        let staging := [s.output, s.input]
        (Host.attend h₀).2.heap =
            (h₀.heap.use (.request 10 fun _ => .release (some 0) (.done true)) h₀.world).2.1 ∧
          (granted h.world.dealings).length = 8 ∧ (held h.heap staging).length = 5 ∧
          (granted h.world.dealings).Perm (returned h.world.dealings ++ held h.heap staging) ∧
          Balanced (staging.foldl (fun t b => b.release t) (h.heap.close h.world)).dealings := by
  let wayward := Manner.wayward
  intro p c x
  have hreturns : c.Returns x := (all_returned.2.2 x).1 c
  refine ⟨hreturns, _, _, rfl, ?_⟩
  intro h₀ h staging
  have hstart : Hosting.Custody c.allocator.audited ⟨x, []⟩ staging h₀ := (hreturns.session rfl).1
  obtain ⟨hkeeps, hcarried⟩ := all_returned.2.1 c.allocator x staging
  have hapart : c.allocator.Apart := fun _ => ⟨fun _ hw => hw, fun _ _ hw => hw, fun _ _ hw => hw⟩
  have hc : Hosting.Custody c.allocator.audited ⟨x, []⟩ staging h :=
    hkeeps.attend (hkeeps.attend (hkeeps.attend hstart))
  refine ⟨?_, by decide +kernel, by decide +kernel,
    all_returned.1 c.allocator x h.heap staging h.world hc⟩
  exact congrArg (·.2.heap) (hcarried hapart h₀ _ hstart rfl)

end Lzma
