import Lzma.Channel.Line
import Lzma.Memory.Allocator

/-!
# Worlds that put nothing in the way of a run

Much of what a run does is told by the bytes that its source has to give: what
it delivers, how it ends, how far it reads. To say so, nothing else in the world
may go wrong. A world is `Fair` if its source gives its bytes in reads that each
bring some, in pieces of its own choosing, and then ends or fails; if its sink
takes every write whole; and if nothing that is noted in it changes either. Of
an allocator the like is asked by `Allocator.Grants`.

What is known of such a world is its `Scene`. The laws say how each call moves
it, so it is a record of the run as well: bytes leave `ahead` only by being
read, and reach `delivered` only by being written.
-/

namespace Lzma

/-- What a source answers behind its last byte. -/
inductive Ending where
  | ended
  | failure (error : IoError)
  deriving DecidableEq, Repr

/-- What is known of a fair world. -/
structure Scene where
  /-- The bytes that the source still has to give. -/
  ahead : List UInt8
  /-- The answer behind them; it may be unknown once it was given. -/
  ending : Option Ending
  /-- The bytes that the sink has taken. -/
  delivered : List UInt8 := []

class Fair (ω : Type) [Channel ω] where
  /-- What is known of a world, if it is a fair one. -/
  scene : ω → Option Scene
  scene_note {w : ω} {s : Scene} (event : Event) :
    scene w = some s → scene (Journal.note event w) = some s
  scene_write {w : ω} {s : Scene} {bytes : List UInt8} : scene w = some s → bytes ≠ [] →
    (Channel.write bytes w).1 = .ok bytes.length ∧
      scene (Channel.write bytes w).2 = some { s with delivered := s.delivered ++ bytes }
  scene_read {w : ω} {s : Scene} {room : Nat} : scene w = some s → s.ahead ≠ [] → 0 < room →
    ∃ r, (Channel.read room w).1 = .ok r ∧ 0 < r.count ∧ r.count ≤ room ∧
      r.count ≤ r.placed.length ∧ r.placed.take r.count <+: s.ahead ∧
      scene (Channel.read room w).2 = some { s with ahead := s.ahead.drop r.count }
  scene_read_ended {w : ω} {out : List UInt8} {room : Nat} :
    scene w = some ⟨[], some .ended, out⟩ → 0 < room →
    ∃ r ending, (Channel.read room w).1 = .ok r ∧ r.count = 0 ∧
      scene (Channel.read room w).2 = some ⟨[], ending, out⟩
  scene_read_failure {w : ω} {out : List UInt8} {room : Nat} {e : IoError} :
    scene w = some ⟨[], some (.failure e), out⟩ → 0 < room →
    ∃ ending, (Channel.read room w).1 = .error e ∧
      scene (Channel.read room w).2 = some ⟨[], ending, out⟩

/-! ## Allocators -/

/-- Every request that the process could be asked for is granted, and no one else notices. -/
structure Allocator.Grants {ω : Type} [Channel ω] [Fair ω] (a : Allocator ω) : Prop where
  alloc {w : ω} {s : Scene} {size : Nat} : Fair.scene w = some s → size ≤ maxBufferSize →
    ∃ buffer w', a.alloc size w = (.ok buffer, w') ∧ size ≤ buffer.size ∧
      Fair.scene w' = some s
  free {w : ω} {s : Scene} (buffer : Buffer) :
    Fair.scene w = some s → Fair.scene (a.free buffer w) = some s

variable {ω : Type} [Channel ω] [Fair ω]

theorem Allocator.grants_standard : (Allocator.standard : Allocator ω).Grants where
  alloc {w s size} hw hsize := by
    refine ⟨{ size }, w, ?_, Nat.le_refl _, hw⟩
    show standardAlloc size w = _
    rw [standardAlloc, if_pos hsize]
  free _ hw := hw

/-! ## Counted reading and writing -/

/-- The bytes of a read are the chunk that it leaves in a staging buffer. -/
theorem Staging.chunk_receive {staging : Staging} {placed : List UInt8} {count : Nat}
    (hplaced : count ≤ placed.length) (hsize : count ≤ staging.size) :
    (staging.receive placed).chunk count = placed.take count := by
  simp only [Staging.chunk, Staging.receive]
  rw [List.take_append_of_le_length (by rw [List.length_take]; omega), List.take_take,
    Nat.min_eq_left hsize]

/--
A line in a fair world, on its way through `total` bytes: what is counted is what has
left the source and reached the sink.
-/
structure Line.Along (l : Line ω) (total : Nat) (s : Scene) : Prop where
  scene : Fair.scene l.world = some s
  taken : l.taken + s.ahead.length = total
  given : l.given = s.delivered.length

namespace Line.Along

variable {l : Line ω} {total : Nat} {s : Scene}

theorem start {w : ω} {bytes : List UInt8} {ending : Option Ending}
    (hw : Fair.scene w = some ⟨bytes, ending, []⟩) :
    ({ world := w } : Line ω).Along bytes.length ⟨bytes, ending, []⟩ :=
  ⟨hw, Nat.zero_add _, rfl⟩

theorem note (hl : l.Along total s) (event : Event) : (l.note event).Along total s :=
  ⟨Fair.scene_note event hl.scene, hl.taken, hl.given⟩

theorem push (hl : l.Along total s) (bytes : List UInt8) :
    ∃ l', l.push bytes = (.ok (), l') ∧
      l'.Along total { s with delivered := s.delivered ++ bytes } := by
  by_cases hnil : bytes = []
  · subst hnil
    exact ⟨l, rfl, by rwa [List.append_nil]⟩
  · obtain ⟨hres, hscene⟩ := Fair.scene_write hl.scene hnil
    refine ⟨⟨(Channel.write bytes l.world).2, l.taken, l.given + bytes.length⟩, ?_, hscene,
      hl.taken, ?_⟩
    · rw [Line.push, if_neg (by simpa using hnil),
        show Channel.write bytes l.world = (.ok bytes.length, _) from Prod.ext hres rfl]
      exact if_pos rfl
    · rw [List.length_append, ← hl.given]

theorem of_push (hl : l.Along total s) {bytes : List UInt8} {l' : Line ω}
    {result : Except Error Unit} (h : l.push bytes = (result, l')) :
    result = .ok () ∧ l'.Along total { s with delivered := s.delivered ++ bytes } := by
  obtain ⟨l₁, hpush, hl₁⟩ := hl.push bytes
  rw [h] at hpush
  cases hpush
  exact ⟨rfl, hl₁⟩

/-- A read that brings something brings the next bytes. -/
theorem pull (hl : l.Along total s) (hne : s.ahead ≠ []) {room : Nat} (hroom : 0 < room) :
    ∃ r l', l.pull room = (.ok r, l') ∧ 0 < r.count ∧ r.count ≤ room ∧
      r.count ≤ r.placed.length ∧ r.placed.take r.count = s.ahead.take r.count ∧
      l'.Along total { s with ahead := s.ahead.drop r.count } := by
  obtain ⟨r, hres, hpos, hle, hplaced, hprefix, hscene⟩ := Fair.scene_read hl.scene hne hroom
  have heq := List.prefix_iff_eq_take.mp hprefix
  have hcount := hprefix.length_le
  rw [List.length_take, Nat.min_eq_left hplaced] at heq hcount
  refine ⟨r, ⟨(Channel.read room l.world).2, l.taken + r.count, l.given⟩, ?_, hpos, hle, hplaced,
    heq, hscene, ?_, hl.given⟩
  · rw [Line.pull, if_neg (Nat.ne_of_gt hroom),
      show Channel.read room l.world = (.ok r, _) from Prod.ext hres rfl]
    exact if_neg (Nat.not_lt.mpr hle)
  · have := hl.taken
    dsimp only
    simp only [List.length_drop]
    omega

theorem pull_ended {out : List UInt8} (hl : l.Along total ⟨[], some .ended, out⟩) {room : Nat}
    (hroom : 0 < room) :
    ∃ r l' ending, l.pull room = (.ok r, l') ∧ r.count = 0 ∧
      l'.Along total ⟨[], ending, out⟩ := by
  obtain ⟨r, ending, hres, hcount, hscene⟩ := Fair.scene_read_ended hl.scene hroom
  refine ⟨r, ⟨(Channel.read room l.world).2, l.taken + r.count, l.given⟩, ending, ?_, hcount,
    hscene, ?_, hl.given⟩
  · rw [Line.pull, if_neg (Nat.ne_of_gt hroom),
      show Channel.read room l.world = (.ok r, _) from Prod.ext hres rfl]
    exact if_neg (by omega)
  · rw [hcount]
    exact hl.taken

theorem pull_failure {out : List UInt8} {e : IoError}
    (hl : l.Along total ⟨[], some (.failure e), out⟩) {room : Nat} (hroom : 0 < room) :
    ∃ l' ending, l.pull room = (.error e, l') ∧ l'.Along total ⟨[], ending, out⟩ := by
  obtain ⟨ending, hres, hscene⟩ := Fair.scene_read_failure hl.scene hroom
  refine ⟨⟨(Channel.read room l.world).2, l.taken, l.given⟩, ending, ?_, hscene, hl.taken,
    hl.given⟩
  rw [Line.pull, if_neg (Nat.ne_of_gt hroom),
    show Channel.read room l.world = (.error e, _) from Prod.ext hres rfl]

/-- A read brings the next bytes, or the answer that stands behind the last of them. -/
theorem pull_cases {ahead out : List UInt8} {ending : Ending}
    (hl : l.Along total ⟨ahead, some ending, out⟩) {room : Nat} (hroom : 0 < room) {l' : Line ω}
    {result : Except IoError Reading} (h : l.pull room = (result, l')) :
    ahead = [] ∧ (∃ ending', l'.Along total ⟨[], ending', out⟩) ∧
        (ending = .ended ∧ (∃ r, result = .ok r ∧ r.count = 0) ∨
          ∃ e, ending = .failure e ∧ result = .error e) ∨
      ∃ r, result = .ok r ∧ 0 < r.count ∧ r.count ≤ room ∧ r.count ≤ r.placed.length ∧
        r.placed.take r.count = ahead.take r.count ∧
        l'.Along total ⟨ahead.drop r.count, some ending, out⟩ := by
  by_cases hnil : ahead = []
  · subst hnil
    cases ending with
    | ended =>
        obtain ⟨r, l₁, ending', hpull, hcount, hl₁⟩ := hl.pull_ended hroom
        rw [h] at hpull
        cases hpull
        exact .inl ⟨rfl, ⟨ending', hl₁⟩, .inl ⟨rfl, r, rfl, hcount⟩⟩
    | failure e =>
        obtain ⟨l₁, ending', hpull, hl₁⟩ := hl.pull_failure hroom
        rw [h] at hpull
        cases hpull
        exact .inl ⟨rfl, ⟨ending', hl₁⟩, .inr ⟨e, rfl, rfl⟩⟩
  · obtain ⟨r, l₁, hpull, hpos, hle, hplaced, hbytes, hl₁⟩ := hl.pull hnil hroom
    rw [h] at hpull
    cases hpull
    exact .inr ⟨r, rfl, hpos, hle, hplaced, hbytes, hl₁⟩

/-- The bytes of a read stand at the start of what it leaves in the buffer. -/
theorem take_overlay {placed old : List UInt8} {count : Nat} (hplaced : count ≤ placed.length)
    (hold : count ≤ old.length) : (overlay placed old).take count = placed.take count := by
  rw [overlay, List.take_append_of_le_length (by rw [List.length_take]; omega), List.take_take,
    Nat.min_eq_left hold]

/-- As long as there are bytes enough a buffer is filled, however they come. -/
theorem gather (hl : l.Along total s) (old : List UInt8) (hle : old.length ≤ s.ahead.length) :
    ∃ l', l.gather old = (.ok (s.ahead.take old.length), l') ∧
      l'.Along total { s with ahead := s.ahead.drop old.length } := by
  induction hn : old.length using Nat.strongRecOn generalizing l s old with
  | ind n ih =>
      subst hn
      by_cases hnil : old = []
      · subst hnil
        refine ⟨l, ?_, hl⟩
        rw [Line.gather]
        rfl
      · have hroom := List.length_pos_iff.mpr hnil
        have hne : s.ahead ≠ [] := List.length_pos_iff.mp (Nat.lt_of_lt_of_le hroom hle)
        obtain ⟨r, l₁, hpull, hpos, hcount, hplaced, hbytes, hl₁⟩ := hl.pull hne hroom
        have hlen : ((overlay r.placed old).drop r.count).length = old.length - r.count := by
          rw [List.length_drop, length_overlay]
        obtain ⟨l', hrest, hl'⟩ := ih (old.length - r.count) (by omega) hl₁ _ (by
          rw [hlen, List.length_drop]
          omega) hlen
        refine ⟨l', ?_, ?_⟩
        · rw [Line.gather, if_neg (by simpa using hnil), hpull]
          dsimp only
          rw [if_neg (by omega), hrest]
          dsimp only
          rw [take_overlay hplaced hcount, hbytes, ← List.take_add, Nat.add_sub_cancel' hcount]
        · rw [List.drop_drop, Nat.add_sub_cancel' hcount] at hl'
          exact hl'

/-- Where they are not enough, the answer behind them decides. -/
theorem gather_short {ahead out : List UInt8} {ending : Ending}
    (hl : l.Along total ⟨ahead, some ending, out⟩) (old : List UInt8)
    (hlt : ahead.length < old.length) :
    ∃ l' ending', l.gather old =
        (match ending with | .ended => .ok ahead | .failure e => .error (.input e), l') ∧
      l'.Along total ⟨[], ending', out⟩ := by
  induction hn : old.length using Nat.strongRecOn generalizing l ahead old with
  | ind n ih =>
      subst hn
      have hroom : 0 < old.length := Nat.lt_of_le_of_lt (Nat.zero_le _) hlt
      have hold : ¬ old.isEmpty = true := by simpa using List.length_pos_iff.mp hroom
      by_cases hnil : ahead = []
      · subst hnil
        cases ending with
        | ended =>
            obtain ⟨r, l', ending', hpull, hcount, hl'⟩ := hl.pull_ended hroom
            refine ⟨l', ending', ?_, hl'⟩
            rw [Line.gather, if_neg hold, hpull]
            exact if_pos hcount
        | failure e =>
            obtain ⟨l', ending', hpull, hl'⟩ := hl.pull_failure hroom
            refine ⟨l', ending', ?_, hl'⟩
            rw [Line.gather, if_neg hold, hpull]
      · obtain ⟨r, l₁, hpull, hpos, hcount, hplaced, hbytes, hl₁⟩ := hl.pull hnil hroom
        have hlen : ((overlay r.placed old).drop r.count).length = old.length - r.count := by
          rw [List.length_drop, length_overlay]
        have hcut := congrArg List.length hbytes
        rw [List.length_take, List.length_take, Nat.min_eq_left hplaced] at hcut
        dsimp only at hcut
        obtain ⟨l', ending', hrest, hl'⟩ := ih (old.length - r.count) (by omega) hl₁ _ (by
          rw [hlen, List.length_drop]
          dsimp only
          omega) hlen
        refine ⟨l', ending', ?_, hl'⟩
        rw [Line.gather, if_neg hold, hpull]
        dsimp only
        rw [if_neg (by omega), hrest]
        cases ending with
        | ended =>
            dsimp only
            rw [take_overlay hplaced hcount, hbytes, List.take_append_drop]
        | failure e => rfl

end Line.Along

end Lzma
