import Lzma.Proofs.Fair
import Lzma.Script.Memory
import Lzma.Script.Sink
import Lzma.Script.Source

/-!
# Scripts that are fair

A script of chunks that are not empty, with the end or one failure behind them,
makes a fair world when the sink has no rules. So every way to cut a stream into
reads is some fair world, and what is shown of fair worlds is shown of them all.
-/

namespace Lzma

namespace ReadStep

/-- The bytes that a script gives, and what it answers behind them. -/
def foretell : List ReadStep → Option (List UInt8 × Ending)
  | [] | [.ended] => some ([], .ended)
  | [.failure e] => some ([], .failure e)
  | .bytes chunk :: rest =>
      if chunk = [] then none else (foretell rest).map fun p => (chunk ++ p.1, p.2)
  | _ => none

theorem foretell_chunks (size : Nat) (bytes : List UInt8) (hsize : 0 < size) :
    foretell (chunks size bytes) = some (bytes, .ended) := by
  fun_induction chunks size bytes with
  | case1 bytes h =>
      rcases h with rfl | rfl
      · rfl
      · exact absurd hsize (Nat.lt_irrefl 0)
  | case2 bytes h ih =>
      have hne : bytes ≠ [] := fun hnil => h (.inl hnil)
      have htake : bytes.take size ≠ [] := by
        rw [Ne, List.take_eq_nil_iff]
        intro hor
        exact hor.elim (fun hzero => h (.inr hzero)) hne
      rw [foretell, if_neg htake, ih]
      show some (bytes.take size ++ bytes.drop size, _) = _
      rw [List.take_append_drop]

/-- A read takes what it brings from the front of what the script gives. -/
theorem foretell_serve {steps : List ReadStep} {ahead : List UInt8} {ending : Ending} {room : Nat}
    (h : foretell steps = some (ahead, ending)) (hne : ahead ≠ []) (hroom : 0 < room) :
    ∃ r, (serve room steps).1 = .ok r ∧ 0 < r.count ∧ r.count ≤ room ∧
      r.count ≤ r.placed.length ∧ r.placed.take r.count <+: ahead ∧
      foretell (serve room steps).2 = some (ahead.drop r.count, ending) := by
  unfold foretell at h
  split at h
  · cases h
    exact absurd rfl hne
  · cases h
    exact absurd rfl hne
  · cases h
    exact absurd rfl hne
  · next chunk rest =>
      split at h
      · cases h
      · next hchunk =>
          obtain ⟨⟨more, ending'⟩, hrest, heq⟩ := Option.map_eq_some_iff.mp h
          cases heq
          have hlen := List.length_pos_iff.mpr hchunk
          refine ⟨⟨chunk.take room, (chunk.take room).length⟩, rfl, ?_, ?_, Nat.le_refl _, ?_, ?_⟩
          · dsimp only
            simp only [List.length_take]
            omega
          · dsimp only
            simp only [List.length_take]
            omega
          · dsimp only
            simp only [List.take_length]
            exact (List.take_prefix _ _).trans (List.prefix_append _ _)
          · have hdrop : (chunk ++ more).drop (chunk.take room).length =
                chunk.drop room ++ more := by
              rw [List.length_take, List.drop_append_of_le_length (Nat.min_le_right _ _),
                ← List.drop_eq_drop_min]
            dsimp only [serve]
            rw [hdrop]
            cases hlater : chunk.drop room with
            | nil => exact hrest
            | cons b later =>
                show foretell (.bytes (b :: later) :: rest) = _
                rw [foretell, if_neg (List.cons_ne_nil _ _), hrest]
                rfl
  · cases h

/-- With nothing left to give, a read meets the end or the failure, and nothing is left then. -/
theorem foretell_serve_nil {steps : List ReadStep} {ending : Ending} (room : Nat)
    (h : foretell steps = some ([], ending)) :
    (serve room steps).1 = (match ending with | .ended => .ok ⟨[], 0⟩ | .failure e => .error e) ∧
      foretell (serve room steps).2 = some ([], .ended) := by
  unfold foretell at h
  split at h
  · cases h
    exact ⟨rfl, rfl⟩
  · cases h
    exact ⟨rfl, rfl⟩
  · cases h
    exact ⟨rfl, rfl⟩
  · next chunk rest =>
      split at h
      · cases h
      · next hchunk =>
          obtain ⟨p, -, heq⟩ := Option.map_eq_some_iff.mp h
          exact absurd (List.append_eq_nil_iff.mp (Prod.mk.inj heq).1).1 hchunk
  · cases h

end ReadStep

theorem ScriptedSink.write_plain {s : ScriptedSink} (h : s.rules = []) (bytes : List UInt8) :
    Sink.write bytes s = s.took bytes bytes.length := by
  have hrule : s.rule = none := by rw [ScriptedSink.rule, h]; rfl
  simp only [Sink.write, hrule]

namespace Exchange

variable {μ : Type}

/-- What scripts tell of a world. -/
def scene (x : Exchange ScriptedSource ScriptedSink μ) : Option Scene :=
  if x.sink.rules = [] then
    (ReadStep.foretell x.source.steps).map fun p => ⟨p.1, some p.2, x.sink.stored⟩
  else none

theorem scene_eq_some {x : Exchange ScriptedSource ScriptedSink μ} {s : Scene} :
    x.scene = some s ↔ x.sink.rules = [] ∧ s.delivered = x.sink.stored ∧
      ∃ ending, s.ending = some ending ∧
        ReadStep.foretell x.source.steps = some (s.ahead, ending) := by
  obtain ⟨ahead, ending, out⟩ := s
  rw [scene]
  split
  · next hrules =>
      rw [Option.map_eq_some_iff]
      constructor
      · rintro ⟨⟨ahead', ending'⟩, h, heq⟩
        cases heq
        exact ⟨hrules, rfl, ending', rfl, h⟩
      · rintro ⟨-, rfl, ending', rfl, h⟩
        exact ⟨_, h, rfl⟩
  · next hrules =>
      constructor
      · intro h
        cases h
      · intro h
        exact absurd h.1 hrules

instance : Fair (Exchange ScriptedSource ScriptedSink μ) where
  scene := scene
  scene_note _ h := h
  scene_write {w s bytes} h _ := by
    obtain ⟨hrules, hout, ending, hending, hahead⟩ := scene_eq_some.mp h
    have hwrite := ScriptedSink.write_plain hrules bytes
    refine ⟨?_, scene_eq_some.mpr ⟨?_, ?_, ending, hending, hahead⟩⟩
    · show (Sink.write bytes w.sink).1 = _
      rw [hwrite]
      rfl
    · show (Sink.write bytes w.sink).2.rules = _
      rw [hwrite]
      exact hrules
    · show s.delivered ++ bytes = (Sink.write bytes w.sink).2.stored
      rw [hwrite, hout]
      show _ = (bytes.take bytes.length :: w.sink.parts).reverse.flatten
      rw [List.take_length, List.reverse_cons, List.flatten_append, List.flatten_singleton]
      rfl
  scene_read {w s room} h hne hroom := by
    obtain ⟨hrules, hout, ending, hending, hahead⟩ := scene_eq_some.mp h
    obtain ⟨r, hres, hpos, hle, hplaced, hprefix, hrest⟩ :=
      ReadStep.foretell_serve hahead hne hroom
    exact ⟨r, hres, hpos, hle, hplaced, hprefix,
      scene_eq_some.mpr ⟨hrules, hout, ending, hending, hrest⟩⟩
  scene_read_ended {w out room} h _ := by
    obtain ⟨hrules, hout, ending, hending, hahead⟩ := scene_eq_some.mp h
    cases hending
    obtain ⟨hres, hrest⟩ := ReadStep.foretell_serve_nil room hahead
    exact ⟨⟨[], 0⟩, some .ended, hres, rfl, scene_eq_some.mpr ⟨hrules, hout, _, rfl, hrest⟩⟩
  scene_read_failure {w out room e} h _ := by
    obtain ⟨hrules, hout, ending, hending, hahead⟩ := scene_eq_some.mp h
    cases hending
    obtain ⟨hres, hrest⟩ := ReadStep.foretell_serve_nil room hahead
    exact ⟨some .ended, hres, scene_eq_some.mpr ⟨hrules, hout, _, rfl, hrest⟩⟩

/-- A world whose source gives some bytes in chunks of one size. -/
def ofBytes (size : Nat) (bytes : List UInt8) (memory : μ) :
    Exchange ScriptedSource ScriptedSink μ :=
  { source := { steps := ReadStep.chunks size bytes }, sink := {}, memory }

theorem scene_ofBytes (size : Nat) (bytes : List UInt8) (memory : μ) (hsize : 0 < size) :
    Fair.scene (ofBytes size bytes memory) = some ⟨bytes, some .ended, []⟩ :=
  scene_eq_some.mpr ⟨rfl, rfl, .ended, rfl, ReadStep.foretell_chunks size bytes hsize⟩

end Exchange

end Lzma
