import Lzma.Channel.Tap
import Lzma.Proofs.Faithful

/-!
# Pumps without end

A source may never run dry, and a decoder may give for ever. The pump has no run then,
but it has each beginning of one: a `Metered` world answers so many reads and calls of
its decoder and refuses the next. Where one limit is above another, the shorter record
is the beginning of the longer one, but for the refusal at its end (`Pump.deeds_begin`).
So the records for growing limits are one record that grows, and the pump is faithful
along all of it.
-/

namespace Lzma

/--
A source, a sink and a decoder that may go on for ever. The decoder keeps to what it is
offered, and nothing else is asked of any of them.
-/
class Works (ω : Type) extends Journal ω where
  read : Nat → ω → Except IoError Reading × ω
  write : List UInt8 → ω → Except IoError Nat × ω
  decode : List UInt8 → Nat → ω → Except IoError Decoded × ω
  used_decode_le {input : List UInt8} {room : Nat} {w : ω} {r : Decoded} :
    (decode input room w).1 = .ok r → r.used ≤ input.length
  length_decode_le {input : List UInt8} {room : Nat} {w : ω} {r : Decoded} :
    (decode input room w).1 = .ok r → r.output.length ≤ room

/-- A world that answers so many reads and calls of its decoder, and refuses the next. -/
structure Metered (ω : Type) where
  world : ω
  left : Nat

namespace Metered

variable {ω : Type} [Works ω]

def refusal : IoError := .other "no more calls"

/-- Answers a call, if there is one left. -/
def answer {α : Type} (f : ω → Except IoError α × ω) : Metered ω → Except IoError α × Metered ω
  | ⟨world, 0⟩ => (.error refusal, ⟨world, 0⟩)
  | ⟨world, left + 1⟩ => let (r, world) := f world; (r, ⟨world, left⟩)

omit [Works ω] in
theorem answer_ok {α : Type} {f : ω → Except IoError α × ω} {m : Metered ω} {a : α}
    (h : (answer f m).1 = .ok a) :
    (f m.world).1 = .ok a ∧ (answer f m).2.left < m.left := by
  obtain ⟨world, _ | left⟩ := m
  · cases h
  · exact ⟨h, Nat.lt_succ_self left⟩

omit [Works ω] in
theorem left_answer_le {α : Type} (f : ω → Except IoError α × ω) (m : Metered ω) :
    (answer f m).2.left ≤ m.left := by
  obtain ⟨world, _ | left⟩ := m
  · exact Nat.le_refl _
  · exact Nat.le_succ left

/-- A limit to the calls is all that it takes for a run to end. -/
instance : Pump (Metered ω) where
  note event | ⟨world, left⟩ => ⟨Journal.note event world, left⟩
  read room := answer (Works.read room)
  write bytes | ⟨world, left⟩ => let (r, world) := Works.write bytes world; (r, ⟨world, left⟩)
  decode input room := answer (Works.decode input room)
  credit := left
  pending := left
  credit_read_lt h _ _ := (answer_ok h).2
  credit_write_le _ _ := Nat.le_refl _
  credit_note_le _ _ := Nat.le_refl _
  used_decode_le h := Works.used_decode_le (answer_ok h).1
  length_decode_le h := Works.length_decode_le (answer_ok h).1
  pending_decode_lt h _ _ := (answer_ok h).2
  pending_write_le _ _ := Nat.le_refl _
  credit_decode_le input room m := left_answer_le (Works.decode input room) m

/-- A source that may give for ever has each beginning of its reads, too. -/
instance {σ : Type} [RawSource σ] : Source (Metered σ) where
  read room := answer (RawSource.read room)
  credit := left
  credit_read_lt h _ _ := (answer_ok h).2

end Metered

/-- A source that gives one byte for ever, as often as it is asked. -/
structure Forever where
  byte : UInt8

instance : RawSource Forever where
  read room s := (.ok ⟨List.replicate room s.byte, room⟩, s)

/-! ## Growing limits -/

/-- A call that was refused for the limit. -/
def Deed.Refused : Deed → Prop
  | .read _ result => result = .error Metered.refusal
  | .decode _ _ result => result = .error Metered.refusal
  | .note _ | .write _ _ => False

namespace Record

/-- The beginning of another record, and a call that was refused there. -/
def Cut (ds ds' : List Deed) : Prop :=
  ∃ before refused, ds = before ++ [refused] ∧ refused.Refused ∧ before <+: ds'

/-- All of another record or a beginning of it. -/
def Begins (ds ds' : List Deed) : Prop := ds = ds' ∨ Cut ds ds'

theorem Cut.append {ds ds' : List Deed} (h : Cut ds ds') (d : Deed) : Cut ds (ds' ++ [d]) := by
  obtain ⟨before, refused, hds, hrefused, hprefix⟩ := h
  exact ⟨before, refused, hds, hrefused, hprefix.trans (List.prefix_append _ _)⟩

end Record

namespace Metered

variable {ω : Type}

/-- Two worlds that have been through the same, the second with no fewer calls left. -/
inductive Ahead : Traced (Metered ω) → Traced (Metered ω) → Prop
  | mk (world : ω) (deeds : List Deed) (left left' : Nat) (h : left ≤ left') :
      Ahead ⟨⟨world, left⟩, deeds⟩ ⟨⟨world, left'⟩, deeds⟩

theorem Ahead.deeds {t t' : Traced (Metered ω)} (h : Ahead t t') : t.deeds = t'.deeds := by
  cases h
  rfl

variable [Works ω]

/--
Two worlds with the same behind them answer alike, up to the limit of the first one. What is to
hold from there on has to hold right after the refusal, whatever the second world does next.
-/
theorem ahead_until {E : Error → Traced (Metered ω) → Traced (Metered ω) → Prop}
    (hrefused : ∀ e world deeds (d : Deed) left', d.Refused →
      E e ⟨⟨world, 0⟩, deeds ++ [d]⟩ ⟨⟨world, left'⟩, deeds⟩)
    (hlater : ∀ e t t' world' (d : Deed), E e t t' → E e t ⟨world', t'.deeds ++ [d]⟩) :
    Pump.Lockstep (Ahead (ω := ω)) E where
  note event := by
    rintro _ _ ⟨world, deeds, left, left', hle⟩
    exact ⟨_, _, left, left', hle⟩
  write bytes := by
    rintro _ _ ⟨world, deeds, left, left', hle⟩
    exact .inl ⟨rfl, _, _, left, left', hle⟩
  read room := by
    rintro _ _ ⟨world, deeds, _ | left, left', hle⟩
    · exact .inr ⟨refusal, rfl, fun e =>
        hrefused e world deeds (.read room (.error refusal)) left' rfl⟩
    · obtain _ | left' := left'
      · exact absurd hle (Nat.not_succ_le_zero left)
      · exact .inl ⟨rfl, _, _, left, left', Nat.le_of_succ_le_succ hle⟩
  decode input room := by
    rintro _ _ ⟨world, deeds, _ | left, left', hle⟩
    · exact .inr ⟨refusal, rfl,
        hrefused _ world deeds (.decode input room (.error refusal)) left' rfl⟩
    · obtain _ | left' := left'
      · exact absurd hle (Nat.not_succ_le_zero left)
      · exact .inl ⟨rfl, _, _, left, left', Nat.le_of_succ_le_succ hle⟩
  later e t := ⟨fun _ t' => hlater e t t' _ _, fun _ t' => hlater e t t' _ _,
    fun _ t' => hlater e t t' _ _⟩
  later_decode e _ _ t t' := hlater e t t' _ _

theorem ahead_lockstep :
    Pump.Lockstep (Ahead (ω := ω)) fun _ t t' => Record.Cut t.deeds t'.deeds :=
  ahead_until (fun _ _ deeds d _ hd => ⟨deeds, d, rfl, hd, List.prefix_rfl⟩)
    fun _ _ _ _ d h => h.append d

end Metered

namespace Pump

open Record

variable {ω : Type} [Works ω]

/-- The record of a run up to a limit is the beginning of that up to a greater one. -/
theorem deeds_begin (room : Nat) (s : Staging) (w : ω) {limit limit' : Nat}
    (h : limit ≤ limit') :
    Begins (deeds room s { world := (⟨w, limit⟩ : Metered ω) } .allocated)
      (deeds room s { world := (⟨w, limit'⟩ : Metered ω) } .allocated) := by
  have hahead : ({ world := (⟨w, limit⟩ : Metered ω) } : Line _).traced.Alike Metered.Ahead
      ({ world := (⟨w, limit'⟩ : Metered ω) } : Line _).traced :=
    ⟨⟨_, _, limit, limit', h⟩, rfl, rfl⟩
  rcases run_lockstep Metered.ahead_lockstep room s .allocated hahead with hsame | ⟨-, -, hcut⟩
  · exact .inl hsame.2.2.world.deeds
  · exact .inr hcut

end Pump

open Record in
/--
The pump is faithful in every world that it can be run in. It is so too where source and decoder
may never come to an end, along the one record that its runs have there for growing limits to
the number of their calls.
-/
theorem Pump.run_faithful :
    (∀ {ω : Type} [Pump ω] (room : Nat) (s : Staging) (l : Line ω) (state : DecompressState),
      Faithful room s (deeds room s l state) ∧
        ∃ l', run room s l.traced state = ((run room s l state).1, (run room s l state).2.1, l') ∧
          l'.deeds = deeds room s l state ∧ l'.Alike Traced.Erases (run room s l state).2.2) ∧
      ∀ {ω : Type} [Works ω] (room : Nat) (s : Staging) (w : ω) (limit more : Nat),
        Faithful room s (deeds room s { world := (⟨w, limit⟩ : Metered ω) } .allocated) ∧
          Begins (deeds room s { world := (⟨w, limit⟩ : Metered ω) } .allocated)
            (deeds room s { world := (⟨w, limit + more⟩ : Metered ω) } .allocated) := by
  constructor
  · intro ω _ room s l state
    obtain ⟨l', hrun, hl'⟩ := run_traced room s l state
    exact ⟨(deeds_kept room s l state).1.faithful, l', hrun, by rw [deeds, hrun], hl'⟩
  · intro ω _ room s w limit more
    exact ⟨(deeds_kept room s _ .allocated).1.faithful,
      deeds_begin room s w (Nat.le_add_right limit more)⟩

end Lzma
