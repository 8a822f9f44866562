import Lzma.Proofs.Likeness

/-!
# What a run does, in order

A `Traced` world is a world that writes down every call made of it, with the answer
that it gave. The record is one list for all kinds of calls, so it shows how reads,
writes and calls of the decoder lie between each other.

The record has no part in what a run does (`Traced.pump_alike` and the like), so what
is proved of the record of a run in a traced world is proved of the run itself.

A record is looked at through a few views: the chunks that its reads brought, the
bytes that the decoder consumed of them and the pieces that it emitted, the pieces
that the sink was offered and the bytes that it took.
-/

namespace Lzma

/-- A call that was made, with its answer. -/
inductive Deed where
  | note (event : Event)
  | read (room : Nat) (result : Except IoError Reading)
  | write (bytes : List UInt8) (result : Except IoError Nat)
  | decode (input : List UInt8) (room : Nat) (result : Except IoError Decoded)

/-- A world with a record of the calls made of it, the earliest call first. -/
structure Traced (ω : Type) where
  world : ω
  deeds : List Deed := []

namespace Traced

variable {ω : Type}

instance [Journal ω] : Journal (Traced ω) where
  note event
    | ⟨world, deeds⟩ => ⟨Journal.note event world, deeds ++ [.note event]⟩

instance [Channel ω] : Channel (Traced ω) where
  toJournal := inferInstance
  read room
    | ⟨world, deeds⟩ =>
        let (r, world) := Channel.read room world
        (r, ⟨world, deeds ++ [.read room r]⟩)
  write bytes
    | ⟨world, deeds⟩ =>
        let (r, world) := Channel.write bytes world
        (r, ⟨world, deeds ++ [.write bytes r]⟩)
  credit t := Channel.credit t.world
  credit_read_lt := Channel.credit_read_lt
  credit_write_le bytes t := Channel.credit_write_le bytes t.world
  credit_note_le event t := Channel.credit_note_le event t.world

instance [Pump ω] : Pump (Traced ω) where
  toChannel := inferInstance
  decode input room
    | ⟨world, deeds⟩ =>
        let (r, world) := Pump.decode input room world
        (r, ⟨world, deeds ++ [.decode input room r]⟩)
  pending t := Pump.pending t.world
  used_decode_le := Pump.used_decode_le
  length_decode_le := Pump.length_decode_le
  pending_decode_lt := Pump.pending_decode_lt
  pending_write_le bytes t := Pump.pending_write_le bytes t.world
  credit_decode_le input room t := Pump.credit_decode_le input room t.world

theorem read_eq [Channel ω] (room : Nat) (t : Traced ω) :
    Channel.read room t = ((Channel.read room t.world).1,
      ⟨(Channel.read room t.world).2, t.deeds ++ [.read room (Channel.read room t.world).1]⟩) :=
  rfl

theorem write_eq [Channel ω] (bytes : List UInt8) (t : Traced ω) :
    Channel.write bytes t = ((Channel.write bytes t.world).1,
      ⟨(Channel.write bytes t.world).2,
        t.deeds ++ [.write bytes (Channel.write bytes t.world).1]⟩) :=
  rfl

def Erases (t : Traced ω) (w : ω) : Prop := t.world = w

theorem channel_alike [Channel ω] : Channel.Alike (Erases (ω := ω)) where
  note event _ _ h := congrArg (Journal.note event) h
  read room {t w} h := by
    obtain rfl : t.world = w := h
    exact ⟨rfl, rfl⟩
  write bytes {t w} h := by
    obtain rfl : t.world = w := h
    exact ⟨rfl, rfl⟩

/-- The record has no part in what a run does. -/
theorem pump_alike [Pump ω] : Pump.Alike (Erases (ω := ω)) where
  toAlike := channel_alike
  decode input room {t w} h := by
    obtain rfl : t.world = w := h
    exact ⟨rfl, rfl⟩

end Traced

/-! ## Views of a record -/

namespace Deed

@[simp] def moved : Deed → List Decoded
  | .decode _ _ (.ok moved) => [moved]
  | _ => []

@[simp] def consumed : Deed → List UInt8
  | .decode input _ (.ok moved) => input.take moved.used
  | _ => []

@[simp] def emitted : Deed → List (List UInt8)
  | .decode _ _ (.ok moved) => if moved.output = [] then [] else [moved.output]
  | _ => []

@[simp] def offered : Deed → List (List UInt8)
  | .write bytes _ => [bytes]
  | _ => []

/-- What the sink took as a whole. -/
@[simp] def accepted : Deed → List UInt8
  | .write bytes (.ok count) => if count = bytes.length then bytes else []
  | _ => []

@[simp] def isDecode : Deed → Bool
  | .decode _ _ _ => true
  | _ => false

/-- An answer after which there is something left to do. -/
def Fine : Deed → Prop
  | .note _ => True
  | .read room result => ∃ r, result = .ok r ∧ 0 < r.count ∧ r.count ≤ room
  | .write bytes result => result = .ok bytes.length
  | .decode _ _ result => ∃ moved, result = .ok moved ∧ moved.status ≠ .finished

end Deed

namespace Record

def moves (ds : List Deed) : List Decoded := ds.flatMap Deed.moved

def consumed (ds : List Deed) : List UInt8 := ds.flatMap Deed.consumed

/-- What each call of the decoder gave, without the calls that gave nothing. -/
def emitted (ds : List Deed) : List (List UInt8) := ds.flatMap Deed.emitted

def offered (ds : List Deed) : List (List UInt8) := ds.flatMap Deed.offered

def accepted (ds : List Deed) : List UInt8 := ds.flatMap Deed.accepted

def decodes (ds : List Deed) : Nat := ds.countP Deed.isDecode

/-- What becomes of the buffer that is read into. -/
def staging (s : Staging) : List Deed → Staging
  | [] => s
  | .read _ (.ok r) :: ds => staging (s.receive r.placed) ds
  | _ :: ds => staging s ds

/-- What each read brought, taken from the buffer as it was left by the read. -/
def chunks (s : Staging) : List Deed → List (List UInt8)
  | [] => []
  | .read room (.ok r) :: ds =>
      let s := s.receive r.placed
      if 0 < r.count ∧ r.count ≤ room then s.chunk r.count :: chunks s ds else chunks s ds
  | _ :: ds => chunks s ds

section

variable (ds es : List Deed) (d : Deed)

@[simp] theorem moves_append : moves (ds ++ es) = moves ds ++ moves es := List.flatMap_append

@[simp] theorem consumed_append : consumed (ds ++ es) = consumed ds ++ consumed es :=
  List.flatMap_append

@[simp] theorem emitted_append : emitted (ds ++ es) = emitted ds ++ emitted es :=
  List.flatMap_append

@[simp] theorem offered_append : offered (ds ++ es) = offered ds ++ offered es :=
  List.flatMap_append

@[simp] theorem accepted_append : accepted (ds ++ es) = accepted ds ++ accepted es :=
  List.flatMap_append

@[simp] theorem decodes_append : decodes (ds ++ es) = decodes ds + decodes es :=
  List.countP_append

@[simp] theorem moves_singleton : moves [d] = d.moved := List.flatMap_singleton ..

@[simp] theorem consumed_singleton : consumed [d] = d.consumed := List.flatMap_singleton ..

@[simp] theorem emitted_singleton : emitted [d] = d.emitted := List.flatMap_singleton ..

@[simp] theorem offered_singleton : offered [d] = d.offered := List.flatMap_singleton ..

@[simp] theorem accepted_singleton : accepted [d] = d.accepted := List.flatMap_singleton ..

@[simp] theorem decodes_singleton : decodes [d] = d.isDecode.toNat := by
  cases d <;> rfl

theorem staging_append (s : Staging) : staging s (ds ++ es) = staging (staging s ds) es := by
  fun_induction staging s ds with
  | case1 => rfl
  | case2 _ _ _ _ ih => exact ih
  | case3 s d ds hd ih =>
      rw [List.cons_append, staging]
      · exact ih
      · exact hd

theorem chunks_append (s : Staging) :
    chunks s (ds ++ es) = chunks s ds ++ chunks (staging s ds) es := by
  fun_induction chunks s ds with
  | case1 => rfl
  | case2 s room r ds s' h ih =>
      rw [List.cons_append, chunks, if_pos h, ih]
      rfl
  | case3 s room r ds s' h ih =>
      rw [List.cons_append, chunks, if_neg h, ih]
      rfl
  | case4 s d ds hd ih =>
      rw [List.cons_append, chunks, staging]
      · exact ih
      · exact hd
      · exact hd

end

end Record

/-! ## What the counted calls add to a record -/

namespace Line

variable {ω : Type}

def deeds (l : Line (Traced ω)) : List Deed := l.world.deeds

/-- A line in a world whose record begins here. -/
def traced (l : Line ω) : Line (Traced ω) := ⟨⟨l.world, []⟩, l.taken, l.given⟩

theorem traced_alike (l : Line ω) : l.traced.Alike Traced.Erases l := ⟨rfl, rfl, rfl⟩

section

variable [Channel ω] {l l' : Line (Traced ω)}

theorem deeds_note (l : Line (Traced ω)) (event : Event) :
    (l.note event).deeds = l.deeds ++ [.note event] := rfl

/-- A read is on the record, unless there was no room to read into. -/
theorem deeds_pull {room : Nat} {result : Except IoError Reading}
    (h : l.pull room = (result, l')) :
    l'.deeds = l.deeds ∧ result = .ok ⟨[], 0⟩ ∨
      ∃ answer, l'.deeds = l.deeds ++ [.read room answer] ∧
        ∀ r, result = .ok r ↔ answer = .ok r ∧ r.count ≤ room := by
  obtain ⟨⟨world, deeds⟩, taken, given⟩ := l
  rw [pull] at h
  split at h
  · cases h
    exact .inl ⟨rfl, rfl⟩
  · rw [Traced.read_eq] at h
    generalize (Channel.read room world).1 = answer at h
    refine .inr ⟨answer, ?_⟩
    cases answer with
    | error e =>
        cases h
        exact ⟨rfl, fun r => ⟨by simp, by simp⟩⟩
    | ok r =>
        dsimp only at h
        split at h <;> rename_i hcount <;> cases h
        · refine ⟨rfl, fun r' => ⟨by simp, ?_⟩⟩
          rintro ⟨hr, hle⟩
          cases hr
          exact absurd hcount (Nat.not_lt_of_le hle)
        · refine ⟨rfl, fun r' => ⟨?_, fun hr => hr.1⟩⟩
          intro hr
          cases hr
          exact ⟨rfl, Nat.le_of_not_lt hcount⟩

/-- A write is on the record, unless there was nothing to write. -/
theorem deeds_push {bytes : List UInt8} {result : Except Error Unit}
    (h : l.push bytes = (result, l')) :
    bytes = [] ∧ l' = l ∧ result = .ok () ∨
      bytes ≠ [] ∧ ∃ answer, l'.deeds = l.deeds ++ [.write bytes answer] ∧
        (result = .ok () → answer = .ok bytes.length) := by
  obtain ⟨⟨world, deeds⟩, taken, given⟩ := l
  rw [push] at h
  split at h <;> rename_i hempty <;> rw [List.isEmpty_iff] at hempty
  · cases h
    exact .inl ⟨hempty, rfl, rfl⟩
  · rw [Traced.write_eq] at h
    generalize (Channel.write bytes world).1 = answer at h
    refine .inr ⟨hempty, answer, ?_⟩
    cases answer with
    | error e =>
        cases h
        exact ⟨rfl, by simp⟩
    | ok count =>
        dsimp only at h
        split at h <;> rename_i hcount <;> cases h
        · exact ⟨rfl, fun _ => by rw [hcount]⟩
        · exact ⟨rfl, by simp⟩

end

theorem deeds_decode [Pump ω] {l l' : Line (Traced ω)} {input : List UInt8} {room : Nat}
    {result : Except IoError Decoded} (h : l.decode input room = (result, l')) :
    l'.deeds = l.deeds ++ [.decode input room result] := by
  obtain ⟨⟨world, deeds⟩, taken, given⟩ := l
  cases h
  rfl

end Line

end Lzma
