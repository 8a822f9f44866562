import Lzma.Channel.Basic

/-!
# Sources and sinks

Most worlds are made of parts that know nothing of each other: a source of
bytes, a sink for bytes, and memory that allocation callbacks count or deny. An
`Exchange` puts such parts together and keeps the journal itself.
-/

namespace Lzma

class Source (σ : Type) where
  read : Nat → σ → Except IoError Reading × σ
  credit : σ → Nat
  credit_read_lt {room : Nat} {s : σ} {r : Reading} :
    (read room s).1 = .ok r → 0 < r.count → r.count ≤ room → credit (read room s).2 < credit s

class Sink (τ : Type) where
  write : List UInt8 → τ → Except IoError Nat × τ

instance {σ σ' : Type} [Source σ] [Source σ'] : Source (σ ⊕ σ') where
  read room
    | .inl s => let (r, s) := Source.read room s; (r, .inl s)
    | .inr s => let (r, s) := Source.read room s; (r, .inr s)
  credit
    | .inl s => Source.credit s
    | .inr s => Source.credit s
  credit_read_lt {room s r} := by
    cases s <;> exact Source.credit_read_lt

instance {τ τ' : Type} [Sink τ] [Sink τ'] : Sink (τ ⊕ τ') where
  write bytes
    | .inl s => let (r, s) := Sink.write bytes s; (r, .inl s)
    | .inr s => let (r, s) := Sink.write bytes s; (r, .inr s)

/-- A world of separate parts. -/
structure Exchange (σ τ μ : Type) where
  source : σ
  sink : τ
  memory : μ
  /-- The journal, the latest event first. -/
  events : List Event := []

namespace Exchange

variable {σ τ μ : Type}

instance : Journal (Exchange σ τ μ) where
  note event x := { x with events := event :: x.events }

instance [Source σ] [Sink τ] : Channel (Exchange σ τ μ) where
  toJournal := inferInstance
  read room x := let (r, source) := Source.read room x.source; (r, { x with source })
  write bytes x := let (r, sink) := Sink.write bytes x.sink; (r, { x with sink })
  credit x := Source.credit x.source
  credit_read_lt := Source.credit_read_lt
  credit_write_le _ _ := Nat.le_refl _
  credit_note_le _ _ := Nat.le_refl _

end Exchange

end Lzma
