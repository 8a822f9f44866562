import Lzma.Channel.Exchange

/-!
# Readers and writers as sources and sinks

A source or a sink that fails has failed for good. The readers and writers an
operating system offers are not like that: a call may be interrupted and has to
be made again, and a write may take only a part of what it was offered.
`Retrying` and `Whole` turn them into a source and a sink.

A reader or writer may be interrupted only so many times; its credit counts the
interruptions too. A writer may not take more than it is offered: one that says so
breaks its contract, and a program that goes on with what is left of its buffer
stops there. A sink that does the same is answered with an error.
-/

namespace Lzma

/-- Something to read from whose calls may be interrupted. -/
class Reader (ρ : Type) where
  read : Nat → ρ → Except IoError Reading × ρ
  /-- A bound on the calls that still bring bytes or are interrupted. -/
  credit : ρ → Nat
  credit_read_lt {room : Nat} {x : ρ} {r : Reading} :
    (read room x).1 = .ok r → 0 < r.count → r.count ≤ room → credit (read room x).2 < credit x
  credit_interrupted_lt {room : Nat} {x : ρ} {e : IoError} :
    (read room x).1 = .error e → e.kind = .interrupted → credit (read room x).2 < credit x

/-- A reader whose interrupted calls are made again. -/
structure Retrying (ρ : Type) where
  reader : ρ

namespace Retrying

variable {ρ : Type} [Reader ρ]

/-- Reads until a call is not interrupted. -/
def read (room : Nat) (x : ρ) : Except IoError Reading × ρ :=
  match _ : Reader.read room x with
  | (.ok r, x') => (.ok r, x')
  | (.error e, x') => if _ : e.kind = .interrupted then read room x' else (.error e, x')
termination_by Reader.credit x
decreasing_by
  rename_i hread hk
  have hlt := Reader.credit_interrupted_lt (congrArg Prod.fst hread) hk
  rwa [hread] at hlt

theorem credit_read_lt {room : Nat} {x : ρ} {r : Reading} (h : (read room x).1 = .ok r)
    (hpos : 0 < r.count) (hle : r.count ≤ room) :
    Reader.credit (read room x).2 < Reader.credit x := by
  fun_induction read room x with
  | case1 x r' x' hread =>
      cases h
      have := Reader.credit_read_lt (by rw [hread]) hpos hle
      rwa [hread] at this
  | case2 x e x' hread hk ih =>
      have := Reader.credit_interrupted_lt (by rw [hread]) hk
      rw [hread] at this
      exact Nat.lt_trans (ih h) this
  | case3 => cases h

instance : Source (Retrying ρ) where
  read room s := let (r, reader) := read room s.reader; (r, ⟨reader⟩)
  credit s := Reader.credit s.reader
  credit_read_lt := credit_read_lt

end Retrying

/-- Something to write to that may be interrupted and may take less than it is offered. -/
class Writer (υ : Type) where
  write : List UInt8 → υ → Except IoError Nat × υ
  count_write_le {bytes : List UInt8} {x : υ} {count : Nat} :
    (write bytes x).1 = .ok count → count ≤ bytes.length
  credit : υ → Nat
  credit_write_le (bytes : List UInt8) (x : υ) : credit (write bytes x).2 ≤ credit x
  credit_interrupted_lt {bytes : List UInt8} {x : υ} {e : IoError} :
    (write bytes x).1 = .error e → e.kind = .interrupted → credit (write bytes x).2 < credit x

/-- A writer that is called until it has taken all it was offered. -/
structure Whole (υ : Type) where
  writer : υ

namespace Whole

variable {υ : Type} [Writer υ]

/-- Writes until nothing is left. A writer that takes nothing has failed. -/
def write (bytes : List UInt8) (x : υ) : Except IoError Unit × υ :=
  if _ : bytes = [] then (.ok (), x)
  else match _ : Writer.write bytes x with
    | (.ok count, x') =>
        if _ : count = 0 then (.error .writeStalled, x') else write (bytes.drop count) x'
    | (.error e, x') => if _ : e.kind = .interrupted then write bytes x' else (.error e, x')
termination_by (Writer.credit x, bytes.length)
decreasing_by
  · rename_i hne hwrite hcount
    have hle := Writer.credit_write_le bytes x
    rw [hwrite] at hle
    rcases Nat.lt_or_eq_of_le hle with hlt | heq
    · exact Prod.Lex.left _ _ hlt
    · have hpos := List.length_pos_iff.mpr hne
      rw [show Writer.credit x' = Writer.credit x from heq]
      exact Prod.Lex.right _ (by rw [List.length_drop]; omega)
  · rename_i hne hwrite hk
    have hlt := Writer.credit_interrupted_lt (congrArg Prod.fst hwrite) hk
    rw [hwrite] at hlt
    exact Prod.Lex.left _ _ hlt

instance : Sink (Whole υ) where
  write bytes s :=
    match write bytes s.writer with
    | (.ok (), writer) => (.ok bytes.length, ⟨writer⟩)
    | (.error e, writer) => (.error e, ⟨writer⟩)

end Whole

end Lzma
