import Lzma.Channel.Adapter
import Lzma.Script.Tally

/-!
# Sinks that follow a script

A `ScriptedSink` stores what it is given and keeps a log of the offers. A rule
can make it behave otherwise at one call. It can be used as a sink, which takes
all it is offered unless a rule says more or less, or as a writer, which never
takes more than it is offered and may be limited to so many bytes a call.
-/

namespace Lzma

inductive WriteRule where
  | failure (error : IoError)
  /-- So many bytes are reported as taken. -/
  | accept (count : Nat)
  /-- So many bytes less than were offered are reported as taken. -/
  | short (count : Nat)
  | plain
  deriving DecidableEq

/-- Rules by the number of the call, and what has been stored. -/
structure ScriptedSink where
  rules : List (Nat × WriteRule) := []
  /-- The most that a writer takes at a call without a rule. -/
  limit : Option Nat := none
  calls : Nat := 0
  /-- What was stored, the latest part first. -/
  parts : List (List UInt8) := []
  /-- The lengths of the offers. -/
  offers : Tally Nat := {}

namespace ScriptedSink

def stored (s : ScriptedSink) : List UInt8 := s.parts.reverse.flatten

def rule (s : ScriptedSink) : Option WriteRule := s.rules.lookup s.calls

def took (s : ScriptedSink) (bytes : List UInt8) (count : Nat) :
    Except IoError Nat × ScriptedSink :=
  (.ok count, { s with
    calls := s.calls + 1
    parts := bytes.take count :: s.parts
    offers := s.offers.add bytes.length })

def failed (s : ScriptedSink) (bytes : List UInt8) (e : IoError) :
    Except IoError Nat × ScriptedSink :=
  (.error e, { s with calls := s.calls + 1, offers := s.offers.add bytes.length })

instance : Sink ScriptedSink where
  write bytes s :=
    match s.rule with
    | some (.failure e) => s.failed bytes e
    | some (.accept count) => s.took bytes count
    | some (.short count) => s.took bytes (bytes.length - count)
    | some .plain | none => s.took bytes bytes.length

def writeSome (bytes : List UInt8) (s : ScriptedSink) : Except IoError Nat × ScriptedSink :=
  match s.rule with
  | some (.failure e) => s.failed bytes e
  | some (.accept count) => s.took bytes (min count bytes.length)
  | some (.short _) | some .plain => s.took bytes 0
  | none => s.took bytes (min (s.limit.getD bytes.length) bytes.length)

theorem count_writeSome_le {bytes : List UInt8} {s : ScriptedSink} {count : Nat}
    (h : (writeSome bytes s).1 = .ok count) : count ≤ bytes.length := by
  rw [writeSome] at h
  split at h <;> cases h
  · exact Nat.min_le_right _ _
  · exact Nat.zero_le _
  · exact Nat.zero_le _
  · exact Nat.min_le_right _ _

/-- How many rules are still to come. -/
def rulesLeft (rules : List (Nat × WriteRule)) (calls : Nat) : Nat :=
  rules.countP fun r => calls ≤ r.1

theorem rulesLeft_succ_le (rules : List (Nat × WriteRule)) (calls : Nat) :
    rulesLeft rules (calls + 1) ≤ rulesLeft rules calls :=
  List.countP_mono_left fun r _ h => by
    simp only [decide_eq_true_eq] at h ⊢
    omega

theorem rulesLeft_succ_lt {rules : List (Nat × WriteRule)} {calls : Nat} {rule : WriteRule}
    (h : rules.lookup calls = some rule) : rulesLeft rules (calls + 1) < rulesLeft rules calls := by
  induction rules with
  | nil => cases h
  | cons r rest ih =>
      obtain ⟨at_, rule'⟩ := r
      rw [List.lookup_cons] at h
      rw [rulesLeft, rulesLeft] at ih ⊢
      rw [List.countP_cons, List.countP_cons]
      cases heq : calls == at_ with
      | true =>
          have hat : calls = at_ := eq_of_beq heq
          have hle := rulesLeft_succ_le rest calls
          rw [rulesLeft, rulesLeft] at hle
          subst hat
          simp only [Nat.le_refl, decide_true, if_true]
          have hnot : ¬ calls + 1 ≤ calls := Nat.not_succ_le_self calls
          simp only [hnot, decide_false, Bool.false_eq_true, if_false]
          omega
      | false =>
          rw [heq] at h
          have hlt := ih h
          by_cases h1 : calls + 1 ≤ at_
          · have h0 : calls ≤ at_ := by omega
            simp only [h1, h0, decide_true, if_true]
            omega
          · by_cases h0 : calls ≤ at_
            · simp only [h1, h0, decide_true, decide_false, Bool.false_eq_true, if_true, if_false]
              omega
            · simp only [h1, h0, decide_false, Bool.false_eq_true, if_false]
              omega

theorem rulesLeft_writeSome_le (bytes : List UInt8) (s : ScriptedSink) :
    rulesLeft (writeSome bytes s).2.rules (writeSome bytes s).2.calls ≤
      rulesLeft s.rules s.calls := by
  have hle := rulesLeft_succ_le s.rules s.calls
  rw [writeSome]
  split <;> exact hle

theorem rulesLeft_writeSome_lt {bytes : List UInt8} {s : ScriptedSink} {e : IoError}
    (h : (writeSome bytes s).1 = .error e) :
    rulesLeft (writeSome bytes s).2.rules (writeSome bytes s).2.calls <
      rulesLeft s.rules s.calls := by
  rw [writeSome] at h ⊢
  split at h <;> rename_i hrule
  · exact rulesLeft_succ_lt hrule
  all_goals cases h

instance : Writer ScriptedSink where
  write := writeSome
  count_write_le := count_writeSome_le
  credit s := rulesLeft s.rules s.calls
  credit_write_le := rulesLeft_writeSome_le
  credit_interrupted_lt h _ := rulesLeft_writeSome_lt h

end ScriptedSink

end Lzma
