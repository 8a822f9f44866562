import Lzma.Payload.Backlog
import Lzma.Proofs.Drafting

/-!
# Encoding comes to one payload

Whatever the pieces in which an encoder takes its data and the rooms in which it
gives its output, it gives the payload of the symbols chosen with all of the data
in view. The invariant is `Encoder.Serves`: what was given, what is queued and
what the draft comes to are that payload, at every moment. Only a step that does
not depend on data still to come is taken early, so each operation keeps it.

The second half shows that an encoder does not stall: with input and room, or at
the end with room, it moves something.
-/

namespace Lzma

namespace Encoder

/-- All that an encoder is still going to give, for some data. -/
def promise (e : Encoder) (data : Array UInt8) : List UInt8 :=
  e.queue ++ if e.closed then [] else e.draft.completed e.settings data

/-- An encoder for some data that has taken it but for `rest`, and has given `out`. -/
structure Serves (e : Encoder) (t : Settings) (data rest out : List UInt8) : Prop where
  settings : e.settings = t
  taken : e.data.toList ++ rest = data
  promise : out ++ e.promise data.toArray =
    payload t.props t.dictSize (symbolsFor t data.toArray)

variable {e : Encoder} {t : Settings} {data rest out : List UInt8} {last : Bool}

/-- What is known of an encoder that has something to do. -/
theorem open_of_not_waits (hwaits : e.waits last = false) :
    e.closed = false ∧ (last = true ∨ e.hungry = false) := by
  rw [waits, Bool.or_eq_false_iff, Bool.and_eq_false_iff] at hwaits
  refine ⟨hwaits.1, hwaits.2.imp_left ?_⟩
  intro hnot
  cases last with
  | false => cases hnot
  | true => rfl

theorem position_lt_of_fed (hfed : e.hungry = false) : e.draft.position < e.data.size := by
  have hlt : ¬ e.data.size ≤ e.draft.reached + lookahead := of_decide_eq_false hfed
  have hle : e.draft.position ≤ e.draft.reached := Nat.le_max_left _ _
  omega

theorem advance_of_lt (hlt : e.draft.position < e.data.size) :
    e.advance = { e with
      draft := (e.draft.step e.settings e.data).2.take.2
      queue := e.queue ++ (e.draft.step e.settings e.data).2.take.1
      closed := false } := by
  obtain ⟨settings, taken, base, draft, queue, closed⟩ := e
  rw [advance]
  dsimp only at hlt ⊢
  rw [if_pos hlt]

theorem advance_of_le (hle : e.data.size ≤ e.draft.position) :
    e.advance = { e with
      draft := (e.draft.finish e.settings).take.2
      queue := e.queue ++ (e.draft.finish e.settings).take.1
      closed := true } := by
  obtain ⟨settings, taken, base, draft, queue, closed⟩ := e
  rw [advance]
  dsimp only at hle ⊢
  rw [if_neg (Nat.not_lt.mpr hle)]

namespace Serves

theorem start (t : Settings) (data : List UInt8) : (Encoder.start t).Serves t data data [] :=
  ⟨rfl, rfl, Draft.completed_start t data.toArray⟩

theorem take (h : e.Serves t data rest out) (count : Nat) :
    (e.take (rest.take count)).Serves t data (rest.drop count) out := by
  refine ⟨h.settings, ?_, h.promise⟩
  show (e.data ++ rest.take count).toList ++ rest.drop count = data
  rw [Array.toList_appendList, List.append_assoc, List.take_append_drop, h.taken]

theorem give (h : e.Serves t data rest out) {byte : UInt8} {queue : List UInt8}
    (hqueue : e.queue = byte :: queue) :
    ({ e with queue } : Encoder).Serves t data rest (out ++ [byte]) := by
  refine ⟨h.settings, h.taken, ?_⟩
  rw [← h.promise, Encoder.promise, Encoder.promise, hqueue, List.append_assoc]
  rfl

/-- A symbol is written early only if the data still to come has no part in it. -/
theorem advance (h : e.Serves t data rest out) (hwaits : e.waits last = false)
    (hlast : last = true → rest = []) : e.advance.Serves t data rest out := by
  obtain ⟨hopen, hready⟩ := open_of_not_waits hwaits
  obtain ⟨rfl, htaken, hpromise⟩ := h
  have hall : data.toArray = e.data ++ rest.toArray := by
    rw [← htaken]
    simp
  have hsame : last = true → data.toArray = e.data := by
    intro hl
    rw [hall, hlast hl, Array.append_empty]
  rw [Encoder.promise, hopen, if_neg Bool.false_ne_true] at hpromise
  by_cases hlt : e.draft.position < e.data.size
  · have hlt' : e.draft.position < data.toArray.size := by
      rw [hall, Array.size_append]
      omega
    have hstep : e.draft.step e.settings data.toArray = e.draft.step e.settings e.data := by
      rcases hready with hl | hfed
      · rw [hsame hl]
      · rw [hall]
        exact Draft.step_append e.settings rest.toArray hfed
    rw [advance_of_lt hlt]
    refine ⟨rfl, htaken, ?_⟩
    rw [← hpromise, Encoder.promise, if_neg Bool.false_ne_true]
    dsimp only
    rw [List.append_assoc, Draft.completed_take, ← hstep, Draft.completed_step _ _ hlt']
  · have hl : last = true := hready.resolve_right fun hfed => hlt (position_lt_of_fed hfed)
    rw [advance_of_le (Nat.le_of_not_lt hlt)]
    refine ⟨rfl, htaken, ?_⟩
    rw [← hpromise, Encoder.promise, if_pos rfl, hsame hl,
      Draft.completed_of_le _ _ (Nat.le_of_not_lt hlt), List.append_nil]

theorem emitFrom {room : Nat} {output before : List UInt8}
    (h : e.Serves t data rest (before ++ output.reverse)) (hlast : last = true → rest = []) :
    (e.emitFrom last room output).1.Serves t data rest
      (before ++ (e.emitFrom last room output).2) := by
  fun_induction Encoder.emitFrom e last room output with
  | case1 | case3 => exact h
  | case2 e output byte queue hqueue room ih =>
      refine ih ?_
      rw [List.reverse_cons, ← List.append_assoc]
      exact h.give hqueue
  | case4 e room output hqueue hwaits ih =>
      exact ih (h.advance (Bool.eq_false_iff.mpr hwaits) hlast)

theorem emit (h : e.Serves t data rest out) (last : Bool) (hlast : last = true → rest = [])
    (room : Nat) :
    (e.emit last room).1.Serves t data rest (out ++ (e.emit last room).2) := by
  refine emitFrom ?_ hlast
  rwa [List.reverse_nil, List.append_nil]

end Serves

/-! ## What an encoder has done when it stops -/

/-- It stops for want of room, or because there is nothing to do. -/
theorem emitFrom_stops (e : Encoder) (last : Bool) (room : Nat) (output : List UInt8) :
    (e.emitFrom last room output).1.queue ≠ [] ∧
        (e.emitFrom last room output).2.length = output.length + room ∨
      (e.emitFrom last room output).1.queue = [] ∧
        (e.emitFrom last room output).1.waits last = true := by
  fun_induction emitFrom e last room output with
  | case1 e output byte queue hqueue =>
      refine .inl ⟨?_, List.length_reverse⟩
      rw [hqueue]
      exact List.cons_ne_nil _ _
  | case2 e output byte queue hqueue room ih =>
      simp only [List.length_cons, Nat.add_right_comm] at ih
      exact ih
  | case3 e room output hqueue hwaits => exact .inr ⟨hqueue, hwaits⟩
  | case4 e room output hqueue hwaits ih => exact ih

theorem emit_stops (e : Encoder) (last : Bool) (room : Nat) :
    (e.emit last room).1.queue ≠ [] ∧ (e.emit last room).2.length = room ∨
      (e.emit last room).1.queue = [] ∧ (e.emit last room).1.waits last = true := by
  simpa [emit] using e.emitFrom_stops last room []

/-- As long as there may be more data the payload is not closed. -/
theorem closed_emitFrom (hopen : e.closed = false) (room : Nat) (output : List UInt8) :
    (e.emitFrom false room output).1.closed = false := by
  fun_induction emitFrom e false room output with
  | case1 | case3 => exact hopen
  | case2 e output byte queue hqueue room ih => exact ih hopen
  | case4 e room output hqueue hwaits ih =>
      refine ih ?_
      have hready := (open_of_not_waits (Bool.eq_false_iff.mpr hwaits)).2
      rw [advance_of_lt (position_lt_of_fed (hready.resolve_left Bool.false_ne_true))]

theorem closed_emit (hopen : e.closed = false) (room : Nat) :
    (e.emit false room).1.closed = false := closed_emitFrom hopen room []

/-! ## Taking data -/

theorem feedFrom_running (e : Encoder) (input : List UInt8) (room used : Nat)
    (output : List UInt8) : (e.feedFrom input room used output).outcome = .running := by
  fun_induction feedFrom e input room used output with
  | case1 => rfl
  | case2 _ _ _ _ _ _ _ _ _ _ ih => exact ih

theorem le_used_feedFrom (e : Encoder) (input : List UInt8) (room used : Nat)
    (output : List UInt8) : used ≤ (e.feedFrom input room used output).used := by
  fun_induction feedFrom e input room used output with
  | case1 => exact Nat.le_refl _
  | case2 _ _ _ _ _ _ _ _ _ _ ih => exact Nat.le_of_add_right_le ih

/-- An encoder with space and room takes something. -/
theorem lt_used_feedFrom {input : List UInt8} {room : Nat} (hroom : 0 < room)
    (hinput : input ≠ []) (hspace : 0 < e.space) (used : Nat) (output : List UInt8) :
    used < (e.feedFrom input room used output).used := by
  have hlen := List.length_pos_iff.mpr hinput
  rw [feedFrom]
  dsimp only
  rw [if_neg (by omega)]
  refine Nat.lt_of_lt_of_le ?_ (le_used_feedFrom _ _ _ _ _)
  omega

theorem closed_feedFrom (hopen : e.closed = false) (input : List UInt8) (room used : Nat)
    (output : List UInt8) : (e.feedFrom input room used output).coder.closed = false := by
  fun_induction feedFrom e input room used output with
  | case1 => exact hopen
  | case2 e input room used output count hmoves e' bytes hemit ih =>
      refine ih ?_
      have hclosed := closed_emit (e := e.take (input.take count)) hopen room
      rwa [hemit] at hclosed

theorem Serves.feedFrom {input before output : List UInt8} {room : Nat} (used : Nat)
    (h : e.Serves t data (input ++ rest) (before ++ output)) :
    (e.feedFrom input room used output).coder.Serves t data
      (input.drop ((e.feedFrom input room used output).used - used) ++ rest)
      (before ++ (e.feedFrom input room used output).output) := by
  fun_induction Encoder.feedFrom e input room used output with
  | case1 e input room used output =>
      dsimp only
      rwa [Nat.sub_self]
  | case2 e input room used output count hmoves e' bytes hemit ih =>
      have hcount : count ≤ input.length := Nat.min_le_left _ _
      have htake := (h.take count).emit false (by simp) room
      rw [List.take_append_of_le_length hcount, List.drop_append_of_le_length hcount, hemit,
        List.append_assoc] at htake
      have hle := le_used_feedFrom e' (input.drop count) (room - bytes.length) (used + count)
        (output ++ bytes)
      have hrest := ih htake
      rwa [List.drop_drop, show count + ((Encoder.feedFrom e' (input.drop count)
        (room - bytes.length) (used + count) (output ++ bytes)).used - (used + count)) =
        (Encoder.feedFrom e' (input.drop count) (room - bytes.length) (used + count)
          (output ++ bytes)).used - used by omega] at hrest

theorem output_feedFrom_ne_nil (e : Encoder) (input : List UInt8) (room used : Nat)
    {output : List UInt8} (h : output ≠ []) :
    (e.feedFrom input room used output).output ≠ [] := by
  fun_induction feedFrom e input room used output with
  | case1 => exact h
  | case2 _ _ _ _ _ _ _ _ _ _ ih => exact ih (List.append_ne_nil_of_left_ne_nil h _)

theorem Serves.feed {input : List UInt8} (h : e.Serves t data (input ++ rest) out) (room : Nat) :
    (e.feed input room).coder.Serves t data (input.drop (e.feed input room).used ++ rest)
      (out ++ (e.feed input room).output) := by
  rw [Encoder.feed]
  split
  · rwa [List.append_nil]
  · split
    · exact feedFrom 0 (by rwa [List.append_nil])
    · exact feedFrom 0 (h.emit false (by simp) room)

/-- An encoder that is offered input and room can go on, and takes or gives something. -/
theorem feed_moves (hopen : e.closed = false) {input : List UInt8} {room : Nat}
    (hinput : input ≠ []) (hroom : 0 < room) :
    (e.feed input room).outcome = .running ∧ (e.feed input room).coder.closed = false ∧
      ¬ ((e.feed input room).used = 0 ∧ (e.feed input room).output = []) := by
  rw [feed, if_neg (not_or.mpr ⟨hinput, Nat.ne_of_gt hroom⟩)]
  split
  · next hhungry =>
      refine ⟨feedFrom_running _ _ _ _ _, closed_feedFrom hopen _ _ _ _, ?_⟩
      intro hnone
      exact Nat.ne_of_gt (lt_used_feedFrom hroom hinput (space_pos hhungry) 0 []) hnone.1
  · refine ⟨feedFrom_running _ _ _ _ _, closed_feedFrom (closed_emit hopen room) _ _ _ _,
      ?_⟩
    intro hnone
    by_cases hout : (e.emit false room).2 = []
    · rcases e.emit_stops false room with ⟨-, hfull⟩ | ⟨-, hwaits⟩
      · rw [hout] at hfull
        exact Nat.ne_of_lt hroom hfull
      · have hhungry : (e.emit false room).1.hungry = true := by
          rw [waits, closed_emit hopen room] at hwaits
          exact hwaits
        have hroom' : 0 < room - (e.emit false room).2.length := by
          rw [hout]
          exact hroom
        exact Nat.ne_of_gt (lt_used_feedFrom hroom' hinput (space_pos hhungry) 0 _) hnone.1
    · exact output_feedFrom_ne_nil _ _ _ _ hout hnone.2

/-! ## Giving out the rest -/

theorem Serves.finish (h : e.Serves t data [] out) (room : Nat) :
    (e.finish room).coder.Serves t data [] (out ++ (e.finish room).output) := by
  rw [Encoder.finish]
  split
  · rwa [List.append_nil]
  · exact h.emit true (fun _ => rfl) room

/-- At the end an encoder with room has given out all, or gives something. -/
theorem finish_moves (e : Encoder) {room : Nat} (hroom : 0 < room) :
    (e.finish room).used = 0 ∧
      ((e.finish room).outcome = .ended ∧ (e.finish room).coder.closed = true ∧
          (e.finish room).coder.queue = [] ∨
        (e.finish room).outcome = .running ∧ (e.finish room).output ≠ []) := by
  rw [finish, if_neg (Nat.ne_of_gt hroom)]
  refine ⟨rfl, ?_⟩
  dsimp only
  rcases e.emit_stops true room with ⟨hqueue, hfull⟩ | ⟨hqueue, hwaits⟩
  · refine .inr ⟨if_neg ?_, ?_⟩
    · simp only [Bool.and_eq_true, List.isEmpty_iff]
      intro hboth
      exact hqueue hboth.2
    · refine List.ne_nil_of_length_pos ?_
      rw [hfull]
      exact hroom
  · have hclosed : (e.emit true room).1.closed = true := by
      rw [waits, Bool.not_true, Bool.false_and, Bool.or_false] at hwaits
      exact hwaits
    refine .inl ⟨if_pos ?_, hclosed, hqueue⟩
    rw [hclosed, hqueue]
    rfl

/-- An encoder that has given out all has given the payload. -/
theorem Serves.complete (h : e.Serves t data rest out) (hclosed : e.closed = true)
    (hqueue : e.queue = []) : out = payload t.props t.dictSize (symbolsFor t data.toArray) := by
  have hpromise := h.promise
  rwa [Encoder.promise, hclosed, hqueue, if_pos rfl, List.append_nil, List.append_nil] at hpromise

end Encoder

end Lzma
