import Lzma.Proofs.Calls
import Lzma.Proofs.Compression
import Lzma.Proofs.Feeding
import Lzma.Proofs.Interval
import Lzma.Proofs.Scripted
import Mathlib.Algebra.GroupWithZero.Nat
import Mathlib.Data.List.Induction

/-!
# An encoder gives one payload, call by call

An encoder is brought its data piece by piece and then asked for the rest of the payload, again
piece by piece. What is behind the calls that bring data is `Stream.Serves`, which the calls of a
run keep as well. Behind the first call that asks for the rest it is `Stream.Owes`: a stream is
at its end if and only if the encoder has nothing left to give. So the call that gives the last
byte is the one that tells so, also if its room is just large enough, and no call before it does.

From there on the encoder is a list of bytes that gets shorter from the front. Calls take away
what they ask for (`Draining.Leaves.ask`), and all that was given behind some calls depends on
the sum of their rooms alone. The list is not empty to begin with, for closing a payload always
settles some byte (`RangeWriter.output_close_ne_nil`).
-/

namespace Lzma

/-! ## There is always something to close -/

namespace RangeWriter

/-- A byte that is not all ones settles what was held back. -/
theorem settled_shift_ne_nil {w : RangeWriter} (hlow : w.low = 0) : w.shift.settled ≠ [] := by
  unfold shift
  rw [hlow]
  simp

/-- Four bytes are all that the remainder has, so a fifth one settles something. -/
theorem output_close_ne_nil (w : RangeWriter) : w.close.output ≠ [] := by
  have hlow : w.normalize.shift.shift.shift.shift.low = 0 := by
    simp only [low_shift, minRange]
    omega
  rw [output, close]
  simpa using settled_shift_ne_nil hlow

end RangeWriter

theorem Draft.completed_ne_nil (t : Settings) (data : Array UInt8) (d : Draft) :
    d.completed t data ≠ [] := RangeWriter.output_close_ne_nil _

namespace Encoder

variable {e : Encoder} {t : Settings} {data out : List UInt8} {room : Nat}

theorem promise_ne_nil (hopen : e.closed = false) (data : Array UInt8) : e.promise data ≠ [] := by
  rw [promise, hopen, if_neg Bool.false_ne_true]
  exact List.append_ne_nil_of_right_ne_nil _ (Draft.completed_ne_nil _ _ _)

/-- A call that asks for the rest gets as much of it as there is room for. -/
theorem Serves.finish_eq (h : e.Serves t data [] out) (hroom : 0 < room) :
    (e.finish room).output = (e.promise data.toArray).take room ∧
      (e.finish room).coder.promise data.toArray = (e.promise data.toArray).drop room ∧
      (e.finish room).outcome =
        if (e.promise data.toArray).length ≤ room then .ended else .running := by
  have hrest : e.promise data.toArray =
      (e.finish room).output ++ (e.finish room).coder.promise data.toArray := by
    have hsame := h.promise.trans (h.finish room).promise.symm
    rw [List.append_assoc] at hsame
    exact List.append_cancel_left hsame
  have hfit := e.length_finish_le room
  rw [hrest]
  rw [Encoder.finish, if_neg (Nat.ne_of_gt hroom)] at hfit ⊢
  dsimp only at hfit ⊢
  rcases e.emit_stops true room with ⟨hqueue, hfull⟩ | ⟨hqueue, hwaits⟩
  · have hmore : (e.emit true room).1.promise data.toArray ≠ [] :=
      List.append_ne_nil_of_left_ne_nil hqueue _
    have hlength := List.length_pos_iff.mpr hmore
    refine ⟨(List.take_left' hfull).symm, (List.drop_left' hfull).symm, ?_⟩
    rw [if_neg (by simp [hqueue]), if_neg (by rw [List.length_append]; omega)]
  · have hclosed : (e.emit true room).1.closed = true := by simpa [waits] using hwaits
    have hnone : (e.emit true room).1.promise data.toArray = [] := by
      rw [Encoder.promise, hclosed, hqueue]
      rfl
    rw [hnone, List.append_nil, List.take_of_length_le hfit, List.drop_eq_nil_of_le hfit]
    refine ⟨rfl, rfl, ?_⟩
    rw [if_pos (by simp [hclosed, hqueue]), if_pos hfit]

end Encoder

/-! ## What an encoder has counted -/

theorem Encoder.outcome_feedFrom (e : Encoder) (input : List UInt8) (room used : Nat)
    (output : List UInt8) : (e.feedFrom input room used output).outcome = .running := by
  fun_induction feedFrom e input room used output with
  | case1 => rfl
  | case2 _ _ _ _ _ _ _ _ _ _ ih => exact ih

/-- There is nothing in its data that an encoder could find malformed. -/
theorem Encoder.outcome_pass (e : Encoder) (call : Call) (room : Nat) :
    (Coder.pass call room e).outcome ≠ .corrupt := by
  cases call with
  | feed input =>
      show (e.feed input room).outcome ≠ .corrupt
      rw [feed]
      split
      · simp
      · split <;> simp [outcome_feedFrom]
  | finish =>
      show (e.finish room).outcome ≠ .corrupt
      rw [finish]
      split
      · simp
      · dsimp only
        split <;> simp

/-- So a call that fails has moved nothing. -/
theorem Stream.totals_of_error {s s' : Stream Encoder} {call : Call} {room : Nat} {e : IoError}
    (h : s.encodeCall call room = (.error e, s')) :
    s'.totalIn = s.totalIn ∧ s'.totalOut = s.totalOut := by
  have hcall := s.called call room
  have hsound := s.coder.outcome_pass call room
  rw [encodeCall] at h
  generalize s.call call room = answer at h hcall
  cases hcall with
  | goesOn | idles | ends | ended => cases h
  | breaks _ _ hcorrupt => exact absurd hcorrupt hsound
  | refused =>
      cases h
      exact ⟨rfl, rfl⟩
  | stalls _ _ _ hused hout =>
      cases h
      rw [behindPass, hused, hout]
      exact ⟨rfl, rfl⟩

/-! ## Asking for the rest -/

theorem Stage.afterCall_finish {stage : Stage} (h : stage = .running ∨ stage = .finishing) :
    stage.afterCall .finish = some .finishing := by
  rcases h with rfl | rfl <;> rfl

/-- What a stream has still to give when there is no more data, and that it ends with it. -/
inductive Stream.Owes (t : Settings) (data : List UInt8) :
    Stream Encoder → List UInt8 → Prop
  | live {s : Stream Encoder} (hstage : s.stage = .running ∨ s.stage = .finishing)
      (out : List UInt8) (hserves : s.coder.Serves t data [] out)
      (hrest : s.coder.promise data.toArray ≠ []) : Owes t data s (s.coder.promise data.toArray)
  | ended {s : Stream Encoder} (hstage : s.stage = .ended) : Owes t data s []

namespace Stream.Owes

variable {t : Settings} {data rest : List UInt8} {s : Stream Encoder} {room : Nat}

/-- Behind the last byte every call is answered alike, and nothing happens any more. -/
theorem encodeCall_of_nil (h : Owes t data s []) (call : Call) (room : Nat) :
    s.encodeCall call room = (.ok ⟨0, [], true⟩, s) := by
  have hended : s.stage = .ended := by
    generalize hrest : ([] : List UInt8) = rest at h
    cases h with
    | live _ _ _ hmore => exact absurd hrest.symm hmore
    | ended hstage => exact hstage
  rw [encodeCall, Stream.call, if_pos hended]

/-- Data that comes too late is refused, and nothing is changed by it. -/
theorem encode_of_late (h : Owes t data s rest) (hasked : s.stage ≠ .running) (hrest : rest ≠ [])
    (input : List UInt8) (room : Nat) :
    s.encode input room = (.error Fault.misuse.toIoError, s) := by
  cases h with
  | ended => exact absurd rfl hrest
  | live hstage =>
      have hfinishing := hstage.resolve_left hasked
      rw [encode, encodeCall, Stream.call, if_neg (by simp [hfinishing]), hfinishing]
      rfl

/-- A call that asks for the rest gives as much of it as there is room for. -/
theorem finish (h : Owes t data s rest) (hroom : 0 < room) :
    ∃ s', s.finish room = (.ok ⟨0, rest.take room, decide (rest.length ≤ room)⟩, s') ∧
      Owes t data s' (rest.drop room) ∧ s'.stage ≠ .running := by
  cases h with
  | ended hstage =>
      have hended : Owes t data s [] := .ended hstage
      refine ⟨s, ?_, by simpa using hended, by simp [hstage]⟩
      rw [Stream.finish, hended.encodeCall_of_nil]
      simp
  | live hstage out hserves hmore =>
      obtain ⟨hout, hrest, houtcome⟩ := hserves.finish_eq hroom
      have hserves' := hserves.finish room
      have hcall := s.called .finish room
      have hpass : Coder.pass .finish room s.coder = s.coder.finish room := rfl
      have hused := s.coder.used_finish room
      rw [Stream.finish, encodeCall]
      rw [hpass] at hcall
      generalize s.coder.finish room = p at *
      generalize s.call .finish room = answer at hcall
      have hgiven : p.output ≠ [] := by
        rw [hout]
        simp [hmore, Nat.ne_of_gt hroom]
      cases hcall with
      | goesOn stage hafter hrun =>
          have hspare : ¬(s.coder.promise data.toArray).length ≤ room := by
            intro hfit
            rw [houtcome, if_pos hfit] at hrun
            cases hrun
          cases hafter.symm.trans (Stage.afterCall_finish hstage)
          refine ⟨_, by rw [hused, hout, decide_eq_false hspare], ?_, by simp [behindPass]⟩
          rw [← hrest]
          refine .live (.inr rfl) _ hserves' ?_
          rw [behindPass, hrest]
          simp
          omega
      | ends stage hafter hended =>
          have hfit : (s.coder.promise data.toArray).length ≤ room := by
            by_contra hspare
            rw [houtcome, if_neg hspare] at hended
            cases hended
          refine ⟨_, by rw [hused, hout, decide_eq_true hfit], ?_, by simp [behindPass]⟩
          rw [List.drop_eq_nil_of_le hfit]
          exact .ended rfl
      | idles _ _ _ _ hnone | stalls _ _ _ _ hnone => exact absurd hnone hgiven
      | breaks _ _ hcorrupt =>
          rw [hcorrupt] at houtcome
          split at houtcome <;> cases houtcome
      | ended hended => simp [hended] at hstage
      | refused _ hnone => cases hnone.symm.trans (Stage.afterCall_finish hstage)

/-- Without room a call leaves all of the rest to come, whether it is tolerated or not. -/
theorem finish_zero (h : Owes t data s rest) :
    ∃ result s', s.finish 0 = (result, s') ∧ (∀ moved, result = .ok moved → moved.output = []) ∧
      Owes t data s' rest ∧ s'.stage ≠ .running := by
  cases h with
  | ended hstage =>
      have hended : Owes t data s [] := .ended hstage
      exact ⟨_, s, hended.encodeCall_of_nil _ _, by simp, hended, by simp [hstage]⟩
  | live hstage out hserves hmore =>
      have hcall := s.called .finish 0
      have hpass : Coder.pass .finish 0 s.coder = ⟨s.coder, 0, [], .running⟩ := rfl
      rw [hpass] at hcall
      rw [Stream.finish, encodeCall]
      generalize s.call .finish 0 = answer at hcall
      have hlive (stalled : Bool) (stage : Stage)
          (hafter : s.stage.afterCall .finish = some stage) :
          Owes t data (s.behindPass ⟨s.coder, 0, [], .running⟩ stage stalled)
              (s.coder.promise data.toArray) ∧
            (s.behindPass ⟨s.coder, 0, [], .running⟩ stage stalled).stage ≠ .running := by
        cases hafter.symm.trans (Stage.afterCall_finish hstage)
        exact ⟨.live (.inr rfl) out hserves hmore, by simp [behindPass]⟩
      cases hcall with
      | idles stage hafter => exact ⟨_, _, rfl, by simp, hlive true stage hafter⟩
      | stalls stage hafter => exact ⟨_, _, rfl, by simp, hlive true stage hafter⟩
      | goesOn _ _ _ hmoves => exact absurd ⟨rfl, rfl⟩ hmoves
      | ends _ _ hended => cases hended
      | breaks _ _ hcorrupt => cases hcorrupt
      | ended hended => simp [hended] at hstage
      | refused _ hnone => cases hnone.symm.trans (Stage.afterCall_finish hstage)

end Stream.Owes

/-- A call of an encoder, with some room. -/
structure Request where
  call : Call
  room : Nat

/-- How much of the rest a call asks for. -/
def Request.asks (r : Request) : Nat :=
  match r.call with
  | .finish => r.room
  | .feed _ => 0

/-- An encoder that is asked for the rest, and what it has given of it. -/
structure Draining where
  stream : Stream Encoder
  given : List UInt8 := []

namespace Draining

def ask (x : Draining) (r : Request) : Draining :=
  match x.stream.encodeCall r.call r.room with
  | (.error _, stream) => { x with stream }
  | (.ok moved, stream) => ⟨stream, x.given ++ moved.output⟩

def run (x : Draining) (rs : List Request) : Draining := rs.foldl ask x

/-- The answer to a call behind some others. -/
def answer (x : Draining) (rs : List Request) (r : Request) : Except IoError Encoded :=
  ((x.run rs).stream.encodeCall r.call r.room).1

/-- How much some calls ask for. -/
def asked (rs : List Request) : Nat := (rs.map Request.asks).sum

theorem asked_concat (rs : List Request) (r : Request) : asked (rs ++ [r]) = asked rs + r.asks := by
  simp [asked]

theorem run_concat (x : Draining) (rs : List Request) (r : Request) :
    x.run (rs ++ [r]) = (x.run rs).ask r := List.foldl_append

/-- The encoder counts what it gives. -/
theorem counted_ask (x : Draining) (r : Request) :
    (x.ask r).stream.totalOut + x.given.length =
      x.stream.totalOut + (x.ask r).given.length := by
  rcases hcall : x.stream.encodeCall r.call r.room with ⟨e | moved, s'⟩
  · rw [ask, hcall]
    dsimp only
    rw [(Stream.totals_of_error hcall).2]
  · rw [ask, hcall]
    dsimp only
    rw [(Stream.totals_encodeCall hcall).2.1, List.length_append]
    omega

theorem counted_run (x : Draining) (rs : List Request) :
    (x.run rs).stream.totalOut + x.given.length =
      x.stream.totalOut + (x.run rs).given.length := by
  induction rs using List.reverseRecOn with
  | nil => rfl
  | append_singleton rs r ih =>
      have hask := (x.run rs).counted_ask r
      rw [run_concat]
      omega

/-- An encoder that goes on with what is left of the rest. -/
structure Leaves (t : Settings) (data rest : List UInt8) (x : Draining) (left : List UInt8) :
    Prop where
  total : x.given ++ left = rest
  owes : Stream.Owes t data x.stream left

variable {t : Settings} {data rest left : List UInt8} {x : Draining}

/-- A call takes away from the front of the rest what it asks for, and nothing else does. -/
theorem Leaves.ask (h : x.Leaves t data rest left) (r : Request)
    (hasked : x.stream.stage = .running → r.call = .finish) :
    (x.ask r).Leaves t data rest (left.drop r.asks) ∧ (x.ask r).stream.stage ≠ .running := by
  obtain ⟨call, room⟩ := r
  rw [Draining.ask]
  cases call with
  | feed input =>
      have hlive : x.stream.stage ≠ .running := by
        intro hstage
        cases hasked hstage
      cases left with
      | nil =>
          rw [h.owes.encodeCall_of_nil]
          exact ⟨⟨by simpa using h.total, h.owes⟩, hlive⟩
      | cons byte left =>
          have hcall := h.owes.encode_of_late hlive (List.cons_ne_nil _ _) input room
          rw [Stream.encode] at hcall
          rw [hcall]
          exact ⟨h, hlive⟩
  | finish =>
      cases room with
      | zero =>
          obtain ⟨result, s', hcall, hnone, howes, hlive⟩ := h.owes.finish_zero
          rw [Stream.finish] at hcall
          dsimp only
          rw [hcall]
          cases result with
          | error => exact ⟨⟨h.total, howes⟩, hlive⟩
          | ok moved =>
              refine ⟨⟨?_, howes⟩, hlive⟩
              dsimp only
              rw [hnone moved rfl, List.append_nil]
              exact h.total
      | succ room =>
          obtain ⟨s', hcall, howes, hlive⟩ := h.owes.finish room.succ_pos
          rw [Stream.finish] at hcall
          dsimp only
          rw [hcall]
          refine ⟨⟨?_, howes⟩, hlive⟩
          rw [List.append_assoc]
          exact (congrArg _ (List.take_append_drop _ _)).trans h.total

theorem Leaves.run (h : x.Leaves t data rest left) (hlive : x.stream.stage ≠ .running)
    (rs : List Request) :
    (x.run rs).Leaves t data rest (left.drop (asked rs)) ∧
      (x.run rs).stream.stage ≠ .running := by
  induction rs using List.reverseRecOn with
  | nil => exact ⟨h, hlive⟩
  | append_singleton rs r ih =>
      have hask := ih.1.ask r fun hstage => absurd hstage ih.2
      rw [List.drop_drop] at hask
      rw [run_concat, asked_concat]
      exact hask

/-- What a call comes to that is made behind some others when there is no more data. -/
structure Pays (x : Draining) (rest : List UInt8) (before : List Request) (r : Request) :
    Prop where
  given : (x.run (before ++ [r])).given = rest.take (asked (before ++ [r]))
  counted : (x.run (before ++ [r])).stream.totalOut + x.given.length =
    x.stream.totalOut + (x.run (before ++ [r])).given.length
  finish : r.call = .finish → 0 < r.room → x.answer before r =
    .ok ⟨0, (rest.drop (asked before)).take r.room, decide (rest.length ≤ asked before + r.room)⟩
  late (input : List UInt8) : r.call = .feed input → asked before < rest.length →
    x.answer before r = .error Fault.misuse.toIoError ∧ x.run (before ++ [r]) = x.run before
  done : rest.length ≤ asked before →
    x.answer before r = .ok ⟨0, [], true⟩ ∧ x.run (before ++ [r]) = x.run before

theorem Leaves.given_eq {n : Nat} (h : x.Leaves t data rest (rest.drop n)) :
    x.given = rest.take n := by
  have htotal := h.total.trans (List.take_append_drop n rest).symm
  exact List.append_cancel_right htotal

theorem pays_of_leaves {before : List Request} {r : Request}
    (h : (x.run before).Leaves t data rest (rest.drop (asked before)))
    (hasked : (x.run before).stream.stage = .running → r.call = .finish) :
    x.Pays rest before r := by
  have hask := (h.ask r hasked).1
  rw [List.drop_drop, ← asked_concat, ← run_concat] at hask
  obtain ⟨call, room⟩ := r
  refine ⟨hask.given_eq, counted_run _ _, ?_, ?_, ?_⟩
  · rintro rfl hroom
    obtain ⟨s', hcall, -⟩ := h.owes.finish hroom
    have hfit : (rest.drop (asked before)).length ≤ room ↔ rest.length ≤ asked before + room := by
      rw [List.length_drop]
      omega
    rw [Stream.finish] at hcall
    rw [answer, hcall, decide_eq_decide.mpr hfit]
  · rintro input rfl hmore
    have hlive : (x.run before).stream.stage ≠ .running := by
      intro hstage
      cases hasked hstage
    have hrest : rest.drop (asked before) ≠ [] := by simpa using hmore
    have hcall := h.owes.encode_of_late hlive hrest input room
    rw [Stream.encode] at hcall
    rw [answer, run_concat, ask, hcall]
    exact ⟨rfl, rfl⟩
  · intro hall
    have hnone := h.owes
    rw [List.drop_eq_nil_of_le hall] at hnone
    rw [answer, run_concat, ask, hnone.encodeCall_of_nil]
    exact ⟨rfl, by simp⟩

/-- Whatever is asked for behind a call that asks for the rest. -/
theorem pays (h : x.Leaves t data rest rest) {room : Nat} {rs before after : List Request}
    {r : Request} (hcut : ⟨.finish, room⟩ :: rs = before ++ r :: after) : x.Pays rest before r := by
  cases before with
  | nil =>
      obtain ⟨rfl, -⟩ := List.cons.inj hcut
      exact pays_of_leaves h fun _ => rfl
  | cons first before =>
      obtain ⟨rfl, -⟩ := List.cons.inj hcut
      obtain ⟨hfirst, hlive⟩ := h.ask ⟨.finish, room⟩ fun _ => rfl
      have hrun := hfirst.run hlive before
      rw [List.drop_drop] at hrun
      exact pays_of_leaves hrun.1 fun hstage => absurd hstage hrun.2

end Draining

/-! ## Bringing the data -/

namespace Feeding

/-- Each of some calls brings some data and some room. -/
def Filled (x : Feeding Encoder) : List Offer → Prop
  | [] => True
  | o :: os => (x.slice o ≠ [] ∧ 0 < o.room) ∧ (x.offer o).Filled os

variable {t : Settings} {data : List UInt8} {x : Feeding Encoder}

/-- A call leaves all of the data but what it was offered. -/
theorem length_left_le (x : Feeding Encoder) (o : Offer) :
    x.left.length ≤ (x.offer o).left.length + o.count := by
  rcases hcall : x.stream.encode (x.slice o) o.room with ⟨e | moved, s'⟩
  · rw [offer_encode, hcall]
    exact Nat.le_add_right _ _
  · have hused : moved.used ≤ (x.slice o).length := (Stream.totals_encodeCall hcall).2.2
    rw [slice, List.length_take] at hused
    rw [offer_encode, hcall]
    dsimp only
    rw [List.length_drop]
    omega

theorem slice_ne_nil {o : Offer} (hcount : 0 < o.count) (hleft : 0 < x.left.length) :
    x.slice o ≠ [] := by
  rw [slice]
  exact List.ne_nil_of_length_pos (by rw [List.length_take]; omega)

/-- A call that brings data and room succeeds, and the encoder goes on to serve the payload. -/
theorem offer_serves (h : x.stream.Serves t data x.left x.written) {o : Offer}
    (hslice : x.slice o ≠ []) (hroom : 0 < o.room) :
    (∃ moved, (x.stream.encode (x.slice o) o.room).1 = .ok moved) ∧
      (x.offer o).stream.Serves t data (x.offer o).left (x.offer o).written := by
  have hleft : x.slice o ++ x.left.drop o.count = x.left := List.take_append_drop _ _
  rw [← hleft] at h
  rcases hcall : x.stream.encode (x.slice o) o.room with ⟨result, s'⟩
  obtain ⟨moved, rfl, -, hserves⟩ := h.of_encode hslice hroom hcall
  have hused : moved.used ≤ (x.slice o).length := by
    rw [(Stream.eq_of_encodeCall hcall).1]
    exact x.stream.used_call_le (.feed (x.slice o)) o.room
  refine ⟨⟨moved, rfl⟩, ?_⟩
  rw [offer_encode, hcall]
  rwa [← List.drop_append_of_le_length hused, hleft] at hserves

/-- Calls that bring data and room succeed, whatever the pieces. -/
theorem offers_serves (h : x.stream.Serves t data x.left x.written) {os : List Offer}
    (hfilled : x.Filled os) :
    (∀ before o after, os = before ++ o :: after →
      ∃ moved, ((x.offers before).stream.encode ((x.offers before).slice o) o.room).1 = .ok moved) ∧
      (x.offers os).stream.Serves t data (x.offers os).left (x.offers os).written := by
  induction os generalizing x with
  | nil => exact ⟨by simp, h⟩
  | cons o os ih =>
      obtain ⟨⟨hslice, hroom⟩, hrest⟩ := hfilled
      obtain ⟨hok, hserves⟩ := offer_serves h hslice hroom
      obtain ⟨hall, hend⟩ := ih hserves hrest
      refine ⟨?_, hend⟩
      intro before o' after hcut
      cases before with
      | nil =>
          obtain ⟨rfl, -⟩ := List.cons.inj hcut
          exact hok
      | cons first before =>
          obtain ⟨rfl, hrest⟩ := List.cons.inj hcut
          exact hall before o' after hrest

/-- When all of the data was taken, the end of the payload is still to come. -/
theorem leaves_of_serves (h : x.stream.Serves t data [] x.written) :
    ∃ rest, rest ≠ [] ∧ x.written ++ rest = payload t.props t.dictSize (symbolsFor t data.toArray) ∧
      Draining.Leaves t data rest { stream := x.stream } rest := by
  have hmore := Encoder.promise_ne_nil h.isOpen data.toArray
  exact ⟨_, hmore, h.coder.promise, rfl, .live (.inl h.stage) _ h.coder hmore⟩

/-- The encoder has counted what it took and what it gave. -/
structure Counted (x : Feeding Encoder) : Prop where
  totalIn : x.stream.totalIn = x.consumed.length
  totalOut : x.stream.totalOut = x.written.length

theorem Counted.offer (h : x.Counted) (o : Offer) : (x.offer o).Counted := by
  rcases hcall : x.stream.encode (x.slice o) o.room with ⟨e | moved, s'⟩
  · obtain ⟨hin, hout⟩ := Stream.totals_of_error hcall
    rw [offer_encode, hcall]
    exact ⟨hin.trans h.totalIn, hout.trans h.totalOut⟩
  · obtain ⟨hin, hout, hused⟩ := Stream.totals_encodeCall hcall
    have hslice : (x.slice o).length ≤ x.left.length := by
      rw [slice, List.length_take]
      exact Nat.min_le_right _ _
    have htook : (x.left.take moved.used).length = moved.used :=
      List.length_take_of_le (Nat.le_trans hused hslice)
    rw [offer_encode, hcall]
    constructor
    · dsimp only
      rw [hin, h.totalIn, List.length_append, htook]
    · dsimp only
      rw [hout, h.totalOut, List.length_append]

theorem Counted.offers (h : x.Counted) (os : List Offer) : (x.offers os).Counted := by
  induction os generalizing x with
  | nil => exact h
  | cons o os ih => exact ih (h.offer o)

/-- What a whole use of an encoder comes to, however data is brought and the rest asked for. -/
structure Pays (x : Feeding Encoder) (os : List Offer) (payload : List UInt8) : Prop where
  brought (before after : List Offer) (o : Offer) : os = before ++ o :: after → ∃ moved,
    ((x.offers before).stream.encode ((x.offers before).slice o) o.room).1 = .ok moved
  written : (x.offers os).written <+: payload
  counted : (x.offers os).Counted
  rest : (x.offers os).left = [] → ∃ rest, rest ≠ [] ∧ (x.offers os).written ++ rest = payload ∧
    ∀ room rs before r after, ⟨.finish, room⟩ :: rs = before ++ r :: after →
      Draining.Pays { stream := (x.offers os).stream } rest before r

theorem pays (h : x.stream.Serves t data x.left x.written) (hx : x.Counted) {os : List Offer}
    (hfilled : x.Filled os) :
    x.Pays os (payload t.props t.dictSize (symbolsFor t data.toArray)) := by
  obtain ⟨hbrought, hserves⟩ := offers_serves h hfilled
  refine ⟨fun before after o => hbrought before o after, ⟨_, hserves.coder.promise⟩,
    hx.offers os, ?_⟩
  intro hnone
  rw [hnone] at hserves
  obtain ⟨rest, hmore, hall, hleaves⟩ := leaves_of_serves hserves
  exact ⟨rest, hmore, hall, fun _ _ _ _ _ hcut => Draining.pays hleaves hcut⟩

theorem pays_start (t : Settings) {os : List Offer}
    (hfilled : (start (Encoder.start t) data).Filled os) :
    (start (Encoder.start t) data).Pays os
      (payload t.props t.dictSize (symbolsFor t data.toArray)) := by
  refine pays ?_ ⟨rfl, rfl⟩ hfilled
  exact ⟨rfl, rfl, .start t data⟩

end Feeding

/-! ## The encoder of some options -/

namespace Engine

section

variable {ω : Type} [Journal ω] [Provident]
variable {o : Options} {a : Allocator ω} {w w' : ω} {e : Engine Encoder ω}

omit [Provident] in
theorem eq_start_of_encoderFor {k : Encoder} (h : encoderFor o = .ok k) :
    k = .start o.settings := by
  rw [encoderFor] at h
  split at h
  · exact (Except.ok.inj h).symm
  · cases h

/--
The encoder that options get is brought any data in order, in any pieces and with any room, and
then asked for the rest, in any pieces of any sizes. None of these calls fails, and what they
give is one payload, which the pieces have no part in. Of the calls that ask for the rest the
one that gives the last byte is the first to answer that it is the last. Data that is brought in
between is refused, and behind the last byte nothing happens any more. The encoder's own counts
are those of the bytes that it has taken and given.
-/
theorem encoder_pays (he : acquireEncoder o a w = (.ok e, w')) (data : List UInt8)
    (os : List Offer) (hfilled : Feeding.Filled { stream := e.stream, left := data } os) :
    Feeding.Pays { stream := e.stream, left := data } os
      (payload o.coding o.dictSize.toNat (symbolsFor o.settings data.toArray)) := by
  rw [acquireEncoder] at he
  split at he
  · obtain ⟨k, hk, hstream⟩ := stream_of_acquire he
    rw [hstream, eq_start_of_encoderFor hk] at hfilled ⊢
    exact Feeding.pays_start o.settings hfilled
  · cases he

end

/--
Nine bytes, of which four are offered at a time, with little room, for a small dictionary and in
memory of the process itself. What a call has not taken is offered again by the next one.
-/
theorem encoder_pays_of_slices :
    let o : Options := { dictSize := 4096 }
    let a : Allocator (Exchange ScriptedSource ScriptedSink Unit) := .standard
    let data : List UInt8 := [97, 98, 97, 98, 97, 98, 97, 98, 99]
    let os : List Offer := [⟨4, 1⟩, ⟨4, 2⟩, ⟨4, 1⟩]
    ∃ e w', acquireEncoder o a (Exchange.ofBytes 4 [] ()) = (.ok e, w') ∧
      Feeding.Filled { stream := e.stream, left := data } os ∧
      Feeding.Pays { stream := e.stream, left := data } os
        (payload o.coding o.dictSize.toNat (symbolsFor o.settings data.toArray)) := by
  intro o a data os
  have hw := Exchange.scene_ofBytes 4 [] () (by decide)
  have hk := encoderFor_ok (o := o) (by decide) (by decide)
  obtain ⟨heap, w', hacquire, -⟩ := acquire_ok Allocator.grants_standard.lends hw
    (Provident.encoder_provident o) (Encoder.start o.settings)
  rw [← hk] at hacquire
  have he : acquireEncoder o a (Exchange.ofBytes 4 [] ()) = (.ok _, w') := hacquire
  let x : Feeding Encoder := { stream := { coder := Encoder.start o.settings }, left := data }
  have hfilled : x.Filled os := by
    have hlength : x.left.length = 9 := rfl
    have hfirst := x.length_left_le ⟨4, 1⟩
    have hsecond := (x.offer ⟨4, 1⟩).length_left_le ⟨4, 2⟩
    dsimp only at hfirst hsecond
    exact ⟨⟨Feeding.slice_ne_nil (by decide) (by omega), by decide⟩,
      ⟨Feeding.slice_ne_nil (by decide) (by omega), by decide⟩,
      ⟨Feeding.slice_ne_nil (by decide) (by omega), by decide⟩, trivial⟩
  exact ⟨_, w', he, hfilled, encoder_pays he data os hfilled⟩

end Engine

end Lzma
