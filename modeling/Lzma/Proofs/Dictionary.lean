import Lzma.Proofs.Alongside

/-!
# A larger dictionary takes nothing back

The size of its dictionary decides for a decoder which distances it refuses, and nothing else. So
what a decoder has made of its input without refusing any of it, a decoder with a larger
dictionary makes of it too, call for call. The two decide by trees that differ in leaves alone,
and only where the smaller dictionary refuses (`Coding.Stricter`). That relation goes through
every step a decoder takes (`Decoder.Stricter`), and it is left in one way: the stricter one of
the two comes to a fault, and its stream answers the call with an error.

For a whole payload this makes a pump that gives up in the sense of `Pump.Lockstep`, where what
is known of the failure is that it is one of the decoder. A run that ends otherwise has the same
run beside it (`DecompressSession.pump_stricter`).
-/

namespace Lzma

/-! ## Trees of decisions -/

namespace Coding

/-- The second tree says the same as the first, wherever the first does not refuse. -/
inductive Stricter : Coding Token → Coding Token → Prop
  | refused (t : Coding Token) : Stricter (.done .invalid) t
  | done (token : Token) : Stricter (.done token) (.done token)
  | bit (context : Nat) {next next' : Bool → Coding Token} :
      (∀ b, Stricter (next b) (next' b)) → Stricter (.bit context next) (.bit context next')
  | even {next next' : Bool → Coding Token} :
      (∀ b, Stricter (next b) (next' b)) → Stricter (.even next) (.even next')

theorem Stricter.refl (t : Coding Token) : t.Stricter t := by
  induction t with
  | done token => exact .done token
  | bit context next ih => exact .bit context ih
  | even next ih => exact .even ih

section

variable {k k' : Nat → Coding Token} (hk : ∀ v, (k v).Stricter (k' v))
include hk

theorem stricter_tree (base n node : Nat) :
    (tree base n node k).Stricter (tree base n node k') := by
  induction n generalizing node with
  | zero => exact hk node
  | succ n ih => exact .bit _ fun b => ih _

theorem stricter_reverseTree (base n node weight sum : Nat) :
    (reverseTree base n node weight sum k).Stricter (reverseTree base n node weight sum k') := by
  induction n generalizing node weight sum with
  | zero => exact hk sum
  | succ n ih => exact .bit _ fun b => ih _ _ _

theorem stricter_evenBits (n value : Nat) :
    (evenBits n value k).Stricter (evenBits n value k') := by
  induction n generalizing value with
  | zero => exact hk value
  | succ n ih => exact .even fun b => ih _

theorem stricter_length (base slot : Nat) :
    (length base slot k).Stricter (length base slot k') := by
  refine .bit _ fun b => ?_
  cases b with
  | false => exact stricter_tree (fun node => hk _) _ _ _
  | true =>
      refine .bit _ fun b => ?_
      cases b with
      | false => exact stricter_tree (fun node => hk _) _ _ _
      | true => exact stricter_tree (fun node => hk _) _ _ _

theorem stricter_distance (length : Nat) : (distance length k).Stricter (distance length k') := by
  refine stricter_tree (fun node => ?_) _ _ _
  dsimp only
  split
  · exact hk _
  · split
    · exact stricter_reverseTree hk _ _ _ _ _
    · exact stricter_evenBits (fun high => stricter_reverseTree hk _ _ _ _ _) _ _

end

/-- As far as the bytes at hand allow, both walks go the same way, or the first is refused. -/
theorem Stricter.descend {t t' : Coding Token} (h : t.Stricter t') (s : CodeReader) :
    (t.descend s).1 = .done .invalid ∨
      (t.descend s).1.Stricter (t'.descend s).1 ∧ (t.descend s).2 = (t'.descend s).2 := by
  induction h generalizing s with
  | refused t => exact .inl rfl
  | done token => exact .inr ⟨.done token, rfl⟩
  | bit context hnext ih =>
      rw [Coding.descend, Coding.descend]
      by_cases hstarved : s.reader.starved = true
      · rw [if_pos hstarved, if_pos hstarved]
        exact .inr ⟨.bit context hnext, rfl⟩
      · rw [if_neg hstarved, if_neg hstarved]
        exact ih _ _
  | even hnext ih =>
      rw [Coding.descend, Coding.descend]
      by_cases hstarved : s.reader.starved = true
      · rw [if_pos hstarved, if_pos hstarved]
        exact .inr ⟨.even hnext, rfl⟩
      · rw [if_neg hstarved, if_neg hstarved]
        exact ih _ _

end Coding

/-! ## The next symbol -/

namespace Context

variable {c : Context} {reach : Nat}

theorem stricter_fresh (hle : c.reach ≤ reach) : c.fresh.Stricter { c with reach }.fresh := by
  refine Coding.stricter_length (fun length => ?_) _ _
  refine Coding.stricter_distance (fun distance => ?_) length
  by_cases hend : distance = endDistance
  · rw [if_pos hend, if_pos hend]
    exact .done _
  · rw [if_neg hend, if_neg hend]
    by_cases hfar : c.reach ≤ distance
    · rw [if_pos hfar]
      exact .refused _
    · have hnear : ¬ reach ≤ distance := by omega
      rw [if_neg hfar, if_neg hnear]
      exact .done _

theorem stricter_coding (hle : c.reach ≤ reach) : c.coding.Stricter { c with reach }.coding := by
  refine .bit _ fun b => ?_
  cases b with
  | false => exact .refl c.literal
  | true =>
      refine .bit _ fun b => ?_
      cases b with
      | false => exact stricter_fresh hle
      | true =>
          by_cases hnone : c.reach = 0
          · rw [if_pos rfl, if_pos hnone]
            exact .refused _
          · have hsome : reach ≠ 0 := by omega
            rw [if_pos rfl, if_pos rfl, if_neg hnone, if_neg hsome]
            exact .refl c.again

end Context

theorem Past.stricter_coding (p : Past) (props : Properties) {size size' : Nat}
    (hle : size ≤ size') :
    (p.context props size).coding.Stricter (p.context props size').coding := by
  have hreach : (p.context props size).reach ≤ min p.produced.size size' := by
    show min p.produced.size size ≤ min p.produced.size size'
    omega
  exact Context.stricter_coding hreach

/-! ## Decoders -/

inductive Phase.Stricter : Phase → Phase → Prop
  | same (phase : Phase) : Stricter phase phase
  | reading {t t' : Coding Token} : t.Stricter t' → Stricter (.reading t) (.reading t')

/-- Two decoders that have come the same way, the second with no smaller dictionary. -/
structure Decoder.Stricter (d d' : Decoder) : Prop where
  props : d.props = d'.props
  dictSize : d.dictSize ≤ d'.dictSize
  scan : d.scan = d'.scan
  past : d.past = d'.past
  phase : d.phase.Stricter d'.phase

namespace Decoder

variable {d d' : Decoder}

theorem stricter_start (props : Properties) {size size' : Nat} (hle : size ≤ size') :
    (start props size).Stricter (start props size') :=
  ⟨rfl, hle, rfl, rfl, .same _⟩

/-- The second decoder goes on like the first, unless the first has met a fault. -/
def Follows (d d' : Decoder) : Prop := d.phase = .corrupt ∨ d.Stricter d'

namespace Stricter

theorem follows (h : d.Stricter d') : d.Follows d' := .inr h

theorem of_follows (h : d.Follows d') (hview : d.view ≠ .broken) : d.Stricter d' := by
  rcases h with hcorrupt | h
  · rw [Decoder.view, hcorrupt] at hview
    exact absurd rfl hview
  · exact h

theorem walk (h : d.Stricter d') {t t' : Coding Token} (ht : t.Stricter t') :
    (d.walk t).Follows (d'.walk t') := by
  obtain ⟨props, size, scan, past, phase⟩ := d
  obtain ⟨props', size', scan', past', phase'⟩ := d'
  obtain ⟨rfl, hle, rfl, rfl, hphase⟩ := h
  rw [Decoder.walk, Decoder.walk]
  have hdescend := ht.descend scan
  generalize t.descend scan = p at hdescend ⊢
  generalize t'.descend scan = p' at hdescend ⊢
  obtain ⟨rest, scan₁⟩ := p
  obtain ⟨rest', scan₁'⟩ := p'
  rcases hdescend with hrefused | ⟨hrest, hscan⟩
  · obtain rfl : rest = .done .invalid := hrefused
    exact .inl rfl
  · obtain rfl : scan₁ = scan₁' := hscan
    cases hrest with
    | refused => exact .inl rfl
    | done token => cases token <;> exact .inr ⟨rfl, hle, rfl, rfl, .same _⟩
    | bit context hnext => exact .inr ⟨rfl, hle, rfl, rfl, .reading (.bit context hnext)⟩
    | even hnext => exact .inr ⟨rfl, hle, rfl, rfl, .reading (.even hnext)⟩

theorem next (h : d.Stricter d') : d.next.Follows d'.next := by
  have hcoding := d.past.stricter_coding d.props h.dictSize
  rw [Decoder.next, Decoder.next, ← h.props, ← h.past]
  exact h.walk hcoding

theorem view (h : d.Stricter d') : d.view = d'.view := by
  obtain ⟨props, size, scan, past, phase⟩ := d
  obtain ⟨props', size', scan', past', phase'⟩ := d'
  obtain ⟨rfl, -, rfl, rfl, hphase⟩ := h
  cases hphase with
  | same => rfl
  | reading => rfl

theorem refuses (h : d.Stricter d') (byte : UInt8) : d.refuses byte = d'.refuses byte := by
  obtain ⟨props, size, scan, past, phase⟩ := d
  obtain ⟨props', size', scan', past', phase'⟩ := d'
  obtain ⟨-, -, -, -, hphase⟩ := h
  cases hphase with
  | same => rfl
  | reading => rfl

theorem feed (h : d.Stricter d') (byte : UInt8) : (d.feed byte).Follows (d'.feed byte) := by
  obtain ⟨props, size, scan, past, phase⟩ := d
  obtain ⟨props', size', scan', past', phase'⟩ := d'
  obtain ⟨rfl, hle, rfl, rfl, hphase⟩ := h
  rw [Decoder.feed, Decoder.feed]
  cases hphase with
  | reading ht =>
      refine walk ?_ ht
      exact ⟨rfl, hle, rfl, rfl, .reading ht⟩
  | same =>
      cases phase with
      | opening missing =>
          dsimp only
          by_cases hlast : missing ≤ 1
          · rw [if_pos hlast, if_pos hlast]
            exact next ⟨rfl, hle, rfl, rfl, .same _⟩
          · rw [if_neg hlast, if_neg hlast]
            exact follows ⟨rfl, hle, rfl, rfl, .same _⟩
      | reading rest =>
          refine walk ?_ (.refl rest)
          exact ⟨rfl, hle, rfl, rfl, .same _⟩
      | holding | copying | closing | finished | corrupt =>
          exact follows ⟨rfl, hle, rfl, rfl, .same _⟩

theorem give (h : d.Stricter d') (byte : UInt8) : (d.give byte).Follows (d'.give byte) := by
  obtain ⟨props, size, scan, past, phase⟩ := d
  obtain ⟨props', size', scan', past', phase'⟩ := d'
  obtain ⟨rfl, hle, rfl, rfl, hphase⟩ := h
  rw [Decoder.give, Decoder.give]
  cases hphase with
  | reading ht => exact next ⟨rfl, hle, rfl, rfl, .reading ht⟩
  | same =>
      dsimp only
      split
      · exact follows ⟨rfl, hle, rfl, rfl, .same _⟩
      · exact next ⟨rfl, hle, rfl, rfl, .same _⟩

end Stricter

/-! ## Calls -/

/-- The second of two passes that come to the same. -/
structure Passes (p p' : Pass Decoder) : Prop where
  used : p.used = p'.used
  output : p.output = p'.output
  outcome : p.outcome = p'.outcome
  coder : p.coder.Stricter p'.coder

theorem Follows.pumpFrom (h : d.Follows d') (input : List UInt8) (room used : Nat)
    (output : List UInt8) :
    (d.pumpFrom input room used output).outcome = .corrupt ∨
      Passes (d.pumpFrom input room used output) (d'.pumpFrom input room used output) := by
  fun_induction Decoder.pumpFrom d input room used output generalizing d' with
  | case1 d input used output byte hview =>
      have h := Stricter.of_follows h (by simp [hview])
      rw [pumpFrom.eq_def d', ← h.view, hview]
      exact .inr ⟨rfl, rfl, rfl, h⟩
  | case2 d input used output byte hview room ih =>
      have h := Stricter.of_follows h (by simp [hview])
      rw [pumpFrom.eq_def d', ← h.view, hview]
      exact ih (h.give byte)
  | case3 d room used output hview =>
      have h := Stricter.of_follows h (by simp [hview])
      rw [pumpFrom.eq_def d', ← h.view, hview]
      exact .inr ⟨rfl, rfl, rfl, h⟩
  | case4 d room used output hview byte input hbyte => exact .inl rfl
  | case5 d room used output hview byte input hbyte ih =>
      have h := Stricter.of_follows h (by simp [hview])
      rw [pumpFrom.eq_def d', ← h.view, hview]
      dsimp only
      rw [← h.refuses byte, if_neg hbyte]
      exact ih (h.feed byte)
  | case6 d input room used output hview =>
      have h := Stricter.of_follows h (by simp [hview])
      rw [pumpFrom.eq_def d', ← h.view, hview]
      exact .inr ⟨rfl, rfl, rfl, h⟩
  | case7 d input room used output hview => exact .inl rfl

theorem Stricter.pump (h : d.Stricter d') (input : List UInt8) (room : Nat) :
    (d.pump input room).outcome = .corrupt ∨ Passes (d.pump input room) (d'.pump input room) :=
  h.follows.pumpFrom input room 0 []

end Decoder

/-! ## Streams -/

namespace Stream

structure Stricter (s s' : Stream Decoder) : Prop where
  coder : s.coder.Stricter s'.coder
  stage : s.stage = s'.stage
  stalled : s.stalled = s'.stalled
  totalIn : s.totalIn = s'.totalIn
  totalOut : s.totalOut = s'.totalOut

/-- What a call of a stream that meets no fault comes to does not depend on its strictness. -/
theorem Stricter.decode {s s' : Stream Decoder} (h : s.Stricter s') (input : List UInt8)
    (room : Nat) :
    Same Stricter (s.decode input room) (s'.decode input room) ∨
      ∃ e, (s.decode input room).1 = .error e := by
  obtain ⟨coder, stage, stalled, totalIn, totalOut⟩ := s
  obtain ⟨coder', stage', stalled', totalIn', totalOut'⟩ := s'
  obtain ⟨hcoder, rfl, rfl, rfl, rfl⟩ := h
  rw [Stream.decode, Stream.decode, call, call]
  by_cases hended : stage = .ended
  · rw [if_pos hended, if_pos hended]
    exact .inl ⟨rfl, hcoder, rfl, rfl, rfl, rfl⟩
  · rw [if_neg hended, if_neg hended]
    dsimp only
    cases stage.afterCall (.feed input) with
    | none => exact .inl ⟨rfl, hcoder, rfl, rfl, rfl, rfl⟩
    | some stage =>
        have hpump := hcoder.pump input room
        dsimp only
        rw [advance, advance]
        dsimp only
        rw [show Coder.pass (.feed input) room coder = coder.pump input room from rfl,
          show Coder.pass (.feed input) room coder' = coder'.pump input room from rfl]
        generalize coder.pump input room = p at hpump ⊢
        generalize coder'.pump input room = p' at hpump ⊢
        obtain ⟨coder₁, used, output, outcome⟩ := p
        obtain ⟨coder₁', used', output', outcome'⟩ := p'
        rcases hpump with hcorrupt | ⟨hused, houtput, houtcome, hcoder₁⟩
        · obtain rfl : outcome = .corrupt := hcorrupt
          exact .inr ⟨_, rfl⟩
        · obtain rfl : used = used' := hused
          obtain rfl : output = output' := houtput
          obtain rfl : outcome = outcome' := houtcome
          refine .inl ?_
          cases outcome with
          | ended | corrupt => exact ⟨rfl, hcoder₁, rfl, rfl, rfl, rfl⟩
          | running =>
              dsimp only
              by_cases hidle : (used == 0 && output.isEmpty) = true
              · rw [if_pos hidle, if_pos hidle]
                cases stalled <;> exact ⟨rfl, hcoder₁, rfl, rfl, rfl, rfl⟩
              · rw [if_neg hidle, if_neg hidle]
                exact ⟨rfl, hcoder₁, rfl, rfl, rfl, rfl⟩

end Stream

/-! ## Payloads -/

variable {ω ω' : Type} [Channel ω] [Channel ω'] {R : ω → ω' → Prop}

/-- Two worlds that are related, the first with the stricter decoder beside it. -/
def Decoding.Stricter (R : ω → ω' → Prop) (d : Decoding ω) (d' : Decoding ω') : Prop :=
  R d.world d'.world ∧ d.stream.Stricter d'.stream

/-- The failures that a decoder is to blame for. -/
def Undecoded (e : Error) (_ : ω) (_ : ω') : Prop := ∃ fault, e = .decompress fault

theorem Decoding.stricter_lockstep (hR : Channel.Alike R) :
    Pump.Lockstep (Stricter R) Undecoded where
  note event _ _ hd := ⟨hR.note event hd.1, hd.2⟩
  read room d d' hd := by
    obtain ⟨hanswer, hw⟩ := hR.read room hd.1
    exact .inl ⟨hanswer, hw, hd.2⟩
  write bytes d d' hd := by
    obtain ⟨hanswer, hw⟩ := hR.write bytes hd.1
    exact .inl ⟨hanswer, hw, hd.2⟩
  later _ _ := ⟨fun _ _ => id, fun _ _ => id, fun _ _ => id⟩
  decode input room d d' hd := by
    rcases hd.2.decode input room with ⟨hanswer, hstream⟩ | ⟨e, he⟩
    · exact .inl ⟨hanswer, hd.1, hstream⟩
    · exact .inr ⟨e, he, e, rfl⟩
  later_decode _ _ _ _ _ := id

/-- A payload that is not refused comes to the same with a larger dictionary. -/
theorem DecompressSession.pump_stricter (hR : Channel.Alike R) {s : DecompressSession ω}
    {s' : DecompressSession ω'} (hstream : s.engine.stream.Stricter s'.engine.stream)
    (hinput : s.input.buffer.bytes = s'.input.buffer.bytes)
    (houtput : s.output.size = s'.output.size) (state : DecompressState) {l : Line ω}
    {l' : Line ω'} (hl : l.Alike R l') :
    (s.pump state l).1 = (s'.pump state l').1 ∧ (s.pump state l).2.1 = (s'.pump state l').2.1 ∧
        (s.pump state l).2.2.outer.Alike R (s'.pump state l').2.2.outer ∨
      ∃ fault, (s.pump state l).1 = .error (.decompress fault) := by
  have hinner : ({ l with world := { world := l.world, stream := s.engine.stream } } :
      Line (Decoding ω)).Alike (Decoding.Stricter R)
      { l' with world := { world := l'.world, stream := s'.engine.stream } } :=
    ⟨⟨hl.world, hstream⟩, hl.taken, hl.given⟩
  have hrun := Pump.run_lockstep (Decoding.stricter_lockstep hR) s.output.size
    (.ofList s.input.buffer.bytes) state hinner
  rw [pump, pump, ← hinput, ← houtput]
  rcases hrun with ⟨hresult, hstate, hl'⟩ | ⟨e, he, fault, rfl⟩
  · exact .inl ⟨hresult, hstate, hl'.world.1, hl'.taken, hl'.given⟩
  · exact .inr ⟨fault, he⟩

end Lzma
