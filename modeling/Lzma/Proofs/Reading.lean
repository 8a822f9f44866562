import Lzma.Payload.Transcript
import Lzma.Proofs.Interval
import Lzma.Proofs.OneShot
import Lzma.Proofs.Spelling

/-!
# A payload decodes to the expansion of its symbols

The writer and the decoder walk the same trees, and where the payload lies the
decoder takes the writer's decisions. From this follows, in the order of the
sections: a walk that was written is read back (`reaches_walk`), a symbol that was
added is read and produced (`reaches_add`), and a whole payload is used up to its
last byte and decodes to what its symbols stand for (`whole_payload`).

`Decoder.Reaches` is the decoding from one point to another. Its instances are
chained to a run over the whole payload.
-/

namespace Lzma

/-! ## What writing keeps -/

namespace Coding

variable {α : Type} {c : CodeWriter} {bytes : List UInt8}

theorem sound_write (t : Coding α) (bits : List Bool) (h : c.writer.Sound) :
    (t.write bits c).writer.Sound := by
  induction t generalizing bits c with
  | done a => cases bits <;> exact h
  | bit context next ih =>
      cases bits with
      | nil => exact h
      | cons b bits => exact ih b bits (h.bit _ b)
  | even next ih =>
      cases bits with
      | nil => exact h
      | cons b bits => exact ih b bits (h.even b)

/-- A payload that lies in an interval lies in all that it was narrowed from. -/
theorem holds_of_write (t : Coding α) (bits : List Bool) (hc : c.writer.Sound)
    (h : (t.write bits c).writer.Holds bytes) : c.writer.Holds bytes := by
  induction t generalizing bits c with
  | done a => cases bits <;> exact h
  | bit context next ih =>
      cases bits with
      | nil => exact h
      | cons b bits => exact ((ih b bits (hc.bit _ b) h).of_bit hc).of_normalize hc.steady
  | even next ih =>
      cases bits with
      | nil => exact h
      | cons b bits => exact (ih b bits (hc.even b) h).of_even.of_normalize hc.steady

end Coding

/-- A reader is where a writer was, with the same predictions. -/
structure CodeReader.Sync (s : CodeReader) (c : CodeWriter) (bytes : List UInt8) : Prop where
  reader : s.reader.Sync c.writer bytes
  model : s.model = c.model

namespace Decoder

/-! ## From one point of a decoding to another -/

/-- The decoding of some input goes on as that of other input, behind some output. -/
def Reaches (d : Decoder) (input : List UInt8) (d' : Decoder) (input' output : List UInt8) :
    Prop :=
  ∃ used, used + input'.length = input.length ∧
    d.whole input = (d'.whole input').behind used output

variable {d d₁ d₂ d₃ : Decoder} {input input₁ input₂ input₃ out out' : List UInt8} {byte : UInt8}

namespace Reaches

theorem refl (d : Decoder) (input : List UInt8) : d.Reaches input d input [] :=
  ⟨0, Nat.zero_add _, (Pass.behind_nil _).symm⟩

theorem trans (h : d₁.Reaches input₁ d₂ input₂ out) (h' : d₂.Reaches input₂ d₃ input₃ out') :
    d₁.Reaches input₁ d₃ input₃ (out ++ out') := by
  obtain ⟨used, hlen, hwhole⟩ := h
  obtain ⟨used', hlen', hwhole'⟩ := h'
  refine ⟨used + used', by omega, ?_⟩
  rw [hwhole, hwhole', Pass.behind_behind]

theorem feed (hview : d.view = .wants) (hbyte : d.refuses byte = false) :
    d.Reaches (byte :: input) (d.feed byte) input [] :=
  ⟨1, Nat.add_comm _ _, whole_cons hview hbyte input⟩

theorem give (hview : d.view = .gives byte) : d.Reaches input (d.give byte) input [byte] :=
  ⟨0, Nat.zero_add _, whole_gives hview⟩

/-- A decoding that ends has used up what is left behind it no more. -/
theorem whole (h : d.Reaches input d' [] out) (hview : d'.view = .ended) :
    d.whole input = ⟨d', input.length, out, .ended⟩ := by
  obtain ⟨used, hlen, hwhole⟩ := h
  obtain rfl : used = input.length := hlen
  rw [hwhole, whole_ended hview]
  simp only [Pass.behind, Nat.add_zero, List.append_nil]

end Reaches

/-! ## Walks -/

variable {bytes : List UInt8} {c : CodeWriter}

/-- Before a decision the reader sees to it that its interval is as wide as the writer's. -/
theorem reaches_normalize {t : Coding Token}
    (hstay : d.scan.reader.starved = true → d.walk t = { d with phase := .reading t })
    (hsync : d.scan.reader.Sync c.writer bytes) (hc : c.writer.Sound)
    (hholds : c.writer.normalize.Holds bytes) :
    ∃ reader : RangeReader, reader.Sync c.writer.normalize bytes ∧
      (d.walk t).Reaches (bytes.drop (5 + c.writer.count))
        ({ d with scan := ⟨reader, d.scan.model⟩ }.walk t)
        (bytes.drop (5 + c.writer.normalize.count)) [] := by
  by_cases hnarrow : c.writer.range < minRange
  · have hnorm : c.writer.normalize = c.writer.shift := if_pos hnarrow
    rw [hnorm] at hholds ⊢
    obtain ⟨byte, hdrop, hsync'⟩ := hsync.shift hc.steady hnarrow hholds
    refine ⟨_, hsync', ?_⟩
    rw [hstay (hsync.starved_iff.mpr hnarrow), hdrop]
    exact Reaches.feed rfl rfl
  · have hnorm : c.writer.normalize = c.writer := if_neg hnarrow
    rw [hnorm]
    exact ⟨d.scan.reader, hsync, Reaches.refl _ _⟩

/-- A walk that was written is read back. -/
theorem reaches_walk (t : Coding Token) {bits : List Bool} {token : Token}
    (hsync : d.scan.Sync c bytes) (hc : c.writer.Sound) (hfollow : t.follow bits = some (token, []))
    (hholds : (t.write bits c).writer.Holds bytes) :
    ∃ scan : CodeReader, scan.Sync (t.write bits c) bytes ∧
      (d.walk t).Reaches (bytes.drop (5 + c.writer.count))
        ({ d with scan }.walk (.done token))
        (bytes.drop (5 + (t.write bits c).writer.count)) [] := by
  induction t generalizing bits c d with
  | done a =>
      cases bits with
      | nil =>
          cases hfollow
          exact ⟨d.scan, hsync, Reaches.refl _ _⟩
      | cons b bits => cases hfollow
  | bit context next ih =>
      cases bits with
      | nil => cases hfollow
      | cons b bits =>
          have hbit := Coding.holds_of_write (next b) bits (hc.bit (c.model.prob context) b) hholds
          have hnorm := hbit.of_bit hc
          obtain ⟨reader, hreader, hreach⟩ := reaches_normalize (t := .bit context next)
            (fun h => by rw [walk, Coding.descend, if_pos h]) hsync.reader hc hnorm
          obtain ⟨reader', hres, hsync'⟩ := hreader.bit hc.normalize.2
            (p := c.model.prob context) (b := b) (by rwa [RangeWriter.bit_normalize hc])
          rw [RangeWriter.bit_normalize hc] at hsync'
          have hwalk : ({ d with scan := ⟨reader, d.scan.model⟩ } : Decoder).walk
              (.bit context next) =
              ({ d with scan := ⟨reader', c.model.learn context b⟩ } : Decoder).walk (next b) := by
            rw [walk, Coding.descend, if_neg (hreader.not_starved hc.normalize.2), hsync.model,
              hres]
            rfl
          obtain ⟨scan, hscan, hrest⟩ := ih b
            (d := { d with scan := ⟨reader', c.model.learn context b⟩ }) ⟨hsync', rfl⟩ (hc.bit _ b)
            hfollow hholds
          rw [RangeWriter.count_bit, ← hwalk] at hrest
          exact ⟨scan, hscan, hreach.trans hrest⟩
  | even next ih =>
      cases bits with
      | nil => cases hfollow
      | cons b bits =>
          have heven := Coding.holds_of_write (next b) bits (hc.even b) hholds
          obtain ⟨reader, hreader, hreach⟩ := reaches_normalize (t := .even next)
            (fun h => by rw [walk, Coding.descend, if_pos h]) hsync.reader hc heven.of_even
          obtain ⟨reader', hres, hsync'⟩ := hreader.even hc.normalize.1 hc.normalize.2 (b := b)
            (by rwa [RangeWriter.even_normalize hc])
          rw [RangeWriter.even_normalize hc] at hsync'
          have hwalk : ({ d with scan := ⟨reader, d.scan.model⟩ } : Decoder).walk (.even next) =
              ({ d with scan := ⟨reader', d.scan.model⟩ } : Decoder).walk (next b) := by
            rw [walk, Coding.descend, if_neg (hreader.not_starved hc.normalize.2), hres]
            rfl
          obtain ⟨scan, hscan, hrest⟩ := ih b
            (d := { d with scan := ⟨reader', d.scan.model⟩ })
            (c := { c with writer := c.writer.even b }) ⟨hsync', hsync.model⟩ (hc.even b)
            hfollow hholds
          rw [RangeWriter.count_even, ← hwalk] at hrest
          exact ⟨scan, hscan, hreach.trans hrest⟩

/-! ## Symbols -/

/-- A copy is produced byte by byte, and then comes the next symbol. -/
theorem reaches_copy {count : Nat} (hphase : d.phase = .copying (count + 1))
    (input : List UInt8) :
    ∃ out, d.Reaches input { d with past := d.past.copy (count + 1) }.next input out ∧
      (d.past.copy (count + 1)).produced.toList = d.past.produced.toList ++ out := by
  have hview : d.view = .gives (d.past.byteAt d.past.recent.latest) := by rw [view, hphase]
  have hgive : d.Reaches input _ input _ := Reaches.give hview
  induction count generalizing d with
  | zero =>
      refine ⟨_, ?_, Array.toList_push⟩
      have hnext : d.give (d.past.byteAt d.past.recent.latest) =
          { d with past := d.past.copy (0 + 1) }.next := by
        simp only [Decoder.give]
        rw [hphase]
        rfl
      rwa [hnext] at hgive
  | succ count ih =>
      have hstep : d.give (d.past.byteAt d.past.recent.latest) =
          { d with
            past := d.past.push (d.past.byteAt d.past.recent.latest)
            phase := .copying (count + 1) } := by
        simp only [Decoder.give]
        rw [hphase]
      rw [hstep] at hgive
      obtain ⟨out, hreach, hout⟩ := ih
        (d := { d with
          past := d.past.push (d.past.byteAt d.past.recent.latest)
          phase := .copying (count + 1) }) rfl rfl (Reaches.give rfl)
      refine ⟨_, hgive.trans hreach, hout.trans ?_⟩
      show (d.past.produced.push _).toList ++ out = _
      rw [Array.toList_push, List.append_assoc]

/-- What a symbol that was read stands for is produced, and then comes the next symbol. -/
theorem reaches_produce (d : Decoder) {s : Symbol} (hpos : 0 < s.length) (input : List UInt8) :
    ∃ out, (d.walk (.done (.symbol s))).Reaches input { d with past := d.past.append s }.next
        input out ∧
      (d.past.append s).produced.toList = d.past.produced.toList ++ out := by
  obtain ⟨count, hcount⟩ : ∃ count, s.length = count + 1 := Nat.exists_eq_add_of_le' hpos
  cases s with
  | literal byte => exact ⟨[byte], Reaches.give rfl, Array.toList_push⟩
  | fresh length distance =>
      obtain rfl : length = count + 1 := hcount
      exact reaches_copy (d := d.walk (.done (.symbol (.fresh (count + 1) distance)))) rfl input
  | again length rank =>
      obtain rfl : length = count + 1 := hcount
      exact reaches_copy (d := d.walk (.done (.symbol (.again (count + 1) rank)))) rfl input
  | single => exact reaches_copy (d := d.walk (.done (.symbol .single))) rfl input

/-- A decoder stands where a transcript does, at the beginning of a symbol. -/
structure Tracks (d : Decoder) (t : Transcript) (props : Properties) (dictSize : Nat)
    (bytes : List UInt8) : Prop where
  scan : d.scan.Sync t.code bytes
  past : d.past = t.past
  props : d.props = props
  dictSize : d.dictSize = dictSize

variable {t : Transcript} {props : Properties} {dictSize : Nat}

/-- A symbol that was added is read and produced. -/
theorem reaches_add (htracks : d.Tracks t props dictSize bytes) (hsound : t.code.writer.Sound)
    (hdict : 0 < dictSize) (hend : dictSize ≤ endDistance) {s : Symbol}
    (hfits : s.Fits t.past dictSize)
    (hholds : (t.add props dictSize s).code.writer.Holds bytes) :
    ∃ (d' : Decoder) (out : List UInt8),
      d'.Tracks (t.add props dictSize s) props dictSize bytes ∧
      d.next.Reaches (bytes.drop (5 + t.code.writer.count)) d'.next
        (bytes.drop (5 + (t.add props dictSize s).code.writer.count)) out ∧
      d'.past.produced.toList = d.past.produced.toList ++ out := by
  obtain ⟨code, past⟩ := t
  obtain ⟨hscan, rfl, rfl, rfl⟩ := htracks
  have hfollow := hfits.follow hdict hend d.props []
  rw [List.append_nil] at hfollow
  obtain ⟨scan, hscan', hreach⟩ := reaches_walk _ hscan hsound hfollow hholds
  obtain ⟨out, hrest, hout⟩ := reaches_produce { d with scan } hfits.length_pos
    (bytes.drop (5 + (Transcript.add d.props d.dictSize ⟨code, d.past⟩ s).code.writer.count))
  exact ⟨{ d with scan, past := d.past.append s }, out, ⟨hscan', rfl, rfl, rfl⟩,
    hreach.trans hrest, hout⟩

/-! ## Payloads -/

theorem sound_foldl (props : Properties) (dictSize : Nat) (symbols : List Symbol)
    (hsound : t.code.writer.Sound) :
    (symbols.foldl (Transcript.add props dictSize) t).code.writer.Sound := by
  induction symbols generalizing t with
  | nil => exact hsound
  | cons s symbols ih => exact ih (Coding.sound_write _ _ hsound)

theorem holds_of_foldl {symbols : List Symbol} (hsound : t.code.writer.Sound)
    (hholds : (symbols.foldl (Transcript.add props dictSize) t).code.writer.Holds bytes) :
    t.code.writer.Holds bytes := by
  induction symbols generalizing t with
  | nil => exact hholds
  | cons s symbols ih =>
      exact Coding.holds_of_write _ _ hsound (ih (Coding.sound_write _ _ hsound) hholds)

/-- All symbols that were added are read and produced. -/
theorem reaches_foldl {symbols : List Symbol} (htracks : d.Tracks t props dictSize bytes)
    (hsound : t.code.writer.Sound) (hdict : 0 < dictSize) (hend : dictSize ≤ endDistance)
    (hadmits : t.past.Admits dictSize symbols)
    (hholds : (symbols.foldl (Transcript.add props dictSize) t).code.writer.Holds bytes) :
    ∃ (d' : Decoder) (out : List UInt8),
      d'.Tracks (symbols.foldl (Transcript.add props dictSize) t) props dictSize bytes ∧
      d.next.Reaches (bytes.drop (5 + t.code.writer.count)) d'.next
        (bytes.drop (5 + (symbols.foldl (Transcript.add props dictSize) t).code.writer.count))
        out ∧
      d'.past.produced.toList = d.past.produced.toList ++ out := by
  induction symbols generalizing d t with
  | nil => exact ⟨d, [], htracks, Reaches.refl _ _, (List.append_nil _).symm⟩
  | cons s symbols ih =>
      have hsound' : (t.add props dictSize s).code.writer.Sound := Coding.sound_write _ _ hsound
      obtain ⟨d₁, out₁, htracks₁, hreach₁, hout₁⟩ :=
        reaches_add htracks hsound hdict hend hadmits.1 (holds_of_foldl hsound' hholds)
      obtain ⟨d₂, out₂, htracks₂, hreach₂, hout₂⟩ := ih htracks₁ hsound' hadmits.2 hholds
      refine ⟨d₂, out₁ ++ out₂, htracks₂, hreach₁.trans hreach₂, ?_⟩
      rw [hout₂, hout₁, List.append_assoc]

/-- The number that five bytes spell, as the reader comes to know it. -/
theorem code_opening {b₁ b₂ b₃ b₄ : UInt8} :
    ((((({} : RangeReader).load 0).load b₁).load b₂).load b₃ |>.load b₄).code =
      ofBE [0, b₁, b₂, b₃, b₄] := by
  have h₁ := b₁.toNat_lt
  have h₂ := b₂.toNat_lt
  have h₃ := b₃.toNat_lt
  have h₄ := b₄.toNat_lt
  simp only [RangeReader.load, ofBE, List.reverse_cons, List.reverse_nil, List.nil_append,
    List.cons_append, ofLE, UInt8.toNat_zero]
  omega

/-- The first five bytes give the number its first value. -/
theorem reaches_start (props : Properties) (dictSize : Nat)
    (hholds : ({} : RangeWriter).Holds bytes) :
    ∃ d : Decoder, d.Tracks (.start props) props dictSize bytes ∧
      (start props dictSize).Reaches bytes d.next (bytes.drop 5) [] := by
  obtain ⟨hlen, -, hhigh⟩ := hholds
  have hcount : ({} : RangeWriter).count = 0 := rfl
  have hlower : ({} : RangeWriter).lower = 0 := rfl
  rw [hcount, hlower, Nat.zero_add] at hhigh
  obtain ⟨b₀, b₁, b₂, b₃, b₄, rest, rfl⟩ : ∃ b₀ b₁ b₂ b₃ b₄ rest,
      bytes = b₀ :: b₁ :: b₂ :: b₃ :: b₄ :: rest := by
    match bytes, hlen with
    | b₀ :: b₁ :: b₂ :: b₃ :: b₄ :: rest, _ => exact ⟨b₀, b₁, b₂, b₃, b₄, rest, rfl⟩
  have hzero : b₀ = 0 := by
    change ofLE [b₄, b₃, b₂, b₁, b₀] < fullRange at hhigh
    simp only [ofLE, fullRange] at hhigh
    exact UInt8.toNat_inj.mp (show b₀.toNat = 0 by omega)
  subst hzero
  refine ⟨{ start props dictSize with
      scan := { reader := ((((({} : RangeReader).load 0).load b₁).load b₂).load b₃).load b₄
                model := Model.fresh props } },
    ⟨⟨⟨rfl, ?_⟩, rfl⟩, rfl, rfl, rfl⟩, ?_⟩
  · show ({} : RangeWriter).lower + _ = _
    rw [code_opening, hlower, Nat.zero_add]
    rfl
  · have hfirst : (start props dictSize).Reaches (0 :: b₁ :: b₂ :: b₃ :: b₄ :: rest) _ _ [] :=
      Reaches.feed rfl rfl
    exact hfirst.trans ((Reaches.feed rfl rfl).trans ((Reaches.feed rfl rfl).trans
      ((Reaches.feed rfl rfl).trans (Reaches.feed rfl rfl))))

/-- At the lower end of a closed interval, nothing is left of the number. -/
theorem verdict_of_close {r : RangeReader} {w : RangeWriter} (hw : w.Sound)
    (hsync : r.Sync w.normalize w.close.output) : verdict r = .finished := by
  obtain ⟨-, hlen, hvalue⟩ := RangeWriter.holds_close hw
  have hcode := hsync.code
  rw [List.take_of_length_le (Nat.le_of_eq hlen), hvalue] at hcode
  exact if_pos (Nat.add_eq_left.mp hcode)

theorem view_of_finished {d : Decoder} (h : d.phase = .finished) : d.view = .ended := by
  rw [view, h]

/-- The end marker is read, and with it the last byte of the payload. -/
theorem reaches_finish (hbytes : bytes = (t.finish props dictSize).output)
    (htracks : d.Tracks t props dictSize bytes) (hsound : t.code.writer.Sound) :
    ∃ d' : Decoder, d.next.Reaches (bytes.drop (5 + t.code.writer.count)) d' [] [] ∧
      d'.view = .ended := by
  obtain ⟨code, past⟩ := t
  obtain ⟨hscan, rfl, rfl, rfl⟩ := htracks
  have hfollow := (d.past.context d.props d.dictSize).follow_endMarker []
  rw [List.append_nil] at hfollow
  have hw := Coding.sound_write (d.past.context d.props d.dictSize).coding endMarkerBits hsound
  replace hbytes : bytes = ((d.past.context d.props d.dictSize).coding.write endMarkerBits
    code).writer.close.output := hbytes
  obtain ⟨hholds, hlen, -⟩ := RangeWriter.holds_close hw
  rw [← hbytes] at hholds hlen
  obtain ⟨scan, hsync, hreach⟩ :=
    reaches_walk _ hscan hsound hfollow (hholds.of_normalize hw.steady)
  have hverdict {r : RangeReader} := @verdict_of_close r _ hw
  rw [← hbytes] at hverdict
  generalize (d.past.context d.props d.dictSize).coding.write endMarkerBits code = code' at *
  have hdrop : bytes.drop (5 + code'.writer.normalize.count) = [] :=
    List.drop_eq_nil_of_le (Nat.le_of_eq hlen)
  by_cases hnarrow : code'.writer.range < minRange
  · have hnorm : code'.writer.normalize = code'.writer.shift := if_pos hnarrow
    rw [hnorm] at hholds hdrop hverdict
    obtain ⟨byte, hbyte, hsync'⟩ := hsync.reader.shift hw.steady hnarrow hholds
    rw [hbyte, hdrop] at hreach
    have hclosing : { d with scan }.walk (.done .endMarker) =
        { d with scan, phase := .closing } := by
      show ({ d with
        scan
        phase := if scan.reader.starved then .closing else verdict scan.reader } : Decoder) = _
      rw [if_pos (hsync.reader.starved_iff.mpr hnarrow)]
    rw [hclosing] at hreach
    exact ⟨_, hreach.trans (Reaches.feed rfl rfl), view_of_finished (hverdict hsync')⟩
  · have hnorm : code'.writer.normalize = code'.writer := if_neg hnarrow
    rw [hnorm] at hdrop hverdict
    rw [hdrop] at hreach
    refine ⟨_, hreach, view_of_finished ?_⟩
    exact (if_neg (hsync.reader.not_starved (Nat.le_of_not_lt hnarrow))).trans
      (hverdict hsync.reader)

theorem past_foldl (symbols : List Symbol) :
    (symbols.foldl (Transcript.add props dictSize) t).past = symbols.foldl Past.append t.past := by
  induction symbols generalizing t with
  | nil => rfl
  | cons s symbols ih => exact ih

/-- A closed payload lies in every interval on the way to it. -/
theorem holds_finish (props : Properties) (dictSize : Nat) (hsound : t.code.writer.Sound) :
    t.code.writer.Holds (t.finish props dictSize).output := by
  have hw := Coding.sound_write (t.past.context props dictSize).coding endMarkerBits hsound
  exact Coding.holds_of_write _ _ hsound
    ((RangeWriter.holds_close hw).1.of_normalize hw.steady)

/-- A payload is used up to its last byte and decodes to what its symbols stand for. -/
theorem whole_payload (props : Properties) {dictSize : Nat} (hdict : 0 < dictSize)
    (hend : dictSize ≤ endDistance) {symbols : List Symbol} (hwell : WellFormed dictSize symbols) :
    ∃ d, (start props dictSize).whole (payload props dictSize symbols) =
      ⟨d, (payload props dictSize symbols).length, expand symbols, .ended⟩ := by
  have hstart : (Transcript.start props).code.writer.Sound := RangeWriter.sound_start
  have hsound := sound_foldl props dictSize symbols hstart
  have hholds := holds_finish props dictSize hsound
  obtain ⟨d₀, htracks₀, hreach₀⟩ := reaches_start props dictSize (holds_of_foldl hstart hholds)
  obtain ⟨d₁, out, htracks₁, hreach₁, hout⟩ :=
    reaches_foldl htracks₀ hstart hdict hend hwell hholds
  obtain ⟨d₂, hreach₂, hview⟩ := reaches_finish rfl htracks₁ hsound
  refine ⟨d₂, ?_⟩
  have hexpand : expand symbols = out := by
    rw [htracks₁.past, htracks₀.past, past_foldl] at hout
    exact hout
  rw [hexpand]
  have hwhole := ((hreach₀.trans hreach₁).trans hreach₂).whole hview
  rwa [List.nil_append, List.append_nil] at hwhole

end Decoder

end Lzma
