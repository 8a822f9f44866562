import Lzma.Proofs.Compression
import Lzma.Proofs.Expansion
import Lzma.Proofs.Scripted

/-!
# Arrival does not matter

A stream may arrive in any pieces: a cut can fall inside the header, inside the
first bytes of the range coder, inside a symbol or the end marker, and a chunk
can be used up just when the output is full. Whatever the pieces, and whatever
the sizes of the two buffers, a run comes to what the decoding in one piece comes
to. Two runs over the same bytes therefore agree on everything but how much they
have delivered when they find the payload malformed.
-/

namespace Lzma

/-- What two runs have in common if `whole` is the output in one piece. -/
structure Concur (whole : List UInt8) (result₁ result₂ : Except Error Unit)
    (out₁ out₂ : List UInt8) : Prop where
  result : result₁ = result₂
  output : (∀ e, result₁ ≠ .error (.decompress e)) → out₁ = out₂
  first : out₁ <+: whole
  second : out₂ <+: whole

/-- A world in which nothing was read yet, with a decoder at hand. -/
def Line.fresh {ω : Type} (w : ω) (d : Decoder) : Line (Decoding ω) :=
  { world := { world := w, stream := { coder := d } } }

theorem Line.beside_fresh {ω : Type} [Channel ω] [Fair ω] {w : ω} {bytes : List UInt8}
    {ending : Option Ending} (hw : Fair.scene w = some ⟨bytes, ending, []⟩) (d : Decoder) :
    (fresh w d).Beside { coder := d } bytes.length ⟨bytes, ending, []⟩ :=
  ⟨⟨hw, Nat.zero_add _, rfl⟩, rfl⟩

section

variable {ω₁ ω₂ : Type} [Channel ω₁] [Fair ω₁] [Channel ω₂] [Fair ω₂] [Provident]
variable {w₁ : ω₁} {w₂ : ω₂} {bytes : List UInt8} {ending : Ending}

theorem Decompressor.runs_concur {a₁ : Allocator ω₁} {a₂ : Allocator ω₂} (ha₁ : a₁.Grants)
    (ha₂ : a₂.Grants) (hw₁ : Fair.scene w₁ = some ⟨bytes, some ending, []⟩)
    (hw₂ : Fair.scene w₂ = some ⟨bytes, some ending, []⟩) :
    ∃ result₁ result₂ c₁ c₂ w₁' w₂' s₁ s₂,
      ({ allocator := a₁ } : Decompressor ω₁).run w₁ = (result₁, c₁, w₁') ∧
      ({ allocator := a₂ } : Decompressor ω₂).run w₂ = (result₂, c₂, w₂') ∧
      Fair.scene w₁' = some s₁ ∧ Fair.scene w₂' = some s₂ ∧
      Concur (Extraction.of bytes ending).output result₁ result₂ s₁.delivered s₂.delivered ∧
      c₁.header = c₂.header ∧ c₁.totalOut = s₁.delivered.length ∧
      c₂.totalOut = s₂.delivered.length := by
  obtain ⟨c₁, w₁', rest₁, ending₁, out₁, hrun₁, hw₁', hheader₁, -, htotal₁, hprefix₁, hall₁, -⟩ :=
    run_spec ha₁ hw₁
  obtain ⟨c₂, w₂', rest₂, ending₂, out₂, hrun₂, hw₂', hheader₂, -, htotal₂, hprefix₂, hall₂, -⟩ :=
    run_spec ha₂ hw₂
  refine ⟨_, _, c₁, c₂, w₁', w₂', _, _, hrun₁, hrun₂, hw₁', hw₂',
    ⟨rfl, fun hsettled => ?_, hprefix₁, hprefix₂⟩, hheader₁.trans hheader₂.symm, htotal₁, htotal₂⟩
  exact (hall₁ hsettled).trans (hall₂ hsettled).symm

omit [Provident] in
theorem Pump.runs_concur {room₁ room₂ : Nat} (hroom₁ : 0 < room₁) (hroom₂ : 0 < room₂)
    {staging₁ staging₂ : Staging} (hsize₁ : 0 < staging₁.size) (hsize₂ : 0 < staging₂.size)
    {d : Decoder} (hwants : d.view = .wants)
    (hw₁ : Fair.scene w₁ = some ⟨bytes, some ending, []⟩)
    (hw₂ : Fair.scene w₂ = some ⟨bytes, some ending, []⟩) :
    ∃ result₁ result₂ state₁ state₂ l₁ l₂ s₁ s₂,
      run room₁ staging₁ (.fresh w₁ d) .allocated = (result₁, state₁, l₁) ∧
      run room₂ staging₂ (.fresh w₂ d) .allocated = (result₂, state₂, l₂) ∧
      Fair.scene l₁.world.world = some s₁ ∧ Fair.scene l₂.world.world = some s₂ ∧
      Concur (d.whole bytes).output result₁ result₂ s₁.delivered s₂.delivered ∧
      l₁.given = s₁.delivered.length ∧ l₂.given = s₂.delivered.length := by
  obtain ⟨l₁, state₁, t₁, rest₁, ending₁, out₁, hrun₁, hl₁, hprefix₁, hall₁, -⟩ :=
    run_spec hroom₁ hsize₁ .allocated (Line.beside_fresh hw₁ d) rfl hwants
  obtain ⟨l₂, state₂, t₂, rest₂, ending₂, out₂, hrun₂, hl₂, hprefix₂, hall₂, -⟩ :=
    run_spec hroom₂ hsize₂ .allocated (Line.beside_fresh hw₂ d) rfl hwants
  refine ⟨_, _, state₁, state₂, l₁, l₂, _, _, hrun₁, hrun₂, hl₁.along.scene, hl₂.along.scene,
    ⟨rfl, fun hsettled => ?_, hprefix₁, hprefix₂⟩, hl₁.along.given, hl₂.along.given⟩
  have hsound : (d.whole bytes).outcome ≠ .corrupt := by
    intro hcorrupt
    refine hsettled Fault.corruptData.toIoError ?_
    rw [hcorrupt]
    rfl
  exact (hall₁ hsound).trans (hall₂ hsound).symm

/--
Two runs over the same bytes have the same result and the same header, and they deliver
the same unless the payload is malformed; so have two loops over buffers of any sizes.
-/
theorem arrival_independent {a₁ : Allocator ω₁} {a₂ : Allocator ω₂} (ha₁ : a₁.Grants)
    (ha₂ : a₂.Grants) (hw₁ : Fair.scene w₁ = some ⟨bytes, some ending, []⟩)
    (hw₂ : Fair.scene w₂ = some ⟨bytes, some ending, []⟩) :
    (∃ result₁ result₂ c₁ c₂ w₁' w₂' s₁ s₂,
      ({ allocator := a₁ } : Decompressor ω₁).run w₁ = (result₁, c₁, w₁') ∧
      ({ allocator := a₂ } : Decompressor ω₂).run w₂ = (result₂, c₂, w₂') ∧
      Fair.scene w₁' = some s₁ ∧ Fair.scene w₂' = some s₂ ∧
      Concur (Extraction.of bytes ending).output result₁ result₂ s₁.delivered s₂.delivered ∧
      c₁.header = c₂.header ∧ c₁.totalOut = s₁.delivered.length ∧
      c₂.totalOut = s₂.delivered.length) ∧
    ∀ (header : Header) (d : Decoder) (room₁ room₂ : Nat) (staging₁ staging₂ : Staging),
      Engine.decoderFor header = .ok d → 0 < room₁ → 0 < room₂ → 0 < staging₁.size →
      0 < staging₂.size →
      ∃ result₁ result₂ state₁ state₂ l₁ l₂ s₁ s₂,
        Pump.run room₁ staging₁ (.fresh w₁ d) .allocated = (result₁, state₁, l₁) ∧
        Pump.run room₂ staging₂ (.fresh w₂ d) .allocated = (result₂, state₂, l₂) ∧
        Fair.scene l₁.world.world = some s₁ ∧ Fair.scene l₂.world.world = some s₂ ∧
        Concur (d.whole bytes).output result₁ result₂ s₁.delivered s₂.delivered ∧
        l₁.given = s₁.delivered.length ∧ l₂.given = s₂.delivered.length := by
  refine ⟨Decompressor.runs_concur ha₁ ha₂ hw₁ hw₂, ?_⟩
  intro header d room₁ room₂ staging₁ staging₂ hd hroom₁ hroom₂ hsize₁ hsize₂
  exact Pump.runs_concur hroom₁ hroom₂ hsize₁ hsize₂ (Engine.view_decoderFor hd) hw₁ hw₂

end

/-- Two bytes and a copy of them, read byte by byte and in chunks of five. -/
theorem arrival_independent_of_copy :
    let header : Header := { lc := 3, pb := 2, dictSize := 4096 }
    let symbols : List Symbol := [.literal 97, .literal 98, .fresh 6 2]
    let text := header.stream symbols
    let rest := payload header.coding 4096 symbols
    let d := Decoder.start header.coding 4096
    (∃ result₁ result₂ c₁ c₂ w₁' w₂' s₁ s₂,
      ({ allocator := .standard } : Decompressor _).run (Exchange.ofBytes 1 text ()) =
        (result₁, c₁, w₁') ∧
      ({ allocator := .standard } : Decompressor _).run (Exchange.ofBytes 5 text ()) =
        (result₂, c₂, w₂') ∧
      Fair.scene w₁' = some s₁ ∧ Fair.scene w₂' = some s₂ ∧
      Concur [97, 98, 97, 98, 97, 98, 97, 98] result₁ result₂ s₁.delivered s₂.delivered ∧
      c₁.header = c₂.header ∧ c₁.totalOut = s₁.delivered.length ∧
      c₂.totalOut = s₂.delivered.length) ∧
    ∃ result₁ result₂ state₁ state₂ l₁ l₂ s₁ s₂,
      Pump.run 1 (.ofList [0]) (.fresh (Exchange.ofBytes 1 rest ()) d) .allocated =
        (result₁, state₁, l₁) ∧
      Pump.run 7 (.ofList [0, 0]) (.fresh (Exchange.ofBytes 5 rest ()) d) .allocated =
        (result₂, state₂, l₂) ∧
      Fair.scene l₁.world.world = some s₁ ∧ Fair.scene l₂.world.world = some s₂ ∧
      Concur [97, 98, 97, 98, 97, 98, 97, 98] result₁ result₂ s₁.delivered s₂.delivered ∧
      l₁.given = s₁.delivered.length ∧ l₂.given = s₂.delivered.length := by
  intro header symbols text rest d
  have h1 : 0 < 1 := by decide
  have h5 : 0 < 5 := by decide
  have hwell : WellFormed 4096 symbols := by decide
  have hexpand : expand symbols = [97, 98, 97, 98, 97, 98, 97, 98] := by decide
  have htext : (Extraction.of text .ended).output = [97, 98, 97, 98, 97, 98, 97, 98] := by
    have hx := Extraction.of_stream (h := header) symbols (by decide) (by decide) (by decide) []
      .ended
    rw [List.append_nil] at hx
    rw [hx]
    exact hexpand
  have hrest : (d.whole rest).output = [97, 98, 97, 98, 97, 98, 97, 98] := by
    obtain ⟨d', hwhole⟩ := Decoder.whole_payload header.coding (by decide) (by decide) hwell
    rw [hwhole]
    exact hexpand
  constructor
  · rw [← htext]
    exact (arrival_independent Allocator.grants_standard Allocator.grants_standard
      (Exchange.scene_ofBytes 1 text () h1) (Exchange.scene_ofBytes 5 text () h5)).1
  · rw [← hrest]
    exact (arrival_independent Allocator.grants_standard Allocator.grants_standard
      (Exchange.scene_ofBytes 1 rest () h1) (Exchange.scene_ofBytes 5 rest () h5)).2
      (.ofFields 0x5d 4096 0) d 1 7 (.ofList [0]) (.ofList [0, 0]) rfl h1 (by decide) h1
      (by decide)

/-! ## Compression -/

namespace Compressor

section

variable {ω₁ ω₂ : Type} [Channel ω₁] [Fair ω₁] [Channel ω₂] [Fair ω₂] [Provident]
variable {c₁ : Compressor ω₁} {c₂ : Compressor ω₂} {w₁ : ω₁} {w₂ : ω₂} {data : List UInt8}

/--
Two runs with the same accepted options over the same data succeed and write the same stream,
and both count all of the data and all of the stream.
-/
theorem stream_arrival_independent (hfresh₁ : c₁.isFresh = true) (hfresh₂ : c₂.isFresh = true)
    (hoptions : c₁.options = c₂.options) (ha₁ : c₁.allocator.Grants) (ha₂ : c₂.allocator.Grants)
    (hok : c₁.options.Accepted) (hformat : c₁.options.format = .lzma)
    (hw₁ : Fair.scene w₁ = some ⟨data, some .ended, []⟩)
    (hw₂ : Fair.scene w₂ = some ⟨data, some .ended, []⟩) :
    ∃ c₁' c₂' w₁' w₂' ending₁ ending₂ stream,
      c₁.run w₁ = (.ok (), c₁', w₁') ∧ c₂.run w₂ = (.ok (), c₂', w₂') ∧
      Fair.scene w₁' = some ⟨[], ending₁, stream⟩ ∧
      Fair.scene w₂' = some ⟨[], ending₂, stream⟩ ∧
      c₁'.totalIn = data.length ∧ c₂'.totalIn = data.length ∧
      c₁'.totalOut = stream.length ∧ c₂'.totalOut = stream.length := by
  obtain ⟨c₁', w₁', ending₁, hrun₁, hw₁', hin₁, hout₁⟩ :=
    run_spec hfresh₁ ha₁ hok.preset hok.coding hok.dictSize hformat hw₁
  rw [hoptions] at hok hformat
  obtain ⟨c₂', w₂', ending₂, hrun₂, hw₂', hin₂, hout₂⟩ :=
    run_spec hfresh₂ ha₂ hok.preset hok.coding hok.dictSize hformat hw₂
  rw [hoptions] at hw₁' hout₁
  exact ⟨c₁', c₂', w₁', w₂', ending₁, ending₂, _, hrun₁, hrun₂, hw₁', hw₂', hin₁, hin₂, hout₁,
    hout₂⟩

end

/-- Data in one piece and byte by byte; one of the handles was configured, the other was made so. -/
theorem stream_arrival_independent_of_chunks :
    let data : List UInt8 := [97, 98, 97, 98, 97, 98, 99]
    let o : Options := { lc := 0, lp := 4, pb := 1, level := .fastest, dictSize := 4096 }
    let c₁ : Compressor (Exchange ScriptedSource ScriptedSink Unit) := { options := o }
    let c₂ : Compressor (Exchange ScriptedSource ScriptedSink Unit) := (configure {} o).2
    ∃ c₁' c₂' w₁ w₂ ending₁ ending₂ stream,
      c₁.run (Exchange.ofBytes 7 data ()) = (.ok (), c₁', w₁) ∧
      c₂.run (Exchange.ofBytes 1 data ()) = (.ok (), c₂', w₂) ∧
      Fair.scene w₁ = some ⟨[], ending₁, stream⟩ ∧ Fair.scene w₂ = some ⟨[], ending₂, stream⟩ ∧
      c₁'.totalIn = 7 ∧ c₂'.totalIn = 7 ∧ c₁'.totalOut = stream.length ∧
      c₂'.totalOut = stream.length := by
  intro data o c₁ c₂
  have hfresh₁ : c₁.isFresh = true := rfl
  have hfresh₂ : c₂.isFresh = true := rfl
  have hok : c₁.options.Accepted := ⟨by decide, by decide, by decide⟩
  exact stream_arrival_independent hfresh₁ hfresh₂ rfl Allocator.grants_standard
    Allocator.grants_standard hok rfl (Exchange.scene_ofBytes 7 data () (by decide))
    (Exchange.scene_ofBytes 1 data () (by decide))

end Compressor

end Lzma
