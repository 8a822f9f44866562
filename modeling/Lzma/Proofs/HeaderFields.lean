import Lzma.Proofs.Dictionary
import Lzma.Proofs.Respelling
import Lzma.Proofs.Setup

/-!
# What a run takes from its header

A header is reported as it was read, but of its fields a run needs only what its decoder is made
of: the properties, and the dictionary size as it is kept. So the size field has no part in a run,
whether or not the payload comes to so many bytes, and neither has a difference between two
dictionary fields that is lost in rounding them up.

Both are statements on two runs. The two read their headers side by side (`Line.Spells`), and
behind the headers they are in worlds that answer alike and were called alike so far
(`Exchange.Level`). From there the first kind of runs is one set-up in two such worlds, memory
included. With a larger dictionary the set-ups are two, which may get different memory and come to
different decoders. What is known of these is `Decoder.Stricter`, and the memory is known to have
been granted; the two runs then keep step unless the stricter decoder finds a fault.
-/

namespace Lzma

/-! ## Two headers and one payload -/

/-- What shows of a call, without the bytes of a read and without the header that is noted. -/
@[simp] def Deed.outline : Deed → Deed
  | .read room (.ok r) => .read room (.ok ⟨[], r.count⟩)
  | .note (.decompressionStarting _) => .note (.decompressionStarting {})
  | d => d

theorem Record.offered_outline (ds : List Deed) : offered (ds.map Deed.outline) = offered ds := by
  rw [offered, offered, List.flatMap_map]
  congr
  funext d
  cases d with
  | read room result => cases result <;> rfl
  | note event => cases event <;> rfl
  | write | decode => rfl

variable {τ μ : Type}

/-- The same world with another text in the chunks of its source. -/
def Exchange.respell (x : Exchange ScriptedSource τ μ) (text : List UInt8) :
    Exchange ScriptedSource τ μ :=
  { x with source := { x.source with steps := ReadStep.respell x.source.steps text } }

theorem Exchange.respell_respell {x : Exchange ScriptedSource τ μ} {text text' : List UInt8}
    (h : ReadStep.Gives x.source.steps text) (hlength : text'.length = text.length)
    (other : List UInt8) : (x.respell text').respell other = x.respell other := by
  rw [respell, respell, respell, h.respell_respell hlength]

/-- Two worlds of which calls with one outline were made, and that will answer alike. -/
structure Exchange.Level (M : μ → μ → Prop) (t t' : Traced (Exchange ScriptedSource τ μ)) :
    Prop where
  source : t.world.source = t'.world.source
  sink : t.world.sink = t'.world.sink
  memory : M t.world.memory t'.world.memory
  calls : t.deeds.map Deed.outline = t'.deeds.map Deed.outline

/-- Two lines with two texts ahead of them that are cut up alike. -/
structure Line.Spells (text text' : List UInt8)
    (l l' : Line (Traced (Exchange ScriptedSource τ μ))) : Prop where
  gives : ReadStep.Gives l.world.world.source.steps text
  length : text'.length = text.length
  steps : l'.world.world.source.steps = ReadStep.respell l.world.world.source.steps text'
  reads : l.world.world.source.reads = l'.world.world.source.reads
  sink : l.world.world.sink = l'.world.world.sink
  memory : l.world.world.memory = l'.world.world.memory
  calls : l.world.deeds.map Deed.outline = l'.world.deeds.map Deed.outline
  taken : l.taken = l'.taken
  given : l.given = l'.given

namespace Exchange.Level

variable {M : μ → μ → Prop} {t t' : Traced (Exchange ScriptedSource τ μ)}

theorem note (h : Level M t t') {event event' : Event}
    (hevent : (Deed.note event).outline = (Deed.note event').outline) :
    Level M (Journal.note event t) (Journal.note event' t') := by
  refine ⟨h.source, h.sink, h.memory, ?_⟩
  show (t.deeds ++ [Deed.note event]).map Deed.outline =
    (t'.deeds ++ [Deed.note event']).map Deed.outline
  rw [List.map_append, List.map_append, h.calls, List.map_singleton, List.map_singleton, hevent]

theorem anyhow (h : Level M t t') : Level (fun _ _ => True) t t' :=
  ⟨h.source, h.sink, trivial, h.calls⟩

theorem leaves_left (a : Allocator μ) (t' : Traced (Exchange ScriptedSource τ μ)) :
    a.inMemory.traced.Leaves fun t => Level (fun _ _ => True) t t' :=
  ⟨fun _ _ h => ⟨h.source, h.sink, trivial, h.calls⟩,
    fun _ _ h => ⟨h.source, h.sink, trivial, h.calls⟩⟩

theorem leaves_right (a : Allocator μ) (t : Traced (Exchange ScriptedSource τ μ)) :
    a.inMemory.traced.Leaves fun t' => Level (fun _ _ => True) t t' :=
  ⟨fun _ _ h => ⟨h.source, h.sink, trivial, h.calls⟩,
    fun _ _ h => ⟨h.source, h.sink, trivial, h.calls⟩⟩

theorem release {κ : Type} {a : Allocator μ}
    {y y' : Outfit κ (Traced (Exchange ScriptedSource τ μ))} (hy : y.Served a.inMemory.traced)
    (hy' : y'.Served a.inMemory.traced) (hquiet : y.engine.housekeeping.closing.Quiet)
    (hquiet' : y'.engine.housekeeping.closing.Quiet) (h : Level (fun _ _ => True) t t') :
    Level (fun _ _ => True) (y.release t) (y'.release t') := by
  have hleft : Level (fun _ _ => True) (y.release t) t' :=
    hy.keeps_release (I := fun t => Level (fun _ _ => True) t t')
      (fun buffer _ => (leaves_left a t').free buffer) hquiet h
  exact hy'.keeps_release (fun buffer _ => (leaves_right a (y.release t)).free buffer) hquiet'
    hleft

theorem lockstep (a : Allocator μ) :
    (a.inMemory : Allocator (Exchange ScriptedSource τ μ)).traced.Lockstep (Level Eq) Never
      a.inMemory.traced := by
  refine Allocator.lockstep_of_alike ?_ ?_ ?_
  · exact fun event t t' h => h.note rfl
  · rintro size ⟨⟨source, sink, memory, events⟩, deeds⟩ ⟨⟨source', sink', _, events'⟩, deeds'⟩
      ⟨hsource, hsink, rfl, hcalls⟩
    exact ⟨rfl, hsource, hsink, rfl, hcalls⟩
  · rintro buffer ⟨⟨source, sink, memory, events⟩, deeds⟩ ⟨⟨source', sink', _, events'⟩, deeds'⟩
      ⟨hsource, hsink, rfl, hcalls⟩
    exact ⟨hsource, hsink, rfl, hcalls⟩

end Exchange.Level

/-- With the same text ahead of them the two lines are alike. -/
theorem Line.Spells.alike {text : List UInt8} {l l' : Line (Traced (Exchange ScriptedSource τ μ))}
    (h : l.Spells text text l') : l.Alike (Exchange.Level Eq) l' := by
  obtain ⟨⟨⟨⟨steps, reads⟩, sink, memory, events⟩, deeds⟩, taken, given⟩ := l
  obtain ⟨⟨⟨⟨steps', reads'⟩, sink', memory', events'⟩, deeds'⟩, taken', given'⟩ := l'
  obtain rfl : reads = reads' := h.reads
  obtain rfl : steps' = steps := h.steps.trans h.gives.respell_self
  exact ⟨⟨rfl, h.sink, h.memory, h.calls⟩, h.taken, h.given⟩

variable [Sink τ]

theorem Exchange.level_alike (M : μ → μ → Prop) :
    Channel.Alike (Exchange.Level (τ := τ) M) where
  note event t t' h := h.note rfl
  read room t t' h := by
    obtain ⟨⟨source, sink, memory, events⟩, deeds⟩ := t
    obtain ⟨⟨source', sink', memory', events'⟩, deeds'⟩ := t'
    obtain ⟨rfl, rfl, hmemory, hcalls⟩ := h
    refine ⟨rfl, rfl, rfl, hmemory, ?_⟩
    rw [Traced.read_eq, Traced.read_eq, List.map_append, List.map_append, hcalls]
    rfl
  write bytes t t' h := by
    obtain ⟨⟨source, sink, memory, events⟩, deeds⟩ := t
    obtain ⟨⟨source', sink', memory', events'⟩, deeds'⟩ := t'
    obtain ⟨rfl, rfl, hmemory, hcalls⟩ := h
    refine ⟨rfl, rfl, rfl, hmemory, ?_⟩
    rw [Traced.write_eq, Traced.write_eq, List.map_append, List.map_append, hcalls]
    rfl

/-- A read of a script, in full. -/
theorem Line.pull_script {l : Line (Traced (Exchange ScriptedSource τ μ))} {room n : Nat}
    {placed : List UInt8} {rest : List ReadStep}
    (h : ReadStep.serve room l.world.world.source.steps = (.ok ⟨placed, n⟩, rest))
    (hroom : 0 < room) (hle : n ≤ room) :
    l.pull room = (.ok ⟨placed, n⟩,
      { world := ⟨{ l.world.world with
          source := ⟨rest, l.world.world.source.reads.add (room, .ok n)⟩ },
          l.world.deeds ++ [.read room (.ok ⟨placed, n⟩)]⟩
        taken := l.taken + n
        given := l.given }) := by
  obtain ⟨⟨⟨⟨steps, reads⟩, sink, memory, events⟩, deeds⟩, taken, given⟩ := l
  have hread : Source.read room (⟨steps, reads⟩ : ScriptedSource) =
      (.ok ⟨placed, n⟩, ⟨rest, reads.add (room, .ok n)⟩) := by
    show ScriptedSource.read room _ = _
    rw [ScriptedSource.read, h]
    rfl
  rw [pull, if_neg (Nat.ne_of_gt hroom)]
  dsimp only
  rw [Traced.read_eq]
  simp only [Channel.read, hread]
  rw [if_neg (Nat.not_lt.mpr hle)]

/-- The headers that two lines note may be two. -/
theorem Exchange.level_starting {M : μ → μ → Prop}
    {l l' : Line (Traced (Exchange ScriptedSource τ μ))} (hl : l.Alike (Level M) l')
    (header header' : Header) :
    (l.note (.decompressionStarting header)).Alike (Level M)
      (l'.note (.decompressionStarting header')) :=
  ⟨hl.world.note rfl, hl.taken, hl.given⟩

namespace Line.Spells

variable {text text' : List UInt8} {l l' : Line (Traced (Exchange ScriptedSource τ μ))}

theorem pull (h : l.Spells text text' l') (hne : text ≠ []) {room : Nat} (hroom : 0 < room) :
    ∃ n l₁ l₁', 0 < n ∧ n ≤ room ∧ n ≤ text.length ∧ l.pull room = (.ok ⟨text.take n, n⟩, l₁) ∧
      l'.pull room = (.ok ⟨text'.take n, n⟩, l₁') ∧
      l₁.Spells (text.drop n) (text'.drop n) l₁' := by
  obtain ⟨n, rest, hpos, hle, htext, hrest, hserve, hserve'⟩ :=
    h.gives.serve hne h.length hroom
  rw [← h.steps] at hserve'
  refine ⟨n, _, _, hpos, hle, htext, pull_script hserve hroom hle, pull_script hserve' hroom hle,
    hrest, ?_, rfl, congrArg (·.add (room, .ok n)) h.reads, h.sink, h.memory, ?_,
    congrArg (· + n) h.taken, h.given⟩
  · rw [List.length_drop, List.length_drop, h.length]
  · rw [List.map_append, List.map_append, h.calls]
    rfl

/-- Both texts are gathered as far as they are asked for. -/
theorem gather (h : l.Spells text text' l') (old old' : List UInt8)
    (hle : old.length ≤ text.length) (hold : old'.length = old.length) :
    ∃ l₁ l₁', l.gather old = (.ok (text.take old.length), l₁) ∧
      l'.gather old' = (.ok (text'.take old.length), l₁') ∧
      l₁.Spells (text.drop old.length) (text'.drop old.length) l₁' := by
  induction hn : old.length using Nat.strongRecOn generalizing l l' text text' old old' with
  | ind n ih =>
      subst hn
      by_cases hnil : old = []
      · subst hnil
        obtain rfl := List.length_eq_zero_iff.mp hold
        refine ⟨l, l', ?_, ?_, h⟩ <;> rw [Line.gather] <;> rfl
      · have hroom := List.length_pos_iff.mpr hnil
        have hnil' : old' ≠ [] := by rwa [← List.length_pos_iff, hold]
        have hne : text ≠ [] := List.length_pos_iff.mp (Nat.lt_of_lt_of_le hroom hle)
        obtain ⟨n, l₁, l₁', hpos, hcut, htext, hpull, hpull', h₁⟩ := h.pull hne hroom
        have hlater {placed old : List UInt8} :
            ((overlay placed old).drop n).length = old.length - n := by
          rw [List.length_drop, length_overlay]
        have htext' : n ≤ text'.length := by rwa [h.length]
        obtain ⟨l₂, l₂', hgather, hgather', h₂⟩ := ih (old.length - n) (by omega) h₁
          ((overlay (text.take n) old).drop n) ((overlay (text'.take n) old').drop n)
          (by rw [hlater, List.length_drop]; omega) (by rw [hlater, hlater, hold]) hlater
        have hcount : ¬n = 0 := Nat.ne_of_gt hpos
        have hwhole {placed old : List UInt8} (hplaced : n ≤ placed.length) (hle : n ≤ old.length) :
            (overlay (placed.take n) old).take n = placed.take n := by
          rw [Line.Along.take_overlay (by rw [List.length_take]; omega) hle, List.take_take,
            Nat.min_self]
        refine ⟨l₂, l₂', ?_, ?_, ?_⟩
        · rw [Line.gather, if_neg (by simpa using hnil), hpull]
          dsimp only
          rw [if_neg hcount, hgather]
          dsimp only
          rw [hwhole htext hcut, ← List.take_add, Nat.add_sub_cancel' hcut]
        · rw [Line.gather, if_neg (by simpa using hnil'), hold, hpull']
          dsimp only
          rw [if_neg hcount, hgather']
          dsimp only
          rw [hwhole htext' (hold ▸ hcut), ← List.take_add, Nat.add_sub_cancel' hcut]
        · rw [List.drop_drop, List.drop_drop, Nat.add_sub_cancel' hcut] at h₂
          exact h₂

theorem readHeader (h : l.Spells text text' l') (hle : headerSize ≤ text.length) :
    ∃ l₁ l₁', Decompressor.readHeader l = (Header.parse (text.take headerSize), l₁) ∧
      Decompressor.readHeader l' = (Header.parse (text'.take headerSize), l₁') ∧
      l₁.Spells (text.drop headerSize) (text'.drop headerSize) l₁' := by
  have hroom : (List.replicate headerSize (0 : UInt8)).length = headerSize :=
    List.length_replicate
  obtain ⟨l₁, l₁', hgather, hgather', h₁⟩ := h.gather (List.replicate headerSize 0)
    (List.replicate headerSize 0) (by rwa [hroom]) rfl
  rw [hroom] at hgather hgather' h₁
  have hwhole {text : List UInt8} (hle : headerSize ≤ text.length) :
      ¬(text.take headerSize).length < headerSize := by
    rw [List.length_take]
    omega
  refine ⟨l₁, l₁', ?_, ?_, h₁⟩
  · rw [Decompressor.readHeader, hgather]
    exact if_neg (hwhole hle)
  · rw [Decompressor.readHeader, hgather']
    exact if_neg (hwhole (h.length ▸ hle))

end Line.Spells

/-! ## Runs that differ in their header alone -/

namespace Decompressor

variable [Provident]

/-- Two runs of one handle that differ in no call but by the header, and come to the same. -/
structure SameButHeader (c : Decompressor μ) (x y : Exchange ScriptedSource τ μ) :
    Prop where
  result : (c.within.run x).1 = (c.within.run y).1
  state : (c.within.run x).2.1.state = (c.within.run y).2.1.state
  totalIn : (c.within.run x).2.1.totalIn = (c.within.run y).2.1.totalIn
  totalOut : (c.within.run x).2.1.totalOut = (c.within.run y).2.1.totalOut
  writes : Record.offered (c.within.deeds x) = Record.offered (c.within.deeds y)
  calls : (c.within.deeds x).map Deed.outline = (c.within.deeds y).map Deed.outline

variable {c : Decompressor μ} {x y : Exchange ScriptedSource τ μ}

theorem sameButHeader_of_drive (hfresh : c.state = .created) {M : μ → μ → Prop}
    (hresult : (c.within.traced.drive ⟨x, []⟩).1 = (c.within.traced.drive ⟨y, []⟩).1)
    (hl : (c.within.traced.drive ⟨x, []⟩).2.2.2.Alike (Exchange.Level M)
      (c.within.traced.drive ⟨y, []⟩).2.2.2) : c.SameButHeader x y := by
  obtain ⟨hx, hxin, hxout, hxdeeds⟩ := run_closed (c := c.within) hfresh x
  obtain ⟨hy, hyin, hyout, hydeeds⟩ := run_closed (c := c.within) hfresh y
  have hsame : (c.within.run x).1 = (c.within.run y).1 := by rw [hx, hy, hresult]
  have htotalIn : (c.within.run x).2.1.totalIn = (c.within.run y).2.1.totalIn := by
    rw [hxin, hyin, hl.taken]
  have htotalOut : (c.within.run x).2.1.totalOut = (c.within.run y).2.1.totalOut := by
    rw [hxout, hyout, hl.given]
  have hcalls : (c.within.deeds x).map Deed.outline = (c.within.deeds y).map Deed.outline := by
    have hdeeds : (c.within.traced.drive ⟨x, []⟩).2.2.2.deeds.map Deed.outline =
        (c.within.traced.drive ⟨y, []⟩).2.2.2.deeds.map Deed.outline := hl.world.calls
    rw [hxdeeds, hydeeds, List.map_append, List.map_append, hdeeds, hsame, htotalIn, htotalOut]
  refine ⟨hsame, ?_, htotalIn, htotalOut, ?_, hcalls⟩
  · rcases ended_run (c := c.within) hfresh x with ⟨hok, hstate⟩ | ⟨⟨e, he⟩, hstate⟩ <;>
      rcases ended_run (c := c.within) hfresh y with ⟨hok', hstate'⟩ | ⟨⟨e', he'⟩, hstate'⟩
    · rw [hstate, hstate']
    · rw [hok, he'] at hsame
      cases hsame
    · rw [he, hok'] at hsame
      cases hsame
    · rw [hstate, hstate']
  · rw [← Record.offered_outline, hcalls, Record.offered_outline]

section

variable {l l' : Line (Traced (Exchange ScriptedSource τ μ))}

theorem sameButHeader_of_error (hfresh : c.state = .created) {e : Error}
    (hheader : readHeader ({ world := ⟨x, []⟩ } : Line (Traced _)) = (.error e, l))
    (hheader' : readHeader ({ world := ⟨y, []⟩ } : Line (Traced _)) = (.error e, l'))
    (hl : l.Alike (Exchange.Level Eq) l') : c.SameButHeader x y := by
  have hdrive := drive_of_error (c := c.within.traced) hheader
  have hdrive' := drive_of_error (c := c.within.traced) hheader'
  refine sameButHeader_of_drive (M := Eq) hfresh ?_ ?_ <;> rw [hdrive, hdrive']
  exact hl

theorem sameButHeader_of_unpack (hfresh : c.state = .created) {M : μ → μ → Prop}
    {header header' : Header}
    (hheader : readHeader ({ world := ⟨x, []⟩ } : Line (Traced _)) = (.ok header, l))
    (hheader' : readHeader ({ world := ⟨y, []⟩ } : Line (Traced _)) = (.ok header', l'))
    (hresult : (c.within.traced.unpack header (l.note (.decompressionStarting header))).1 =
      (c.within.traced.unpack header' (l'.note (.decompressionStarting header'))).1)
    (hl : (c.within.traced.unpack header (l.note (.decompressionStarting header))).2.2.Alike
      (Exchange.Level M)
      (c.within.traced.unpack header' (l'.note (.decompressionStarting header'))).2.2) :
    c.SameButHeader x y := by
  have hdrive := drive_of_ok (c := c.within.traced) hheader
  have hdrive' := drive_of_ok (c := c.within.traced) hheader'
  refine sameButHeader_of_drive (M := M) hfresh ?_ ?_ <;> rw [hdrive, hdrive']
  · exact hresult
  · exact hl

end

/-- Of a header a set-up takes the properties, and the dictionary size as it is kept. -/
theorem unpack_congr {ω : Type} [Channel ω] (c : Decompressor ω) {header header' : Header}
    (hcoding : header.coding = header'.coding)
    (hdict : dictionarySize header.dictSize.toNat = dictionarySize header'.dictSize.toNat)
    (l : Line ω) : c.unpack header l = c.unpack header' l := by
  have hengine (w : ω) : Engine.acquireDecoder header c.allocator w =
      Engine.acquireDecoder header' c.allocator w := by
    rw [Engine.acquireDecoder, Engine.acquireDecoder, Engine.decoderFor, Engine.decoderFor,
      hcoding, hdict]
  rw [unpack, unpack, DecompressSession.acquire, DecompressSession.acquire, hengine]

variable {text text' : List UInt8} {f : Header → Header}

omit [Provident] in
/-- Behind two headers the same payload is at hand. -/
theorem readHeader_differs (hgives : ReadStep.Gives x.source.steps text)
    (hle : headerSize ≤ text.length) (hdiffers : Header.Differs f text text') :
    ∃ l l', readHeader ({ world := ⟨x, []⟩ } : Line (Traced (Exchange ScriptedSource τ μ))) =
        (Header.parse (text.take headerSize), l) ∧
      readHeader ({ world := ⟨x.respell text', []⟩ } :
          Line (Traced (Exchange ScriptedSource τ μ))) =
        ((Header.parse (text.take headerSize)).map f, l') ∧
      l.Alike (Exchange.Level Eq) l' := by
  have hstart : Line.Spells text text'
      ({ world := ⟨x, []⟩ } : Line (Traced (Exchange ScriptedSource τ μ)))
      { world := ⟨x.respell text', []⟩ } :=
    ⟨hgives, hdiffers.length, rfl, rfl, rfl, rfl, rfl, rfl, rfl⟩
  obtain ⟨l, l', hheader, hheader', hl⟩ := hstart.readHeader hle
  rw [hdiffers.payload] at hl
  rw [hdiffers.header] at hheader'
  exact ⟨l, l', hheader, hheader', hl.alike⟩

/-- A field that the set-up does not look at has no part in a run. -/
theorem sameButHeader_of_coding (hfresh : c.state = .created)
    (hgives : ReadStep.Gives x.source.steps text) (hle : headerSize ≤ text.length)
    (hdiffers : Header.Differs f text text')
    (hf : ∀ header, Header.parse (text.take headerSize) = .ok header →
      header.coding = (f header).coding ∧
        dictionarySize header.dictSize.toNat = dictionarySize (f header).dictSize.toNat) :
    c.SameButHeader x (x.respell text') := by
  obtain ⟨l, l', hheader, hheader', hl⟩ := readHeader_differs hgives hle hdiffers
  cases hparse : Header.parse (text.take headerSize) with
  | error e =>
      rw [hparse] at hheader hheader'
      exact sameButHeader_of_error hfresh hheader hheader' hl
  | ok header =>
      rw [hparse] at hheader hheader'
      obtain ⟨hcoding, hdict⟩ := hf header hparse
      have hnoted := Exchange.level_starting hl header (f header)
      have hc : c.within.traced.Lockstep (Exchange.Level (τ := τ) Eq) Never c.within.traced :=
        ⟨⟨rfl, rfl, rfl, rfl⟩, Exchange.Level.lockstep c.allocator⟩
      rcases unpack_lockstep (Exchange.level_alike Eq).lockstep hc header hnoted with
        ⟨hresult, -, hl₁⟩ | ⟨_, -, hnever⟩
      · rw [unpack_congr c.within.traced hcoding hdict (l'.note _)] at hresult hl₁
        exact sameButHeader_of_unpack hfresh hheader hheader' hresult hl₁
      · exact hnever.elim

omit [Sink τ] [Provident] in
theorem stricter_decoderFor {header header' : Header} {d d' : Decoder}
    (hcoding : header.coding = header'.coding) (hle : header.dictSize ≤ header'.dictSize)
    (hd : Engine.decoderFor header = .ok d) (hd' : Engine.decoderFor header' = .ok d') :
    d.Stricter d' := by
  rw [Engine.decoderFor] at hd hd'
  rw [← hcoding] at hd'
  by_cases hok : header.coding.Supported
  · rw [if_pos hok] at hd hd'
    cases hd
    cases hd'
    refine Decoder.stricter_start header.coding ?_
    have hle : header.dictSize.toNat ≤ header'.dictSize.toNat := UInt32.le_iff_toNat_le.mp hle
    rw [dictionarySize, dictionarySize]
    omega
  · rw [if_neg hok] at hd
    cases hd

omit [Provident] in
/-- What a payload comes to that is not refused, in a session with a larger dictionary. -/
theorem pump_larger {s s' : DecompressSession (Traced (Exchange ScriptedSource τ μ))}
    {d d' : Decoder} (hs : s.engine.stream = { coder := d })
    (hs' : s'.engine.stream = { coder := d' }) (hd : d.Stricter d')
    (hinput : s.input.size = s'.input.size) (houtput : s.output.size = s'.output.size)
    {state : DecompressState} {l l' : Line (Traced (Exchange ScriptedSource τ μ))}
    {M : μ → μ → Prop} (hl : l.Alike (Exchange.Level M) l')
    (hplaced : Record.Placed (s.pump state l).2.2.outer.deeds)
    (hsettled : ∀ e, (s.pump state l).1 ≠ .error (.decompress e)) :
    (s.pump state l).1 = (s'.pump state l').1 ∧
      (s.pump state l).2.2.outer.Alike (Exchange.Level M) (s'.pump state l').2.2.outer := by
  obtain ⟨s₁, hstream₁, hbuffer₁, houtput₁, hsame⟩ :=
    DecompressSession.exists_staged s'.input.buffer hinput state hplaced
  have hstream : s₁.engine.stream.Stricter s'.engine.stream := by
    rw [hstream₁, hs, hs']
    exact ⟨hd, rfl, rfl, rfl, rfl⟩
  rw [← hsame] at hsettled ⊢
  rcases DecompressSession.pump_stricter (Exchange.level_alike M) hstream (congrArg _ hbuffer₁)
    (houtput₁.trans houtput) state hl with ⟨hresult, -, hl₁⟩ | ⟨e, he⟩
  · exact ⟨hresult, hl₁⟩
  · exact absurd he (hsettled e)

/-- A larger dictionary does not change what a run has come to without refusing anything. -/
theorem sameButHeader_of_larger (hfresh : c.state = .created)
    (hgives : ReadStep.Gives x.source.steps text) (hle : headerSize ≤ text.length)
    (hdiffers : Header.Differs f text text')
    (hf : ∀ header, Header.parse (text.take headerSize) = .ok header →
      header.coding = (f header).coding ∧ header.dictSize ≤ (f header).dictSize)
    (hgranted : AllGranted (c.within.dealings (x.respell text')))
    (hsettled : ∀ e, (c.within.run x).1 ≠ .error (.decompress e)) :
    c.SameButHeader x (x.respell text') := by
  obtain ⟨l, l', hheader, hheader', hl⟩ := readHeader_differs hgives hle hdiffers
  have hplaced := c.placed_deeds fun excess => hgives.no_overReport excess
  have hleft : AllGranted (c.within.dealings x) := by
    by_contra hdenied
    exact hsettled _ ((atomic (c := c.within) hfresh x).refused hdenied)
  rw [(run_closed (c := c.within) hfresh x).1] at hsettled
  cases hparse : Header.parse (text.take headerSize) with
  | error e =>
      rw [hparse] at hheader hheader'
      exact sameButHeader_of_error hfresh hheader hheader' hl
  | ok header =>
      rw [hparse] at hheader hheader'
      obtain ⟨hcoding, hdict⟩ := hf header hparse
      have hnoted := Exchange.level_starting hl header (f header)
      obtain ⟨result, t, hacquire, hcomes, ht, -⟩ := setUp_granted (c := c.within) hfresh hleft
        (Exchange.Level.leaves_left c.allocator _) hheader hnoted.world.anyhow
      obtain ⟨result', t', hacquire', hcomes', ht', -⟩ := setUp_granted (c := c.within) hfresh
        hgranted (Exchange.Level.leaves_right c.allocator t) hheader' ht
      have hresult : (c.within.traced.drive ⟨x, []⟩).1 =
          (c.within.traced.unpack header (l.note (.decompressionStarting header))).1 := by
        rw [drive_of_ok hheader]
      rw [hresult, unpack, hacquire] at hsettled
      cases hcomes with
      | rejected hno => exact absurd rfl (hsettled _)
      | @session s d hd hstream =>
          cases hcomes' with
          | rejected hno =>
              rw [Engine.decoderFor, hcoding, if_neg hno] at hd
              cases hd
          | @session s' d' hd' hstream' =>
              have hinput : s.input.size = s'.input.size :=
                (DecompressSession.input_of_acquire hacquire).trans
                  (DecompressSession.input_of_acquire hacquire').symm
              have houtput : s.output.size = s'.output.size :=
                (DecompressSession.room_of_acquire hacquire).trans
                  (DecompressSession.room_of_acquire hacquire').symm
              have hopened : Line.Alike (Exchange.Level fun _ _ => True)
                  { l.note (.decompressionStarting header) with world := t }
                  { l'.note (.decompressionStarting (f header)) with world := t' } :=
                ⟨ht', hnoted.taken, hnoted.given⟩
              have hbegins := hplaced.earlier
                (pump_begins (c := c.within) hfresh hheader hacquire)
              have hk := DecompressSession.housekeeping_of_acquire hacquire
              have hk' := DecompressSession.housekeeping_of_acquire hacquire'
              dsimp only at hsettled
              rw [extract_eq hk] at hsettled
              obtain ⟨hpumped, hl₁⟩ := pump_larger hstream hstream'
                (stricter_decoderFor hcoding hdict hd hd') hinput houtput hopened hbegins hsettled
              refine sameButHeader_of_unpack (M := fun _ _ => True) hfresh hheader hheader'
                ?_ ?_ <;> rw [unpack, unpack, hacquire, hacquire'] <;> dsimp only <;>
                rw [extract_eq hk, extract_eq hk']
              · exact hpumped
              · exact ⟨hl₁.world.release (DecompressSession.served_of_acquire hacquire)
                  (DecompressSession.served_of_acquire hacquire') hk.closing hk'.closing,
                  hl₁.taken, hl₁.given⟩

/--
Of its header a run takes the properties, and of the dictionary size what is kept for it. Whatever
source gives a text, in whatever chunks, the run makes the same calls with the same answers and
comes to the same

* when the text has another size field;
* when it has a larger dictionary field, if the memory for that is granted and if the run did not
  fail over its decoder, so that it ended well or for want of input;
* for any two dictionary fields for which the same is kept.
-/
theorem same_but_header (hfresh : c.state = .created) {ending : Ending}
    (htext : ReadStep.foretell x.source.steps = some (text, ending))
    (hle : headerSize ≤ text.length) :
    (∀ size, c.SameButHeader x (x.respell (Header.withSizeField size text))) ∧
      (∀ dictSize, Header.dictField text ≤ dictSize → dictSize ≤ maxDictSize →
        AllGranted (c.within.dealings (x.respell (Header.withDictField dictSize text))) →
        (∀ e, (c.within.run x).1 ≠ .error (.decompress e)) →
        c.SameButHeader x (x.respell (Header.withDictField dictSize text))) ∧
      ∀ dictSize dictSize', dictSize ≤ maxDictSize → dictSize' ≤ maxDictSize →
        dictionarySize dictSize.toNat = dictionarySize dictSize'.toNat →
        c.SameButHeader (x.respell (Header.withDictField dictSize text))
          (x.respell (Header.withDictField dictSize' text)) := by
  have hgives := ReadStep.gives_of_foretell htext
  refine ⟨fun size => ?_, fun dictSize hold hnew hgranted hsettled => ?_,
    fun dictSize dictSize' hold hnew hkept => ?_⟩
  · exact sameButHeader_of_coding hfresh hgives hle (Header.differs_size hle size)
      fun header _ => ⟨rfl, rfl⟩
  · have hdiffers := Header.differs_dict hle (UInt32.le_trans hold hnew) hnew
    refine sameButHeader_of_larger hfresh hgives hle hdiffers (fun header hparse => ?_) hgranted
      hsettled
    rw [Header.dictSize_of_parse_take hle hparse]
    exact ⟨rfl, hold⟩
  · have hlength := Header.length_withDictField hle dictSize
    have hle' : headerSize ≤ (Header.withDictField dictSize text).length := by rwa [hlength]
    have hdiffers := Header.differs_dict hle'
      (by rwa [Header.dictField_withDictField hle]) hnew
    have hsame := sameButHeader_of_coding (x := x.respell (Header.withDictField dictSize text))
      hfresh (hgives.respell hlength) hle' hdiffers fun header hparse => by
        rw [Header.dictSize_of_parse_take hle' hparse, Header.dictField_withDictField hle]
        exact ⟨rfl, hkept⟩
    rwa [Header.withDictField_withDictField hle, Exchange.respell_respell hgives hlength] at hsame

end Decompressor

/-- The stream of a single literal, with a dictionary that is large enough for it and more. -/
theorem Decompressor.same_but_header_of_literal :
    let header : Header := { lc := 3, pb := 2, dictSize := 4096 }
    let text := header.stream [.literal 97]
    let x : Exchange ScriptedSource ScriptedSink Unit := Exchange.ofBytes 9 text ()
    let c : Decompressor Unit := {}
    ReadStep.foretell x.source.steps = some (text, .ended) ∧ headerSize ≤ text.length ∧
      c.SameButHeader x (x.respell (Header.withSizeField 7 text)) ∧
      (AllGranted (c.within.dealings (x.respell (Header.withDictField 8192 text))) ∧
        (c.within.run x).1 = .ok () ∧
        c.SameButHeader x (x.respell (Header.withDictField 8192 text))) ∧
      c.SameButHeader (x.respell (Header.withDictField 5000 text))
        (x.respell (Header.withDictField 5008 text)) := by
  intro header text x c
  have htext : ReadStep.foretell x.source.steps = some (text, .ended) :=
    ReadStep.foretell_chunks 9 text (by decide)
  have hle : headerSize ≤ text.length := by
    show headerSize ≤ (header.toBytes ++ _).length
    rw [List.length_append, Header.length_toBytes]
    exact Nat.le_add_right _ _
  have hok : (c.within.run x).1 = .ok () := by
    obtain ⟨_, _, _, _, _, hrun, -⟩ := run_spec Allocator.grants_standard
      (Exchange.scene_ofBytes 9 text () (by decide))
    have hx := Extraction.of_stream (h := header) [.literal 97] (by decide) (by decide)
      (by decide) [] .ended
    rw [List.append_nil] at hx
    rw [hx] at hrun
    exact congrArg Prod.fst hrun
  obtain ⟨hsize, hlarger, hkept⟩ := same_but_header (c := c) rfl htext hle
  have hgranted : AllGranted (c.within.dealings (x.respell (Header.withDictField 8192 text))) :=
    Decompressor.allGranted rfl Allocator.granting_standard.inMemory _
  refine ⟨htext, hle, hsize 7, ⟨hgranted, hok, ?_⟩, ?_⟩
  · refine hlarger 8192 (by decide) (by decide) hgranted ?_
    rw [hok]
    nofun
  · exact hkept 5000 5008 (by decide) (by decide) (by decide)

end Lzma
