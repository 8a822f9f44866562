import Lzma.Bytes.Cursor
import Lzma.Proofs.Placement
import Lzma.Proofs.Setup
import Lzma.Proofs.Verdict

/-!
# What is gathered from a source

Bytes that are needed as a whole are read in as many pieces as the source likes to give.
`Record.Gathers` says what calls are made for that and what comes of them: each read asks for all
that is missing, none is made once nothing is, and a read that ends or fails is the last one.

What was gathered shows in the record of a whole run, though no call in it says what it was made
for. A buffer that all reads of the record go to is filled by the first of them (`Record.fill`),
and what follows finds it full (`Record.fill_of_full`). So the bytes of a header are those that a
record has brought to a buffer of that size (`Record.gathered`), and where the source places what
it reports they are the first bytes that it has placed (`Record.brought`).

The last section is about the header of a run: it was read just if the bytes that were gathered
parse (`Decompressor.header_iff`).
-/

namespace Lzma

/-! ## A buffer that reads go to -/

/-- A buffer after a call: what a read reports lies before the cursor then. -/
def Deed.fill (c : Cursor) : Deed → Cursor
  | .read _ (.ok r) => if r.count ≤ c.behind.length then (c.put r.placed).advance r.count else c
  | _ => c

/-- What the source has placed of the bytes that it reports. -/
@[simp] def Deed.brought : Deed → List UInt8
  | .read room (.ok r) => if r.count ≤ room then r.placed.take r.count else []
  | _ => []

namespace Record

def fill (c : Cursor) (ds : List Deed) : Cursor := ds.foldl Deed.fill c

/-- What a buffer of zeros holds of the bytes that were read, as far as it was filled. -/
def gathered (size : Nat) (ds : List Deed) : List UInt8 :=
  (fill (.ofList (List.replicate size 0)) ds).before

def brought (ds : List Deed) : List UInt8 := ds.flatMap Deed.brought

section

variable (c : Cursor) (d : Deed) (ds es : List Deed)

@[simp] theorem fill_nil : fill c [] = c := rfl

theorem fill_cons : fill c (d :: ds) = fill (d.fill c) ds := rfl

theorem fill_append : fill c (ds ++ es) = fill (fill c ds) es := List.foldl_append

@[simp] theorem brought_append : brought (ds ++ es) = brought ds ++ brought es :=
  List.flatMap_append

theorem fill_note (event : Event) : fill c (ds ++ [.note event]) = fill c ds := by
  rw [fill_append]
  rfl

end

section

variable {room : Nat} {r : Reading} (ds : List Deed)

/-- A read that fits lays what it reports before the cursor. -/
theorem fill_of_fits {old : List UInt8} (before : List UInt8) (hfits : r.count ≤ old.length) :
    fill ⟨before, old⟩ (.read room (.ok r) :: ds) =
      fill ⟨before ++ (overlay r.placed old).take r.count,
        (overlay r.placed old).drop r.count⟩ ds := by
  rw [fill_cons, Deed.fill, if_pos hfits]
  rfl

theorem brought_of_fits (hfits : r.count ≤ room) :
    brought (.read room (.ok r) :: ds) = r.placed.take r.count ++ brought ds := by
  show Deed.brought _ ++ brought ds = _
  rw [Deed.brought, if_pos hfits]

end

/-- Nothing is read into a full buffer. -/
theorem fill_of_full {c : Cursor} (hfull : c.behind = []) (ds : List Deed) : fill c ds = c := by
  induction ds with
  | nil => rfl
  | cons d ds ih =>
      suffices hd : d.fill c = c by
        rw [fill_cons, hd]
        exact ih
      obtain ⟨before, behind⟩ := c
      obtain rfl : behind = [] := hfull
      cases d with
      | read room answer =>
          cases answer with
          | error e => rfl
          | ok r =>
              simp only [Deed.fill, List.length_nil, Nat.le_zero_eq]
              split <;> rename_i hcount
              · simp [Cursor.put, Cursor.advance]
              · rfl
      | note | write | decode => rfl

theorem not_le_of_error {room : Nat} {r : Reading} {e : IoError}
    (h : readVerdict room (.ok r) = .error e) : ¬r.count ≤ room := by
  intro hle
  rw [readVerdict, if_neg (by omega)] at h
  cases h

/-! ## The calls that gather -/

/--
The calls that fill a buffer which holds `old`, and what they come to: the bytes up to where the
buffer is full or the source ends, or the error of the source.
-/
inductive Gathers : List UInt8 → List Deed → Except Error (List UInt8) → Prop
  | full : Gathers [] [] (.ok [])
  | fails {old : List UInt8} {answer : Except IoError Reading} {e : IoError} (hne : old ≠ [])
      (h : readVerdict old.length answer = .error e) :
      Gathers old [.read old.length answer] (.error (.input e))
  | ended {old : List UInt8} {r : Reading} (hne : old ≠ []) (hcount : r.count = 0) :
      Gathers old [.read old.length (.ok r)] (.ok [])
  | more {old : List UInt8} {r : Reading} {ds : List Deed} {result : Except Error (List UInt8)}
      (hpos : 0 < r.count) (hfits : r.count ≤ old.length)
      (h : Gathers ((overlay r.placed old).drop r.count) ds result) :
      Gathers old (.read old.length (.ok r) :: ds)
        (result.map ((overlay r.placed old).take r.count ++ ·))

namespace Gathers

variable {old : List UInt8} {ds : List Deed} {result : Except Error (List UInt8)}

/-- What has come lies before the cursor, and there is room left if the source has failed. -/
theorem fills (h : Gathers old ds result) (before : List UInt8) :
    ∃ got rest, fill ⟨before, old⟩ ds = ⟨before ++ got, rest⟩ ∧
      got.length + rest.length = old.length ∧
      (∀ bytes, result = .ok bytes → bytes = got) ∧ (∀ e, result = .error e → rest ≠ []) := by
  induction h generalizing before with
  | full => exact ⟨[], [], by simp [fill], rfl, by simp, by simp⟩
  | @fails old answer e hne h =>
      refine ⟨[], old, ?_, by simp, by simp, fun _ _ => hne⟩
      rw [List.append_nil]
      cases answer with
      | error e' => rfl
      | ok r => exact if_neg (not_le_of_error h)
  | @ended old r hne hcount =>
      refine ⟨[], (overlay r.placed old), ?_, by simp, by simp, by simp⟩
      rw [fill_cons, Deed.fill, if_pos (by simp [hcount]), Cursor.advance, hcount]
      simp [Cursor.put, overlay]
  | @more old r ds result hpos hfits h ih =>
      obtain ⟨got, rest, hfill, hlength, hok, herror⟩ :=
        ih (before ++ (overlay r.placed old).take r.count)
      refine ⟨(overlay r.placed old).take r.count ++ got, rest, ?_, ?_, ?_, ?_⟩
      · rw [fill_of_fits ds before hfits, hfill, List.append_assoc]
      · simp only [List.length_append, List.length_take, List.length_drop,
          length_overlay] at hlength ⊢
        omega
      · intro bytes hbytes
        cases result with
        | error e => cases hbytes
        | ok more =>
            cases hbytes
            rw [hok more rfl]
      · intro e he
        cases result with
        | error e' => exact herror e' rfl
        | ok more => cases he

/-- Bytes that are placed as they are reported have all come from the source. -/
theorem brought (h : Gathers old ds result) (hplaced : Placed ds) (before : List UInt8) :
    (fill ⟨before, old⟩ ds).before = before ++ Record.brought ds := by
  induction h generalizing before with
  | full => simp [fill, Record.brought]
  | @fails old answer e hne h =>
      cases answer with
      | error e' => simp [fill, Deed.fill, Record.brought]
      | ok r => simp [fill, Deed.fill, Record.brought, not_le_of_error h]
  | @ended old r hne hcount =>
      simp [fill, Deed.fill, Record.brought, hcount, Cursor.put, Cursor.advance]
  | @more old r ds result hpos hfits h ih =>
      obtain ⟨hread, hrest⟩ := List.forall_mem_cons.mp hplaced
      have hall : r.count ≤ r.placed.length := hread hfits
      rw [fill_of_fits ds before hfits, ih hrest, brought_of_fits ds hfits,
        Line.Along.take_overlay hall hfits, List.append_assoc]

theorem length_gathered {size : Nat} (h : Gathers (List.replicate size 0) ds result) :
    (gathered size ds).length ≤ size := by
  obtain ⟨got, rest, hfill, hlength, -⟩ := h.fills []
  rw [List.length_replicate] at hlength
  rw [gathered, Cursor.ofList, hfill, List.nil_append]
  show got.length ≤ size
  omega

end Gathers

end Record

open Record

/-- Gathering makes just the calls that it should. -/
theorem Line.gathers {ω : Type} [Channel ω] (l : Line (Traced ω)) (old : List UInt8) :
    ∃ ds, (l.gather old).2.deeds = l.deeds ++ ds ∧ Gathers old ds (l.gather old).1 := by
  fun_induction Line.gather l old with
  | case1 l old hempty =>
      rw [List.isEmpty_iff] at hempty
      subst hempty
      exact ⟨[], by simp, .full⟩
  | case2 l old hempty e l₁ hpull =>
      have hne : old ≠ [] := by simpa using hempty
      obtain ⟨answer, hverdict, hdeeds⟩ := recorded_pull (by simpa using hne) hpull
      exact ⟨_, hdeeds, .fails hne hverdict.symm⟩
  | case3 l old hempty r l₁ hpull hcount =>
      have hne : old ≠ [] := by simpa using hempty
      obtain ⟨answer, hverdict, hdeeds⟩ := recorded_pull (by simpa using hne) hpull
      obtain ⟨rfl, -⟩ := readVerdict_eq_ok.mp hverdict.symm
      exact ⟨_, hdeeds, .ended hne hcount⟩
  | case4 l old hempty r l₁ hpull hcount new e l₂ hgather ih
  | case5 l old hempty r l₁ hpull hcount new bytes l₂ hgather ih =>
      have hne : old ≠ [] := by simpa using hempty
      obtain ⟨answer, hverdict, hdeeds⟩ := recorded_pull (by simpa using hne) hpull
      obtain ⟨rfl, hfits⟩ := readVerdict_eq_ok.mp hverdict.symm
      obtain ⟨ds, hrest, hgathers⟩ := ih
      rw [hgather] at hrest hgathers
      refine ⟨_, ?_, .more (Nat.pos_of_ne_zero hcount) hfits hgathers⟩
      rw [hrest, hdeeds, List.append_assoc, List.singleton_append]

/-! ## The header of a run -/

/-- The buffer that a header is read into. -/
def headerBuffer : Cursor := .ofList (List.replicate headerSize 0)

namespace Decompressor

variable {ω : Type} [Channel ω] [Provident] {c : Decompressor ω} {w : ω} {l : Line (Traced ω)}

omit [Provident] in
/-- For a header as many bytes are gathered as it has. -/
theorem readHeader_deeds {result : Except Error Header}
    (h : readHeader ({ world := ⟨w, []⟩ } : Line (Traced ω)) = (result, l)) :
    ∃ answer, Gathers (List.replicate headerSize 0) l.deeds answer ∧
      result = answer.bind fun bytes =>
        if bytes.length < headerSize then
          .error (.input (.shortHeader bytes.length headerSize))
        else Header.parse bytes := by
  obtain ⟨ds, hdeeds, hgathers⟩ :=
    ({ world := ⟨w, []⟩ } : Line (Traced ω)).gathers (List.replicate headerSize 0)
  have hstart : ({ world := ⟨w, []⟩ } : Line (Traced ω)).deeds ++ ds = ds := List.nil_append ds
  rw [hstart] at hdeeds
  rw [readHeader] at h
  split at h <;> rename_i hres <;> rw [hres] at hdeeds hgathers
  · cases h
    rw [hdeeds]
    exact ⟨_, hgathers, rfl⟩
  · rename_i bytes l'
    refine ⟨.ok bytes, ?_, ?_⟩
    · split at h <;> cases h <;> rw [hdeeds] <;> exact hgathers
    · show _ = if bytes.length < headerSize then _ else Header.parse bytes
      split at h <;> rename_i hlt <;> cases h
      · rw [if_pos hlt]
      · rw [if_neg hlt]

omit [Provident] in
/-- A header is what the bytes say that were gathered for it. -/
theorem readHeader_gathers {result : Except Error Header}
    (h : readHeader ({ world := ⟨w, []⟩ } : Line (Traced ω)) = (result, l)) :
    (∀ header, result = .ok header ↔
      Header.parse (gathered headerSize l.deeds) = .ok header) ∧
      ∀ header, result = .ok header → (fill headerBuffer l.deeds).behind = [] := by
  obtain ⟨answer, hgathers, hresult⟩ := readHeader_deeds h
  obtain ⟨got, rest, hfill, hlength, hok, herror⟩ := hgathers.fills []
  rw [List.length_replicate] at hlength
  have hgot : gathered headerSize l.deeds = got := by
    rw [gathered, Cursor.ofList, hfill, List.nil_append]
  have hshort (hlt : got.length < headerSize) (header : Header) :
      Header.parse got ≠ .ok header := by
    rw [Header.parse, dif_neg (by omega)]
    simp
  rw [hgot, hresult]
  cases answer with
  | error e =>
      have hne := List.length_pos_iff.mpr (herror e rfl)
      exact ⟨fun header => ⟨by simp [Except.bind], fun hparse => absurd hparse
        (hshort (by omega) header)⟩, by simp [Except.bind]⟩
  | ok bytes =>
      obtain rfl := hok bytes rfl
      dsimp only [Except.bind]
      split <;> rename_i hle
      · exact ⟨fun header => ⟨by simp, fun hparse => absurd hparse (hshort hle header)⟩, by simp⟩
      · refine ⟨fun header => Iff.rfl, fun header _ => ?_⟩
        rw [headerBuffer, Cursor.ofList, hfill]
        show rest = []
        exact List.length_eq_zero_iff.mp (by omega)

/-- What follows the header in a run leaves the header's bytes alone. -/
theorem begins_with_header (hfresh : c.state = .created) {header : Header}
    (h : readHeader ({ world := ⟨w, []⟩ } : Line (Traced ω)) = (.ok header, l)) :
    l.deeds <+: c.deeds w := by
  have hkeeps := Traced.keeps_earlier (ω := ω) l.deeds
  have hdrive : l.deeds <+: (c.traced.drive ⟨w, []⟩).2.2.2.deeds := by
    refine keeps_drive_rest (c := c.traced) (hkeeps.line decodedSize)
      (fun _ _ => c.allocator.keeps_traced fun _ _ _ hds => hds.trans (List.prefix_append _ _)) ?_
    rw [h]
    exact List.prefix_refl _
  obtain ⟨-, -, -, hdeeds⟩ := run_closed hfresh w
  rw [hdeeds]
  exact hdrive.trans (List.prefix_append _ _)

/-- The header's bytes are on the record of the run. -/
theorem gathered_run (hfresh : c.state = .created) {result : Except Error Header}
    (h : readHeader ({ world := ⟨w, []⟩ } : Line (Traced ω)) = (result, l)) :
    gathered headerSize (c.deeds w) = gathered headerSize l.deeds := by
  cases result with
  | error e =>
      obtain ⟨-, -, -, hdeeds⟩ := run_closed hfresh w
      have hdrive : c.traced.drive ⟨w, []⟩ = (.error e, c.state, c.header, l) := drive_of_error h
      rw [hdeeds, hdrive, gathered, fill_note]
      rfl
  | ok header =>
      obtain ⟨later, hlater⟩ := begins_with_header hfresh h
      have hfull := (readHeader_gathers h).2 header rfl
      rw [← hlater, gathered, fill_append]
      exact congrArg Cursor.before (fill_of_full hfull later)

/-- A run comes to a header just if the first bytes that it reads parse. -/
theorem readHeader_iff (hfresh : c.state = .created) (w : ω) (header : Header) :
    (readHeader ({ world := w } : Line ω)).1 = .ok header ↔
      Header.parse (gathered headerSize (c.deeds w)) = .ok header := by
  rcases h : readHeader ({ world := w } : Line ω) with ⟨result, l⟩
  obtain ⟨l', h', -⟩ := readHeader_traced h
  rw [gathered_run hfresh h']
  exact (readHeader_gathers h').1 header

theorem header_of_parse (hfresh : c.state = .created) {header : Header}
    (h : Header.parse (gathered headerSize (c.deeds w)) = .ok header) :
    (c.run w).2.1.header = some header := by
  have hread := (readHeader_iff hfresh w header).mpr h
  rw [header_run hfresh]
  rcases hheader : readHeader ({ world := w } : Line ω) with ⟨result, l⟩
  rw [hheader] at hread
  obtain rfl : result = .ok header := hread
  obtain ⟨l', hheader', -⟩ := readHeader_traced hheader
  rw [drive_of_ok hheader']

theorem header_iff (hfresh : c.state = .created) (hnone : c.header = none) (w : ω)
    (header : Header) : (c.run w).2.1.header = some header ↔
      Header.parse (gathered headerSize (c.deeds w)) = .ok header := by
  refine ⟨fun h => ?_, header_of_parse hfresh⟩
  rw [header_run hfresh] at h
  rw [← readHeader_iff hfresh]
  rcases hheader : readHeader ({ world := w } : Line ω) with ⟨result, l⟩
  obtain ⟨l', hheader', -⟩ := readHeader_traced hheader
  cases result with
  | error e =>
      have hdrive : c.traced.drive ⟨w, []⟩ = (.error e, c.state, c.header, l') :=
        drive_of_error hheader'
      rw [hdrive, hnone] at h
      cases h
  | ok header' =>
      rw [drive_of_ok hheader'] at h
      exact congrArg Except.ok (Option.some.inj h)

/-- Where the source places what it reports, its first bytes are gathered for the header. -/
theorem gathered_placed (hfresh : c.state = .created) (hplaced : Placed (c.deeds w)) :
    gathered headerSize (c.deeds w) = (brought (c.deeds w)).take headerSize := by
  rcases hheader : readHeader ({ world := ⟨w, []⟩ } : Line (Traced ω)) with ⟨result, l⟩
  obtain ⟨answer, hgathers, -⟩ := readHeader_deeds hheader
  have hbrought (hbegins : l.deeds <+: c.deeds w) : gathered headerSize l.deeds = brought l.deeds :=
    hgathers.brought (hplaced.earlier hbegins) []
  rw [gathered_run hfresh hheader]
  cases result with
  | error e =>
      obtain ⟨-, -, -, hdeeds⟩ := run_closed hfresh w
      rw [drive_of_error (c := c.traced) hheader] at hdeeds
      have hbytes := hbrought ⟨_, hdeeds.symm⟩
      have hall : brought (c.deeds w) = brought l.deeds := by
        rw [hdeeds, brought_append]
        exact List.append_nil _
      rw [hall, ← hbytes, List.take_of_length_le hgathers.length_gathered]
  | ok header =>
      have hbegins := begins_with_header hfresh hheader
      have hbytes := hbrought hbegins
      obtain ⟨later, hlater⟩ := hbegins
      have hparse := ((readHeader_gathers hheader).1 header).mp rfl
      rw [← hlater, brought_append, ← hbytes, List.take_left' (Header.length_of_parse hparse)]

end Decompressor

end Lzma
