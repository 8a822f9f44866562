import Lzma.Proofs.Verdict

/-!
# A pump that is brought only so much ends

Where source and decoder might go on for ever, a limit to their calls is what makes the pump
run (`Metered`). The limit is bookkeeping where they bring only so many bytes: each read that
leaves a run open brings a byte, and of the calls of the decoder no more than one for each byte
and each read leave it open. So the calls of a run are bounded by the bytes of its record
(`Record.Running.calls_le`), and under any limit above that bound something of it is left at
the end (`Pump.limit_le`).

What is left at the end tells that no call was refused, since a refusal leaves nothing. Then a
greater limit changes nothing either (`Pump.run_unrefused`), and the run for one such limit is
the run of the pump without a limit.

What is bounded are the bytes along the beginnings of the one run, not what the source could
bring after it. A bound on all that can be brought (`Works.Supply`) is one way to have it.
-/

namespace Lzma

namespace Record

@[simp] def isRead : Deed → Bool
  | .read _ _ => true
  | _ => false

/-- How many calls of the source and of the decoder a record has. -/
def calls (ds : List Deed) : Nat := ds.countP isRead + decodes ds

@[simp] theorem calls_append (ds es : List Deed) : calls (ds ++ es) = calls ds + calls es := by
  simp only [calls, List.countP_append, decodes_append]
  omega

@[simp] theorem calls_read (room : Nat) (answer : Except IoError Reading) :
    calls [.read room answer] = 1 := rfl

@[simp] theorem calls_decode (input : List UInt8) (room : Nat) (answer : Except IoError Decoded) :
    calls [.decode input room answer] = 1 := rfl

/-- How many bytes were pulled and emitted. -/
def volume (s : Staging) (ds : List Deed) : Nat :=
  (chunks s ds).flatten.length + (emitted ds).flatten.length

/-- A read brings a chunk, or it decides. -/
theorem reads_le (s : Staging) (ds : List Deed) :
    ds.countP isRead ≤ (chunks s ds).length + (ds.filterMap Deed.decides).length := by
  fun_induction chunks s ds with
  | case1 => exact Nat.zero_le _
  | case2 s room r ds s' h ih =>
      have hnone : (Deed.read room (.ok r)).decides = none := by
        rw [Deed.decides, if_neg (Nat.ne_of_gt h.1), if_neg (Nat.not_lt_of_le h.2)]
      rw [List.filterMap_cons_none hnone, List.countP_cons_of_pos rfl, List.length_cons]
      omega
  | case3 s room r ds s' h ih =>
      obtain ⟨result, hresult⟩ : ∃ result, (Deed.read room (.ok r)).decides = some result := by
        rw [Deed.decides]
        by_cases hcount : r.count = 0
        · exact ⟨_, if_pos hcount⟩
        · exact ⟨_, (if_neg hcount).trans (if_pos (by omega))⟩
      rw [List.filterMap_cons_some hresult, List.countP_cons_of_pos rfl, List.length_cons]
      omega
  | case4 s d ds hd ih =>
      have hmore := ((List.sublist_cons_self d ds).filterMap Deed.decides).length_le
      cases d with
      | read room answer =>
          cases answer with
          | ok r => exact absurd rfl (hd room r)
          | error e =>
              rw [List.filterMap_cons_some (Deed.decides_read_error rfl),
                List.countP_cons_of_pos rfl, List.length_cons]
              omega
      | note | write | decode =>
          rw [List.countP_cons_of_neg (by simp)]
          omega

theorem length_chunks_le {s : Staging} (hsize : 0 < s.size) (ds : List Deed) :
    (chunks s ds).length ≤ (chunks s ds).flatten.length := by
  apply length_le_flatten
  fun_induction chunks s ds with
  | case1 => exact List.forall_mem_nil _
  | case2 s room r ds s' h ih =>
      refine List.forall_mem_cons.mpr ⟨?_, ih hsize⟩
      have hheld : s'.held.length = s.size := s'.length_held
      refine List.ne_nil_of_length_pos ?_
      rw [Staging.chunk, List.length_take]
      omega
  | case3 s room r ds s' h ih => exact ih hsize
  | case4 s d ds hd ih => exact ih hsize

/-- A record of so many bytes has only so many calls. -/
theorem Running.calls_le {room : Nat} {s : Staging} (hsize : 0 < s.size) {ds : List Deed}
    {result : Except Error Unit} (h : Running ds result) (hkept : Kept room s ds) :
    calls ds ≤ 3 * volume s ds + 2 := by
  have hreads := reads_le s ds
  have hdecides : (ds.filterMap Deed.decides).length ≤ 2 := by
    rcases h.settled.decided with hdecided | ⟨e, -, hdecided⟩ <;> simp [hdecided]
  have hchunks := length_chunks_le hsize ds
  have hdecodes := (h.verdict hkept).decodes
  have hconsumed := hkept.fits.consumed_prefix.length_le
  rw [calls, volume]
  omega

end Record

namespace Metered

variable {ω : Type} [Works ω]

open Record

/-- Every call that is taken from the limit is on the record. -/
theorem keeps_calls (limit : Nat) : Pump.Keeps fun t : Traced (Metered ω) =>
    limit ≤ t.world.left + calls t.deeds where
  note event := by
    rintro ⟨⟨world, left⟩, deeds⟩ (h : limit ≤ left + calls deeds)
    show limit ≤ left + calls (deeds ++ [.note event])
    rw [calls_append]
    omega
  write bytes := by
    rintro ⟨⟨world, left⟩, deeds⟩ (h : limit ≤ left + calls deeds)
    show limit ≤ left + calls (deeds ++ [_])
    rw [calls_append]
    omega
  read room := by
    rintro ⟨⟨world, left⟩, deeds⟩ (h : limit ≤ left + calls deeds)
    cases left with
    | zero =>
        show limit ≤ 0 + calls (deeds ++ [_])
        rw [calls_append]
        omega
    | succ left =>
        show limit ≤ left + calls (deeds ++ [.read room (Works.read room world).1])
        rw [calls_append, calls_read]
        omega
  decode input room := by
    rintro ⟨⟨world, left⟩, deeds⟩ (h : limit ≤ left + calls deeds)
    cases left with
    | zero =>
        show limit ≤ 0 + calls (deeds ++ [_])
        rw [calls_append]
        omega
    | succ left =>
        show limit ≤ left + calls (deeds ++ [.decode input room (Works.decode input room world).1])
        rw [calls_append, calls_decode]
        omega

omit [Works ω] in
theorem Ahead.left_le {t t' : Traced (Metered ω)} (h : Ahead t t') :
    t.world.left ≤ t'.world.left := by
  obtain ⟨_, _, _, _, hle⟩ := h
  exact hle

end Metered

/-- A line in a world with a limit. -/
def Line.metered {ω : Type} (w : ω) (limit : Nat) : Line (Metered ω) := { world := ⟨w, limit⟩ }

namespace Pump

open Record

variable {ω : Type} [Works ω]

theorem limit_le (room : Nat) (s : Staging) (w : ω) (limit : Nat) :
    limit ≤ (run room s (.metered w limit) .allocated).2.2.world.left +
      calls (deeds room s (.metered w limit) .allocated) := by
  have hkept := (Metered.keeps_calls limit).run room s .allocated
    (l := (Line.metered w limit).traced) (Nat.le_add_right limit _)
  obtain ⟨l', hrun, hl'⟩ := run_traced room s (.metered w limit) .allocated
  rw [deeds, hrun, ← hl'.world]
  rwa [hrun] at hkept

/-- A run that was not refused anything is the run for each greater limit. -/
theorem run_unrefused (room : Nat) (s : Staging) (w : ω) {limit : Nat}
    (hleft : 0 < (run room s (.metered w limit) .allocated).2.2.world.left) (more : Nat) :
    0 < (run room s (.metered w (limit + more)) .allocated).2.2.world.left ∧
      (run room s (.metered w (limit + more)) .allocated).1 =
        (run room s (.metered w limit) .allocated).1 ∧
      deeds room s (.metered w (limit + more)) .allocated =
        deeds room s (.metered w limit) .allocated := by
  have hahead : (Line.metered w limit).traced.Alike Metered.Ahead
      (Line.metered w (limit + more)).traced :=
    ⟨⟨_, _, limit, limit + more, Nat.le_add_right limit more⟩, rfl, rfl⟩
  have hlockstep : Lockstep (Metered.Ahead (ω := ω)) fun _ t _ => t.world.left = 0 :=
    Metered.ahead_until (fun _ _ _ _ _ _ => rfl) fun _ _ _ _ _ h => h
  have hruns := run_lockstep hlockstep room s .allocated hahead
  obtain ⟨l₁, hrun₁, hl₁⟩ := run_traced room s (.metered w limit) .allocated
  obtain ⟨l₂, hrun₂, hl₂⟩ := run_traced room s (.metered w (limit + more)) .allocated
  rw [deeds, deeds, hrun₁, hrun₂]
  rw [hrun₁, hrun₂] at hruns
  rw [← hl₁.world] at hleft
  rw [← hl₂.world]
  rcases hruns with ⟨hresult, -, hl⟩ | ⟨e, -, hspent⟩
  · exact ⟨Nat.lt_of_lt_of_le hleft hl.world.left_le, hresult.symm, hl.world.deeds.symm⟩
  · exact absurd hspent (Nat.ne_of_gt hleft)

end Pump

/-! ## Worlds that bring only so much -/

/-- How many bytes an answer of the source or of the decoder brings. -/
def Deed.brings : Deed → Nat
  | .read _ (.ok r) => r.count
  | .decode _ _ (.ok moved) => moved.output.length
  | _ => 0

/-- What source and decoder can still bring is no more than a bound that pays for what they do. -/
structure Works.Supply {ω : Type} [Works ω] (supply : ω → Nat) : Prop where
  note (event : Event) (w : ω) : supply (Journal.note event w) ≤ supply w
  write (bytes : List UInt8) (w : ω) : supply (Works.write bytes w).2 ≤ supply w
  read (room : Nat) (w : ω) :
    (Deed.read room (Works.read room w).1).brings + supply (Works.read room w).2 ≤ supply w
  decode (input : List UInt8) (room : Nat) (w : ω) :
    (Deed.decode input room (Works.decode input room w).1).brings +
      supply (Works.decode input room w).2 ≤ supply w

namespace Record

theorem volume_append (s : Staging) (ds es : List Deed) :
    volume s (ds ++ es) = volume s ds + volume (staging s ds) es := by
  simp only [volume, chunks_append, emitted_append, List.flatten_append, List.length_append]
  omega

theorem volume_singleton_le (s : Staging) (d : Deed) : volume s [d] ≤ d.brings := by
  cases d with
  | note | write => exact Nat.le_refl _
  | read room answer =>
      cases answer with
      | error => exact Nat.le_refl _
      | ok r =>
          show (chunks s [.read room (.ok r)]).flatten.length ≤ r.count
          rw [chunks]
          split
          · rw [chunks, List.flatten_singleton]
            exact List.length_take_le _ _
          · exact Nat.zero_le _
  | decode input room answer =>
      cases answer with
      | error => exact Nat.le_refl _
      | ok moved =>
          rw [volume, emitted_singleton, Deed.emitted]
          split
          · exact Nat.zero_le _
          · rw [List.flatten_singleton]
            exact Nat.le_of_eq (Nat.zero_add _)

/-- What an answer brings is paid for. -/
theorem volume_pays (s : Staging) {ds : List Deed} {d : Deed} {supply supply' total : Nat}
    (hpaid : d.brings + supply' ≤ supply) (h : volume s ds + supply ≤ total) :
    volume s (ds ++ [d]) + supply' ≤ total := by
  have hone := volume_singleton_le (staging s ds) d
  rw [volume_append]
  omega

end Record

namespace Works.Supply

variable {ω : Type} [Works ω] {supply : ω → Nat}

open Record

theorem keeps_volume (h : Supply supply) (s : Staging) (total : Nat) :
    Pump.Keeps fun t : Traced (Metered ω) =>
      volume s t.deeds + supply t.world.world ≤ total where
  note event := by
    rintro ⟨⟨world, left⟩, deeds⟩ ht
    exact volume_pays s ((Nat.zero_add _).trans_le (h.note event world)) ht
  write bytes := by
    rintro ⟨⟨world, left⟩, deeds⟩ ht
    exact volume_pays s ((Nat.zero_add _).trans_le (h.write bytes world)) ht
  read room := by
    rintro ⟨⟨world, _ | left⟩, deeds⟩ ht
    · exact volume_pays s (Nat.zero_add _).le ht
    · exact volume_pays s (h.read room world) ht
  decode input room := by
    rintro ⟨⟨world, _ | left⟩, deeds⟩ ht
    · exact volume_pays s (Nat.zero_add _).le ht
    · exact volume_pays s (h.decode input room world) ht

/-- A supply bounds what is brought along all beginnings of a run. -/
theorem volume_le (h : Supply supply) (room : Nat) (s : Staging) (w : ω) (limit : Nat) :
    volume s (Pump.deeds room s (.metered w limit) .allocated) ≤ supply w := by
  have hkept := (h.keeps_volume s (supply w)).run room s .allocated
    (l := (Line.metered w limit).traced) (Nat.zero_add (supply w)).le
  exact Nat.le_trans (Nat.le_add_right _ _) hkept

end Works.Supply

/-! ## The first answer that decides -/

open Record in
/--
What a run of the pump comes to is fixed by the first answer that decides anything, and the calls
of the decoder are no more than the bytes that went in and out and the reads that brought some.
It is so in every world that the pump can be run in. Where source and decoder might go on for
ever, it is so if what they bring is bounded along all beginnings of the run: from some limit on
no call is refused, and the run is the same for all of them.
-/
theorem Pump.first_decides :
    (∀ {ω : Type} [Pump ω] (room : Nat) {s : Staging} (l : Line ω) (state : DecompressState),
      0 < s.size → Verdict s (deeds room s l state) (run room s l state).1) ∧
    ∀ {ω : Type} [Works ω] (room : Nat) {s : Staging} (w : ω) (bound : Nat), 0 < s.size →
      (∀ limit, volume s (deeds room s (.metered w limit) .allocated) ≤ bound) →
      ∃ ds result, Verdict s ds result ∧ ∃ limit, ∀ more,
        0 < (run room s (.metered w (limit + more)) .allocated).2.2.world.left ∧
          (run room s (.metered w (limit + more)) .allocated).1 = result ∧
          deeds room s (.metered w (limit + more)) .allocated = ds := by
  constructor
  · intro ω _ room s l state hsize
    exact run_verdict room hsize l state
  · intro ω _ room s w bound hsize hvolume
    refine ⟨_, _, run_verdict room hsize (.metered w (3 * bound + 3)) .allocated,
      3 * bound + 3, run_unrefused room s w ?_⟩
    have hcalls := (run_running room hsize (.metered w (3 * bound + 3)) .allocated).calls_le hsize
      (deeds_kept room s _ .allocated).1
    have hlimit := limit_le room s w (3 * bound + 3)
    have hbound := hvolume (3 * bound + 3)
    omega

/-- A source of so many zeros, a sink that takes all, and a decoder that swallows them for ever. -/
structure Zeros where
  left : Nat

namespace Zeros

instance : Works Zeros where
  note _ w := w
  read room
    | ⟨left⟩ => (.ok ⟨List.replicate (min room left) 0, min room left⟩, ⟨left - room⟩)
  write bytes w := (.ok bytes.length, w)
  decode input _ w := (.ok { used := input.length, output := [], status := .needsInput }, w)
  used_decode_le h := by
    cases h
    exact Nat.le_refl _
  length_decode_le h := by
    cases h
    exact Nat.zero_le _

theorem supply : Works.Supply Zeros.left where
  note _ _ := Nat.le_refl _
  write _ _ := Nat.le_refl _
  read room w := by
    show min room w.left + (w.left - room) ≤ w.left
    omega
  decode _ _ _ := (Nat.zero_add _).le

end Zeros

open Record in
theorem Pump.first_decides_of_zeros :
    0 < (Staging.ofList [0]).size ∧
      (∀ limit, volume (Staging.ofList [0])
        (deeds 1 (.ofList [0]) (.metered (⟨2⟩ : Zeros) limit) .allocated) ≤ 2) ∧
      ∃ ds result, Verdict (.ofList [0]) ds result ∧ ∃ limit, ∀ more,
        let l := Line.metered (⟨2⟩ : Zeros) (limit + more)
        0 < (run 1 (.ofList [0]) l .allocated).2.2.world.left ∧
          (run 1 (.ofList [0]) l .allocated).1 = result ∧
          deeds 1 (.ofList [0]) l .allocated = ds := by
  have hsize : 0 < (Staging.ofList [0]).size := by decide
  have hvolume := Zeros.supply.volume_le 1 (Staging.ofList [0]) ⟨2⟩
  exact ⟨hsize, hvolume, Pump.first_decides.2 1 (⟨2⟩ : Zeros) 2 hsize hvolume⟩

end Lzma
