import Lzma.Compressor
import Lzma.Decompressor

/-!
# What a run never takes away

A run touches its world through a few counted calls, and so a property of a line that each
of those calls keeps is kept by a whole run. The calls are the parameters of the loops here,
and nothing is asked of their answers: a property that holds of runs in every world is an
invariant in this sense, and the loops are walked through once for all of them.

`Line.Invariant` carries the one thing that the loops themselves guarantee, a limit to what
is offered to the sink at a time. It is the room that the coder is given: 64 KiB for an
encoder, and for a decoder whatever its buffer has. A property of the world alone needs no
such limit (`Channel.Keeps`, `Pump.Keeps`). Where a coder deals with memory as it is called,
that must keep the property too (`Host.Keeps`, `Host.Invariant`).

A loop that is entered behind one of its calls comes to the same end, so of each loop there
is a second lemma, that starts there (`_rest`).
-/

namespace Lzma

variable {ω : Type}

theorem Stream.length_encodeCall_le {s s' : Stream Encoder} {call : Call} {room : Nat}
    {r : Encoded} (h : s.encodeCall call room = (.ok r, s')) : r.output.length ≤ room := by
  rw [(eq_of_encodeCall h).2.1]
  rcases call_cases s call room with ⟨-, hout⟩ | ⟨-, hout, -⟩
  · rw [hout]
    exact Nat.zero_le _
  · rw [hout]
    exact Coder.length_pass_le call room s.coder

/-! ## Calls -/

/-- What a run makes of the answer to a read. -/
def readVerdict (room : Nat) : Except IoError Reading → Except IoError Reading
  | .error e => .error e
  | .ok r => if room < r.count then .error .overReported else .ok r

/-- What a run makes of the answer to a write. -/
def writeVerdict (bytes : List UInt8) : Except IoError Nat → Except Error Unit
  | .error e => .error (.output bytes.length 0 (some e))
  | .ok count =>
      if count = bytes.length then .ok () else .error (.output bytes.length count none)

theorem readVerdict_eq_ok {room : Nat} {answer : Except IoError Reading} {r : Reading} :
    readVerdict room answer = .ok r ↔ answer = .ok r ∧ r.count ≤ room := by
  cases answer with
  | error e => simp [readVerdict]
  | ok r' =>
      rw [readVerdict]
      split
      · simp only [reduceCtorEq, Except.ok.injEq, false_iff, not_and]
        rintro rfl
        omega
      · simp only [Except.ok.injEq, iff_self_and]
        rintro rfl
        omega

theorem writeVerdict_eq_ok {bytes : List UInt8} {answer : Except IoError Nat} :
    writeVerdict bytes answer = .ok () ↔ answer = .ok bytes.length := by
  cases answer with
  | error e => simp [writeVerdict]
  | ok count => simp [writeVerdict]

namespace Line

variable [Channel ω]

theorem pull_of_ne {room : Nat} (hroom : room ≠ 0) (l : Line ω) :
    l.pull room =
      match readVerdict room (Channel.read room l.world).1 with
      | .error e => (.error e, ⟨(Channel.read room l.world).2, l.taken, l.given⟩)
      | .ok r => (.ok r, ⟨(Channel.read room l.world).2, l.taken + r.count, l.given⟩) := by
  obtain ⟨world, taken, given⟩ := l
  rw [pull, if_neg hroom]
  rcases Channel.read room world with ⟨_ | r, w⟩
  · rfl
  · simp only [readVerdict]
    split <;> rfl

theorem push_of_ne {bytes : List UInt8} (hne : bytes ≠ []) (l : Line ω) :
    l.push bytes =
      match writeVerdict bytes (Channel.write bytes l.world).1 with
      | .error e => (.error e, ⟨(Channel.write bytes l.world).2, l.taken, l.given⟩)
      | .ok () =>
          (.ok (), ⟨(Channel.write bytes l.world).2, l.taken, l.given + bytes.length⟩) := by
  obtain ⟨world, taken, given⟩ := l
  rw [push, if_neg (by simpa using hne)]
  rcases Channel.write bytes world with ⟨_ | count, w⟩
  · rfl
  · simp only [writeVerdict]
    split
    · simp only [*]
    · rfl

theorem pull_zero (l : Line ω) : l.pull 0 = (.ok ⟨[], 0⟩, l) := if_pos rfl

theorem push_nil (l : Line ω) : l.push [] = (.ok (), l) := if_pos rfl

theorem taken_push (l : Line ω) (bytes : List UInt8) : (l.push bytes).2.taken = l.taken := by
  by_cases hne : bytes = []
  · rw [hne, push_nil]
  · rw [push_of_ne hne]
    split <;> rfl

/-- A buffer holds as much after a read as was counted for it. -/
theorem length_chunk {l l' : Line ω} {staging : Staging} {r : Reading}
    (hpull : l.pull staging.size = (.ok r, l')) :
    ((staging.receive r.placed).chunk r.count).length = r.count ∧
      l'.taken = l.taken + r.count := by
  by_cases hsize : staging.size = 0
  · rw [hsize, pull_zero] at hpull
    cases hpull
    exact ⟨rfl, rfl⟩
  · rw [pull_of_ne hsize] at hpull
    split at hpull <;> rename_i hverdict <;> cases hpull
    refine ⟨?_, rfl⟩
    rw [Staging.chunk, List.length_take, Staging.length_held]
    exact Nat.min_eq_left (readVerdict_eq_ok.mp hverdict).2

theorem given_pull (l : Line ω) (room : Nat) : (l.pull room).2.given = l.given := by
  by_cases hroom : room = 0
  · rw [hroom, pull_zero]
  · rw [pull_of_ne hroom]
    split <;> rfl

theorem given_push {l l' : Line ω} {bytes : List UInt8} (hpush : l.push bytes = (.ok (), l')) :
    l'.given = l.given + bytes.length := by
  by_cases hne : bytes = []
  · rw [hne, push_nil] at hpush
    cases hpush
    rw [hne]
    rfl
  · rw [push_of_ne hne] at hpush
    split at hpush <;> cases hpush
    rfl

theorem world_pull {room : Nat} (hroom : room ≠ 0) (l : Line ω) :
    (l.pull room).2.world = (Channel.read room l.world).2 := by
  rw [pull_of_ne hroom]
  split <;> rfl

theorem world_push {bytes : List UInt8} (hne : bytes ≠ []) (l : Line ω) :
    (l.push bytes).2.world = (Channel.write bytes l.world).2 := by
  rw [push_of_ne hne]
  split <;> rfl

end Line

/-- A property of a world that no call takes away. -/
structure Channel.Keeps [Channel ω] (I : ω → Prop) : Prop where
  note (event : Event) {w : ω} : I w → I (Journal.note event w)
  read (room : Nat) {w : ω} : I w → I (Channel.read room w).2
  write (bytes : List UInt8) {w : ω} : I w → I (Channel.write bytes w).2

structure Pump.Keeps [Pump ω] (I : ω → Prop) : Prop extends Channel.Keeps I where
  decode (input : List UInt8) (room : Nat) {w : ω} : I w → I (Pump.decode input room w).2

/-- A property of a world that a coder's dealings do not take away either. -/
structure Host.Keeps [Host ω] (I : ω → Prop) : Prop extends Channel.Keeps I where
  attend {w : ω} : I w → I (Host.attend w).2

/-- A property of a line that no counted call takes away, with writes up to a limit. -/
structure Line.Invariant [Channel ω] (limit : Nat) (I : Line ω → Prop) : Prop where
  note (event : Event) {l : Line ω} : I l → I (l.note event)
  pull (room : Nat) {l : Line ω} : I l → I (l.pull room).2
  push {bytes : List UInt8} {l : Line ω} : bytes.length ≤ limit → I l → I (l.push bytes).2

structure Host.Invariant [Host ω] (limit : Nat) (I : Line ω → Prop) : Prop
    extends Line.Invariant limit I where
  attend {l : Line ω} : I l → I l.attend.2

structure Pump.Invariant [Pump ω] (limit : Nat) (I : Line ω → Prop) : Prop
    extends Line.Invariant limit I where
  decode (input : List UInt8) (room : Nat) {l : Line ω} : I l → I (l.decode input room).2

namespace Channel.Keeps

variable [Channel ω] {I : ω → Prop}

theorem line (hI : Keeps I) (limit : Nat) : Line.Invariant limit fun l => I l.world where
  note event _ hl := hI.note event hl
  pull room l hl := by
    by_cases hroom : room = 0
    · rw [hroom, Line.pull_zero]
      exact hl
    · rw [Line.world_pull hroom]
      exact hI.read room hl
  push {bytes l} _ hl := by
    by_cases hne : bytes = []
    · rw [hne, Line.push_nil]
      exact hl
    · rw [Line.world_push hne]
      exact hI.write bytes hl

end Channel.Keeps

theorem Host.Keeps.line [Host ω] {I : ω → Prop} (hI : Keeps I) (limit : Nat) :
    Host.Invariant limit fun l => I l.world where
  toInvariant := hI.toKeeps.line limit
  attend {l} hl := by
    rw [Line.world_attend]
    exact hI.attend hl

/-- A coder that has all its memory does nothing to the world. -/
theorem Channel.Keeps.host [Channel ω] {I : ω → Prop} (hI : Keeps I) : Host.Keeps I where
  toKeeps := hI
  attend hw := hw

theorem Line.Invariant.host [Channel ω] {limit : Nat} {I : Line ω → Prop}
    (hI : Invariant limit I) : Host.Invariant limit I where
  toInvariant := hI
  attend hl := hl

theorem Pump.Keeps.line [Pump ω] {I : ω → Prop} (hI : Keeps I) (limit : Nat) :
    Pump.Invariant limit fun l => I l.world where
  toInvariant := hI.toKeeps.line limit
  decode input room _ hl := hI.decode input room hl

/-- Nothing is done to the world but reads where bytes are gathered. -/
theorem Line.gather_keeps [Channel ω] {I : Line ω → Prop} {l : Line ω}
    (hI : ∀ room {l}, I l → I (l.pull room).2) (hl : I l) (old : List UInt8) :
    I (l.gather old).2 := by
  have hread {l l₁ : Line ω} {room : Nat} {result : Except IoError Reading} (hl : I l)
      (hpull : l.pull room = (result, l₁)) : I l₁ := by
    have hl₁ := hI room hl
    rwa [hpull] at hl₁
  fun_induction gather l old with
  | case1 l old hempty => exact hl
  | case2 l old hne e l₁ hpull => exact hread hl hpull
  | case3 l old hne r l₁ hpull hcount => exact hread hl hpull
  | case4 l old hne r l₁ hpull hcount new e l₂ hgather ih =>
      rw [hgather] at ih
      exact ih (hread hl hpull)
  | case5 l old hne r l₁ hpull hcount new more l₂ hgather ih =>
      rw [hgather] at ih
      exact ih (hread hl hpull)

namespace Line.Invariant

variable [Channel ω] {limit : Nat} {I : Line ω → Prop} {l l₁ : Line ω}

theorem of_pull (hI : Invariant limit I) (hl : I l) {room : Nat} {result : Except IoError Reading}
    (h : l.pull room = (result, l₁)) : I l₁ := by
  have hpull := hI.pull room hl
  rwa [h] at hpull

theorem of_push (hI : Invariant limit I) (hl : I l) {bytes : List UInt8}
    (hlimit : bytes.length ≤ limit) {result : Except Error Unit}
    (h : l.push bytes = (result, l₁)) : I l₁ := by
  have hpush := hI.push hlimit hl
  rwa [h] at hpush

theorem gather (hI : Invariant limit I) (hl : I l) (old : List UInt8) : I (l.gather old).2 :=
  gather_keeps hI.pull hl old

end Line.Invariant

/-! ## The encoding loops -/

/-- A coder that has all its memory leaves the world alone. -/
theorem Line.eq_of_encodeCall [Channel ω] {l l₁ : Line ω} {s s' : Stream Encoder} {call : Call}
    {room : Nat} {result : Except IoError Encoded}
    (h : l.encodeCall s call room = (result, s', l₁)) :
    l = l₁ ∧ s.encodeCall call room = (result, s') := by
  cases h
  exact ⟨rfl, rfl⟩

section

variable [Host ω] {I : Line ω → Prop} {l l₁ l₂ : Line ω} {s s' : Stream Encoder} {call : Call}

theorem Line.keeps_encodeCall (hattend : ∀ {l}, I l → I l.attend.2) (hl : I l) {room : Nat}
    {result : Except IoError Encoded} (h : l.encodeCall s call room = (result, s', l₁)) :
    I l₁ := by
  have hl' := hattend hl
  rw [Line.encodeCall] at h
  split at h <;> rename_i heq <;> rw [heq] at hl' <;> cases h <;> exact hl'

theorem Line.keeps_encodeCall_push (hattend : ∀ {l}, I l → I l.attend.2) {limit : Nat}
    (hpush : ∀ {bytes l}, bytes.length ≤ limit → I l → I (l.push bytes).2) (hl : I l)
    {moved : Encoded} {result : Except Error Unit}
    (hcall : l.encodeCall s call limit = (.ok moved, s', l₁))
    (hwrite : l₁.push moved.output = (result, l₂)) : I l₂ := by
  have hl₂ := hpush (Stream.length_encodeCall_le (Line.of_encodeCall hcall))
    (Line.keeps_encodeCall hattend hl hcall)
  rwa [hwrite] at hl₂

end

namespace Encoding

section

variable [Host ω] {s s' : Stream Encoder} {moved : Encoded} {l l₁ : Line ω}

theorem encodeChunk_nil (s : Stream Encoder) (l : Line ω) : encodeChunk s l [] = (.ok s, l) := by
  rw [encodeChunk, dif_pos rfl]

theorem encodeChunk_of_error {chunk : List UInt8} {e : IoError} (hne : chunk ≠ [])
    (hcall : l.encodeCall s (.feed chunk) Staging.defaultSize = (.error e, s', l₁)) :
    encodeChunk s l chunk = (.error (.compress e), l₁) := by
  rw [encodeChunk, dif_neg hne]
  split <;> rename_i heq <;> rw [hcall] at heq <;> cases heq
  rfl

theorem encodeChunk_of_ok {chunk : List UInt8} (hne : chunk ≠ [])
    (hcall : l.encodeCall s (.feed chunk) Staging.defaultSize = (.ok moved, s', l₁)) :
    encodeChunk s l chunk =
      match l₁.push moved.output with
      | (.error e, l) => (.error e, l)
      | (.ok (), l) =>
          if moved.used = 0 ∧ moved.output = [] then
            (.error (.compress Fault.noProgress.toIoError), l)
          else encodeChunk s' l (chunk.drop moved.used) := by
  rw [encodeChunk, dif_neg hne]
  split <;> rename_i heq <;> rw [hcall] at heq <;> cases heq
  rfl

theorem finish_of_error {e : IoError}
    (hcall : l.encodeCall s .finish Staging.defaultSize = (.error e, s', l₁)) :
    finish s l = (.error (.compress e), l₁) := by
  rw [finish]
  split <;> rename_i heq <;> rw [hcall] at heq <;> cases heq
  rfl

theorem finish_of_ok (hcall : l.encodeCall s .finish Staging.defaultSize = (.ok moved, s', l₁)) :
    finish s l =
      match l₁.push moved.output with
      | (.error e, l) => (.error e, l)
      | (.ok (), l) =>
          if moved.ended then (.ok (), l)
          else if moved.output = [] then (.error (.compress Fault.noProgress.toIoError), l)
          else finish s' l := by
  rw [finish]
  split <;> rename_i heq <;> rw [hcall] at heq <;> cases heq
  rfl

theorem run_eq {ρ : Type} [Register CompressState ρ] (s : Stream Encoder) (staging : Staging)
    (l : Line ω) (state : ρ) :
    run s staging l state =
      match l.pull staging.size with
      | (.error e, l) => (.error (.compress e), state, l)
      | (.ok r, l') =>
          let state := Register.set CompressState.encoding state
          if r.count = 0 then ((finish s l').1, state, (finish s l').2)
          else
            let staging' := staging.receive r.placed
            match encodeChunk s (l'.note (.encodingChunk r.count)) (staging'.chunk r.count) with
            | (.error e, l) => (.error e, state, l)
            | (.ok s', l'') => run s' staging' l'' state := by
  rw [run]
  rcases l.pull staging.size with ⟨_ | r, l'⟩
  · rfl
  · dsimp only
    by_cases hcount : r.count = 0
    · rw [dif_pos hcount, if_pos hcount]
    · rw [dif_neg hcount, if_neg hcount]
      rcases encodeChunk s (l'.note (.encodingChunk r.count))
        ((staging.receive r.placed).chunk r.count) with ⟨_ | _, l''⟩ <;> rfl

end

/-- Within a chunk nothing is done to the world but writes and what the coder does. -/
theorem encodeChunk_keeps [Host ω] {I : Line ω → Prop} (hattend : ∀ {l}, I l → I l.attend.2)
    (hpush : ∀ {bytes l}, bytes.length ≤ Staging.defaultSize → I l → I (l.push bytes).2)
    (s : Stream Encoder) (chunk : List UInt8) {l : Line ω} (hl : I l) :
    I (encodeChunk s l chunk).2 := by
  fun_induction encodeChunk s l chunk with
  | case1 s l => exact hl
  | case2 s l chunk hne e s' l₁ hcall => exact Line.keeps_encodeCall hattend hl hcall
  | case3 s l chunk hne moved s' l₁ hcall e l₂ hwrite
  | case4 s l chunk hne moved s' l₁ hcall l₂ hwrite hnone =>
      exact Line.keeps_encodeCall_push hattend hpush hl hcall hwrite
  | case5 s l chunk hne moved s' l₁ hcall l₂ hwrite hmoves ih =>
      exact ih (Line.keeps_encodeCall_push hattend hpush hl hcall hwrite)

theorem finish_keeps [Host ω] {I : Line ω → Prop} (hattend : ∀ {l}, I l → I l.attend.2)
    (hpush : ∀ {bytes l}, bytes.length ≤ Staging.defaultSize → I l → I (l.push bytes).2)
    (s : Stream Encoder) {l : Line ω} (hl : I l) : I (finish s l).2 := by
  fun_induction finish s l with
  | case1 s l e s' l₁ hcall => exact Line.keeps_encodeCall hattend hl hcall
  | case2 s l moved s' l₁ hcall e l₂ hwrite
  | case3 s l moved s' l₁ hcall l₂ hwrite hended
  | case4 s l moved s' l₁ hcall l₂ hwrite hgoes hnone =>
      exact Line.keeps_encodeCall_push hattend hpush hl hcall hwrite
  | case5 s l moved s' l₁ hcall l₂ hwrite hgoes hmoves ih =>
      exact ih (Line.keeps_encodeCall_push hattend hpush hl hcall hwrite)

end Encoding

namespace Host.Invariant

open Encoding

variable [Host ω] {I : Line ω → Prop} {l l₁ l₂ : Line ω}

theorem encodeChunk (hI : Invariant Staging.defaultSize I) (s : Stream Encoder)
    (chunk : List UInt8) (hl : I l) : I (Encoding.encodeChunk s l chunk).2 :=
  encodeChunk_keeps hI.attend hI.push s chunk hl

theorem encodeChunk_rest (hI : Invariant Staging.defaultSize I) {s s' : Stream Encoder}
    {chunk : List UInt8} {moved : Encoded} (hne : chunk ≠ [])
    (hcall : l.encodeCall s (.feed chunk) Staging.defaultSize = (.ok moved, s', l₁))
    (hl : I (l₁.push moved.output).2) : I (Encoding.encodeChunk s l chunk).2 := by
  rw [encodeChunk_of_ok hne hcall]
  generalize l₁.push moved.output = p at hl ⊢
  obtain ⟨_ | _, l₂⟩ := p
  · exact hl
  · dsimp only at hl ⊢
    split
    · exact hl
    · exact hI.encodeChunk s' _ hl

theorem finish (hI : Invariant Staging.defaultSize I) (s : Stream Encoder) (hl : I l) :
    I (Encoding.finish s l).2 :=
  finish_keeps hI.attend hI.push s hl

theorem finish_rest (hI : Invariant Staging.defaultSize I) {s s' : Stream Encoder}
    {moved : Encoded}
    (hcall : l.encodeCall s .finish Staging.defaultSize = (.ok moved, s', l₁))
    (hl : I (l₁.push moved.output).2) : I (Encoding.finish s l).2 := by
  rw [finish_of_ok hcall]
  generalize l₁.push moved.output = p at hl ⊢
  obtain ⟨_ | _, l₂⟩ := p
  · exact hl
  · dsimp only at hl ⊢
    split
    · exact hl
    · split
      · exact hl
      · exact hI.finish s' hl

variable {ρ : Type} [Register CompressState ρ]

theorem encode (hI : Invariant Staging.defaultSize I) (s : Stream Encoder) (staging : Staging)
    (state : ρ) (hl : I l) : I (run s staging l state).2.2 := by
  fun_induction run s staging l state with
  | case1 s staging l state e l₁ hpull => exact hI.of_pull hl hpull
  | case2 s staging l state r l₁ hpull state' hcount result l₂ hfinish =>
      have hrest := hI.finish s (hI.of_pull hl hpull)
      rwa [hfinish] at hrest
  | case3 s staging l state r l₁ hpull state' hcount staging' e l₂ hchunk =>
      have hrest := hI.encodeChunk s (staging'.chunk r.count)
        (hI.note (.encodingChunk r.count) (hI.of_pull hl hpull))
      rwa [hchunk] at hrest
  | case4 s staging l state r l₁ hpull state' hcount staging' s' l₂ hchunk ih =>
      have hrest := hI.encodeChunk s (staging'.chunk r.count)
        (hI.note (.encodingChunk r.count) (hI.of_pull hl hpull))
      rw [hchunk] at hrest
      exact ih hrest

theorem encode_rest (hI : Invariant Staging.defaultSize I) {s : Stream Encoder}
    {staging : Staging} (state : ρ) {r : Reading}
    (hpull : l.pull staging.size = (.ok r, l₁)) (hcount : r.count ≠ 0)
    (hl : I (Encoding.encodeChunk s (l₁.note (.encodingChunk r.count))
      ((staging.receive r.placed).chunk r.count)).2) : I (run s staging l state).2.2 := by
  rw [run_eq, hpull]
  dsimp only
  rw [if_neg hcount]
  generalize Encoding.encodeChunk s (l₁.note (.encodingChunk r.count))
    ((staging.receive r.placed).chunk r.count) = p at hl ⊢
  obtain ⟨_ | s', l₂⟩ := p
  · exact hl
  · exact hI.encode s' _ _ hl

theorem emit (hI : Invariant Staging.defaultSize I) {ν : Type} (c : Compressor ν)
    (session : CompressSession ν) (state : ρ) {w : ω} (hw : I { world := w }) :
    I (c.emit session state w).2.2 := by
  rw [Compressor.emit]
  split
  · exact hw
  · have hsize : c.options.header.toBytes.length ≤ Staging.defaultSize := by
      rw [Header.length_toBytes]
      decide
    have hpush := hI.push hsize (hI.note (.compressionStarting c.options.header c.options.level) hw)
    dsimp only
    split <;> rename_i hres <;> rw [hres] at hpush
    · exact hpush
    · exact hI.encode _ _ _ hpush

end Host.Invariant

/-! ## The pump -/

namespace Pump

section

variable [Pump ω] {room : Nat} {l l₁ l₂ : Line ω} {chunk : List UInt8}

theorem offer_of_decode_error {e : IoError} (hdecode : l.decode chunk room = (.error e, l₁)) :
    offer room l chunk = (.error (.decompress e), l₁) := by
  rw [offer]
  split <;> rename_i heq <;> rw [hdecode] at heq <;> cases heq
  rfl

/-- What the pump does with what a call gave. -/
theorem offer_of_decode {moved : Decoded} (hdecode : l.decode chunk room = (.ok moved, l₁)) :
    offer room l chunk =
      match l₁.push moved.output with
      | (.error e, l) => (.error e, l)
      | (.ok (), l₂) =>
          let rest := chunk.drop moved.used
          if moved.status = .finished then
            (.ok true, if rest = [] then l₂ else l₂.note (.trailingData rest.length))
          else if moved.used = 0 ∧ moved.output = [] then
            if rest = [] then (.ok false, l₂) else (.error (.decompress stuck), l₂)
          else if rest = [] ∧ moved.status ≠ .outputFull then (.ok false, l₂)
          else offer room l₂ rest := by
  rw [offer]
  split <;> rename_i heq <;> rw [hdecode] at heq <;> cases heq
  rcases l₁.push moved.output with ⟨_ | _, l₂⟩ <;> rfl

theorem run_eq {ρ : Type} [Register DecompressState ρ] (room : Nat) (staging : Staging)
    (l : Line ω) (state : ρ) :
    run room staging l state =
      match l.pull staging.size with
      | (.error e, l) => (.error (.input e), state, l)
      | (.ok r, l₁) =>
          if r.count = 0 then (.error .insufficientInput, state, l₁)
          else
            let state := Register.set DecompressState.decoding state
            let staging' := staging.receive r.placed
            match offer room (l₁.note (.decodingChunk r.count)) (staging'.chunk r.count) with
            | (.error e, l) => (.error e, state, l)
            | (.ok true, l) => (.ok (), state, l)
            | (.ok false, l₂) => run room staging' l₂ state := by
  rw [run]
  rcases l.pull staging.size with ⟨_ | r, l₁⟩
  · rfl
  · dsimp only
    by_cases hcount : r.count = 0
    · rw [dif_pos hcount, if_pos hcount]
    · rw [dif_neg hcount, if_neg hcount]
      rcases offer room (l₁.note (.decodingChunk r.count))
        ((staging.receive r.placed).chunk r.count) with ⟨_ | _ | _, l₂⟩ <;> rfl

end

namespace Invariant

variable [Pump ω] {room : Nat} {I : Line ω → Prop} {l l₁ l₂ : Line ω}

theorem of_decode (hI : Invariant room I) (hl : I l) {input : List UInt8}
    {result : Except IoError Decoded} (h : l.decode input room = (result, l₁)) : I l₁ := by
  have hdecode := hI.decode input room hl
  rwa [h] at hdecode

theorem of_decode_push (hI : Invariant room I) (hl : I l) {input : List UInt8} {moved : Decoded}
    {result : Except Error Unit} (hdecode : l.decode input room = (.ok moved, l₁))
    (hpush : l₁.push moved.output = (result, l₂)) : I l₂ :=
  hI.of_push (hI.of_decode hl hdecode) (length_decode_le (congrArg Prod.fst hdecode)) hpush

theorem offer (hI : Invariant room I) (chunk : List UInt8) (hl : I l) :
    I (Pump.offer room l chunk).2 := by
  fun_induction Pump.offer room l chunk with
  | case1 l chunk e l₁ hdecode => exact hI.of_decode hl hdecode
  | case3 l chunk moved l₁ hdecode l₂ hpush rest =>
      have hl₂ := hI.of_decode_push hl hdecode hpush
      dsimp only
      split
      · exact hl₂
      · exact hI.note _ hl₂
  | case2 l chunk moved l₁ hdecode _ l₂ hpush | case4 l chunk moved l₁ hdecode l₂ hpush
  | case5 l chunk moved l₁ hdecode l₂ hpush | case6 l chunk moved l₁ hdecode l₂ hpush =>
      exact hI.of_decode_push hl hdecode hpush
  | case7 l chunk moved l₁ hdecode l₂ hpush rest =>
      rename_i ih
      exact ih (hI.of_decode_push hl hdecode hpush)

theorem offer_rest (hI : Invariant room I) {chunk : List UInt8} {moved : Decoded}
    (hdecode : l.decode chunk room = (.ok moved, l₁)) (hl : I (l₁.push moved.output).2) :
    I (Pump.offer room l chunk).2 := by
  rw [offer_of_decode hdecode]
  generalize l₁.push moved.output = p at hl ⊢
  obtain ⟨_ | _, l₂⟩ := p
  · exact hl
  · dsimp only at hl ⊢
    split
    · dsimp only
      split
      · exact hl
      · exact hI.note _ hl
    · split
      · split <;> exact hl
      · split
        · exact hl
        · exact hI.offer _ hl

variable {ρ : Type} [Register DecompressState ρ]

theorem run (hI : Invariant room I) (staging : Staging) (state : ρ) (hl : I l) :
    I (Pump.run room staging l state).2.2 := by
  fun_induction Pump.run room staging l state with
  | case1 staging l state e l₁ hpull => exact hI.of_pull hl hpull
  | case2 staging l state r l₁ hpull hcount => exact hI.of_pull hl hpull
  | case3 staging l state r l₁ hpull hcount state' staging' e l₂ hoffer
  | case4 staging l state r l₁ hpull hcount state' staging' l₂ hoffer =>
      have hrest := hI.offer (staging'.chunk r.count)
        (hI.note (.decodingChunk r.count) (hI.of_pull hl hpull))
      rwa [hoffer] at hrest
  | case5 staging l state r l₁ hpull hcount state' staging' l₂ hoffer ih =>
      have hrest := hI.offer (staging'.chunk r.count)
        (hI.note (.decodingChunk r.count) (hI.of_pull hl hpull))
      rw [hoffer] at hrest
      exact ih hrest

theorem run_rest (hI : Invariant room I) {staging : Staging} (state : ρ)
    {r : Reading} (hpull : l.pull staging.size = (.ok r, l₁)) (hcount : r.count ≠ 0)
    (hl : I (Pump.offer room (l₁.note (.decodingChunk r.count))
      ((staging.receive r.placed).chunk r.count)).2) : I (Pump.run room staging l state).2.2 := by
  rw [run_eq, hpull]
  dsimp only
  rw [if_neg hcount]
  generalize Pump.offer room (l₁.note (.decodingChunk r.count))
    ((staging.receive r.placed).chunk r.count) = p at hl ⊢
  obtain ⟨_ | _ | _, l₂⟩ := p
  · exact hl
  · exact hI.run _ _ hl
  · exact hl

end Invariant

/-- What no call of a pump takes away, no run of it takes away. -/
theorem Keeps.run [Pump ω] {ρ : Type} [Register DecompressState ρ] {I : ω → Prop} (hI : Keeps I)
    (room : Nat) (staging : Staging) (state : ρ) {l : Line ω} (hl : I l.world) :
    I (Pump.run room staging l state).2.2.world :=
  (hI.line room).run staging state hl

end Pump

/-! ## A decoder beside the world -/

section

variable [Channel ω]

/-- A decoder that has all its memory leaves the world alone. -/
theorem Decoding.decode_eq (input : List UInt8) (room : Nat) (d : Decoding ω) :
    d.decode input room =
      ((d.stream.decode input room).1, ⟨d.world, (d.stream.decode input room).2⟩) :=
  rfl

/-- A line without the decoder in its world. -/
def Line.outer (l : Line (Decoding ω)) : Line ω := ⟨l.world.world, l.taken, l.given⟩

theorem Line.pull_outer (l : Line (Decoding ω)) (room : Nat) :
    l.outer.pull room = ((l.pull room).1, (l.pull room).2.outer) := by
  by_cases hroom : room = 0
  · rw [hroom, pull_zero, pull_zero]
  · rw [pull_of_ne hroom, pull_of_ne hroom]
    simp only [Channel.read, outer]
    rcases readVerdict room (Channel.read room l.world.world).1 with _ | _ <;> rfl

theorem Line.outer_pull (l : Line (Decoding ω)) (room : Nat) :
    (l.pull room).2.outer = (l.outer.pull room).2 := by
  rw [pull_outer]

theorem Line.outer_push (l : Line (Decoding ω)) (bytes : List UInt8) :
    (l.push bytes).2.outer = (l.outer.push bytes).2 := by
  by_cases hne : bytes = []
  · rw [hne, push_nil, push_nil]
  · rw [push_of_ne hne, push_of_ne hne]
    simp only [Channel.write, outer]
    rcases writeVerdict bytes (Channel.write bytes l.world.world).1 with _ | _ <;> rfl

end

section

variable [Host ω]

theorem Line.outer_decode (l : Line (Decoding ω)) (input : List UInt8) (room : Nat) :
    (l.decode input room).2.outer = l.outer.attend.2 := by
  obtain ⟨⟨world, stream⟩, taken, given⟩ := l
  rw [decode, attend]
  simp only [outer, Pump.decode, Decoding.decode]
  rcases Host.attend world with ⟨_ | _, world'⟩ <;> rfl

/-- The decoder's calls reach the world beside it only where it deals with memory. -/
theorem Host.Invariant.inner {limit : Nat} {I : Line ω → Prop} (hI : Invariant limit I) :
    Pump.Invariant limit fun l : Line (Decoding ω) => I l.outer where
  note event _ hl := hI.note event hl
  pull room l hl := by
    rw [Line.outer_pull]
    exact hI.pull room hl
  push {bytes l} hlimit hl := by
    rw [Line.outer_push]
    exact hI.push hlimit hl
  decode input room l hl := by
    rw [Line.outer_decode]
    exact hI.attend hl

theorem Host.Invariant.pump {ν ρ : Type} [Register DecompressState ρ]
    (session : DecompressSession ν) {I : Line ω → Prop} (hI : Invariant session.output.size I)
    (state : ρ) {l : Line ω} (hl : I l) : I (session.pump state l).2.2.outer :=
  hI.inner.run _ state hl

end

end Lzma
