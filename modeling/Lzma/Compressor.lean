import Lzma.Channel.Host
import Lzma.Coder.Progress

/-!
# Compression runs

A `Compressor` is a handle for one run. It is configured as often as one likes,
then it runs once: it reads its source to the end and writes a header and the
payload behind it. A handle that has run refuses further use and keeps the
counts of its run.

Nothing is read or written before all that a run needs is at hand. Options are
checked by the coder before the container is looked at, so bad properties are
reported even where the container would not have been written either.
-/

namespace Lzma

inductive CompressState where
  | created
  | configured
  /-- The sink has taken the header. -/
  | headerWritten
  /-- The data has begun, or has turned out to be empty. -/
  | encoding
  | done
  | failed
  deriving DecidableEq, Repr

structure CompressSession (ω : Type) where
  engine : Engine Encoder ω
  input : Block ω
  output : Block ω

namespace CompressSession

variable {ω : Type}

/-- Memory for a buffer was refused. -/
def refused : Error := .compress (.ofKind .outOfMemory)

/-- A failed set-up is blamed on the options unless memory was refused. -/
def setupError (fault : Fault) : Error :=
  if fault.toIoError.kind = .outOfMemory then .compress fault.toIoError
  else .encodingProperties fault.toIoError

variable [Journal ω]

def acquire [Manner] (o : Options) (a : Allocator ω) (w : ω) :
    Except Error (CompressSession ω) × ω :=
  match Engine.acquireEncoder o a w with
  | (.error fault, w) => (.error (setupError fault), w)
  | (.ok engine, w) =>
      match a.request Staging.defaultSize w with
      | (.error _, w) => (.error refused, engine.release w)
      | (.ok input, w) =>
          match a.request Staging.defaultSize w with
          | (.error _, w) =>
              (.error refused, engine.release (input.release w))
          | (.ok output, w) => (.ok { engine, input, output }, w)

def release (s : CompressSession ω) (w : ω) : ω :=
  s.output.release (s.input.release (s.engine.release w))

/-- Gives up a session whose coder was at work. -/
def leave (s : CompressSession ω) (h : Hosting ω) : ω :=
  { s with engine := s.engine.after h }.release h.world

end CompressSession

namespace Encoding

variable {ω : Type} [Host ω]

/--
Encodes a chunk to its end and passes on what comes out. A stream that is offered
input and room takes some or gives some, so the last case does not arise; it gives
the answer that a stream gives when it stalls for the second time.
-/
def encodeChunk (s : Stream Encoder) (l : Line ω) (chunk : List UInt8) :
    Except Error (Stream Encoder) × Line ω :=
  if _ : chunk = [] then (.ok s, l)
  else match _ : l.encodeCall s (.feed chunk) Staging.defaultSize with
    | (.error e, _, l) => (.error (.compress e), l)
    | (.ok moved, s, l) =>
        match l.push moved.output with
        | (.error e, l) => (.error e, l)
        | (.ok (), l) =>
            if _ : moved.used = 0 ∧ moved.output = [] then
              (.error (.compress Fault.noProgress.toIoError), l)
            else encodeChunk s l (chunk.drop moved.used)
termination_by (chunk.length, s.coder.remains)
decreasing_by
  rename_i hne _ hcall hmoved
  by_cases hused : moved.used = 0
  · rw [hused, List.drop_zero]
    exact Prod.Lex.right _ (Stream.less_encodeCall (Line.of_encodeCall hcall) hused
      fun hout => hmoved ⟨hused, hout⟩)
  · have hpos := List.length_pos_iff.mpr hne
    exact Prod.Lex.left _ _ (by rw [List.length_drop]; omega)

/--
Gives out what the encoder has left. As above, a stream with something left and
room for it gives some of it.
-/
def finish (s : Stream Encoder) (l : Line ω) : Except Error Unit × Line ω :=
  match _ : l.encodeCall s .finish Staging.defaultSize with
  | (.error e, _, l) => (.error (.compress e), l)
  | (.ok moved, s', l) =>
      match l.push moved.output with
      | (.error e, l) => (.error e, l)
      | (.ok (), l) =>
          if moved.ended then (.ok (), l)
          else if _ : moved.output = [] then
            (.error (.compress Fault.noProgress.toIoError), l)
          else finish s' l
termination_by s.coder.remains
decreasing_by
  rename_i _ hcall _ hout
  have hcall := Line.of_encodeCall hcall
  exact Stream.less_encodeCall hcall (Stream.used_finish hcall) hout

theorem credit_encodeChunk_le (s : Stream Encoder) (l : Line ω) (chunk : List UInt8) :
    (encodeChunk s l chunk).2.credit ≤ l.credit := by
  have hcalled {s s' : Stream Encoder} {l l₁ : Line ω} {chunk : List UInt8}
      {result : Except IoError Encoded}
      (h : l.encodeCall s (.feed chunk) Staging.defaultSize = (result, s', l₁)) :
      l₁.credit ≤ l.credit := by
    have hle := l.credit_encodeCall_le s (.feed chunk) Staging.defaultSize
    rwa [h] at hle
  have hpushed {bytes : List UInt8} {l l₁ : Line ω} {result : Except Error Unit}
      (h : l.push bytes = (result, l₁)) : l₁.credit ≤ l.credit := by
    have hle := l.credit_push_le bytes
    rwa [h] at hle
  fun_induction encodeChunk s l chunk with
  | case1 => exact Nat.le_refl _
  | case2 s l chunk _ e s' l₁ hcall => exact hcalled hcall
  | case3 s l chunk _ moved s' l₁ hcall e l₂ hpush
  | case4 s l chunk _ moved s' l₁ hcall l₂ hpush =>
      exact Nat.le_trans (hpushed hpush) (hcalled hcall)
  | case5 s l chunk _ moved s' l₁ hcall l₂ hpush _ ih =>
      exact Nat.le_trans ih (Nat.le_trans (hpushed hpush) (hcalled hcall))

variable {ρ : Type} [Register CompressState ρ]

/-- Encodes chunk after chunk until the source ends, and then gives out what is left. -/
def run (s : Stream Encoder) (staging : Staging) (l : Line ω) (state : ρ) :
    Except Error Unit × ρ × Line ω :=
  match _ : l.pull staging.size with
  | (.error e, l) => (.error (.compress e), state, l)
  | (.ok r, l') =>
      let state := Register.set CompressState.encoding state
      if _ : r.count = 0 then
        let (result, l) := finish s l'
        (result, state, l)
      else
        let staging' := staging.receive r.placed
        match _ : encodeChunk s (l'.note (.encodingChunk r.count)) (staging'.chunk r.count) with
        | (.error e, l) => (.error e, state, l)
        | (.ok s', l'') => run s' staging' l'' state
termination_by l.credit
decreasing_by
  rename_i hpull hcount hchunk
  have h1 := Line.credit_pull_lt hpull (Nat.pos_of_ne_zero hcount)
  have h2 := l'.credit_note_le (.encodingChunk r.count)
  have h3 := credit_encodeChunk_le s (l'.note (.encodingChunk r.count))
    ((staging.receive r.placed).chunk r.count)
  rw [hchunk] at h3
  exact Nat.lt_of_le_of_lt (Nat.le_trans h3 h2) h1

end Encoding

structure Compressor (ω : Type) where
  allocator : Allocator ω := .standard
  options : Options := {}
  state : CompressState := .created
  totalIn : Nat := 0
  totalOut : Nat := 0

namespace Compressor

variable {ω : Type}

/-- Whether the handle has not run yet. -/
def isFresh (c : Compressor ω) : Bool := c.state == .created || c.state == .configured

/-- The answer to a use of a handle that has run. -/
def alreadyRan : Error := .badParams "compressor already ran"

def configure (c : Compressor ω) (o : Options) : Except Error Unit × Compressor ω :=
  if c.isFresh then (.ok (), { c with options := o, state := .configured })
  else (.error alreadyRan, c)

section

variable {ρ : Type} [Register CompressState ρ]

/-- The part of a run that has a coder and buffers: the header, then the payload. -/
def emit {ν : Type} [Host ν] (c : Compressor ω) (session : CompressSession ω) (state : ρ) (w : ν) :
    Except Error Unit × ρ × Line ν :=
  if c.options.format ≠ .lzma then
    (.error (.unsupportedFormat c.options.format), state, { world := w })
  else
    let header := c.options.header
    let l : Line ν := { world := w }
    match (l.note (.compressionStarting header c.options.level)).push header.toBytes with
    | (.error e, l) => (.error e, state, l)
    | (.ok (), l) =>
        Encoding.run session.engine.stream (.ofList session.input.buffer.bytes) l
          (Register.set CompressState.headerWritten state)

variable [Channel ω] [Manner]

/-- A run, with what becomes of the states that it sets. -/
def follow (c : Compressor ω) (state : ρ) (w : ω) : Except Error Unit × ρ × Line ω :=
  match CompressSession.acquire c.options c.allocator w with
  | (.error e, w) => (.error e, state, { world := w })
  | (.ok session, w) =>
      let (result, state, l) := c.emit session state (session.engine.host w)
      (result, state, { l with world := session.leave l.world })

end

variable [Channel ω] [Manner]

/-- A run, with the state it comes to on its way. -/
def drive (c : Compressor ω) (w : ω) : Except Error Unit × CompressState × Line ω :=
  c.follow c.state w

def run (c : Compressor ω) (w : ω) : Except Error Unit × Compressor ω × ω :=
  if c.isFresh then
    let (result, _, l) := c.drive w
    let c := { c with totalIn := l.taken, totalOut := l.given }
    match result with
    | .ok () =>
        (.ok (), { c with state := .done },
          Journal.note (.compressionFinished l.taken l.given) l.world)
    | .error e =>
        (.error e, { c with state := .failed }, Journal.note (.compressionFailed e) l.world)
  else (.error alreadyRan, c, w)

end Compressor

end Lzma
