import Lzma.Proofs.Invariant

/-!
# Worlds that answer alike

A run knows its world by the answers that it gets. So if each call gets the same
answer in two worlds and leaves them related as they were, then whole runs come to the
same in both. What "related" means is left open: a world and the same world with a
record beside it, or two sources that differ in what no call can tell apart.

`Channel.Alike` and `Pump.Alike` state this of single calls. One of the two worlds may
also give up: it answers a call with a failure where the other one goes on
(`Channel.Lockstep`, `Pump.Lockstep`). Its run ends there, with the error of that call, and
of the other run it is known what no call takes away. A read or a call of the decoder is
left before the other world has answered it. A write is left behind the other world's
answer, since that answer is what the two runs are to be compared by.

The lemmas below carry this through the counted calls to the loops of both kinds of runs.
The loop of the first run is followed by its cases; where it gives up, the loop of the
second run is entered behind the call (`Line.Invariant.encodeChunk_rest` and the like).
-/

namespace Lzma

variable {ω ω' α ε : Type}

/-! ## Answers -/

/-- Two outcomes with one answer, in worlds that are related. -/
def Same (R : ω → ω' → Prop) (p : α × ω) (p' : α × ω') : Prop := p.1 = p'.1 ∧ R p.2 p'.2

theorem Same.of_eq {R : ω → ω' → Prop} {p : α × ω} {p' : α × ω'} {a : α} {w : ω}
    (h : Same R p p') (hp : p = (a, w)) : ∃ w', p' = (a, w') ∧ R w w' := by
  subst hp
  exact ⟨p'.2, Prod.ext h.1.symm rfl, h.2⟩

/-- The first of two worlds has failed where the second may go on. -/
def GivesUp (E : ε → ω → ω' → Prop) (p : Except ε α × ω) (w' : ω') : Prop :=
  ∃ e, p.1 = .error e ∧ E e p.2 w'

theorem GivesUp.of_ok {E : ε → ω → ω' → Prop} {p : Except ε α × ω} {w' : ω'} {a : α} {w : ω}
    (h : GivesUp E p w') (hp : p = (.ok a, w)) : False := by
  obtain ⟨e, he, -⟩ := h
  rw [hp] at he
  cases he

theorem GivesUp.of_error {E : ε → ω → ω' → Prop} {p : Except ε α × ω} {w' : ω'} {e : ε} {w : ω}
    (h : GivesUp E p w') (hp : p = (.error e, w)) : E e w w' := by
  obtain ⟨e', he, hE⟩ := h
  rw [hp] at he hE
  cases he
  exact hE

/-- Whatever error a failed call becomes. A read may be one of the header or of the payload. -/
def Anyhow (E : Error → ω → ω' → Prop) (_ : IoError) (w : ω) (w' : ω') : Prop := ∀ e, E e w w'

/-- Two related worlds give one answer to a call, and are related after it. -/
structure Channel.Alike [Channel ω] [Channel ω'] (R : ω → ω' → Prop) : Prop where
  note (event : Event) {w : ω} {w' : ω'} : R w w' →
    R (Journal.note event w) (Journal.note event w')
  read (room : Nat) {w : ω} {w' : ω'} : R w w' →
    Same R (Channel.read room w) (Channel.read room w')
  write (bytes : List UInt8) {w : ω} {w' : ω'} : R w w' →
    Same R (Channel.write bytes w) (Channel.write bytes w')

structure Pump.Alike [Pump ω] [Pump ω'] (R : ω → ω' → Prop) : Prop extends Channel.Alike R where
  decode (input : List UInt8) (room : Nat) {w : ω} {w' : ω'} : R w w' →
    Same R (Pump.decode input room w) (Pump.decode input room w')

/-- Two related worlds answer alike, or the first gives up and stands in the relation `E` then. -/
structure Channel.Lockstep [Channel ω] [Channel ω'] (R : ω → ω' → Prop)
    (E : Error → ω → ω' → Prop) : Prop where
  note (event : Event) {w : ω} {w' : ω'} : R w w' →
    R (Journal.note event w) (Journal.note event w')
  read (room : Nat) {w : ω} {w' : ω'} : R w w' →
    Same R (Channel.read room w) (Channel.read room w') ∨
      GivesUp (Anyhow E) (Channel.read room w) w'
  write (bytes : List UInt8) {w : ω} {w' : ω'} : R w w' →
    Same R (Channel.write bytes w) (Channel.write bytes w') ∨
      ∃ e, writeVerdict bytes (Channel.write bytes w).1 = .error e ∧
        E e (Channel.write bytes w).2 (Channel.write bytes w').2
  later (e : Error) (w : ω) : Channel.Keeps (E e w)

structure Pump.Lockstep [Pump ω] [Pump ω'] (R : ω → ω' → Prop) (E : Error → ω → ω' → Prop) :
    Prop extends Channel.Lockstep R E where
  decode (input : List UInt8) (room : Nat) {w : ω} {w' : ω'} : R w w' →
    Same R (Pump.decode input room w) (Pump.decode input room w') ∨
      GivesUp (fun e => E (.decompress e)) (Pump.decode input room w) w'
  later_decode (e : Error) (input : List UInt8) (room : Nat) {w : ω} {w' : ω'} :
    E e w w' → E e w (Pump.decode input room w').2

/-- The same of worlds in which a coder works, whose dealings come to the same in both. -/
structure Host.Lockstep [Host ω] [Host ω'] (R : ω → ω' → Prop) (E : Error → ω → ω' → Prop) :
    Prop extends Channel.Lockstep R E where
  attend {w : ω} {w' : ω'} : R w w' → Same R (Host.attend w) (Host.attend w')
  later_attend (e : Error) {w : ω} {w' : ω'} : E e w w' → E e w (Host.attend w').2

/-- A coder that has all its memory leaves both worlds alone. -/
theorem Channel.Lockstep.host [Channel ω] [Channel ω'] {R : ω → ω' → Prop}
    {E : Error → ω → ω' → Prop} (hR : Lockstep R E) : Host.Lockstep R E where
  toLockstep := hR
  attend hw := ⟨rfl, hw⟩
  later_attend _ _ _ hE := hE

theorem Host.Lockstep.keeps [Host ω] [Host ω'] {R : ω → ω' → Prop} {E : Error → ω → ω' → Prop}
    (hR : Lockstep R E) (e : Error) (w : ω) : Keeps (E e w) where
  toKeeps := hR.later e w
  attend := hR.later_attend e

/-- The relation in which no world gives up. -/
def Never (_ : Error) (_ : ω) (_ : ω') : Prop := False

theorem Channel.Alike.lockstep [Channel ω] [Channel ω'] {R : ω → ω' → Prop} (hR : Alike R) :
    Lockstep R Never where
  note := hR.note
  read room _ _ hw := .inl (hR.read room hw)
  write bytes _ _ hw := .inl (hR.write bytes hw)
  later _ _ := ⟨fun _ _ => id, fun _ _ => id, fun _ _ => id⟩

theorem Pump.Alike.lockstep [Pump ω] [Pump ω'] {R : ω → ω' → Prop} (hR : Alike R) :
    Lockstep R Never where
  toLockstep := hR.toAlike.lockstep
  decode input room _ _ hw := .inl (hR.decode input room hw)
  later_decode _ _ _ _ _ := id

theorem Pump.Lockstep.keeps [Pump ω] [Pump ω'] {R : ω → ω' → Prop} {E : Error → ω → ω' → Prop}
    (hR : Lockstep R E) (e : Error) (w : ω) : Keeps (E e w) where
  toKeeps := hR.later e w
  decode input room _ := hR.later_decode e input room

/-! ## Counted calls -/

/-- Two lines that have counted the same, in worlds that are related. -/
structure Line.Alike (R : ω → ω' → Prop) (l : Line ω) (l' : Line ω') : Prop where
  world : R l.world l'.world
  taken : l.taken = l'.taken
  given : l.given = l'.given

/-- A relation of the worlds of two lines. -/
def Line.Worlds (E : ε → ω → ω' → Prop) (e : ε) (l : Line ω) (l' : Line ω') : Prop :=
  E e l.world l'.world

theorem Line.alike_start {R : ω → ω' → Prop} {w : ω} {w' : ω'} (hw : R w w') :
    ({ world := w } : Line ω).Alike R { world := w' } := ⟨hw, rfl, rfl⟩

namespace Line.Alike

variable {R : ω → ω' → Prop} {E : Error → ω → ω' → Prop} {l l₁ : Line ω} {l' : Line ω'}

section

variable [Channel ω] [Channel ω']

theorem note (hR : Channel.Lockstep R E) (hl : l.Alike R l') (event : Event) :
    (l.note event).Alike R (l'.note event) :=
  ⟨hR.note event hl.world, hl.taken, hl.given⟩

theorem pull_or (hR : Channel.Lockstep R E) (hl : l.Alike R l') (room : Nat) :
    Same (Line.Alike R) (l.pull room) (l'.pull room) ∨
      GivesUp (Line.Worlds (Anyhow E)) (l.pull room) l' := by
  by_cases hroom : room = 0
  · rw [hroom, pull_zero, pull_zero]
    exact .inl ⟨rfl, hl⟩
  · rw [pull_of_ne hroom l]
    rcases hR.read room hl.world with ⟨hanswer, hw⟩ | ⟨e, hfails, hE⟩
    · rw [pull_of_ne hroom l', hanswer, hl.taken, hl.given]
      split <;> exact .inl ⟨rfl, hw, rfl, rfl⟩
    · rw [hfails]
      exact .inr ⟨e, rfl, hE⟩

theorem push_or (hR : Channel.Lockstep R E) (hl : l.Alike R l') (bytes : List UInt8) :
    Same (Line.Alike R) (l.push bytes) (l'.push bytes) ∨
      GivesUp (Line.Worlds E) (l.push bytes) (l'.push bytes).2 := by
  by_cases hne : bytes = []
  · rw [hne, push_nil, push_nil]
    exact .inl ⟨rfl, hl⟩
  · rcases hR.write bytes hl.world with ⟨hanswer, hw⟩ | ⟨e, hfails, hE⟩
    · rw [push_of_ne hne l, push_of_ne hne l', hanswer, hl.taken, hl.given]
      split <;> exact .inl ⟨rfl, hw, rfl, rfl⟩
    · refine .inr ⟨e, ?_, ?_⟩
      · rw [push_of_ne hne l, hfails]
      · rw [Line.Worlds, world_push hne, world_push hne]
        exact hE

theorem pull_ok (hR : Channel.Lockstep R E) (hl : l.Alike R l') {room : Nat} {r : Reading}
    (hpull : l.pull room = (.ok r, l₁)) :
    ∃ l₁', l'.pull room = (.ok r, l₁') ∧ l₁.Alike R l₁' := by
  rcases hl.pull_or hR room with hsame | hgives
  · exact hsame.of_eq hpull
  · exact (hgives.of_ok hpull).elim

theorem pull_error (hR : Channel.Lockstep R E) (hl : l.Alike R l') {room : Nat} {e : IoError}
    (hpull : l.pull room = (.error e, l₁)) :
    (∃ l₁', l'.pull room = (.error e, l₁') ∧ l₁.Alike R l₁') ∨
      ∀ e', E e' l₁.world l'.world := by
  rcases hl.pull_or hR room with hsame | hgives
  · exact .inl (hsame.of_eq hpull)
  · exact .inr (hgives.of_error hpull)

theorem push_ok (hR : Channel.Lockstep R E) (hl : l.Alike R l') {bytes : List UInt8}
    (hpush : l.push bytes = (.ok (), l₁)) :
    ∃ l₁', l'.push bytes = (.ok (), l₁') ∧ l₁.Alike R l₁' := by
  rcases hl.push_or hR bytes with hsame | hgives
  · exact hsame.of_eq hpush
  · exact (hgives.of_ok hpush).elim

theorem push_error (hR : Channel.Lockstep R E) (hl : l.Alike R l') {bytes : List UInt8}
    {e : Error} (hpush : l.push bytes = (.error e, l₁)) :
    (∃ l₁', l'.push bytes = (.error e, l₁') ∧ l₁.Alike R l₁') ∨
      E e l₁.world (l'.push bytes).2.world := by
  rcases hl.push_or hR bytes with hsame | hgives
  · exact .inl (hsame.of_eq hpush)
  · exact .inr (hgives.of_error hpush)

/-- What stands behind the calls that gathered some bytes does not matter to the world. -/
theorem gather_or (hR : Channel.Lockstep R E) (hl : l.Alike R l') (old : List UInt8) :
    Same (Line.Alike R) (l.gather old) (l'.gather old) ∨
      GivesUp (Line.Worlds E) (l.gather old) (l'.gather old).2 := by
  fun_induction Line.gather l old generalizing l' with
  | case1 l old hempty =>
      rw [Line.gather, if_pos hempty]
      exact .inl ⟨rfl, hl⟩
  | case2 l old hne e l₁ hpull =>
      rcases hl.pull_error hR hpull with ⟨l₁', hpull', hl₁⟩ | hE
      · rw [Line.gather, if_neg hne, hpull']
        exact .inl ⟨rfl, hl₁⟩
      · exact .inr ⟨_, rfl, ((hR.later _ _).line 0).gather (hE _) old⟩
  | case3 l old hne r l₁ hpull hcount =>
      obtain ⟨l₁', hpull', hl₁⟩ := hl.pull_ok hR hpull
      rw [Line.gather, if_neg hne, hpull']
      dsimp only
      rw [if_pos hcount]
      exact .inl ⟨rfl, hl₁⟩
  | case4 l old hne r l₁ hpull hcount new e l₂ hgather =>
      rename_i ih
      obtain ⟨l₁', hpull', hl₁⟩ := hl.pull_ok hR hpull
      rw [Line.gather, if_neg hne, hpull']
      dsimp only
      rw [if_neg hcount]
      rcases ih hl₁ with hsame | hgives
      · obtain ⟨l₂', hgather', hl₂⟩ := hsame.of_eq hgather
        rw [hgather']
        exact .inl ⟨rfl, hl₂⟩
      · have hE := hgives.of_error hgather
        refine .inr ⟨e, rfl, ?_⟩
        rcases hgather' : l₁'.gather (new.drop r.count) with ⟨_ | _, l₂'⟩ <;>
          rw [hgather'] at hE <;> exact hE
  | case5 l old hne r l₁ hpull hcount new more l₂ hgather =>
      rename_i ih
      obtain ⟨l₁', hpull', hl₁⟩ := hl.pull_ok hR hpull
      rw [Line.gather, if_neg hne, hpull']
      dsimp only
      rw [if_neg hcount]
      rcases ih hl₁ with hsame | hgives
      · obtain ⟨l₂', hgather', hl₂⟩ := hsame.of_eq hgather
        rw [hgather']
        exact .inl ⟨rfl, hl₂⟩
      · exact (hgives.of_ok hgather).elim

end

section

variable [Host ω] [Host ω']

theorem attend (hR : Host.Lockstep R E) (hl : l.Alike R l') :
    Same (Line.Alike R) l.attend l'.attend := by
  obtain ⟨henough, hw⟩ := hR.attend hl.world
  rw [Line.attend, Line.attend]
  rcases hattend : Host.attend l.world with ⟨enough, w⟩
  rcases hattend' : Host.attend l'.world with ⟨enough', w'⟩
  rw [hattend, hattend'] at henough hw
  dsimp only at henough hw ⊢
  subst henough
  cases enough <;> exact ⟨rfl, hw, hl.taken, hl.given⟩

theorem encodeCall (hR : Host.Lockstep R E) (hl : l.Alike R l') {s s' : Stream Encoder}
    {call : Call} {room : Nat} {result : Except IoError Encoded}
    (hcall : l.encodeCall s call room = (result, s', l₁)) :
    ∃ l₁', l'.encodeCall s call room = (result, s', l₁') ∧ l₁.Alike R l₁' := by
  rw [Line.encodeCall] at hcall ⊢
  split at hcall <;> rename_i hattend <;>
    obtain ⟨l₁', hattend', hl₁⟩ := (hl.attend hR).of_eq hattend <;> cases hcall <;> rw [hattend']
  · exact ⟨l₁', rfl, hl₁⟩
  · exact ⟨l₁', rfl, hl₁⟩

end

section

variable [Pump ω] [Pump ω']

theorem decode_or (hR : Pump.Lockstep R E) (hl : l.Alike R l') (input : List UInt8) (room : Nat) :
    Same (Line.Alike R) (l.decode input room) (l'.decode input room) ∨
      GivesUp (Line.Worlds fun e => E (.decompress e)) (l.decode input room) l' := by
  rcases hR.decode input room hl.world with ⟨hres, hw⟩ | hgives
  · exact .inl ⟨hres, hw, hl.taken, hl.given⟩
  · exact .inr hgives

theorem decode_ok (hR : Pump.Lockstep R E) (hl : l.Alike R l') {input : List UInt8} {room : Nat}
    {moved : Decoded} (hdecode : l.decode input room = (.ok moved, l₁)) :
    ∃ l₁', l'.decode input room = (.ok moved, l₁') ∧ l₁.Alike R l₁' := by
  rcases hl.decode_or hR input room with hsame | hgives
  · exact hsame.of_eq hdecode
  · exact (hgives.of_ok hdecode).elim

end

end Line.Alike

/-! ## The pump -/

namespace Pump

variable [Pump ω] [Pump ω'] {R : ω → ω' → Prop} {E : Error → ω → ω' → Prop}
variable {l l₁ l₂ : Line ω} {l' : Line ω'} {room : Nat}

theorem decode_push_ok (hR : Lockstep R E) (hl : l.Alike R l') {chunk : List UInt8}
    {moved : Decoded} (hdecode : l.decode chunk room = (.ok moved, l₁))
    (hpush : l₁.push moved.output = (.ok (), l₂)) :
    ∃ l₁' l₂', l'.decode chunk room = (.ok moved, l₁') ∧
      l₁'.push moved.output = (.ok (), l₂') ∧ l₂.Alike R l₂' := by
  obtain ⟨l₁', hdecode', hl₁⟩ := hl.decode_ok hR hdecode
  obtain ⟨l₂', hpush', hl₂⟩ := hl₁.push_ok hR.toLockstep hpush
  exact ⟨l₁', l₂', hdecode', hpush', hl₂⟩

theorem offer_lockstep (hR : Lockstep R E) (room : Nat) (chunk : List UInt8)
    (hl : l.Alike R l') :
    Same (Line.Alike R) (offer room l chunk) (offer room l' chunk) ∨
      GivesUp (Line.Worlds E) (offer room l chunk) (offer room l' chunk).2 := by
  fun_induction offer room l chunk generalizing l' with
  | case1 l chunk e l₁ hdecode =>
      rcases hl.decode_or hR chunk room with hsame | hgives
      · obtain ⟨l₁', hdecode', hl₁⟩ := hsame.of_eq hdecode
        rw [offer_of_decode_error hdecode']
        exact .inl ⟨rfl, hl₁⟩
      · have hE := hgives.of_error hdecode
        exact .inr ⟨_, rfl, ((hR.keeps _ _).line room).offer chunk hE⟩
  | case2 l chunk moved l₁ hdecode e l₂ hpush =>
      obtain ⟨l₁', hdecode', hl₁⟩ := hl.decode_ok hR hdecode
      rcases hl₁.push_error hR.toLockstep hpush with ⟨l₂', hpush', hl₂⟩ | hE
      · rw [offer_of_decode hdecode', hpush']
        exact .inl ⟨rfl, hl₂⟩
      · exact .inr ⟨e, rfl, ((hR.keeps _ _).line room).offer_rest hdecode' hE⟩
  | case3 l chunk moved l₁ hdecode l₂ hpush rest =>
      rename_i hfinished
      obtain ⟨l₁', l₂', hdecode', hpush', hl₂⟩ := decode_push_ok hR hl hdecode hpush
      rw [offer_of_decode hdecode', hpush']
      dsimp only
      rw [if_pos hfinished]
      refine .inl ⟨rfl, ?_⟩
      dsimp only
      split
      · exact hl₂
      · exact hl₂.note hR.toLockstep _
  | case4 l chunk moved l₁ hdecode l₂ hpush rest =>
      rename_i hstatus hidle hrest
      obtain ⟨l₁', l₂', hdecode', hpush', hl₂⟩ := decode_push_ok hR hl hdecode hpush
      rw [offer_of_decode hdecode', hpush']
      dsimp only
      rw [if_neg hstatus, if_pos hidle, if_pos hrest]
      exact .inl ⟨rfl, hl₂⟩
  | case5 l chunk moved l₁ hdecode l₂ hpush rest =>
      rename_i hstatus hidle hrest
      obtain ⟨l₁', l₂', hdecode', hpush', hl₂⟩ := decode_push_ok hR hl hdecode hpush
      rw [offer_of_decode hdecode', hpush']
      dsimp only
      rw [if_neg hstatus, if_pos hidle, if_neg hrest]
      exact .inl ⟨rfl, hl₂⟩
  | case6 l chunk moved l₁ hdecode l₂ hpush rest =>
      rename_i hstatus hmoves hdone
      obtain ⟨l₁', l₂', hdecode', hpush', hl₂⟩ := decode_push_ok hR hl hdecode hpush
      rw [offer_of_decode hdecode', hpush']
      dsimp only
      rw [if_neg hstatus, if_neg hmoves, if_pos hdone]
      exact .inl ⟨rfl, hl₂⟩
  | case7 l chunk moved l₁ hdecode l₂ hpush rest =>
      rename_i hstatus hmoves hmore ih
      obtain ⟨l₁', l₂', hdecode', hpush', hl₂⟩ := decode_push_ok hR hl hdecode hpush
      rw [offer_of_decode hdecode', hpush']
      dsimp only
      rw [if_neg hstatus, if_neg hmoves, if_neg hmore]
      exact ih hl₂

theorem offer_note_ok (hR : Lockstep R E) (hl : l.Alike R l') {chunk : List UInt8}
    {event : Event} {done : Bool} (h : offer room (l.note event) chunk = (.ok done, l₁)) :
    ∃ l₁', offer room (l'.note event) chunk = (.ok done, l₁') ∧ l₁.Alike R l₁' := by
  rcases offer_lockstep hR room chunk (hl.note hR.toLockstep event) with hsame | hgives
  · exact hsame.of_eq h
  · exact (hgives.of_ok h).elim

variable {ρ : Type} [Register DecompressState ρ]

theorem run_lockstep (hR : Lockstep R E) (room : Nat) (staging : Staging) (state : ρ)
    (hl : l.Alike R l') :
    Same (Same (Line.Alike R)) (run room staging l state) (run room staging l' state) ∨
      ∃ e, (run room staging l state).1 = .error e ∧
        E e (run room staging l state).2.2.world (run room staging l' state).2.2.world := by
  fun_induction run room staging l state generalizing l' with
  | case1 staging l state e l₁ hpull =>
      rcases hl.pull_error hR.toLockstep hpull with ⟨l₁', hpull', hl₁⟩ | hE
      · rw [run_eq, hpull']
        exact .inl ⟨rfl, rfl, hl₁⟩
      · exact .inr ⟨_, rfl, (hR.keeps _ _).run room staging state (hE _)⟩
  | case2 staging l state r l₁ hpull hcount =>
      obtain ⟨l₁', hpull', hl₁⟩ := hl.pull_ok hR.toLockstep hpull
      rw [run_eq, hpull']
      dsimp only
      rw [if_pos hcount]
      exact .inl ⟨rfl, rfl, hl₁⟩
  | case3 staging l state r l₁ hpull hcount state' staging' e l₂ =>
      rename_i hoffer
      obtain ⟨l₁', hpull', hl₁⟩ := hl.pull_ok hR.toLockstep hpull
      rcases offer_lockstep hR room (staging'.chunk r.count)
        (hl₁.note hR.toLockstep (.decodingChunk r.count)) with hsame | hgives
      · obtain ⟨l₂', hoffer', hl₂⟩ := hsame.of_eq hoffer
        rw [run_eq room staging l', hpull']
        dsimp only
        rw [if_neg hcount, hoffer']
        exact .inl ⟨rfl, rfl, hl₂⟩
      · -- The first run ends here; the second may go on, and takes nothing from `E`.
        have hE := hgives.of_error hoffer
        exact .inr ⟨e, rfl, ((hR.keeps _ _).line room).run_rest state hpull' hcount hE⟩
  | case4 staging l state r l₁ hpull hcount state' staging' l₂ =>
      rename_i hoffer
      obtain ⟨l₁', hpull', hl₁⟩ := hl.pull_ok hR.toLockstep hpull
      obtain ⟨l₂', hoffer', hl₂⟩ := offer_note_ok hR hl₁ hoffer
      rw [run_eq, hpull']
      dsimp only
      rw [if_neg hcount, hoffer']
      exact .inl ⟨rfl, rfl, hl₂⟩
  | case5 staging l state r l₁ hpull hcount state' staging' l₂ =>
      rename_i hoffer ih
      obtain ⟨l₁', hpull', hl₁⟩ := hl.pull_ok hR.toLockstep hpull
      obtain ⟨l₂', hoffer', hl₂⟩ := offer_note_ok hR hl₁ hoffer
      rw [run_eq room staging l', hpull']
      dsimp only
      rw [if_neg hcount, hoffer']
      exact ih hl₂

theorem run_alike (hR : Alike R) (room : Nat) (staging : Staging) (state : ρ)
    (hl : l.Alike R l') :
    Same (Same (Line.Alike R)) (run room staging l state) (run room staging l' state) := by
  rcases run_lockstep hR.lockstep room staging state hl with hsame | ⟨e, -, hnever⟩
  · exact hsame
  · exact hnever.elim

end Pump

/-! ## The encoding loops -/

namespace Encoding

variable [Host ω] [Host ω'] {R : ω → ω' → Prop} {E : Error → ω → ω' → Prop}
variable {l l₁ : Line ω} {l' : Line ω'}

theorem encodeChunk_lockstep (hR : Host.Lockstep R E) (s : Stream Encoder)
    (chunk : List UInt8) (hl : l.Alike R l') :
    Same (Line.Alike R) (encodeChunk s l chunk) (encodeChunk s l' chunk) ∨
      GivesUp (Line.Worlds E) (encodeChunk s l chunk) (encodeChunk s l' chunk).2 := by
  fun_induction encodeChunk s l chunk generalizing l' with
  | case1 s l =>
      rw [encodeChunk_nil]
      exact .inl ⟨rfl, hl⟩
  | case2 s l chunk hne e s' l₁ hcall =>
      obtain ⟨l₁', hcall', hl₁⟩ := hl.encodeCall hR hcall
      rw [encodeChunk_of_error hne hcall']
      exact .inl ⟨rfl, hl₁⟩
  | case3 s l chunk hne moved s' l₁ hcall e l₂ hpush =>
      obtain ⟨l₁', hcall', hl₁⟩ := hl.encodeCall hR hcall
      rcases hl₁.push_error hR.toLockstep hpush with ⟨l₂', hpush', hl₂⟩ | hE
      · rw [encodeChunk_of_ok hne hcall', hpush']
        exact .inl ⟨rfl, hl₂⟩
      · exact .inr ⟨e, rfl, ((hR.keeps _ _).line _).encodeChunk_rest hne hcall' hE⟩
  | case4 s l chunk hne moved s' l₁ hcall l₂ hpush hnone =>
      obtain ⟨l₁', hcall', hl₁⟩ := hl.encodeCall hR hcall
      obtain ⟨l₂', hpush', hl₂⟩ := hl₁.push_ok hR.toLockstep hpush
      rw [encodeChunk_of_ok hne hcall', hpush']
      dsimp only
      rw [if_pos hnone]
      exact .inl ⟨rfl, hl₂⟩
  | case5 s l chunk hne moved s' l₁ hcall l₂ hpush hmoves ih =>
      obtain ⟨l₁', hcall', hl₁⟩ := hl.encodeCall hR hcall
      obtain ⟨l₂', hpush', hl₂⟩ := hl₁.push_ok hR.toLockstep hpush
      rw [encodeChunk_of_ok hne hcall', hpush']
      dsimp only
      rw [if_neg hmoves]
      exact ih hl₂

theorem finish_lockstep (hR : Host.Lockstep R E) (s : Stream Encoder) (hl : l.Alike R l') :
    Same (Line.Alike R) (finish s l) (finish s l') ∨
      GivesUp (Line.Worlds E) (finish s l) (finish s l').2 := by
  fun_induction finish s l generalizing l' with
  | case1 s l e s' l₁ hcall =>
      obtain ⟨l₁', hcall', hl₁⟩ := hl.encodeCall hR hcall
      rw [finish_of_error hcall']
      exact .inl ⟨rfl, hl₁⟩
  | case2 s l moved s' l₁ hcall e l₂ hpush =>
      obtain ⟨l₁', hcall', hl₁⟩ := hl.encodeCall hR hcall
      rcases hl₁.push_error hR.toLockstep hpush with ⟨l₂', hpush', hl₂⟩ | hE
      · rw [finish_of_ok hcall', hpush']
        exact .inl ⟨rfl, hl₂⟩
      · exact .inr ⟨e, rfl, ((hR.keeps _ _).line _).finish_rest hcall' hE⟩
  | case3 s l moved s' l₁ hcall l₂ hpush hended =>
      obtain ⟨l₁', hcall', hl₁⟩ := hl.encodeCall hR hcall
      obtain ⟨l₂', hpush', hl₂⟩ := hl₁.push_ok hR.toLockstep hpush
      rw [finish_of_ok hcall', hpush']
      dsimp only
      rw [if_pos hended]
      exact .inl ⟨rfl, hl₂⟩
  | case4 s l moved s' l₁ hcall l₂ hpush hgoes hnone =>
      obtain ⟨l₁', hcall', hl₁⟩ := hl.encodeCall hR hcall
      obtain ⟨l₂', hpush', hl₂⟩ := hl₁.push_ok hR.toLockstep hpush
      rw [finish_of_ok hcall', hpush']
      dsimp only
      rw [if_neg hgoes, if_pos hnone]
      exact .inl ⟨rfl, hl₂⟩
  | case5 s l moved s' l₁ hcall l₂ hpush hgoes hmoves ih =>
      obtain ⟨l₁', hcall', hl₁⟩ := hl.encodeCall hR hcall
      obtain ⟨l₂', hpush', hl₂⟩ := hl₁.push_ok hR.toLockstep hpush
      rw [finish_of_ok hcall', hpush']
      dsimp only
      rw [if_neg hgoes, if_neg hmoves]
      exact ih hl₂

variable {ρ : Type} [Register CompressState ρ]

theorem run_lockstep (hR : Host.Lockstep R E) (s : Stream Encoder) (staging : Staging)
    (state : ρ) (hl : l.Alike R l') :
    Same (Same (Line.Alike R)) (run s staging l state) (run s staging l' state) ∨
      ∃ e, (run s staging l state).1 = .error e ∧
        E e (run s staging l state).2.2.world (run s staging l' state).2.2.world := by
  fun_induction run s staging l state generalizing l' with
  | case1 s staging l state e l₁ hpull =>
      rcases hl.pull_error hR.toLockstep hpull with ⟨l₁', hpull', hl₁⟩ | hE
      · rw [run_eq, hpull']
        exact .inl ⟨rfl, rfl, hl₁⟩
      · exact .inr ⟨_, rfl, ((hR.keeps _ _).line _).encode s staging state (hE _)⟩
  | case2 s staging l state r l₁ hpull state' hcount result l₂ =>
      rename_i hfinish
      obtain ⟨l₁', hpull', hl₁⟩ := hl.pull_ok hR.toLockstep hpull
      rw [run_eq, hpull']
      dsimp only
      rw [if_pos hcount]
      rcases finish_lockstep hR s hl₁ with hsame | ⟨e, he, hE⟩
      · obtain ⟨l₂', hfinish', hl₂⟩ := hsame.of_eq hfinish
        rw [hfinish']
        exact .inl ⟨rfl, rfl, hl₂⟩
      · rw [hfinish] at he hE
        exact .inr ⟨e, he, hE⟩
  | case3 s staging l state r l₁ hpull state' hcount staging' e l₂ =>
      rename_i hchunk
      obtain ⟨l₁', hpull', hl₁⟩ := hl.pull_ok hR.toLockstep hpull
      rcases encodeChunk_lockstep hR s (staging'.chunk r.count)
        (hl₁.note hR.toLockstep (.encodingChunk r.count)) with hsame | hgives
      · obtain ⟨l₂', hchunk', hl₂⟩ := hsame.of_eq hchunk
        rw [run_eq s staging l', hpull']
        dsimp only
        rw [if_neg hcount, hchunk']
        exact .inl ⟨rfl, rfl, hl₂⟩
      · have hE := hgives.of_error hchunk
        exact .inr ⟨e, rfl, ((hR.keeps _ _).line _).encode_rest state hpull' hcount hE⟩
  | case4 s staging l state r l₁ hpull state' hcount staging' s' l₂ =>
      rename_i hchunk ih
      obtain ⟨l₁', hpull', hl₁⟩ := hl.pull_ok hR.toLockstep hpull
      rcases encodeChunk_lockstep hR s (staging'.chunk r.count)
        (hl₁.note hR.toLockstep (.encodingChunk r.count)) with hsame | hgives
      · obtain ⟨l₂', hchunk', hl₂⟩ := hsame.of_eq hchunk
        rw [run_eq s staging l', hpull']
        dsimp only
        rw [if_neg hcount, hchunk']
        exact ih hl₂
      · exact (hgives.of_ok hchunk).elim

end Encoding

/-! ## Runs that have their memory -/

namespace Compressor

variable {ν ν' ρ : Type} [Host ν] [Host ν'] [Register CompressState ρ]
variable {R : ν → ν' → Prop} {E : Error → ν → ν' → Prop}

/--
A run that has its coder and its buffers takes of its session the encoder and what the buffer
for its input holds.
-/
theorem emit_lockstep (hR : Host.Lockstep R E) {c : Compressor ω} {c' : Compressor ω'}
    (hoptions : c.options = c'.options) {s : CompressSession ω}
    {s' : CompressSession ω'} (hstream : s.engine.stream = s'.engine.stream)
    (hinput : s.input.buffer.bytes = s'.input.buffer.bytes) (state : ρ) {w : ν} {w' : ν'}
    (hw : R w w') :
    Same (Same (Line.Alike R)) (c.emit s state w) (c'.emit s' state w') ∨
      ∃ e, (c.emit s state w).1 = .error e ∧
        E e (c.emit s state w).2.2.world (c'.emit s' state w').2.2.world := by
  have hl := Line.alike_start hw
  rw [emit, emit, ← hoptions, ← hstream, ← hinput]
  by_cases hformat : c.options.format ≠ .lzma
  · rw [if_pos hformat, if_pos hformat]
    exact .inl ⟨rfl, rfl, hl⟩
  · rw [if_neg hformat, if_neg hformat]
    dsimp only
    have hnote := hl.note hR.toLockstep (.compressionStarting c.options.header c.options.level)
    rcases hpush : (({ world := w } : Line ν).note
      (.compressionStarting c.options.header c.options.level)).push c.options.header.toBytes with
      ⟨e | _, l⟩
    · rcases hnote.push_error hR.toLockstep hpush with ⟨l', hpush', hl'⟩ | hE
      · rw [hpush']
        exact .inl ⟨rfl, rfl, hl'⟩
      · refine .inr ⟨e, rfl, ?_⟩
        generalize (({ world := w' } : Line ν').note
          (.compressionStarting c.options.header c.options.level)).push
            c.options.header.toBytes = p at hE ⊢
        obtain ⟨_ | _, l'⟩ := p
        · exact hE
        · exact ((hR.keeps _ _).line _).encode _ _ _ hE
    · obtain ⟨l', hpush', hl'⟩ := hnote.push_ok hR.toLockstep hpush
      rw [hpush']
      exact Encoding.run_lockstep hR _ _ _ hl'

theorem emit_alike [Channel ω] [Channel ω'] {R : ω → ω' → Prop} (hR : Channel.Alike R)
    {c : Compressor ω} {c' : Compressor ω'} (hoptions : c.options = c'.options)
    {s : CompressSession ω} {s' : CompressSession ω'} (hstream : s.engine.stream = s'.engine.stream)
    (hinput : s.input.buffer.bytes = s'.input.buffer.bytes) (state : ρ) {w : ω} {w' : ω'}
    (hw : R w w') : Same (Same (Line.Alike R)) (c.emit s state w) (c'.emit s' state w') := by
  rcases emit_lockstep hR.lockstep.host hoptions hstream hinput state hw with
    hsame | ⟨e, -, hnever⟩
  · exact hsame
  · exact hnever.elim

end Compressor

end Lzma
