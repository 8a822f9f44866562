import Lzma.Proofs.Handling
import Lzma.Script.Memory
import Mathlib.Data.List.Induction
import Mathlib.Data.List.Perm.Basic
import Mathlib.Data.List.Nodup

/-!
# Blocks go back to the binding they came from

Which callbacks are called is not to be seen in a world that knows nothing of bindings, so each
binding gets a number, and its callbacks write a book (`Allocator.booked`). The book tells buffers
apart by the place in it where they were handed out, which is what it calls the address of a
buffer; the callbacks themselves are given their own addresses, so the book has no part in what a
program does (`Holdings.Mirrors`).

What should be in the book is said by a `Plan`. It knows of a program which binding each value has
at which time, and nothing of callbacks. Against that the invariant is `Holdings.Sound`: who was
asked is who the plan says, and what was handed out is what was taken back by the same binding and
what is still out, with nothing twice.
-/

namespace Lzma

/-! ## The book -/

/-- A call of a callback, with the number of its binding. -/
inductive Entry where
  | asked (binding size : Nat) (answer : Except Denial Buffer)
  | returned (binding : Nat) (buffer : Buffer)

/-- A world with a book of the calls of callbacks. -/
structure Booked (ω : Type) where
  world : ω
  book : List Entry := []

namespace Booked

variable {ω : Type}

instance [Journal ω] : Journal (Booked ω) where
  note event t := { t with world := Journal.note event t.world }

/-- The address that a buffer had when it was handed out there. -/
def address (t : Booked ω) (place : Nat) : Nat :=
  match t.book[place]? with
  | some (.asked _ _ (.ok buffer)) => buffer.address
  | _ => place

end Booked

/-- A buffer as the book knows it. -/
def Buffer.placed (b : Buffer) (place : Nat) : Buffer := { b with address := place }

/-- The allocator with callbacks that write the book. -/
def Allocator.booked {ω : Type} (binding : Nat) (a : Allocator ω) : Allocator (Booked ω) where
  alloc size t :=
    let (answer, world) := a.alloc size t.world
    (answer.map fun buffer => buffer.placed t.book.length,
      ⟨world, t.book ++ [.asked binding size answer]⟩)
  free buffer t :=
    ⟨a.free (buffer.placed (t.address buffer.address)) t.world,
      t.book ++ [.returned binding buffer]⟩
  custom := a.custom

theorem Allocator.booked_alloc {ω : Type} (bare : Allocator ω) (binding size : Nat)
    (t : Booked ω) :
    (bare.booked binding).alloc size t =
      ((bare.alloc size t.world).1.map fun buffer => buffer.placed t.book.length,
        ⟨(bare.alloc size t.world).2,
          t.book ++ [.asked binding size (bare.alloc size t.world).1]⟩) := rfl

namespace Entry

def ask : Entry → Option (Nat × Nat)
  | .asked binding size _ => some (binding, size)
  | .returned _ _ => none

/-- The buffer that was handed out at a place of the book, and by which binding. -/
def grant : Entry × Nat → Option (Nat × Nat)
  | (.asked binding _ (.ok _), place) => some (place, binding)
  | _ => none

/-- The buffer that was taken back, and by which binding. -/
def back : Entry → Option (Nat × Nat)
  | .returned binding buffer => some (buffer.address, binding)
  | .asked _ _ _ => none

end Entry

/-- Who was asked for how much. -/
def asks (book : List Entry) : List (Nat × Nat) := book.filterMap Entry.ask

/-- The buffers that were handed out, each by its place in the book, with their bindings. -/
def grants (book : List Entry) : List (Nat × Nat) := book.zipIdx.filterMap Entry.grant

/-- The buffers that were taken back, with the bindings that took them. -/
def returns (book : List Entry) : List (Nat × Nat) := book.filterMap Entry.back

/-- The buffers that are still out, in blocks, with the bindings that were asked for these. -/
def outstanding {ω : Type} (requests : List (Nat × Nat)) (blocks : List (Option (Block ω))) :
    List (Nat × Nat) :=
  (requests.zip blocks).filterMap fun entry =>
    entry.2.map fun b => (b.buffer.address, entry.1.1)

section

variable (book : List Entry) (e : Entry)

theorem asks_append (new : List Entry) : asks (book ++ new) = asks book ++ asks new :=
  List.filterMap_append

theorem returns_append (new : List Entry) : returns (book ++ new) = returns book ++ returns new :=
  List.filterMap_append

theorem grants_concat :
    grants (book ++ [e]) = grants book ++ (Entry.grant (e, book.length)).toList := by
  rw [grants, List.zipIdx_append, List.filterMap_append, grants, Nat.zero_add]
  cases h : Entry.grant (e, book.length) <;> simp [h]

/-- No buffer is handed out twice: it goes by its place in the book. -/
theorem nodup_grants : ((grants book).map Prod.fst).Nodup := by
  suffices h : ((grants book).map Prod.fst).Sublist (List.range book.length) from
    List.nodup_range.sublist h
  induction book using List.reverseRecOn with
  | nil => exact List.Sublist.refl _
  | append_singleton book e ih =>
      rw [grants_concat, List.map_append, List.length_append, List.length_singleton,
        List.range_succ]
      refine ih.append ?_
      cases e with
      | asked binding size answer =>
          cases answer with
          | error denial => exact List.nil_sublist _
          | ok buffer => exact List.Sublist.refl _
      | returned binding buffer => exact List.nil_sublist _

end

section

variable {ω : Type} {requests : List (Nat × Nat)} {blocks : List (Option (Block ω))}

theorem outstanding_append {requests' : List (Nat × Nat)} {blocks' : List (Option (Block ω))}
    (hlength : requests.length = blocks.length) :
    outstanding (requests ++ requests') (blocks ++ blocks') =
      outstanding requests blocks ++ outstanding requests' blocks' := by
  rw [outstanding, List.zip_append hlength, List.filterMap_append]
  rfl

/-- What stands beside a block, and what stands before and behind the two. -/
theorem exists_parts (hlength : requests.length = blocks.length) {k : Nat} {b : Block ω}
    (hb : slot blocks k = some b) :
    ∃ before request after before' after', requests = before ++ request :: after ∧
      blocks = before' ++ some b :: after' ∧ before.length = k ∧ before'.length = k := by
  have hlt := lt_of_slot hb
  have hlt' : k < requests.length := by omega
  have hentry : blocks[k] = some b := by
    rw [slot, List.getElem?_eq_getElem hlt] at hb
    exact hb
  refine ⟨requests.take k, requests[k], requests.drop (k + 1), blocks.take k,
    blocks.drop (k + 1), ?_, ?_, ?_, ?_⟩
  · rw [List.getElem_cons_drop, List.take_append_drop]
  · rw [← hentry, List.getElem_cons_drop, List.take_append_drop]
  · rw [List.length_take]
    omega
  · rw [List.length_take]
    omega

/-- To write into a block changes nothing about what is out. -/
theorem outstanding_set_some (hlength : requests.length = blocks.length) {k : Nat} {b b' : Block ω}
    (hb : slot blocks k = some b) (haddress : b'.buffer.address = b.buffer.address) :
    outstanding requests (blocks.set k (some b')) = outstanding requests blocks := by
  obtain ⟨before, request, after, before', after', rfl, rfl, rfl, hbefore⟩ :=
    exists_parts hlength hb
  rw [← hbefore, List.set_append_right _ _ (Nat.le_refl _), Nat.sub_self, List.set_cons_zero,
    outstanding_append hbefore.symm, outstanding_append hbefore.symm]
  simp [outstanding, haddress]

/-- A block that goes back is out no longer. -/
theorem outstanding_set_none (hlength : requests.length = blocks.length) {k : Nat} {b : Block ω}
    (hb : slot blocks k = some b) {binding size : Nat} (hk : requests[k]? = some (binding, size)) :
    (outstanding requests blocks).Perm
      ((b.buffer.address, binding) :: outstanding requests (blocks.set k none)) := by
  obtain ⟨before, request, after, before', after', rfl, rfl, rfl, hbefore⟩ :=
    exists_parts hlength hb
  rw [List.getElem?_append_right (Nat.le_refl _), Nat.sub_self, List.getElem?_cons_zero] at hk
  obtain rfl := Option.some.inj hk
  rw [← hbefore, List.set_append_right _ _ (Nat.le_refl _), Nat.sub_self, List.set_cons_zero,
    outstanding_append hbefore.symm, outstanding_append hbefore.symm]
  simp [outstanding]

end

/-! ## What should be in the book -/

/-- The callbacks that a value has: since which operation, and whether it was given any. -/
structure Binding where
  number : Nat
  custom : Bool
  deriving DecidableEq

/-- Which callbacks the values of a program have, and which ones were asked for its blocks. -/
structure Plan where
  values : List (Option Binding) := []
  /-- For each block, or each that did not come, the binding that was asked, and for how much. -/
  requests : List (Nat × Nat) := []
  time : Nat := 0

namespace Plan

variable {ω : Type}

def act (p : Plan) : Handling ω → Plan
  | .create => { p with values := p.values ++ [some ⟨p.time, false⟩] }
  | .bind k alloc free =>
      if (slot p.values k).isSome then
        { p with values := p.values.set k (some ⟨p.time, alloc.isSome || free.isSome⟩) }
      else p
  | .clone k =>
      match slot p.values k with
      | some binding => { p with values := p.values ++ [some binding] }
      | none => p
  | .discard k => { p with values := p.values.set k none }
  | .request k size =>
      match slot p.values k with
      | some binding => { p with requests := p.requests ++ [(binding.number, size)] }
      | none => p
  | .write _ _ _ | .release _ => p

def step (p : Plan) (op : Handling ω) : Plan := { p.act op with time := p.time + 1 }

def of (ops : List (Handling ω)) : Plan := ops.foldl step {}

theorem of_concat (ops : List (Handling ω)) (op : Handling ω) :
    of (ops ++ [op]) = (of ops).step op := by
  rw [of, List.foldl_append]
  rfl

end Plan

/-- An allocator whose callbacks write the book under the number of a binding. -/
def Binding.Bears {ω : Type} (b : Binding) (a : Allocator (Booked ω)) : Prop :=
  ∃ bare : Allocator ω, a = bare.booked b.number ∧ bare.custom = b.custom

/-- A release callback that writes the book under such a number. -/
def Booked.GoesTo {ω : Type} (binding : Nat) (free : FreeCallback (Booked ω)) : Prop :=
  ∃ bare : Allocator ω, free = (bare.booked binding).free

/-- What becomes of a request, made when the book had so many entries. -/
inductive Answered {ω : Type} (binding size place : Nat) :
    List Entry → Option (Block (Booked ω)) → Prop
  | denied (denial : Denial) :
      Answered binding size place [.asked binding size (.error denial)] none
  | short {buffer : Buffer} (h : buffer.size < size) :
      Answered binding size place
        [.asked binding size (.ok buffer), .returned binding (buffer.placed place)] none
  | granted {buffer : Buffer} {b : Block (Booked ω)} (h : size ≤ buffer.size)
      (hbuffer : b.buffer = (buffer.placed place).truncate size) :
      Answered binding size place [.asked binding size (.ok buffer)] (some b)

section

variable {ω : Type} [Journal ω]

/-- A request is answered in one of these ways, and its block goes where it came from. -/
theorem Allocator.answered (bare : Allocator ω) (binding size : Nat) (t : Booked ω) :
    ∃ new, ((bare.booked binding).request size t).2.book = t.book ++ new ∧
      Answered binding size t.book.length new ((bare.booked binding).request size t).1.toOption ∧
      ∀ b, ((bare.booked binding).request size t).1.toOption = some b →
        b.free = (bare.booked binding).free := by
  rw [request, booked_alloc]
  rcases bare.alloc size t.world with ⟨denial | buffer, world⟩
  · exact ⟨_, rfl, .denied denial, nofun⟩
  · dsimp only [Except.map]
    split <;> rename_i hsize
    · exact ⟨[_, _], List.append_assoc .., .short hsize, nofun⟩
    · refine ⟨_, rfl, .granted (Nat.le_of_not_lt hsize) rfl, ?_⟩
      intro b hb
      cases hb
      rfl

end

/-- What was too short has gone back at once. The entries stand in a book from some place on. -/
def ShortsReturn (place : Nat) (entries : List Entry) : Prop :=
  ∀ i binding size buffer, entries[i]? = some (.asked binding size (.ok buffer)) →
    buffer.size < size →
    entries[i + 1]? = some (.returned binding (buffer.placed (place + i)))

theorem ShortsReturn.append {place : Nat} {entries new : List Entry}
    (h : ShortsReturn place entries) (hnew : ShortsReturn (place + entries.length) new) :
    ShortsReturn place (entries ++ new) := by
  intro i binding size buffer hi hshort
  by_cases hold : i < entries.length
  · rw [List.getElem?_append_left hold] at hi
    exact getElem?_of_prefix (List.prefix_append _ _) (h i binding size buffer hi hshort)
  · obtain ⟨j, rfl⟩ := Nat.exists_eq_add_of_le (Nat.le_of_not_lt hold)
    rw [List.getElem?_append_right (by omega), Nat.add_sub_cancel_left] at hi
    rw [List.getElem?_append_right (by omega), Nat.add_assoc, Nat.add_sub_cancel_left,
      ← Nat.add_assoc]
    exact hnew j binding size buffer hi hshort

/-- What a program has, with the book that was written meanwhile, is as it was planned. -/
structure Holdings.Sound {ω : Type} (p : Plan) (s : Holdings (Booked ω)) : Prop where
  time : p.time = s.time
  values : TablesAlike Binding.Bears p.values s.values
  length : p.requests.length = s.blocks.length
  blocks (k : Nat) (b : Block (Booked ω)) : slot s.blocks k = some b →
    ∃ binding, p.requests[k]? = some (binding, b.size) ∧ Booked.GoesTo binding b.free
  asks : asks s.world.book = p.requests
  once : (grants s.world.book).Perm (returns s.world.book ++ outstanding p.requests s.blocks)
  short : ShortsReturn 0 s.world.book

namespace Answered

variable {ω : Type} {binding size place : Nat} {new : List Entry} {b : Block (Booked ω)}
  {block : Option (Block (Booked ω))}

/-- A block that comes is as long as it was asked to be. -/
theorem size_of_some (h : Answered binding size place new (some b)) : b.size = size := by
  cases h with
  | granted hsize hbuffer =>
      rw [Block.size, hbuffer]
      exact Nat.min_eq_right hsize

theorem asks (h : Answered binding size place new block) : asks new = [(binding, size)] := by
  cases h <;> rfl

theorem shortsReturn (h : Answered binding size place new block) : ShortsReturn place new := by
  intro j binding' size' buffer hj hlt
  cases h with
  | denied denial =>
      obtain _ | j := j
      · cases hj
      · cases hj
  | granted hsize hbuffer =>
      obtain _ | j := j
      · cases hj
        omega
      · cases hj
  | short hsize =>
      obtain _ | _ | j := j
      · cases hj
        rfl
      · cases hj
      · cases hj

/-- What is handed out is out, or has gone back. -/
theorem once {book : List Entry} {requests : List (Nat × Nat)}
    {blocks : List (Option (Block (Booked ω)))}
    (h : Answered binding size book.length new block) (hlength : requests.length = blocks.length)
    (hbook : (grants book).Perm (returns book ++ outstanding requests blocks)) :
    (grants (book ++ new)).Perm (returns (book ++ new) ++
      outstanding (requests ++ [(binding, size)]) (blocks ++ [block])) := by
  rw [returns_append, outstanding_append hlength]
  cases h with
  | denied denial =>
      have hgrants : grants (book ++ [.asked binding size (.error denial)]) = grants book := by
        rw [grants_concat]
        exact List.append_nil _
      have hreturns : returns [.asked binding size (.error denial)] = [] := rfl
      have hout : outstanding [(binding, size)] [(none : Option (Block (Booked ω)))] = [] := rfl
      rw [hgrants, hreturns, hout, List.append_nil, List.append_nil]
      exact hbook
  | @granted buffer b hsize hbuffer =>
      have hgrants : grants (book ++ [.asked binding size (.ok buffer)]) =
          grants book ++ [(book.length, binding)] := grants_concat _ _
      have hreturns : returns [.asked binding size (.ok buffer)] = [] := rfl
      have hout : outstanding [(binding, size)] [some b] = [(book.length, binding)] := by
        simp [outstanding, hbuffer, Buffer.truncate, Buffer.placed]
      rw [hgrants, hreturns, hout, List.append_nil, ← List.append_assoc]
      exact hbook.append_right _
  | @short buffer hsize =>
      have hgrants : grants (book ++ [.asked binding size (.ok buffer),
          .returned binding (buffer.placed book.length)]) =
            grants book ++ [(book.length, binding)] := by
        rw [← List.singleton_append, ← List.append_assoc, grants_concat, grants_concat]
        exact List.append_nil _
      have hreturns : returns [.asked binding size (.ok buffer),
          .returned binding (buffer.placed book.length)] = [(book.length, binding)] := rfl
      have hout : outstanding [(binding, size)] [(none : Option (Block (Booked ω)))] = [] := rfl
      rw [hgrants, hreturns, hout, List.append_nil, List.append_assoc]
      refine (hbook.append_right _).trans ?_
      rw [List.append_assoc]
      exact List.perm_append_comm.append_left _

end Answered

namespace Holdings

/-- A program whose callbacks write the book, in a world with nothing in it yet. -/
def booked {ω : Type} [Journal ω] (w : ω) (ops : List (Handling ω)) : Holdings (Booked ω) :=
  after Allocator.booked ⟨w, []⟩ ops

theorem booked_concat {ω : Type} [Journal ω] (w : ω) (ops : List (Handling ω))
    (op : Handling ω) :
    booked w (ops ++ [op]) = (booked w ops).step Allocator.booked op := after_concat _ _ _ _

namespace Sound

variable {ω : Type} {p : Plan} {s : Holdings (Booked ω)}

theorem start (w : ω) : Sound {} ({ world := ⟨w, []⟩ } : Holdings (Booked ω)) where
  time := rfl
  values := .start
  length := rfl
  blocks k b hb := by
    rw [slot, List.getElem?_nil] at hb
    cases hb
  asks := rfl
  once := List.Perm.refl _
  short i _ _ _ hi := by cases hi

/-- Only the values are other ones. -/
theorem of_values (h : Sound p s) {values : List (Option Binding)}
    {values' : List (Option (Allocator (Booked ω)))}
    (hvalues : TablesAlike Binding.Bears values values') :
    Sound { p with values } { s with values := values' } :=
  { h with values := hvalues }

theorem of_answered (h : Sound p s) {binding size : Nat} {new : List Entry}
    {block : Option (Block (Booked ω))} {world : Booked ω}
    (hbook : world.book = s.world.book ++ new)
    (hanswered : Answered binding size s.world.book.length new block)
    (hgoes : ∀ b, block = some b → Booked.GoesTo binding b.free) :
    Sound { p with requests := p.requests ++ [(binding, size)] }
      { s with blocks := s.blocks ++ [block], world } where
  time := h.time
  values := h.values
  length := by simp [h.length]
  blocks k b hb := by
    rw [slot_concat] at hb
    split at hb <;> rename_i hk
    · subst hb
      refine ⟨binding, ?_, hgoes b rfl⟩
      rw [hk, ← h.length, hanswered.size_of_some]
      exact List.getElem?_concat_length
    · obtain ⟨binding', hask, hgoes'⟩ := h.blocks k b hb
      exact ⟨binding', getElem?_of_prefix (List.prefix_append _ _) hask, hgoes'⟩
  asks := by
    dsimp only
    rw [hbook, asks_append, h.asks, hanswered.asks]
  once := by
    dsimp only
    rw [hbook]
    exact hanswered.once h.length h.once
  short := by
    dsimp only
    rw [hbook]
    refine h.short.append ?_
    rw [Nat.zero_add]
    exact hanswered.shortsReturn

/-- A block that goes back is taken by the binding that it came from. -/
theorem book_release (h : Sound p s) {k : Nat} {b : Block (Booked ω)}
    (hb : slot s.blocks k = some b) : ∃ binding, p.requests[k]? = some (binding, b.size) ∧
      (b.release s.world).book = s.world.book ++ [.returned binding b.buffer] := by
  obtain ⟨binding, hask, bare, hfree⟩ := h.blocks k b hb
  refine ⟨binding, hask, ?_⟩
  rw [Block.release, hfree]
  rfl

theorem of_released (h : Sound p s) {k : Nat} {b : Block (Booked ω)}
    (hb : slot s.blocks k = some b) :
    Sound p { s with blocks := s.blocks.set k none, world := b.release s.world } := by
  obtain ⟨binding, hask, hbook⟩ := h.book_release hb
  refine ⟨h.time, h.values, ?_, ?_, ?_, ?_, ?_⟩
  · simp [h.length]
  · intro j b' hb'
    rw [slot_set] at hb'
    split at hb'
    · cases hb'
    · exact h.blocks j b' hb'
  · dsimp only
    rw [hbook, asks_append, h.asks]
    exact List.append_nil _
  · have hgrants : grants (s.world.book ++ [.returned binding b.buffer]) =
        grants s.world.book := by
      rw [grants_concat]
      exact List.append_nil _
    have hreturns : returns [.returned binding b.buffer] = [(b.buffer.address, binding)] := rfl
    dsimp only
    rw [hbook, hgrants, returns_append, hreturns, List.append_assoc]
    exact h.once.trans ((outstanding_set_none h.length hb hask).append_left _)
  · dsimp only
    rw [hbook]
    refine h.short.append ?_
    intro i binding' size' buffer hi
    obtain _ | i := i
    · cases hi
    · cases hi

theorem of_written (h : Sound p s) {k : Nat} {b b' : Block (Booked ω)}
    (hb : slot s.blocks k = some b) (hfree : b'.free = b.free) (hsize : b'.size = b.size)
    (haddress : b'.buffer.address = b.buffer.address) :
    Sound p { s with blocks := s.blocks.set k (some b') } where
  time := h.time
  values := h.values
  length := by simp [h.length]
  blocks j b₁ hb₁ := by
    rw [slot_set] at hb₁
    split at hb₁ <;> rename_i hj
    · cases hb₁
      obtain ⟨rfl, -⟩ := hj
      obtain ⟨binding, hask, hgoes⟩ := h.blocks k b hb
      rw [hsize, hfree]
      exact ⟨binding, hask, hgoes⟩
    · exact h.blocks j b₁ hb₁
  asks := h.asks
  once := by
    dsimp only
    rw [outstanding_set_some h.length hb haddress]
    exact h.once
  short := h.short

variable [Journal ω]

theorem act (h : Sound p s) (op : Handling ω) :
    Sound (p.act op) (s.act Allocator.booked op) := by
  -- Only a request and a release write the book; what else is done leaves all that is counted.
  cases op with
  | create =>
      refine h.of_values (h.values.concat (.some ⟨.standard, ?_, rfl⟩))
      rw [h.time]
  | bind k alloc free =>
      have hbears : Binding.Bears ⟨p.time, alloc.isSome || free.isSome⟩
          ((Allocator.bind alloc free).booked s.time) := ⟨.bind alloc free, by rw [h.time], rfl⟩
      rw [Plan.act, Holdings.act]
      cases hslot : slot p.values k with
      | none =>
          rw [h.values.of_none hslot]
          exact h
      | some binding =>
          obtain ⟨a, hvalue, -⟩ := h.values.of_some hslot
          rw [hvalue]
          exact h.of_values (h.values.set k (.some hbears))
  | clone k =>
      rw [Plan.act, Holdings.act]
      cases hslot : slot p.values k with
      | none =>
          rw [h.values.of_none hslot]
          exact h
      | some binding =>
          obtain ⟨a, hvalue, hbears⟩ := h.values.of_some hslot
          rw [hvalue]
          exact h.of_values (h.values.concat (.some hbears))
  | discard k => exact h.of_values (h.values.set k .none)
  | request k size =>
      rw [Plan.act, Holdings.act]
      cases hslot : slot p.values k with
      | none =>
          rw [h.values.of_none hslot]
          exact h
      | some binding =>
          obtain ⟨a, hvalue, bare, rfl, -⟩ := h.values.of_some hslot
          obtain ⟨new, hbook, hanswered, hfree⟩ := bare.answered binding.number size s.world
          rw [hvalue]
          exact h.of_answered hbook hanswered fun b hb => ⟨bare, hfree b hb⟩
  | write k start bytes =>
      rw [Plan.act, Holdings.act]
      cases hslot : slot s.blocks k with
      | none => exact h
      | some b => exact h.of_written hslot rfl rfl rfl
  | release k =>
      rw [Plan.act, Holdings.act]
      cases hslot : slot s.blocks k with
      | none => exact h
      | some b => exact h.of_released hslot

theorem step (h : Sound p s) (op : Handling ω) :
    Sound (p.step op) (s.step Allocator.booked op) :=
  { h.act op with time := congrArg (· + 1) h.time }

end Sound

variable {ω : Type} [Journal ω]

theorem sound (w : ω) (ops : List (Handling ω)) : Sound (.of ops) (booked w ops) := by
  induction ops using List.reverseRecOn with
  | nil => exact .start w
  | append_singleton ops op ih =>
      rw [Plan.of_concat, booked_concat]
      exact ih.step op

end Holdings

/-! ## The book has no part in what is done -/

/-- A buffer of the program and the same one as the book knows it. -/
def Booked.Knows {ω : Type} (t : Booked ω) (b : Buffer) (b' : Buffer) : Prop :=
  b' = b.placed b'.address ∧ ∃ binding size buffer,
    t.book[b'.address]? = some (.asked binding size (.ok buffer)) ∧ buffer.address = b.address

/-- A block of a program and the same one where callbacks write a book. -/
structure Block.Mirrors {ω : Type} (t : Booked ω) (b : Block ω) (b' : Block (Booked ω)) : Prop where
  buffer : t.Knows b.buffer b'.buffer
  free : ∃ n, ∃ bare : Allocator ω, b.free = bare.free ∧ b'.free = (bare.booked n).free

/-- A program, and the same one where its callbacks write a book. -/
structure Holdings.Mirrors {ω : Type} (s : Holdings ω) (t : Holdings (Booked ω)) : Prop where
  world : t.world.world = s.world
  values : TablesAlike (fun a a' => ∃ n, a' = a.booked n) s.values t.values
  blocks : TablesAlike (Block.Mirrors t.world) s.blocks t.blocks

namespace Booked

variable {ω : Type} {t t' : Booked ω} {b b' : Buffer}

theorem Knows.later (h : t.Knows b b') (hbook : t.book <+: t'.book) : t'.Knows b b' := by
  obtain ⟨hsame, binding, size, buffer, hentry, haddress⟩ := h
  exact ⟨hsame, binding, size, buffer, getElem?_of_prefix hbook hentry, haddress⟩

/-- The callbacks get their buffers as they know them. -/
theorem Knows.placed (h : t.Knows b b') : b'.placed (t.address b'.address) = b := by
  obtain ⟨hsame, binding, size, buffer, hentry, haddress⟩ := h
  rw [address, hentry, hsame]
  dsimp only [Buffer.placed]
  rw [haddress]

end Booked

namespace Block.Mirrors

variable {ω : Type} {t t' : Booked ω} {b : Block ω} {b' : Block (Booked ω)}

theorem later (h : Mirrors t b b') (hbook : t.book <+: t'.book) : Mirrors t' b b' :=
  ⟨h.buffer.later hbook, h.free⟩

theorem size (h : Mirrors t b b') : b'.size = b.size := by
  have hsize := congrArg Buffer.size h.buffer.1
  exact hsize

theorem write (h : Mirrors t b b') (start : Nat) (bytes : List UInt8) :
    Mirrors t (b.write start bytes) (b'.write start bytes) := by
  obtain ⟨⟨hsame, hentry⟩, hfree⟩ := h
  refine ⟨⟨?_, hentry⟩, hfree⟩
  have hwrite := congrArg (Buffer.write · start bytes) hsame
  exact hwrite

theorem release (h : Mirrors t b b') :
    (b'.release t).world = b.release t.world ∧ t.book <+: (b'.release t).book := by
  obtain ⟨hknows, n, bare, hfree, hfree'⟩ := h
  rw [Block.release, Block.release, hfree, hfree']
  exact ⟨congrArg (bare.free · _) hknows.placed, List.prefix_append _ _⟩

end Block.Mirrors

/-- A request comes to the same whether a book is written or not. -/
theorem Allocator.mirrored {ω : Type} [Journal ω] (bare : Allocator ω) (n size : Nat)
    (t : Booked ω) :
    ((bare.booked n).request size t).2.world = (bare.request size t.world).2 ∧
      t.book <+: ((bare.booked n).request size t).2.book ∧
      Option.Rel (Block.Mirrors ((bare.booked n).request size t).2)
        (bare.request size t.world).1.toOption ((bare.booked n).request size t).1.toOption := by
  rw [request, request, booked_alloc]
  rcases bare.alloc size t.world with ⟨denial | buffer, world⟩
  · exact ⟨rfl, List.prefix_append _ _, .none⟩
  · have hentry : (t.book ++ [.asked n size (.ok buffer)])[t.book.length]? =
        some (.asked n size (.ok buffer)) := List.getElem?_concat_length
    dsimp only [Except.map]
    by_cases hsize : buffer.size < size
    · -- What goes back at once is in the book already, so its address is found there.
      have hknows : Booked.Knows ⟨Journal.note (.shortBlock size buffer.size) world,
          t.book ++ [.asked n size (.ok buffer)]⟩ buffer (buffer.placed t.book.length) :=
        ⟨rfl, n, size, buffer, hentry, rfl⟩
      rw [if_pos hsize, if_pos (show (buffer.placed t.book.length).size < size from hsize)]
      refine ⟨?_, ?_, .none⟩
      · exact congrArg (bare.free · _) hknows.placed
      · exact (List.prefix_append _ _).trans (List.prefix_append _ _)
    · rw [if_neg hsize, if_neg (show ¬(buffer.placed t.book.length).size < size from hsize)]
      exact ⟨rfl, List.prefix_append _ _,
        .some ⟨⟨rfl, n, size, buffer, hentry, rfl⟩, n, bare, rfl, rfl⟩⟩

namespace Holdings.Mirrors

variable {ω : Type} [Journal ω] {s : Holdings ω} {t : Holdings (Booked ω)}

theorem act (h : s.Mirrors t) (op : Handling ω) :
    (s.act (fun _ a => a) op).Mirrors (t.act Allocator.booked op) := by
  cases op with
  | create => exact ⟨h.world, h.values.concat (.some ⟨_, rfl⟩), h.blocks⟩
  | bind k alloc free =>
      rw [Holdings.act, Holdings.act]
      cases hslot : slot s.values k with
      | none =>
          rw [h.values.of_none hslot]
          exact h
      | some a =>
          obtain ⟨a', hvalue, -⟩ := h.values.of_some hslot
          rw [hvalue]
          exact ⟨h.world, h.values.set k (.some ⟨_, rfl⟩), h.blocks⟩
  | clone k =>
      rw [Holdings.act, Holdings.act]
      cases hslot : slot s.values k with
      | none =>
          rw [h.values.of_none hslot]
          exact h
      | some a =>
          obtain ⟨a', hvalue, hsame⟩ := h.values.of_some hslot
          rw [hvalue]
          exact ⟨h.world, h.values.concat (.some hsame), h.blocks⟩
  | discard k => exact ⟨h.world, h.values.set k .none, h.blocks⟩
  | request k size =>
      rw [Holdings.act, Holdings.act]
      cases hslot : slot s.values k with
      | none =>
          rw [h.values.of_none hslot]
          exact h
      | some a =>
          obtain ⟨_, hvalue, n, rfl⟩ := h.values.of_some hslot
          obtain ⟨hworld, hbook, hblock⟩ := a.mirrored n size t.world
          rw [h.world] at hworld hblock
          rw [hvalue]
          exact ⟨hworld, h.values,
            (h.blocks.imp fun _ _ hb => hb.later hbook).concat hblock⟩
  | write k start bytes =>
      rw [Holdings.act, Holdings.act]
      cases hslot : slot s.blocks k with
      | none =>
          rw [h.blocks.of_none hslot]
          exact h
      | some b =>
          obtain ⟨b', hblock, hb⟩ := h.blocks.of_some hslot
          rw [hblock]
          exact ⟨h.world, h.values, h.blocks.set k (.some (hb.write start bytes))⟩
  | release k =>
      rw [Holdings.act, Holdings.act]
      cases hslot : slot s.blocks k with
      | none =>
          rw [h.blocks.of_none hslot]
          exact h
      | some b =>
          obtain ⟨b', hblock, hb⟩ := h.blocks.of_some hslot
          obtain ⟨hworld, hbook⟩ := hb.release
          rw [h.world] at hworld
          rw [hblock]
          exact ⟨hworld, h.values, (h.blocks.imp fun _ _ hb => hb.later hbook).set k .none⟩

end Holdings.Mirrors

/-! ## Home -/

theorem Plan.requests_step {ω : Type} (p : Plan) (op : Handling ω) :
    p.requests <+: (p.step op).requests := by
  cases op with
  | create | discard | write | release => exact List.prefix_refl _
  | bind k alloc free =>
      rw [step, act]
      split <;> exact List.prefix_refl _
  | clone k =>
      rw [step, act]
      split <;> exact List.prefix_refl _
  | request k size =>
      rw [step, act]
      split
      · exact List.prefix_append _ _
      · exact List.prefix_refl _

/-- Who was asked for a block stays in the plan. -/
theorem Plan.requests_later {ω : Type} (ops later : List (Handling ω)) :
    (of ops).requests <+: (of (ops ++ later)).requests := by
  induction later using List.reverseRecOn with
  | nil => simp
  | append_singleton later op ih =>
      rw [← List.append_assoc, of_concat]
      exact ih.trans (requests_step _ op)

namespace Holdings

variable {ω : Type} [Journal ω] (w : ω) (ops : List (Handling ω))

/-- The program with callbacks as they were given to it. -/
def plain : Holdings ω := after (fun _ a => a) w ops

theorem mirrors : (plain w ops).Mirrors (booked w ops) := by
  induction ops using List.reverseRecOn with
  | nil => exact ⟨rfl, .start, .start⟩
  | append_singleton ops op ih =>
      rw [plain, after_concat, booked_concat]
      have hact := ih.act op
      exact ⟨hact.world, hact.values, hact.blocks⟩

/-- As long as nobody gives it back a block stays where it is. -/
theorem block_stays {w : ω} {ops : List (Handling ω)} (later : List (Handling ω)) {k : Nat}
    {b : Block (Booked ω)} (hb : slot (booked w ops).blocks k = some b)
    (hlater : Handling.release k ∉ later) :
    ∃ b', slot (booked w (ops ++ later)).blocks k = some b' ∧ b'.free = b.free ∧
      b'.size = b.size ∧ b'.buffer.address = b.buffer.address := by
  induction later using List.reverseRecOn with
  | nil =>
      rw [List.append_nil]
      exact ⟨b, hb, rfl, rfl, rfl⟩
  | append_singleton later op ih =>
      rw [List.mem_append, List.mem_singleton, not_or] at hlater
      obtain ⟨hlater, hop⟩ := hlater
      obtain ⟨b₁, hb₁, hfree₁, hsize₁, haddress₁⟩ := ih hlater
      obtain ⟨b₂, hb₂, hfree₂, hsize₂, haddress₂⟩ := act_block Allocator.booked
        (booked w (ops ++ later)) op hb₁ fun heq => hop heq.symm
      rw [← List.append_assoc, booked_concat]
      exact ⟨b₂, hb₂, hfree₂.trans hfree₁, hsize₂.trans hsize₁, haddress₂.trans haddress₁⟩

/-- To give a block back is to hand its buffer to the binding that was asked for it. -/
theorem release_books {w : ω} {ops : List (Handling ω)} {k : Nat} {b : Block (Booked ω)}
    (hb : slot (booked w ops).blocks k = some b) :
    ∃ binding, (Plan.of ops).requests[k]? = some (binding, b.size) ∧
      (booked w (ops ++ [.release k])).world.book =
        (booked w ops).world.book ++ [.returned binding b.buffer] ∧
      slot (booked w (ops ++ [.release k])).blocks k = none := by
  obtain ⟨binding, hask, hbook⟩ := (sound w ops).book_release hb
  refine ⟨binding, hask, ?_, ?_⟩
  · rw [booked_concat, step, act, hb]
    exact hbook
  · rw [booked_concat, step, act, hb]
    dsimp only
    rw [slot_set, if_pos ⟨rfl, lt_of_slot hb⟩]

/-- A request is made of the binding that the value has at the time. -/
theorem request_books {w : ω} {ops : List (Handling ω)} {k size : Nat} {binding : Binding}
    (hvalue : slot (Plan.of ops).values k = some binding) :
    ∃ new block,
      (booked w (ops ++ [.request k size])).blocks = (booked w ops).blocks ++ [block] ∧
      (booked w (ops ++ [.request k size])).world.book = (booked w ops).world.book ++ new ∧
      Answered binding.number size (booked w ops).world.book.length new block := by
  obtain ⟨a, hslot, bare, rfl, -⟩ := (sound w ops).values.of_some hvalue
  obtain ⟨new, hbook, hanswered, -⟩ :=
    bare.answered binding.number size (booked w ops).world
  rw [booked_concat, step, act, hslot]
  exact ⟨new, _, rfl, hbook, hanswered⟩

/--
What becomes of the blocks of a program. The book is kept beside the program and has no part in
what it does. What a binding handed out, each buffer being in the book by a place of its own, is
what it has taken back and what is still out in blocks that it was asked for.
-/
structure Homing : Prop where
  mirrors : (plain w ops).Mirrors (booked w ops)
  /-- A value tells whether its last binding was given any callback. -/
  custom (k : Nat) : (slot (plain w ops).values k).map Allocator.custom =
    (slot (Plan.of ops).values k).map Binding.custom
  /-- A block has the size that was asked for. -/
  size (k : Nat) (b : Block ω) : slot (plain w ops).blocks k = some b →
    ∃ binding, (Plan.of ops).requests[k]? = some (binding, b.size)
  /-- It is the bindings of the time that were asked. -/
  asks : asks (booked w ops).world.book = (Plan.of ops).requests
  distinct : ((grants (booked w ops).world.book).map Prod.fst).Nodup
  once : (grants (booked w ops).world.book).Perm (returns (booked w ops).world.book ++
    outstanding (Plan.of ops).requests (booked w ops).blocks)
  short : ShortsReturn 0 (booked w ops).world.book
  request (k size : Nat) (binding : Binding) : slot (Plan.of ops).values k = some binding →
    ∃ new block,
      (booked w (ops ++ [.request k size])).blocks = (booked w ops).blocks ++ [block] ∧
      (booked w (ops ++ [.request k size])).world.book = (booked w ops).world.book ++ new ∧
      Answered binding.number size (booked w ops).world.book.length new block
  /-- Wherever a program goes with a block, the binding that was asked for it takes it back. -/
  release (later : List (Handling ω)) (k : Nat) (b : Block (Booked ω)) :
    slot (booked w ops).blocks k = some b → .release k ∉ later →
    ∃ binding b', (Plan.of ops).requests[k]? = some (binding, b.size) ∧
      slot (booked w (ops ++ later)).blocks k = some b' ∧ b'.size = b.size ∧
      b'.buffer.address = b.buffer.address ∧
      (booked w (ops ++ later ++ [.release k])).world.book =
        (booked w (ops ++ later)).world.book ++ [.returned binding b'.buffer] ∧
      slot (booked w (ops ++ later ++ [.release k])).blocks k = none
  /-- Nobody is called but for a value to be asked or a block to be given back. -/
  quiet (op : Handling ω) :
    (∀ k size, slot (Plan.of ops).values k ≠ none → op ≠ .request k size) →
    (∀ k, slot (booked w ops).blocks k ≠ none → op ≠ .release k) →
    (booked w (ops ++ [op])).world = (booked w ops).world

end Holdings

/-- Whatever a program does with its allocators and blocks, blocks go home. -/
theorem blocks_go_home {ω : Type} [Journal ω] (w : ω) (ops : List (Handling ω)) :
    Holdings.Homing w ops := by
  have hsound := Holdings.sound w ops
  have hmirrors := Holdings.mirrors w ops
  refine ⟨hmirrors, ?_, ?_, hsound.asks, nodup_grants _, hsound.once, hsound.short,
    fun k size binding hvalue => Holdings.request_books hvalue, ?_, ?_⟩
  · intro k
    have hplain := hmirrors.values.map_eq (f := Allocator.custom) (g := Allocator.custom) (by
      rintro a _ ⟨n, rfl⟩
      rfl) k
    have hplan := hsound.values.map_eq (f := Binding.custom) (g := Allocator.custom) (by
      rintro binding _ ⟨bare, rfl, hcustom⟩
      exact hcustom.symm) k
    rw [hplain, hplan]
  · intro k b hb
    obtain ⟨b', hb', hsame⟩ := hmirrors.blocks.of_some hb
    obtain ⟨binding, hask, -⟩ := hsound.blocks k b' hb'
    rw [hsame.size] at hask
    exact ⟨binding, hask⟩
  · intro later k b hb hlater
    obtain ⟨b', hb', -, hsize, haddress⟩ := Holdings.block_stays later hb hlater
    obtain ⟨binding, hask, hbook, hgone⟩ := Holdings.release_books hb'
    obtain ⟨binding', hask', -⟩ := hsound.blocks k b hb
    have hsame := getElem?_of_prefix (Plan.requests_later ops later) hask'
    rw [hask, hsize] at hsame
    cases hsame
    exact ⟨binding, b', hask', hb', hsize, haddress, hbook, hgone⟩
  · intro op hrequest hrelease
    rw [Holdings.booked_concat]
    refine Holdings.act_world _ _ op (fun k size hslot => hrequest k size ?_) hrelease
    exact mt hsound.values.of_none hslot

/--
A value is bound anew while a block of its first binding is out, and so is a copy of it. The first
binding gives too much, the second one too little and has no callback to take it back.
-/
theorem blocks_go_home_of_rebound :
    let ops : List (Handling CallbackLog) :=
      [.create, .bind 0 (some (CallbackLog.alloc 0 "first" none .moreThree 0))
        (some (CallbackLog.free "first")), .request 0 8,
       .bind 0 (some (CallbackLog.alloc 1 "second" none .half 0)) none, .clone 0, .request 1 8,
       .bind 1 none none, .discard 0, .release 0]
    Holdings.Homing {} ops ∧
      (Holdings.plain {} ops).world.events =
        [.free "first" 8, .alloc "second" 8, .alloc "first" 8] ∧
      grants (Holdings.booked {} ops).world.book = [(0, 1), (1, 3)] ∧
      returns (Holdings.booked {} ops).world.book = [(1, 3), (0, 1)] ∧
      (slot (Holdings.plain {} ops).values 1).map Allocator.custom = some false := by
  intro ops
  exact ⟨blocks_go_home _ ops, rfl, rfl, rfl, rfl⟩

end Lzma
