import Lzma.Coder.Engine

/-!
# Offering bytes in order

A caller that has bytes for a coder offers them piece by piece: so many of those that come
next, with so much room for what the coder gives. What was not taken stays at hand, so the next
call may offer it again, or more than that, or less, or nothing. Any sequence of calls in which
the bytes keep their order is a list of such offers.

`Feeding` is a coder in the course of this. It keeps what its caller sees of the calls: what
was taken so far, what was given, and what is still to be offered. A call that fails moves
nothing there.
-/

namespace Lzma

/-- A call that offers so many of the bytes that come next, with so much room. -/
structure Offer where
  count : Nat
  room : Nat

/-- A coder that was offered bytes in order. -/
structure Feeding (κ : Type) where
  stream : Stream κ
  /-- The bytes that were not taken yet. -/
  left : List UInt8
  consumed : List UInt8 := []
  written : List UInt8 := []

namespace Feeding

variable {κ : Type}

/-- What a call is offered. -/
def slice (x : Feeding κ) (o : Offer) : List UInt8 := x.left.take o.count

/-- What a call has to go by: all that was taken before it, and what it is offered. -/
def inHand (x : Feeding κ) (o : Offer) : List UInt8 := x.consumed ++ x.slice o

theorem inHand_within (x : Feeding κ) (o : Offer) : x.inHand o <+: x.consumed ++ x.left := by
  rw [inHand, List.prefix_append_right_inj]
  exact List.take_prefix _ _

variable [Coder κ] (x : Feeding κ) (o : Offer)

def offer : Feeding κ :=
  match x.stream.call (.feed (x.slice o)) o.room with
  | ⟨.error _, _, _, stream⟩ => { x with stream }
  | ⟨.ok _, used, output, stream⟩ =>
      ⟨stream, x.left.drop used, x.consumed ++ x.left.take used, x.written ++ output⟩

def offers (os : List Offer) : Feeding κ := os.foldl offer x

/-- A coder that was not called yet, and all that it is going to be offered. -/
def start (coder : κ) (bytes : List UInt8) : Feeding κ := { stream := { coder }, left := bytes }

/-- A call moved nothing that its caller can see. -/
structure Still : Prop where
  consumed : (x.offer o).consumed = x.consumed
  written : (x.offer o).written = x.written

theorem offers_append (os more : List Offer) :
    x.offers (os ++ more) = (x.offers os).offers more := List.foldl_append

theorem offers_concat (os : List Offer) : x.offers (os ++ [o]) = (x.offers os).offer o :=
  x.offers_append os [o]

theorem consumed_append_left_offer : (x.offer o).consumed ++ (x.offer o).left =
    x.consumed ++ x.left := by
  rw [offer]
  split
  · rfl
  · rw [List.append_assoc, List.take_append_drop]

/-- Nothing is lost, and nothing is taken twice. -/
theorem consumed_append_left (os : List Offer) :
    (x.offers os).consumed ++ (x.offers os).left = x.consumed ++ x.left := by
  induction os generalizing x with
  | nil => rfl
  | cons o os ih => exact (ih (x.offer o)).trans (x.consumed_append_left_offer o)

end Feeding

/-! ## The calls of an encoder -/

namespace Feeding

theorem offer_encode (x : Feeding Encoder) (o : Offer) :
    x.offer o =
      match x.stream.encode (x.slice o) o.room with
      | (.error _, stream) => { x with stream }
      | (.ok moved, stream) =>
          ⟨stream, x.left.drop moved.used, x.consumed ++ x.left.take moved.used,
            x.written ++ moved.output⟩ := by
  rw [offer, Stream.encode, Stream.encodeCall]
  rcases x.stream.call (.feed (x.slice o)) o.room with ⟨_ | _, used, output, stream⟩ <;> rfl

end Feeding

end Lzma
