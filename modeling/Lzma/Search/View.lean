/-!
# Views of data

Data that is still growing is looked at only as far as it cannot change any more.
A `View` is what can be seen of some data up to a bound. Two arrays that agree up
to there make the same view, whatever lies behind it (`View.upTo_append`), so what
is made from a view does not depend on what is still to come.
-/

namespace Lzma

/-- Some data, and how much of it is in sight. -/
structure Sight where
  data : Array UInt8
  bound : Nat

namespace Sight

def size (s : Sight) : Nat := min s.data.size s.bound

/-- The byte at a position; 0 where there is none in sight. -/
@[inline] def byte (s : Sight) (position : Nat) : UInt8 :=
  if position < s.bound then s.data.getD position 0 else 0

/-- The same can be seen. -/
instance alike : Setoid Sight where
  r s t := s.size = t.size ∧ s.byte = t.byte
  iseqv := ⟨fun _ => ⟨rfl, rfl⟩, fun h => ⟨h.1.symm, h.2.symm⟩,
    fun h h' => ⟨h.1.trans h'.1, h.2.trans h'.2⟩⟩

end Sight

/-- What can be seen of some data. -/
def View : Type := Quotient Sight.alike

namespace View

/-- What can be seen of some data up to a bound. -/
def upTo (data : Array UInt8) (bound : Nat) : View := Quotient.mk Sight.alike ⟨data, bound⟩

def size (v : View) : Nat := Quotient.lift Sight.size (fun _ _ (h : _ ∧ _) => h.1) v

/-- The byte at a position; 0 where there is none in sight. -/
@[inline] def byte (v : View) (position : Nat) : UInt8 :=
  Quotient.lift (fun s : Sight => s.byte position)
    (fun _ _ (h : _ ∧ _) => congrFun h.2 position) v

@[simp] theorem size_upTo (data : Array UInt8) (bound : Nat) :
    (upTo data bound).size = min data.size bound := rfl

theorem byte_upTo {data : Array UInt8} {bound position : Nat} (h : position < bound) :
    (upTo data bound).byte position = data.getD position 0 := if_pos h

/-- What is added to the data out of sight makes no difference. -/
theorem upTo_append {data more : Array UInt8} {bound : Nat} (h : bound ≤ data.size) :
    upTo (data ++ more) bound = upTo data bound := by
  refine Quotient.sound ⟨?_, funext fun position => ?_⟩
  · simp only [Sight.size, Array.size_append]
    omega
  · simp only [Sight.byte]
    split
    · rw [Array.getD_eq_getD_getElem?, Array.getElem?_append_left (by omega),
        ← Array.getD_eq_getD_getElem?]
    · rfl

end View

end Lzma
