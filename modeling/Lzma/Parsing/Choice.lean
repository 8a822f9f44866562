import Lzma.Parsing.Draft

/-!
# The symbols for some data

Any symbols that spell the data will do; which ones are chosen decides only how
short the payload is. `symbolsFor` chooses them step by step, with all of the data
in view. Main statement: they spell the data (`spells_symbolsFor`).
-/

namespace Lzma

/-- Whether some symbols make a payload that stands for some data. -/
def Spells (dictSize : Nat) (symbols : List Symbol) (data : List UInt8) : Prop :=
  WellFormed dictSize symbols ∧ expand symbols = data

/-- The symbols that a draft goes on with. -/
def Draft.symbols (t : Settings) (data : Array UInt8) (d : Draft) : List Symbol :=
  if d.position < data.size then (d.step t data).1 :: symbols t data (d.step t data).2
  else []
termination_by data.size - d.position
decreasing_by
  have hpos := d.length_step_pos t data
  rw [d.position_step t data]
  omega

def symbolsFor (t : Settings) (data : Array UInt8) : List Symbol :=
  (Draft.start t).symbols t data

/-- From a draft that follows the data on, the symbols fit and spell the rest. -/
theorem Draft.admits_symbols {t : Settings} {data : Array UInt8} {d : Draft}
    (h : d.transcript.past.Follows data) :
    d.transcript.past.Admits t.dictSize (d.symbols t data) ∧
      ((d.symbols t data).foldl Past.append d.transcript.past).produced = data := by
  fun_induction symbols t data d with
  | case1 d hlt ih =>
      obtain ⟨hfits, hfollows⟩ := follows_step h hlt
      obtain ⟨hadmits, hproduced⟩ := ih hfollows
      exact ⟨⟨hfits, hadmits⟩, hproduced⟩
  | case2 d hge =>
      refine ⟨trivial, Array.ext ?_ fun i hi hi' => ?_⟩
      · exact Nat.le_antisymm h.1 (Nat.le_of_not_lt hge)
      · have hi : i < d.transcript.past.produced.size := hi
        have heq := h.2 i hi
        rwa [Array.getD, Array.getD, dif_pos hi, dif_pos hi'] at heq

theorem spells_symbolsFor (t : Settings) (data : Array UInt8) :
    Spells t.dictSize (symbolsFor t data) data.toList := by
  have h := @Draft.admits_symbols t data (.start t)
    ⟨Nat.zero_le _, fun i hi => absurd hi (Nat.not_lt_zero i)⟩
  exact ⟨h.1, congrArg Array.toList h.2⟩

end Lzma
