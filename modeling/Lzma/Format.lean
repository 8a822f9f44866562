/-!
# Containers

The raw payload is wrapped in a container. This library reads and writes one of
them; the other can be asked for, and a run that is asked for it says so.
-/

namespace Lzma

/-- The container a compression run is asked to write. Only one of them is written. -/
inductive Format where
  | lzip
  | lzma
  deriving DecidableEq, Repr

instance : Inhabited Format := ⟨.lzma⟩

def Format.text : Format → String
  | .lzip => "lzip"
  | .lzma => "lzma-alone"

end Lzma
