import Lzma.Channel.Exchange
import Lzma.Coder.Engine
import Lzma.Script.Tally

/-!
# Memory that follows a script

A `Ledger` counts what allocation callbacks hand out and get back. A
`GrantPolicy` says which requests are granted and how exactly. Together they
make an allocator for the memory of an `Exchange`.

The coders that run in such a world ask for a few pieces each (`Provident.frugal`).
-/

namespace Lzma

inductive GrantMode where
  | granting
  /-- One request of a certain size is refused. -/
  | refusing
  /-- One request of a certain size gets a byte too little. -/
  | shortening
  /-- Every request gets seven bytes too much. -/
  | lengthening
  /-- Every request within the budget makes the callback break down. -/
  | aborting
  deriving DecidableEq, Repr

/-- Which requests are granted. -/
structure GrantPolicy where
  mode : GrantMode := .granting
  /-- How many requests are granted at all. -/
  budget : Option Nat := none
  /-- The size that `refusing` and `shortening` are about. -/
  size : Nat := 0
  /-- Which request of that size they are about. -/
  index : Nat := 0

/-- What was handed out and what came back. -/
structure Ledger where
  allocs : Nat := 0
  frees : Nat := 0
  bytesOut : Nat := 0
  bytesBack : Nat := 0
  requests : List Nat := []

namespace Ledger

def asked (l : Ledger) (size : Nat) : Nat := l.requests.count size

/-- All that was handed out came back. -/
def balanced (l : Ledger) : Bool := l.allocs == l.frees

def live (l : Ledger) : Int := (l.bytesOut : Int) - (l.bytesBack : Int)

/-- A buffer of `length` bytes is handed out, and `counted` of them are counted. -/
def grant (l : Ledger) (length counted : Nat) : Except Denial Buffer × Ledger :=
  (.ok { address := l.allocs, size := length },
    { l with allocs := l.allocs + 1, bytesOut := l.bytesOut + counted })

/-- Answers a request. -/
def answer (p : GrantPolicy) (size : Nat) (l : Ledger) : Except Denial Buffer × Ledger :=
  let nth := l.asked size
  let l := { l with requests := size :: l.requests }
  let meant := size == p.size && nth == p.index
  if p.budget.any (· ≤ l.allocs) then (.error .refused, l)
  else match p.mode with
    | .aborting => (.error .aborted, l)
    | .refusing => if meant then (.error .refused, l) else l.grant size size
    | .shortening => if meant then l.grant (size - 1) (size - 1) else l.grant size size
    | .lengthening => l.grant (size + 7) size
    | .granting => l.grant size size

def takeBack (buffer : Buffer) (l : Ledger) : Ledger :=
  { l with frees := l.frees + 1, bytesBack := l.bytesBack + buffer.size }

end Ledger

/-- The callbacks of a policy over the memory of a larger world. -/
def GrantPolicy.allocator {σ τ : Type} (p : GrantPolicy) : Allocator (Exchange σ τ Ledger) :=
  .bind
    (some fun size x =>
      let (r, memory) := x.memory.answer p size
      (r, { x with memory }))
    (some fun buffer x => { x with memory := x.memory.takeBack buffer })

/-- How long a buffer a callback gives. -/
inductive GrantLength where
  | exact
  | half
  | lessOne
  | moreThree
  deriving DecidableEq, Repr

def GrantLength.apply : GrantLength → Nat → Nat
  | .exact, size => size
  | .half, size => size / 2
  | .lessOne, size => size - 1
  | .moreThree, size => size + 3

/-- A line in the log of a set of callbacks. -/
inductive CallbackEvent where
  | alloc (id : String) (size : Nat)
  | free (id : String) (length : Nat)
  deriving DecidableEq, Repr

/-- What a set of named callbacks has done. -/
structure CallbackLog where
  events : List CallbackEvent := []
  /-- How often each callback, by its serial number, has given memory. -/
  given : List (Nat × Nat) := []
  journal : List Event := []

instance : Journal CallbackLog where
  note event l := { l with journal := event :: l.journal }

namespace CallbackLog

/-- How often a callback has given memory. -/
def count (l : CallbackLog) (serial : Nat) : Nat := (l.given.lookup serial).getD 0

/-- An allocation callback with a log, a budget and a way to give wrong lengths. -/
def alloc (serial : Nat) (id : String) (budget : Option Nat) (length : GrantLength) (fill : UInt8) :
    AllocCallback CallbackLog := fun size l =>
  let l := { l with events := .alloc id size :: l.events }
  let count := l.count serial
  if budget.any (· ≤ count) then (.error .refused, l)
  else
    (.ok { size := length.apply size, fill },
      { l with given := (serial, count + 1) :: l.given })

/-- A release callback with a log. -/
def free (id : String) : FreeCallback CallbackLog := fun buffer l =>
  { l with events := .free id buffer.size :: l.events }

end CallbackLog

/-- The memory of a coder that asks for some pieces and leaves them all to its heap. -/
def Housekeeping.frugal (records workspace : List Nat) : Housekeeping where
  records := .pieces records
  workspace := .pieces workspace
  calls _ := none
  closing := .done true

theorem Housekeeping.provident_frugal {records workspace : List Nat}
    (hrecords : ∀ size ∈ records, Heap.padded size ≤ maxBufferSize)
    (hworkspace : ∀ size ∈ workspace, Heap.padded size ≤ maxBufferSize) :
    (frugal records workspace).Provident :=
  ⟨Usage.exacting_pieces hrecords, Usage.exacting_pieces hworkspace, fun _ => rfl, trivial⟩

/-- Coders that ask for their records, their dictionary and what comes with it. -/
instance Provident.frugal : Provident where
  decoder _ dictionary := .frugal [256, 512] [2 * Layout.size ⟨4, 0, 0⟩, dictionary]
  encoder o := .frugal [256, 512, 2 * Layout.size ⟨4, 0, 0⟩]
    [dictionarySize o.dictSize.toNat, 4 * dictionarySize o.dictSize.toNat, 1024]
  decoder_provident _ _ hle := by
    refine Housekeeping.provident_frugal (by decide) ?_
    simp only [List.forall_mem_cons, List.not_mem_nil, false_imp_iff, implies_true, and_true]
    refine ⟨by decide, ?_⟩
    rw [Heap.padded, heapAlignment, maxBufferSize]
    omega
  encoder_provident o := by
    have hlt := o.dictSize.toNat_lt
    refine Housekeeping.provident_frugal (by decide) ?_
    simp only [List.forall_mem_cons, List.not_mem_nil, false_imp_iff, implies_true, and_true]
    simp only [Heap.padded, heapAlignment, maxBufferSize, dictionarySize]
    omega

end Lzma
