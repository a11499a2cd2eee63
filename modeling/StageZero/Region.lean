/-
# Regions

A region is the half-open range of addresses from `start` up to `stop`.  A region may be built
from bounds that are known to be good (`Region.ofBounds`, which checks them) or taken as it comes,
so nothing is assumed of its bounds: they may be misaligned, and `stop` may lie below `start`.
Asking such an inverted region for its length is a fault.

The words of a region are numbered from its start.  A last part of a region that is shorter than
a word is not one of its words.
-/
import StageZero.Address
import StageZero.Error
import StageZero.Fault

namespace StageZero

/-- The addresses from `start` up to, and without, `stop`. -/
structure Region where
  start : Address
  stop : Address
deriving DecidableEq

namespace Region

/-- **The region with these bounds, if they are aligned and in order.**  Misaligned bounds are
reported first. -/
def ofBounds (start stop : Address) : Except Error Region :=
  if ¬ start.Aligned ∨ ¬ stop.Aligned then .error .misaligned
  else if stop.val < start.val then .error .inverted
  else .ok ⟨start, stop⟩

/-- Checks the bounds of a region. -/
def check (r : Region) : Except Error Region := ofBounds r.start r.stop

/-- A region is empty when its bounds are equal. -/
def isEmpty (r : Region) : Bool := r.start = r.stop

/-- The number of whole words in a region.  The subtraction is checked for overflow, so a region that
ends below its start has no length. -/
def lengthWords (r : Region) : Except Fault UInt32 :=
  if r.stop.val < r.start.val then .error .underflow
  else .ok ((r.stop.val - r.start.val) / wordBytes)

/-- The addresses of the first `n` words from `a` on. -/
def wordsFrom (a : Address) : Nat → List Address
  | 0 => []
  | n + 1 => a :: wordsFrom (a.addWords 1) n

/-- The addresses of the first words of a region, at most `limit` of them. -/
def firstWords (r : Region) (limit : Nat) : Except Fault (List Address) :=
  r.lengthWords.map fun n => wordsFrom r.start (if n.toNat < limit then n.toNat else limit)

/-- **The addresses of the words of a region, in ascending order.** -/
def words (r : Region) : Except Fault (List Address) :=
  r.lengthWords.map fun n => wordsFrom r.start n.toNat

@[simp] theorem length_wordsFrom (a : Address) (n : Nat) : (wordsFrom a n).length = n := by
  induction n generalizing a with
  | zero => rfl
  | succ n ih => simp [wordsFrom, ih]

end Region

/-- A region as somebody asks for it: taken as it comes, or with its bounds checked. -/
structure Region.Draft where
  region : Region
  checked : Bool
deriving DecidableEq

/-- The region of a draft, or why it is refused. -/
def Region.Draft.build (d : Region.Draft) : Except Error Region :=
  if d.checked then d.region.check else .ok d.region

end StageZero
