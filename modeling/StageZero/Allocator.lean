/-
# Blocks that know their size

A caller of `allocate` gets a block of bytes and gives it back by its address alone.  So the size
of the whole allocation is kept in a header right before the block, eight bytes with the lowest
first, and `free` reads it there.

The memory behind it comes from an arena, which counts bytes and not much else: it grants a
request if that many bytes are left, and makes them zero.  Where it puts a grant is left open.  A
`Placement` is what it does with one request: it names a vacant place, one that is aligned, apart
from all that is out and not at address zero, or it has none.  Every request brings a placement of
its own, so an arena may choose by anything that happened before; `Placement.above` is one that
needs to look at nothing but what is out.
-/
import StageZero.Bytes

namespace StageZero.Allocator

/-! ## 1. The arena -/

/-- Every allocation and every block stands at a multiple of this many bytes. -/
def alignment : Nat := 8

/-- The bytes from `base` on, `size` of them. -/
structure Extent where
  base : Nat
  size : Nat
deriving DecidableEq

/-- Two extents have no byte in common. -/
def Extent.Apart (e f : Extent) : Prop := e.base + e.size ≤ f.base ∨ f.base + f.size ≤ e.base

instance (e f : Extent) : Decidable (e.Apart f) := inferInstanceAs (Decidable (_ ∨ _))

/-- A new extent can stand beside those that are out.  It never begins at address zero, since that
is how a caller is told that there is no place. -/
structure Vacant (out : List Extent) (e : Extent) : Prop where
  nonzero : 0 < e.base
  aligned : e.base % alignment = 0
  apart : ∀ f ∈ out, f.Apart e

/-- Where a request for some bytes goes, given the extents that are out: to a vacant place, or
nowhere. -/
structure Placement where
  place : List Extent → Nat → Option Nat
  vacant : ∀ {out n base}, place out n = some base → Vacant out ⟨base, n⟩

/-- The first byte above address zero and above all extents. -/
def ceiling : List Extent → Nat
  | [] => 1
  | e :: out => Nat.max (e.base + e.size) (ceiling out)

theorem ceiling_pos (out : List Extent) : 0 < ceiling out := by
  induction out with
  | nil => exact Nat.one_pos
  | cons e out ih => exact Nat.lt_of_lt_of_le ih (Nat.le_max_right _ _)

theorem le_ceiling {out : List Extent} {e : Extent} (h : e ∈ out) :
    e.base + e.size ≤ ceiling out := by
  induction out with
  | nil => cases h
  | cons f out ih =>
    rcases List.mem_cons.mp h with rfl | h
    · exact Nat.le_max_left _ _
    · exact Nat.le_trans (ih h) (Nat.le_max_right _ _)

/-- The lowest aligned address that is not below another one. -/
def alignUp (a : Nat) : Nat := (a + (alignment - 1)) / alignment * alignment

theorem le_alignUp (a : Nat) : a ≤ alignUp a := by
  simp only [alignUp, alignment]
  omega

/-- The lowest aligned place above everything that is out. -/
def Placement.above : Placement where
  place out _ := some (alignUp (ceiling out))
  vacant := by
    rintro out n _ ⟨⟩
    have hle := le_alignUp (ceiling out)
    exact ⟨Nat.lt_of_lt_of_le (ceiling_pos out) hle, Nat.mul_mod_left _ _,
      fun f hf => Or.inl (Nat.le_trans (le_ceiling hf) hle)⟩

/-- Memory that is granted piece by piece, up to a number of bytes. -/
structure Arena where
  capacity : Nat
  /-- How many bytes are granted and not given back. -/
  live : Nat := 0
  /-- The extents that are granted and not given back. -/
  out : List Extent := []
  memory : Bytes := .zeros

namespace Arena

/-- Grants `n` bytes of zeros, if that many are left and there is a place for them. -/
def grant (p : Placement) (n : Nat) (a : Arena) : Option (Nat × Arena) :=
  if n ≤ a.capacity - a.live then
    (p.place a.out n).map fun base =>
      (base,
        { a with
          live := a.live + n
          out := ⟨base, n⟩ :: a.out
          memory := a.memory.wipe base n })
  else none

/-- Takes back the `n` bytes that were granted at `base`. -/
def release (base n : Nat) (a : Arena) : Arena :=
  { a with live := a.live - n, out := a.out.filter (·.base != base) }

end Arena

/-! ## 2. Allocating and freeing -/

/-- What is asked of the arena. -/
structure Request where
  size : Nat
  align : Nat
deriving DecidableEq

/-- The length of a header in bytes. -/
def headerBytes : Nat := 8

/-- The largest request: rounded up to its alignment it still is a signed 64-bit number. -/
def maxRequest : Nat := 0x7ffffffffffffff8

/-- The request for a block, its header included.  There is none for a block of no bytes, nor for
one that is too large. -/
def Request.ofSize? (size : UInt64) : Option Request :=
  let total := size.toNat + headerBytes
  if size = 0 ∨ maxRequest < total then none else some ⟨total, alignment⟩

/-- **Allocates a block**, and returns its address.  The request is what reached the arena. -/
def allocate (p : Placement) (size : UInt64) (a : Arena) : Option Request × Option Nat × Arena :=
  match Request.ofSize? size with
  | none => (none, none, a)
  | some request =>
    match a.grant p request.size with
    | none => (some request, none, a)
    | some (base, a) =>
      (some request, some (base + headerBytes),
        { a with memory := a.memory.writeLE base headerBytes request.size })

/-- The header of the block at an address. -/
def header (block : Nat) (a : Arena) : Nat := a.memory.readLE (block - headerBytes) headerBytes

/-- **Gives a block back**; no block at all is ignored. -/
def free (block : Option Nat) (a : Arena) : Option Request × Arena :=
  match block with
  | none => (none, a)
  | some block =>
    let total := header block a
    (some ⟨total, alignment⟩, a.release (block - headerBytes) total)

end StageZero.Allocator
