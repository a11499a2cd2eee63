/-
# Vector tables

The first two words of an image are the head of its vector table: the initial stack pointer and
the address of its reset handler.  The lowest bit of a handler's address selects the instruction
set and is not part of the place of its code.
-/
import StageZero.Machine

namespace StageZero

/-- The first words of an image's vector table. -/
structure VectorHeader where
  stackPointer : Word
  resetHandler : Word
deriving DecidableEq

namespace VectorHeader

/-- The place of the stack pointer in the table, in words. -/
def stackPointerIndex : UInt32 := 0

/-- The place of the reset handler in the table, in words. -/
def resetIndex : UInt32 := 1

/-- The length of the header in words. -/
def lengthWords : UInt32 := 2

/-- The handler is compact code: its lowest bit is set. -/
def isThumb (h : VectorHeader) : Bool := h.resetHandler &&& 1 == 1

/-- Where the code of the handler is. -/
def codeAddress (h : VectorHeader) : Address := ⟨h.resetHandler &&& ~~~ 1⟩

/-- Reads the head of the table at an address, the stack pointer first. -/
def read {σ : Type} [Machine σ] (table : Address) : Proc σ VectorHeader := do
  let stackPointer ← readWord (table.addWords stackPointerIndex)
  let resetHandler ← readWord (table.addWords resetIndex)
  return { stackPointer, resetHandler }

end VectorHeader

end StageZero
