/-
# Handing over to another image

Interrupts go off first, so that none is taken while the vectors change.  Then the head of the
image's table is read, the table is made the current one, and the image's reset handler gets the
machine, with its own stack.  The handler's address is passed on as it stands in the table, its
lowest bit included.
-/
import StageZero.VectorHeader

namespace StageZero

/-- **Starts the image whose vector table is at `table`.** -/
def chainLoad {σ : Type} [Machine σ] (table : Address) : Proc σ Empty := do
  Proc.act Machine.maskInterrupts
  let header ← VectorHeader.read table
  Proc.act (Machine.relocateVectors table)
  start header.stackPointer header.resetHandler

end StageZero
