/-
# Faults

What stops a running procedure.  The work done before a fault stays done; how much of it a caller
gets to see depends on the machine.
-/
import StageZero.Address.Printer

namespace StageZero

/-- What stops a running procedure. -/
inductive Fault where
  /-- The length of a region that ends below its start was asked for. -/
  | underflow
  /-- A word was read that the machine does not have. -/
  | unmapped (a : Address)
  /-- A word was inspected, from outside the machine, that is not there. -/
  | absent (a : Address)
  /-- A memory access left the mapped ranges or was not aligned. -/
  | bus (a : Address)
deriving DecidableEq

/-- The wording of a fault. -/
def Fault.message : Fault → String
  | .underflow => "attempt to subtract with overflow"
  | .unmapped a => "read from unmapped " ++ a.render 16
  | .absent a => "no word at " ++ a.render 16
  | .bus a => "bus fault at " ++ a.render 16

end StageZero
