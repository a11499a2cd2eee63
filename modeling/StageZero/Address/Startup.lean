/-
# Start-up addresses

The image to be started is named by the address of its vector table.  The vector base register
ignores the low seven bits of what is written to it, so such an address must be a multiple of
128; an address that is merely aligned is refused with a reason of its own.
-/
import StageZero.Address.Parser

namespace StageZero

/-- A vector table stands at a multiple of this many bytes. -/
def vectorTableAlign : UInt32 := 128

/-- Why a text does not name the vector table of an image. -/
inductive StartupError where
  | notANumber
  | misaligned
  | tableMisaligned
deriving DecidableEq

/-- The wording of a refused start-up address. -/
def StartupError.message : StartupError → String
  | .notANumber => "startup address is not a valid 32-bit number"
  | .misaligned => "startup address must be word-aligned"
  | .tableMisaligned => "startup address must be aligned to 128 bytes"

/-- The vector base register can hold the address unchanged. -/
def Address.HoldsTable (a : Address) : Prop := a.val % vectorTableAlign = 0

instance (a : Address) : Decidable a.HoldsTable := inferInstanceAs (Decidable (_ = _))

/-- **The start-up address that a text spells.** -/
def Address.startup (text : String) : Except StartupError Address :=
  match Address.parse text with
  | .ok a => if a.HoldsTable then .ok a else .error .tableMisaligned
  | .error .misaligned => .error .misaligned
  | .error _ => .error .notANumber

end StageZero
