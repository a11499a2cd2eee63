/-
# Refusals

Why an address or a memory layout is refused before anything is done with it.  A refusal is a
value the caller gets back; what can go wrong while a machine is running is a `Fault`.
-/
namespace StageZero

/-- Why an address or a layout is refused. -/
inductive Error where
  /-- A bound or an address is not a multiple of the word width. -/
  | misaligned
  /-- A region ends below its start. -/
  | inverted
  /-- A text is not the spelling of a 32-bit number. -/
  | invalidAddress
deriving DecidableEq

/-- The wording of a refusal. -/
def Error.message : Error → String
  | .misaligned => "address is not word-aligned"
  | .inverted => "region end lies before its start"
  | .invalidAddress => "invalid address"

/-- Every refusal there is. -/
def Error.all : List Error := [.misaligned, .inverted, .invalidAddress]

end StageZero
