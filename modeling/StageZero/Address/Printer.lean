/-
# Spellings of an address

An address is shown as its digits inside `Address(…)`, in base ten or in base sixteen with
lower-case letters.  The digits alone are what `Address.parse` reads back: as they stand in base
ten, after a `0x` in base sixteen.
-/
import StageZero.Address

namespace StageZero.Address

/-- The digits of an address, most significant first, with no padding. -/
def digits (base : Nat) (a : Address) : String := String.ofList (Nat.toDigits base a.val.toNat)

/-- An address in the given base, as it stands in messages. -/
def render (base : Nat) (a : Address) : String := "Address(" ++ a.digits base ++ ")"

end StageZero.Address
