/-
# Reading an address

The text of an address is read byte by byte, in UTF-8.

* Blanks around it are dropped; there are five of them.
* A text of more than two bytes that starts with `0x` or `0X` is hexadecimal, and the number
  follows those two bytes.  Any other text is decimal, `0x` alone included.
* An underscore may stand anywhere in the number and means nothing.
* Every other byte must be a digit of the radix, at least one digit must be there, and the number
  must fit a word.
* The address must be aligned.

The number is checked digit by digit: `extend?` refuses the first digit that leaves the 32-bit
range.  Since a further digit never makes a number smaller, that refuses exactly the numbers that
do not fit.
-/
import StageZero.Address
import StageZero.Error

namespace StageZero.Address

/-! ## 1. The parts of a text -/

/-- The blanks that may surround an address: tab, line feed, form feed, carriage return, space. -/
def isBlank (b : UInt8) : Bool :=
  b == 0x09 || b == 0x0a || b == 0x0c || b == 0x0d || b == 0x20

/-- Drops the blanks at both ends. -/
def trim (text : List UInt8) : List UInt8 :=
  ((text.dropWhile isBlank).reverse.dropWhile isBlank).reverse

/-- The two radices in which an address is written. -/
inductive Radix where
  | decimal
  | hexadecimal
deriving DecidableEq

/-- How many digits a radix has. -/
def Radix.base : Radix → Nat
  | .decimal => 10
  | .hexadecimal => 16

/-- Finds the radix of a trimmed text, and the part of it that holds the number. -/
def splitRadix : List UInt8 → Radix × List UInt8
  | zero :: mark :: digit :: rest =>
    if zero = 0x30 ∧ (mark = 0x78 ∨ mark = 0x58) then (.hexadecimal, digit :: rest)
    else (.decimal, zero :: mark :: digit :: rest)
  | text => (.decimal, text)

/-! ## 2. Digits -/

/-- The value of a byte as a digit in base sixteen, its letter in either case. -/
def digitValue? (b : UInt8) : Option Nat :=
  if 0x30 ≤ b ∧ b ≤ 0x39 then some (b.toNat - 0x30)
  else if 0x61 ≤ b ∧ b ≤ 0x66 then some (b.toNat - 0x61 + 10)
  else if 0x41 ≤ b ∧ b ≤ 0x46 then some (b.toNat - 0x41 + 10)
  else none

/-- The value of a byte as a digit of the radix. -/
def Radix.digit? (radix : Radix) (b : UInt8) : Option Nat :=
  (digitValue? b).filter (· < radix.base)

/-- The number one digit longer, unless it leaves the range of a word. -/
def Radix.extend? (radix : Radix) (value : UInt32) (digit : Nat) : Option UInt32 :=
  let longer := value.toNat * radix.base + digit
  if longer < UInt32.size then some (UInt32.ofNat longer) else none

/-- The byte that may stand between digits. -/
def underscore : UInt8 := 0x5f

/-- Reads the rest of a number.  `seen` is the value of the digits before it, `none` while there
has been no digit. -/
def Radix.scan (radix : Radix) (seen : Option UInt32) : List UInt8 → Option UInt32
  | [] => seen
  | b :: rest =>
    if b = underscore then radix.scan seen rest
    else
      match radix.digit? b with
      | none => none
      | some digit =>
        match radix.extend? (seen.getD 0) digit with
        | none => none
        | some value => radix.scan (some value) rest

/-! ## 3. Whole texts -/

/-- The number that a byte string spells, aligned or not. -/
def number? (text : List UInt8) : Option UInt32 :=
  let (radix, body) := splitRadix (trim text)
  radix.scan none body

/-- The aligned address that a byte string spells. -/
def ofBytes (text : List UInt8) : Except Error Address :=
  match number? text with
  | none => .error .invalidAddress
  | some value => if Aligned ⟨value⟩ then .ok ⟨value⟩ else .error .misaligned

/-- **The aligned address that a text spells.** -/
def parse (text : String) : Except Error Address := ofBytes text.toByteArray.data.toList

end StageZero.Address
