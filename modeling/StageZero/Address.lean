/-
# Word addresses

A machine word is four bytes wide, and an address is one 32-bit number.  Addresses are stepped
in whole words, and the step wraps at the top of the address space: a walk over words that runs
past the last address goes on at zero.

Addresses are ordered as unsigned numbers.  The order is a lawful one (`TransOrd`,
`LawfulEqOrd`), so addresses can key an extensional tree map.
-/
import Std.Data.ExtTreeMap

namespace StageZero

/-! ## 1. Words and addresses -/

/-- A machine word. -/
abbrev Word := UInt32

/-- The width of a word in bytes. -/
def wordBytes : UInt32 := 4

/-- A location in the 32-bit address space. -/
structure Address where
  val : UInt32
deriving DecidableEq, Inhabited

namespace Address

/-- The lowest address, which is also the value of an address register after power-on. -/
def zero : Address := ⟨0⟩

/-- The address `n` words above `a`, modulo the size of the address space. -/
def addWords (a : Address) (n : UInt32) : Address := ⟨a.val + n * wordBytes⟩

/-- An address is aligned when a word may be accessed there: it is a multiple of the width. -/
def Aligned (a : Address) : Prop := a.val % wordBytes = 0

instance (a : Address) : Decidable a.Aligned := inferInstanceAs (Decidable (_ = _))

theorem ext_toNat {a b : Address} (h : a.val.toNat = b.val.toNat) : a = b := by
  cases a; cases b
  exact congrArg Address.mk (UInt32.toNat_inj.mp h)

@[simp] theorem addWords_zero (a : Address) : a.addWords 0 = a := by
  simp [addWords]

theorem toNat_addWords (a : Address) (n : UInt32) :
    (a.addWords n).val.toNat = (a.val.toNat + 4 * n.toNat) % 4294967296 := by
  simp only [addWords, wordBytes, UInt32.toNat_add, UInt32.toNat_mul, UInt32.reduceToNat]
  omega

theorem aligned_iff (a : Address) : a.Aligned ↔ a.val.toNat % 4 = 0 := by
  unfold Aligned wordBytes
  rw [← UInt32.toNat_inj]
  simp

/-- Two steps are one step by the sum of their counts, whatever wraps. -/
theorem addWords_addWords (a : Address) (m n : UInt32) :
    (a.addWords m).addWords n = a.addWords (m + n) := by
  apply ext_toNat
  rw [toNat_addWords, toNat_addWords, toNat_addWords, UInt32.toNat_add]
  omega

theorem addWords_mod_four (a : Address) (n : UInt32) :
    (a.addWords n).val.toNat % 4 = a.val.toNat % 4 := by
  rw [toNat_addWords]
  omega

/-- Whole words keep an address aligned, or misaligned. -/
theorem aligned_addWords (a : Address) (n : UInt32) : (a.addWords n).Aligned ↔ a.Aligned := by
  rw [aligned_iff, aligned_iff, addWords_mod_four]

/-! ## 2. The order of addresses -/

instance : Ord Address := ⟨fun a b => compare a.val b.val⟩

instance : Std.TransOrd Address := inferInstanceAs (Std.TransCmp (compareOn Address.val))

instance : Std.LawfulEqOrd Address where
  eq_of_compare {a b} h := by
    cases a; cases b
    exact congrArg Address.mk (Std.LawfulEqOrd.eq_of_compare h)

end Address

end StageZero
