/-
# Byte memory

A memory of bytes with any natural number as an index.  A byte that was never set is zero.
Numbers are kept in it with their lowest byte first.
-/
import Std.Data.ExtTreeMap

namespace StageZero

/-- A memory of bytes, zero wherever nothing was set. -/
structure Bytes where
  cells : Std.ExtTreeMap Nat UInt8 := {}

namespace Bytes

/-! ## 1. Single bytes -/

/-- A memory of zeros. -/
def zeros : Bytes := {}

/-- The byte at an index. -/
def get (m : Bytes) (i : Nat) : UInt8 := m.cells.getD i 0

/-- Sets the byte at an index. -/
def set (m : Bytes) (i : Nat) (b : UInt8) : Bytes := ⟨m.cells.insert i b⟩

@[simp] theorem get_zeros (i : Nat) : zeros.get i = 0 := by
  simp [zeros, get]

theorem get_set (m : Bytes) (i j : Nat) (b : UInt8) :
    (m.set i b).get j = if j = i then b else m.get j := by
  simp only [get, set, Std.ExtTreeMap.getD_insert, Std.LawfulEqCmp.compare_eq_iff_eq]
  by_cases h : j = i
  · simp [h]
  · simp [h, Ne.symm h]

/-! ## 2. Ranges of bytes -/

/-- The `n` bytes from `i` on. -/
def window (m : Bytes) (i : Nat) : Nat → List UInt8
  | 0 => []
  | n + 1 => m.get i :: m.window (i + 1) n

/-- Sets `n` bytes from `i` on to `b`. -/
def fill (m : Bytes) (i : Nat) (b : UInt8) : Nat → Bytes
  | 0 => m
  | n + 1 => (m.set i b).fill (i + 1) b n

/-- Puts bytes into memory, one after another. -/
def store (m : Bytes) (i : Nat) : List UInt8 → Bytes
  | [] => m
  | b :: bs => (m.set i b).store (i + 1) bs

/-- Makes `n` bytes from `i` on zero. -/
def wipe (m : Bytes) (i n : Nat) : Bytes := ⟨m.cells.filter fun j _ => j < i || i + n ≤ j⟩

@[simp] theorem length_window (m : Bytes) (i n : Nat) : (m.window i n).length = n := by
  induction n generalizing i with
  | zero => rfl
  | succ n ih => rw [window, List.length_cons, ih]

theorem getElem?_window (m : Bytes) (i n k : Nat) :
    (m.window i n)[k]? = if k < n then some (m.get (i + k)) else none := by
  induction n generalizing i k with
  | zero => rfl
  | succ n ih =>
    cases k with
    | zero => simp [window]
    | succ k => simp [window, ih, Nat.add_right_comm, Nat.add_assoc]

theorem get_store (m : Bytes) (i : Nat) (bs : List UInt8) (j : Nat) :
    (m.store i bs).get j = if i ≤ j then bs[j - i]?.getD (m.get j) else m.get j := by
  induction bs generalizing m i with
  | nil => simp [store]
  | cons b bs ih =>
    rw [store, ih, get_set]
    by_cases hj : j = i
    · have h : ¬ i + 1 ≤ i := by omega
      simp [hj, h]
    · by_cases h : i + 1 ≤ j
      · have hk : j - i = (j - (i + 1)) + 1 := by omega
        have hij : i ≤ j := by omega
        simp [h, hij, hj, hk]
      · have hij : ¬ i ≤ j := by omega
        simp [h, hij, hj]

theorem get_fill (m : Bytes) (i n j : Nat) (b : UInt8) :
    (m.fill i b n).get j = if i ≤ j ∧ j < i + n then b else m.get j := by
  induction n generalizing m i with
  | zero =>
    have h : ¬ (i ≤ j ∧ j < i + 0) := by omega
    simp only [fill, if_neg h]
  | succ n ih =>
    rw [fill, ih, get_set]
    by_cases hj : j = i
    · simp [hj]
    · by_cases h : i + 1 ≤ j ∧ j < i + 1 + n
      · rw [if_pos h, if_pos (by omega)]
      · rw [if_neg h, if_neg hj, if_neg (by omega)]

theorem get_wipe (m : Bytes) (i n j : Nat) :
    (m.wipe i n).get j = if i ≤ j ∧ j < i + n then 0 else m.get j := by
  simp only [get, wipe, Std.ExtTreeMap.getD_eq_getD_getElem?, Std.ExtTreeMap.getElem?_filter']
  by_cases h : i ≤ j ∧ j < i + n
  · have hk : (decide (j < i) || decide (i + n ≤ j)) = false := by simp; omega
    cases m.cells[j]? <;> simp [Option.filter, h, hk]
  · have hk : (decide (j < i) || decide (i + n ≤ j)) = true := by simp; omega
    cases m.cells[j]? <;> simp [Option.filter, h, hk]

/-! ## 3. Numbers, lowest byte first -/

/-- The number in the `n` bytes from `i` on. -/
def readLE (m : Bytes) (i : Nat) : Nat → Nat
  | 0 => 0
  | n + 1 => (m.get i).toNat + 256 * m.readLE (i + 1) n

/-- Puts a number into the `n` bytes from `i` on.  What does not fit is cut off at the top. -/
def writeLE (m : Bytes) (i : Nat) : Nat → Nat → Bytes
  | 0, _ => m
  | n + 1, v => (m.set i (UInt8.ofNat v)).writeLE (i + 1) n (v / 256)

end Bytes

end StageZero
