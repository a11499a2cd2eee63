/-
# Words in byte memory

A board keeps its words in cells of four bytes each, and every access goes through these bytes
(`word_eq`, `setWord_eq`).  Seen from the aligned addresses none of that shows: a word that was
stored is read back as it was, and no other aligned word changes (`word_setWord`).

Behind it are two facts about numbers of any width.  A number that was put into memory is read
back, less what did not fit (`readLE_writeLE`).  A number elsewhere is not touched, as long as the
two have no byte in common (`readLE_writeLE_apart`).
-/
import Mathlib.Algebra.Group.Nat.Defs
import StageZero.Board

namespace StageZero

/-! ## 1. Numbers in byte memory -/

namespace Bytes

/-- Putting a number into memory leaves all bytes outside as they are. -/
theorem get_writeLE_outside {m : Bytes} {i n v j : Nat} (h : j < i ∨ i + n ≤ j) :
    (m.writeLE i n v).get j = m.get j := by
  induction n generalizing m i v with
  | zero => rfl
  | succ n ih =>
    have hne : j ≠ i := by omega
    rw [writeLE, ih (by omega), get_set, if_neg hne]

/-- A number depends on its own bytes alone. -/
theorem readLE_congr {m m' : Bytes} {i n : Nat}
    (h : ∀ j, i ≤ j → j < i + n → m.get j = m'.get j) : m.readLE i n = m'.readLE i n := by
  induction n generalizing i with
  | zero => rfl
  | succ n ih =>
    have hrest : m.readLE (i + 1) n = m'.readLE (i + 1) n :=
      ih fun j hlo hhi => h j (by omega) (by omega)
    rw [readLE, readLE, h i (by omega) (by omega), hrest]

/-- **A number that was put into memory is read back**, less what did not fit. -/
theorem readLE_writeLE (m : Bytes) (i n v : Nat) :
    (m.writeLE i n v).readLE i n = v % 256 ^ n := by
  induction n generalizing m i v with
  | zero => simp [readLE, Nat.mod_one]
  | succ n ih =>
    have hlow : ((m.set i (UInt8.ofNat v)).writeLE (i + 1) n (v / 256)).get i = UInt8.ofNat v := by
      rw [get_writeLE_outside (by omega), get_set, if_pos rfl]
    rw [readLE, writeLE, hlow, ih, Nat.pow_succ', Nat.mod_mul]
    rfl

/-- Putting a number into memory leaves a number that shares no byte with it as it is. -/
theorem readLE_writeLE_apart {m : Bytes} {i n v j k : Nat} (h : j + k ≤ i ∨ i + n ≤ j) :
    (m.writeLE i n v).readLE j k = m.readLE j k :=
  readLE_congr fun x hlo hhi => get_writeLE_outside (by omega)

end Bytes

/-! ## 2. Words of a board -/

namespace Board

/-- A word is the number in its four bytes. -/
theorem word_eq (b : Board) (a : Address) :
    b.word a = UInt32.ofNat (b.memory.readLE a.val.toNat 4) := rfl

/-- Storing a word puts its number into its four bytes. -/
theorem setWord_eq (a : Address) (w : Word) (b : Board) :
    b.setWord a w = { b with memory := b.memory.writeLE a.val.toNat 4 w.toNat } := by
  have hcard : (w.toNat : Int) < (cell a).type.card := Int.ofNat_lt.mpr w.toNat_lt_size
  have hencode : (cell a).type.encode w.toNat = w.toNat := by
    rw [IntType.encode, Int.emod_eq_of_lt (Int.natCast_nonneg _) hcard, Int.toNat_natCast]
  rw [setWord, Cell.set, hencode]
  rfl

@[simp] theorem word_blank (a : Address) : blank.word a = 0 := by
  simp [word_eq, blank, Bytes.readLE]

theorem word_setWord_self (b : Board) (a : Address) (w : Word) : (b.setWord a w).word a = w := by
  have hw : w.toNat < 256 ^ 4 := UInt32.toNat_lt w
  rw [word_eq, setWord_eq, Bytes.readLE_writeLE, Nat.mod_eq_of_lt hw, UInt32.ofNat_toNat]

/-- **Storing a word changes that word and no other**, at aligned addresses. -/
theorem word_setWord {a x : Address} (ha : a.Aligned) (hx : x.Aligned) (w : Word) (b : Board) :
    (b.setWord a w).word x = if x = a then w else b.word x := by
  by_cases heq : x = a
  · rw [if_pos heq, heq, word_setWord_self]
  · have hne : x.val.toNat ≠ a.val.toNat := fun h => heq (Address.ext_toNat h)
    rw [Address.aligned_iff] at ha hx
    rw [if_neg heq, word_eq, word_eq, setWord_eq, Bytes.readLE_writeLE_apart (by omega)]

end Board

end StageZero
