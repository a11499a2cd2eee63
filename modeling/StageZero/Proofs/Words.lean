/-
# The words of a region, counted

`Region.words` walks a region one word at a time, and `Layout.dataSource` names a range by its
first address and a wrapped end.  What the loops over them do is easier to say by index: word `i`
of a range is `start.nthWord i`, and there are `wordCount` of them.  This file relates the two.

* A region that is in order has a length, its words are `start.nthWord i` for the indices below
  its count, and none of these wraps (`words_of_ordered`, `hasWord_iff`).
* The range that data is loaded from is as long as the data region exactly if it ends below the
  top of the address space (`source_ordered_iff`, `wordCount_source`).  If it does not, its end
  has wrapped below its start, whatever the data region is.
-/
import StageZero.Layout

namespace StageZero

/-! ## 1. Addresses by index -/

namespace Address

/-- The address of word `i` of a range that begins at `a`. -/
def nthWord (a : Address) (i : Nat) : Address := a.addWords (UInt32.ofNat i)

/-- The address that lies as far above `new` as `a` lies above `old`. -/
def rebase (old new a : Address) : Address := ⟨new.val + (a.val - old.val)⟩

theorem toNat_nthWord (a : Address) (i : Nat) :
    (a.nthWord i).val.toNat = (a.val.toNat + 4 * i) % 4294967296 := by
  rw [nthWord, toNat_addWords, UInt32.toNat_ofNat']
  omega

@[simp] theorem nthWord_zero (a : Address) : a.nthWord 0 = a := addWords_zero a

/-- A walk from the second word on. -/
theorem nthWord_addWords_one (a : Address) (i : Nat) :
    (a.addWords 1).nthWord i = a.nthWord (i + 1) := by
  apply ext_toNat
  rw [toNat_nthWord, toNat_nthWord, toNat_addWords]
  simp only [UInt32.reduceToNat]
  omega

/-- Two walks that meet met before their last step too. -/
theorem eq_nthWord_of_addWords_one {a b : Address} {i : Nat}
    (h : a.addWords 1 = (b.addWords 1).nthWord i) : a = b.nthWord i := by
  have ha := UInt32.toNat_lt a.val
  have hval : (a.addWords 1).val.toNat = (b.nthWord (i + 1)).val.toNat := by
    rw [h, nthWord_addWords_one]
  apply ext_toNat
  rw [toNat_addWords, toNat_nthWord] at hval
  rw [toNat_nthWord]
  simp only [UInt32.reduceToNat] at hval
  omega

/-- Below the top of the address space an index step is an addition. -/
theorem toNat_nthWord_of_lt {a : Address} {i : Nat} (h : a.val.toNat + 4 * i < 4294967296) :
    (a.nthWord i).val.toNat = a.val.toNat + 4 * i := by
  rw [toNat_nthWord, Nat.mod_eq_of_lt h]

/-- Below the top of the address space different indices are different addresses. -/
theorem nthWord_inj {a : Address} {i j : Nat} (hi : a.val.toNat + 4 * i < 4294967296)
    (hj : a.val.toNat + 4 * j < 4294967296) (h : a.nthWord i = a.nthWord j) : i = j := by
  have hval : (a.nthWord i).val.toNat = (a.nthWord j).val.toNat := by rw [h]
  rw [toNat_nthWord_of_lt hi, toNat_nthWord_of_lt hj] at hval
  omega

/-- A walk from a later word on. -/
theorem nthWord_nthWord (a : Address) (i j : Nat) : (a.nthWord i).nthWord j = a.nthWord (i + j) := by
  rw [nthWord, nthWord, addWords_addWords, ← UInt32.ofNat_add, nthWord]

/-- Whole words keep an address aligned. -/
theorem aligned_nthWord {a : Address} (i : Nat) : (a.nthWord i).Aligned ↔ a.Aligned :=
  aligned_addWords a _

theorem rebase_nthWord (old new : Address) (i : Nat) :
    rebase old new (old.nthWord i) = new.nthWord i := by
  simp only [rebase, nthWord, addWords]
  rw [UInt32.add_comm old.val, UInt32.add_sub_cancel]

/-- Moving both ends of a rebasing by a word changes nothing. -/
theorem rebase_addWords_one (old new a : Address) :
    rebase (old.addWords 1) (new.addWords 1) a = rebase old new a := by
  have hold := UInt32.toNat_lt old.val
  apply ext_toNat
  simp only [rebase, addWords, wordBytes, UInt32.toNat_add, UInt32.toNat_sub, UInt32.toNat_mul,
    UInt32.reduceToNat]
  omega

end Address

/-! ## 2. Counting -/

namespace Region

/-- A region is in order when it does not end below its start. -/
def Ordered (r : Region) : Prop := r.start.val ≤ r.stop.val

instance (r : Region) : Decidable r.Ordered := inferInstanceAs (Decidable (_ ≤ _))

/-- How many words a region has.  A region without a length has none. -/
def wordCount (r : Region) : Nat :=
  match r.lengthWords with
  | .ok n => n.toNat
  | .error _ => 0

theorem lengthWords_of_ordered {r : Region} (h : r.Ordered) :
    r.lengthWords = .ok (UInt32.ofNat r.wordCount) := by
  have hnot : ¬ r.stop.val < r.start.val := UInt32.not_lt.mpr h
  simp only [wordCount, lengthWords, if_neg hnot, UInt32.ofNat_toNat]

theorem lengthWords_of_not_ordered {r : Region} (h : ¬ r.Ordered) :
    r.lengthWords = .error .underflow := by
  have hlt : r.stop.val < r.start.val := UInt32.not_le.mp h
  simp only [lengthWords, if_pos hlt]

theorem wordCount_of_ordered {r : Region} (h : r.Ordered) :
    r.wordCount = (r.stop.val.toNat - r.start.val.toNat) / 4 := by
  have hnot : ¬ r.stop.val < r.start.val := UInt32.not_lt.mpr h
  simp only [wordCount, lengthWords, if_neg hnot, UInt32.toNat_div, UInt32.toNat_sub_of_le _ _ h,
    wordBytes, UInt32.reduceToNat]

/-- A count is far below the range of a word, so that nothing is cut off. -/
theorem wordCount_lt (r : Region) : r.wordCount < 1073741824 := by
  by_cases h : r.Ordered
  · have hstop := UInt32.toNat_lt r.stop.val
    rw [wordCount_of_ordered h]
    omega
  · simp only [wordCount, lengthWords_of_not_ordered h]
    decide

@[simp] theorem toNat_ofNat_wordCount (r : Region) :
    (UInt32.ofNat r.wordCount).toNat = r.wordCount := by
  have hlt := r.wordCount_lt
  rw [UInt32.toNat_ofNat']
  omega

/-! ## 3. Which addresses are words of a region -/

/-- An address is that of a word of a region. -/
def HasWord (r : Region) (a : Address) : Prop := ∃ ws, r.words = .ok ws ∧ a ∈ ws

instance (r : Region) (a : Address) : Decidable (r.HasWord a) :=
  match h : r.words with
  | .ok ws => decidable_of_iff (a ∈ ws) (by simp [HasWord, h])
  | .error _ => isFalse (by simp [HasWord, h])

theorem words_of_ordered {r : Region} (h : r.Ordered) :
    r.words = .ok (wordsFrom r.start r.wordCount) := by
  rw [words, lengthWords_of_ordered h]
  simp only [Except.map, toNat_ofNat_wordCount]

/-- A walk one word at a time comes to its words in the order of their indices. -/
theorem wordsFrom_eq_map (a : Address) (n : Nat) : wordsFrom a n = (List.range n).map a.nthWord := by
  induction n generalizing a with
  | zero => rfl
  | succ n ih =>
    rw [wordsFrom, ih, List.range_succ_eq_map, List.map_cons, List.map_map, Address.nthWord_zero]
    congr 1
    exact List.map_congr_left fun i _ => Address.nthWord_addWords_one a i

theorem mem_wordsFrom {a b : Address} {n : Nat} :
    b ∈ wordsFrom a n ↔ ∃ i < n, b = a.nthWord i := by
  simp only [wordsFrom_eq_map, List.mem_map, List.mem_range, eq_comm]

/-- The words of a longer range are one more. -/
theorem mem_wordsFrom_succ {a b : Address} {n : Nat} :
    b ∈ wordsFrom a (n + 1) ↔ b = a.nthWord n ∨ b ∈ wordsFrom a n := by
  simp only [mem_wordsFrom, Nat.lt_succ_iff_lt_or_eq, or_and_right, exists_or, exists_eq_left]
  exact or_comm

theorem hasWord_iff_mem {r : Region} (h : r.Ordered) (a : Address) :
    r.HasWord a ↔ a ∈ wordsFrom r.start r.wordCount := by
  simp only [HasWord, words_of_ordered h, Except.ok.injEq, exists_eq_left']

/-- **The words of a region in order are those with an index below its count.** -/
theorem hasWord_iff {r : Region} (h : r.Ordered) (a : Address) :
    r.HasWord a ↔ ∃ i < r.wordCount, a = r.start.nthWord i :=
  (hasWord_iff_mem h a).trans mem_wordsFrom

end Region

/-! ## 4. The range that data is loaded from -/

namespace Layout

/-- The range that data is loaded from, from its first address to its wrapped end. -/
def source (l : Layout) : Region := ⟨l.dataLoad, l.dataLoad.nthWord l.data.wordCount⟩

/-- The range that data is loaded from ends below the top of the address space. -/
def SourceFits (l : Layout) : Prop :=
  l.dataLoad.val.toNat + 4 * l.data.wordCount < 4294967296

instance (l : Layout) : Decidable l.SourceFits := inferInstanceAs (Decidable (_ < _))

theorem dataSource_of_ordered {l : Layout} (h : l.data.Ordered) : l.dataSource = .ok l.source := by
  rw [dataSource, Region.lengthWords_of_ordered h]
  rfl

theorem dataSource_of_not_ordered {l : Layout} (h : ¬ l.data.Ordered) :
    l.dataSource = .error .underflow := by
  rw [dataSource, Region.lengthWords_of_not_ordered h]
  rfl

/-- **The source is in order exactly if it ends below the top**: what wraps lands below the
start, since no region is as long as the address space. -/
theorem source_ordered_iff (l : Layout) : l.source.Ordered ↔ l.SourceFits := by
  have hload := UInt32.toNat_lt l.dataLoad.val
  have hcount := l.data.wordCount_lt
  simp only [Region.Ordered, SourceFits, UInt32.le_iff_toNat_le, source, Address.toNat_nthWord]
  omega

/-- A source in order has as many words as the data region. -/
theorem wordCount_source {l : Layout} (h : l.SourceFits) :
    l.source.wordCount = l.data.wordCount := by
  rw [Region.wordCount_of_ordered ((source_ordered_iff l).mpr h)]
  simp only [source, Address.toNat_nthWord_of_lt h]
  omega

end Layout

end StageZero
