/-
# Steps of a word, and the words of a region

An address moves by whole words.  How many is itself a 32-bit number: it is multiplied by the width
of a word, and the product is added to the address.  Both operations wrap, each on its own.  The
multiplication drops the two highest bits of the count, so a walk comes round after 2 ^ 30 words,
which is a quarter of what can be counted.

* Two counts lead to the same address exactly if they agree modulo 2 ^ 30 (`addWords_eq_iff`).
* A walk of less than a round goes up exactly if it does not wrap (`le_addWords_iff`).
* From its start up, a walk passes over no address with the remainder of the start
  (`eq_nthWord_of_le`).

The words of a region are the beginning of such a walk.  There are as many as the length of the
region tells, and that length is truncated to whole words.  It keeps every word, with all its
bytes, below the end of the region (`word_below_stop`), so none of them wraps.  The rest is read
off their indices: that they ascend, that none is there twice, and that in a region with aligned
bounds none is left out.
-/
import Mathlib.Data.Nat.ModEq
import StageZero.Proofs.Underflow
import StageZero.Proofs.Validation

namespace StageZero

/-! ## 1. Steps -/

namespace Address

/-- **A walk comes round after 2 ^ 30 words, and not before.** -/
theorem addWords_eq_iff (a : Address) (m n : UInt32) :
    a.addWords m = a.addWords n ↔ m.toNat ≡ n.toNat [MOD 1073741824] := by
  unfold Nat.ModEq
  constructor
  · intro h
    have hval : (a.addWords m).val.toNat = (a.addWords n).val.toNat := by rw [h]
    rw [toNat_addWords, toNat_addWords] at hval
    omega
  · intro h
    apply ext_toNat
    rw [toNat_addWords, toNat_addWords]
    omega

/-- One round more leads to the same address. -/
theorem addWords_round (a : Address) (n : UInt32) :
    a.addWords (n + 1073741824) = a.addWords n := by
  rw [addWords_eq_iff, Nat.ModEq, UInt32.toNat_add]
  simp only [UInt32.reduceToNat]
  omega

/-- Within one round different counts are different addresses. -/
theorem addWords_ne {a : Address} {m n : UInt32} (hm : m.toNat < 1073741824)
    (hn : n.toNat < 1073741824) (hne : m ≠ n) : a.addWords m ≠ a.addWords n := by
  intro h
  have hmod := (addWords_eq_iff a m n).mp h
  rw [Nat.ModEq, Nat.mod_eq_of_lt hm, Nat.mod_eq_of_lt hn] at hmod
  exact hne (UInt32.toNat_inj.mp hmod)

/-- **A walk of less than a round goes up exactly if it does not wrap**: what wraps lands below the
start, as it can not come all the way up to it again. -/
theorem le_addWords_iff {a : Address} {n : UInt32} (hn : n.toNat < 1073741824) :
    a.val ≤ (a.addWords n).val ↔ a.val.toNat + 4 * n.toNat < 4294967296 := by
  have ha := UInt32.toNat_lt a.val
  rw [UInt32.le_iff_toNat_le, toNat_addWords]
  omega

/-- An address that is not below the start of a walk, and has the remainder of the start, is one
that the walk comes to. -/
theorem eq_nthWord_of_le {a b : Address} (hmod : b.val.toNat % 4 = a.val.toNat % 4)
    (hle : a.val ≤ b.val) : b = a.nthWord ((b.val.toNat - a.val.toNat) / 4) := by
  have hb := UInt32.toNat_lt b.val
  rw [UInt32.le_iff_toNat_le] at hle
  apply ext_toNat
  rw [toNat_nthWord]
  omega

/-- **Steps of whole words.**  A step and another are one step by the sum of their counts.  No step
changes the remainder of an address, so it is aligned after a step exactly if it was before.  Two
counts lead to the same address exactly if they are congruent modulo 2 ^ 30: within one round all
addresses differ, and a round further on they are the same again.  A step of less than a round leads
up exactly if the address space does not end on the way. -/
theorem words_come_round (a : Address) (m n : UInt32) :
    (a.addWords m).addWords n = a.addWords (m + n) ∧
      (a.addWords m).val.toNat ≡ a.val.toNat [MOD 4] ∧
      ((a.addWords m).Aligned ↔ a.Aligned) ∧
      (a.addWords m = a.addWords n ↔ m.toNat ≡ n.toNat [MOD 1073741824]) ∧
      (m.toNat < 1073741824 → n.toNat < 1073741824 → m ≠ n → a.addWords m ≠ a.addWords n) ∧
      a.addWords (m + 1073741824) = a.addWords m ∧
      (m.toNat < 1073741824 →
        (a.val ≤ (a.addWords m).val ↔ a.val.toNat + 4 * m.toNat < 4294967296)) :=
  ⟨addWords_addWords a m n, addWords_mod_four a m, aligned_addWords a m, addWords_eq_iff a m n,
    addWords_ne, addWords_round a m, le_addWords_iff⟩

/-- From the last word but one: two steps wrap to zero, and so do two and a round, while a single
step still leads up. -/
theorem words_come_round_at_top :
    let a : Address := ⟨0xfffffff8⟩
    a.addWords 2 = .zero ∧ a.addWords (2 + 1073741824) = .zero ∧ a.addWords 1 ≠ a.addWords 2 ∧
      a.val ≤ (a.addWords 1).val ∧ ¬ a.val ≤ (a.addWords 2).val := by
  intro a
  obtain ⟨-, -, -, -, hne, -, hup⟩ := words_come_round a 1 2
  obtain ⟨-, -, -, -, -, hround, hwraps⟩ := words_come_round a 2 1
  have hzero : a.addWords 2 = .zero := by decide
  refine ⟨hzero, hround.trans hzero, hne (by decide) (by decide) (by decide),
    (hup (by decide)).mpr (by decide), ?_⟩
  rw [hwraps (by decide)]
  decide

end Address

/-! ## 2. The words of a region -/

namespace Region

/-- The beginning of a walk. -/
theorem take_wordsFrom (a : Address) (limit n : Nat) :
    (wordsFrom a n).take limit = wordsFrom a (min limit n) := by
  rw [wordsFrom_eq_map, wordsFrom_eq_map, ← List.map_take, List.take_range]

/-- A limited look at a region shows its first words, and fails as the full one does. -/
theorem firstWords_eq (r : Region) (limit : Nat) :
    r.firstWords limit = r.words.map (List.take limit) := by
  unfold firstWords words
  cases r.lengthWords with
  | error e => rfl
  | ok n =>
    simp only [Except.map, take_wordsFrom]
    congr 2
    split <;> omega

section Ordered

variable {r : Region} (h : r.Ordered)
include h

/-- A word of a region ends before the region does. -/
theorem word_below_stop {i : Nat} (hi : i < r.wordCount) :
    r.start.val.toNat + 4 * i + 4 ≤ r.stop.val.toNat := by
  rw [wordCount_of_ordered h] at hi
  omega

/-- The words of a region do not wrap. -/
theorem toNat_word {i : Nat} (hi : i < r.wordCount) :
    (r.start.nthWord i).val.toNat = r.start.val.toNat + 4 * i := by
  have hstop := UInt32.toNat_lt r.stop.val
  have hbelow := word_below_stop h hi
  exact Address.toNat_nthWord_of_lt (by omega)

/-- **The words of a region ascend.** -/
theorem pairwise_words : (wordsFrom r.start r.wordCount).Pairwise fun a b => a.val < b.val := by
  rw [wordsFrom_eq_map, List.pairwise_map]
  refine List.pairwise_lt_range.imp_of_mem ?_
  intro i j hi hj hij
  rw [List.mem_range] at hi hj
  rw [UInt32.lt_iff_toNat_lt, toNat_word h hi, toNat_word h hj]
  omega

/-- The four bytes of a word of a region are bytes of the region. -/
theorem bytes_of_word {a : Address} (ha : a ∈ wordsFrom r.start r.wordCount) {k : Nat}
    (hk : k < 4) : r.start.val.toNat ≤ a.val.toNat + k ∧ a.val.toNat + k < r.stop.val.toNat := by
  obtain ⟨i, hi, rfl⟩ := mem_wordsFrom.mp ha
  have hbelow := word_below_stop h hi
  rw [toNat_word h hi]
  omega

end Ordered

/-- **The words of a valid region are the aligned addresses in it.** -/
theorem mem_words_of_valid {r : Region} (h : r.Valid) (a : Address) :
    a ∈ wordsFrom r.start r.wordCount ↔
      a.Aligned ∧ r.start.val ≤ a.val ∧ a.val < r.stop.val := by
  obtain ⟨hstart, hstop, hord⟩ := h
  constructor
  · intro ha
    have hbytes := bytes_of_word hord ha (k := 0) (by decide)
    obtain ⟨i, -, rfl⟩ := mem_wordsFrom.mp ha
    exact ⟨(Address.aligned_nthWord i).mpr hstart, UInt32.le_iff_toNat_le.mpr hbytes.1,
      UInt32.lt_iff_toNat_lt.mpr hbytes.2⟩
  · rintro ⟨haligned, hfrom, hbelow⟩
    rw [Address.aligned_iff] at hstart hstop haligned
    refine mem_wordsFrom.mpr ⟨_, ?_, Address.eq_nthWord_of_le (by omega) hfrom⟩
    -- a whole word fits between two aligned addresses, so the truncation takes none away
    rw [UInt32.lt_iff_toNat_lt] at hbelow
    rw [UInt32.le_iff_toNat_le] at hfrom
    rw [wordCount_of_ordered hord]
    omega

/-- A valid region is empty exactly if it has no words. -/
theorem isEmpty_iff_of_valid {r : Region} (h : r.Valid) :
    r.isEmpty = true ↔ wordsFrom r.start r.wordCount = [] := by
  obtain ⟨hstart, hstop, hord⟩ := h
  rw [Address.aligned_iff] at hstart hstop
  rw [← List.length_eq_zero_iff, length_wordsFrom, wordCount_of_ordered hord]
  rw [Ordered, UInt32.le_iff_toNat_le] at hord
  unfold isEmpty
  rw [decide_eq_true_iff]
  constructor
  · intro hsame
    rw [hsame, Nat.sub_self]
  · intro hnone
    exact Address.ext_toNat (by omega)

theorem words_of_inverted {r : Region} (h : r.Inverted) : r.words = .error .underflow := by
  rw [words, lengthWords_of_not_ordered ((inverted_iff r).mp h)]
  rfl

/-- **The words of a region, and nothing else.**  A region that does not end below its start,
aligned or not, has a length and words, as many as whole words fit into it.  Word `i` is `4 * i`
bytes above the start, without wrapping; so they ascend, and none is there twice; and the four
bytes of each lie in the region.  Bounds that pass their check make a region whose words are all
aligned addresses in it, and which is empty exactly if it has none.  A region that ends below its
start has neither a length nor words.  Whoever asks for the first few words only gets the beginning
of the same list. -/
theorem words_enumerate (r : Region) :
    (r.start.val ≤ r.stop.val → ∃ n ws, r.lengthWords = .ok n ∧ r.words = .ok ws ∧
        n.toNat = (r.stop.val.toNat - r.start.val.toNat) / 4 ∧
        ws.length = (r.stop.val.toNat - r.start.val.toNat) / 4 ∧
        (∀ i, (hi : i < ws.length) → ws[i].val.toNat = r.start.val.toNat + 4 * i) ∧
        ws.Pairwise (fun a b => a.val < b.val) ∧
        ∀ a ∈ ws, ∀ k < 4,
          r.start.val.toNat ≤ a.val.toNat + k ∧ a.val.toNat + k < r.stop.val.toNat) ∧
      (∀ start stop, ofBounds start stop = .ok r → ∃ ws, r.words = .ok ws ∧
        (∀ a : Address, a ∈ ws ↔ a.Aligned ∧ start.val ≤ a.val ∧ a.val < stop.val) ∧
        (r.isEmpty = true ↔ ws = [])) ∧
      (r.stop.val < r.start.val →
        r.lengthWords = .error .underflow ∧ r.words = .error .underflow) ∧
      ∀ limit, r.firstWords limit = r.words.map (List.take limit) := by
  refine ⟨fun h => ?_, fun start stop h => ?_, fun h => ?_, r.firstWords_eq⟩
  · have hcount := wordCount_of_ordered h
    refine ⟨_, _, lengthWords_of_ordered h, words_of_ordered h, ?_, ?_, fun i hi => ?_,
      pairwise_words h, fun a ha k hk => bytes_of_word h ha hk⟩
    · rw [toNat_ofNat_wordCount, hcount]
    · rw [length_wordsFrom, hcount]
    · rw [length_wordsFrom] at hi
      simp only [wordsFrom_eq_map, List.getElem_map, List.getElem_range, toNat_word h hi]
  · obtain ⟨rfl, hvalid⟩ := ofBounds_eq_ok_iff.mp h
    exact ⟨_, words_of_ordered hvalid.2.2, mem_words_of_valid hvalid, isEmpty_iff_of_valid hvalid⟩
  · exact ⟨lengthWords_of_not_ordered ((inverted_iff r).mp h), words_of_inverted h⟩

/-- A misaligned region of a word and a half, a checked one that ends at the last address a word can
have, and an inverted one. -/
theorem words_enumerate_at_edges :
    let odd : Region := ⟨⟨0x20000001⟩, ⟨0x20000007⟩⟩
    let high : Region := ⟨⟨0xfffffff4⟩, ⟨0xfffffffc⟩⟩
    let inverted : Region := ⟨⟨0xfffffffc⟩, ⟨0⟩⟩
    (∃ ws, odd.words = .ok ws ∧ ws.length = 1) ∧
      (∃ ws, high.words = .ok ws ∧ ⟨0xfffffff8⟩ ∈ ws ∧ ⟨0xfffffffc⟩ ∉ ws) ∧
      inverted.words = .error .underflow := by
  intro odd high inverted
  obtain ⟨hodd, -⟩ := words_enumerate odd
  obtain ⟨-, hhigh, -⟩ := words_enumerate high
  obtain ⟨-, -, hinverted, -⟩ := words_enumerate inverted
  obtain ⟨n, ws, -, hws, -, hlen, -⟩ := hodd (by decide)
  obtain ⟨vs, hvs, hmem, -⟩ := hhigh ⟨0xfffffff4⟩ ⟨0xfffffffc⟩ rfl
  refine ⟨⟨ws, hws, hlen.trans (by decide)⟩, ⟨vs, hvs, (hmem _).mpr (by decide), fun hlast => ?_⟩,
    (hinverted (by decide)).2⟩
  exact absurd ((hmem _).mp hlast) (by decide)

end Region

end StageZero
