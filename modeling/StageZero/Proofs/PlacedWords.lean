/-
# Words placed in a row, and looked at again

From outside a bench one can put words into its memory, one after the other, and look at as many as
one likes.  Neither is noted anywhere.  All that is ever said of the memory of a bench is said
through these two, so they have to be each other's inverse, also where a row of words runs past the
top of the address space and goes on at zero, and also at addresses that are not aligned.

* **Placing** touches memory only (`placeWords_eq`), and there only the words of the row.  Up to
  2 ^ 30 words none is placed on top of another, since a walk comes round no sooner; so each word is
  found at its index (`memory_placeWords`).
* **Looking** returns the words that are there if they are all there (`inspectWords_of_present`),
  and otherwise names the one with the least index that is not (`inspectWords_of_firstMissing`).
  One of the two is always the case (`present_or_firstMissing`), whatever the number of words, so
  both become equivalences.
-/
import StageZero.Proofs.ForwardCopy

namespace StageZero.Bench

open Address (nthWord_zero nthWord_addWords_one)
open Region (mem_wordsFrom)

/-! ## 1. Placing -/

/-- **Placing words changes memory and nothing besides.** -/
theorem placeWords_eq (a : Address) (ws : List Word) (b : Bench) :
    placeWords a ws b = { b with memory := (placeWords a ws b).memory } := by
  induction ws generalizing a b with
  | nil => rfl
  | cons w ws ih =>
    rw [placeWords]
    exact ih (a.addWords 1) (b.place a w)

/-! ## 2. Looking -/

/-- Word `i` is the first of `n` words from `a` on that is not there. -/
structure FirstMissing (b : Bench) (a : Address) (n i : Nat) : Prop where
  lt : i < n
  missing : b.memory[a.nthWord i]? = none
  before : ∀ j < i, (b.memory[a.nthWord j]?).isSome

/-- The words from `a` on are there, and they are these. -/
def Present (b : Bench) (a : Address) (ws : List Word) : Prop :=
  ∀ i < ws.length, b.memory[a.nthWord i]? = ws[i]?

section

variable {b : Bench} {a : Address}

theorem FirstMissing.tail {n i : Nat} (h : b.FirstMissing a (n + 1) (i + 1)) :
    b.FirstMissing (a.addWords 1) n i := by
  obtain ⟨hlt, hmissing, hbefore⟩ := h
  refine ⟨Nat.lt_of_succ_lt_succ hlt, ?_, ?_⟩
  · rwa [nthWord_addWords_one]
  · intro j hj
    rw [nthWord_addWords_one]
    exact hbefore (j + 1) (Nat.succ_lt_succ hj)

theorem Present.head {w : Word} {ws : List Word} (h : b.Present a (w :: ws)) :
    b.memory[a]? = some w := by
  have hfirst := h 0 (Nat.succ_pos _)
  rwa [nthWord_zero] at hfirst

theorem Present.tail {w : Word} {ws : List Word} (h : b.Present a (w :: ws)) :
    b.Present (a.addWords 1) ws := by
  intro i hi
  rw [nthWord_addWords_one]
  exact h (i + 1) (Nat.succ_lt_succ hi)

theorem Present.concat {w : Word} {ws : List Word} (h : b.Present a ws)
    (hw : b.memory[a.nthWord ws.length]? = some w) : b.Present a (ws ++ [w]) := by
  intro i hi
  rw [List.length_append, List.length_singleton] at hi
  rcases Nat.lt_succ_iff_lt_or_eq.mp hi with hlt | rfl
  · rw [h i hlt, List.getElem?_append_left hlt]
  · rw [hw, List.getElem?_concat_length]

theorem Present.isSome {ws : List Word} (h : b.Present a ws) {i : Nat} (hi : i < ws.length) :
    (b.memory[a.nthWord i]?).isSome := by
  rw [h i hi, List.getElem?_eq_getElem hi]
  rfl

/-- Words that are all there are what one gets to see. -/
theorem inspectWords_of_present {ws : List Word} (h : b.Present a ws) :
    inspectWords b a ws.length = .ok ws := by
  induction ws generalizing a with
  | nil => rfl
  | cons w ws ih =>
    rw [List.length_cons, inspectWords, inspect_present h.head, ih h.tail]
    rfl

/-- The first word that is not there is reported. -/
theorem inspectWords_of_firstMissing {n i : Nat} (h : b.FirstMissing a n i) :
    inspectWords b a n = .error (.absent (a.nthWord i)) := by
  induction n generalizing a i with
  | zero => exact absurd h.lt (Nat.not_lt_zero i)
  | succ n ih =>
    cases i with
    | zero =>
      have hmissing := h.missing
      rw [nthWord_zero] at hmissing
      rw [inspectWords, inspect_absent hmissing, nthWord_zero]
    | succ i =>
      obtain ⟨w, hw⟩ := Option.isSome_iff_exists.mp (h.before 0 (Nat.succ_pos i))
      rw [nthWord_zero] at hw
      rw [inspectWords, inspect_present hw, ih h.tail, nthWord_addWords_one]
      rfl

/-- **Either all words are there or one of them is the first that is not.** -/
theorem present_or_firstMissing (b : Bench) (a : Address) (n : Nat) :
    (∃ ws, ws.length = n ∧ b.Present a ws) ∨ ∃ i, b.FirstMissing a n i := by
  -- the row grows at its end, so a word that is missing first stays so
  induction n with
  | zero => exact Or.inl ⟨[], rfl, fun i hi => absurd hi (Nat.not_lt_zero i)⟩
  | succ n ih =>
    rcases ih with ⟨ws, rfl, hws⟩ | ⟨i, hlt, hmissing, hbefore⟩
    · cases hw : b.memory[a.nthWord ws.length]? with
      | none => exact Or.inr ⟨ws.length, Nat.lt_succ_self _, hw, fun j hj => hws.isSome hj⟩
      | some w => exact Or.inl ⟨ws ++ [w], List.length_append, hws.concat hw⟩
    · exact Or.inr ⟨i, Nat.lt_succ_of_lt hlt, hmissing, hbefore⟩

/-- A word is missing exactly if one is the first. -/
theorem exists_firstMissing_iff {n : Nat} :
    (∃ i, b.FirstMissing a n i) ↔ ∃ i < n, b.memory[a.nthWord i]? = none := by
  constructor
  · rintro ⟨i, hlt, hmissing, -⟩
    exact ⟨i, hlt, hmissing⟩
  · rintro ⟨i, hlt, hmissing⟩
    rcases present_or_firstMissing b a n with ⟨ws, rfl, hws⟩ | hfirst
    · have hthere := hws.isSome hlt
      rw [hmissing] at hthere
      cases hthere
    · exact hfirst

/-- **What one gets to see.** -/
theorem inspectWords_eq_ok_iff {n : Nat} {ws : List Word} :
    inspectWords b a n = .ok ws ↔ ws.length = n ∧ b.Present a ws := by
  constructor
  · intro h
    rcases present_or_firstMissing b a n with ⟨vs, rfl, hvs⟩ | ⟨i, hi⟩
    · rw [inspectWords_of_present hvs] at h
      cases h
      exact ⟨rfl, hvs⟩
    · rw [inspectWords_of_firstMissing hi] at h
      cases h
  · rintro ⟨rfl, hws⟩
    exact inspectWords_of_present hws

/-- **What one is told instead.** -/
theorem inspectWords_eq_error_iff {n : Nat} {e : Fault} :
    inspectWords b a n = .error e ↔ ∃ i, b.FirstMissing a n i ∧ e = .absent (a.nthWord i) := by
  constructor
  · intro h
    rcases present_or_firstMissing b a n with ⟨vs, rfl, hvs⟩ | ⟨i, hi⟩
    · rw [inspectWords_of_present hvs] at h
      cases h
    · rw [inspectWords_of_firstMissing hi] at h
      cases h
      exact ⟨i, hi, rfl⟩
  · rintro ⟨i, hi, rfl⟩
    exact inspectWords_of_firstMissing hi

end

/-! ## 3. Placing, then looking -/

theorem present_placeWords {a : Address} {ws : List Word} {b : Bench}
    (hlen : ws.length ≤ 1073741824) : (placeWords a ws b).Present a ws :=
  fun _ hi => memory_placeWords hlen hi

/-- **Words that were placed are found again.**  Up to 2 ^ 30 words, placed from any address on,
all come back when as many are looked at; every address that is none of theirs holds what it held
before, or nothing if it held nothing; and no event, no write, no mark and no register tells of it.

Looking fails on any bench exactly if one of the words is not there, and reports the one with the
least index; otherwise it returns what is at their addresses. -/
theorem placed_words_read_back (b : Bench) (a : Address) :
    (∀ ws : List Word, ws.length ≤ 1073741824 →
        inspectWords (placeWords a ws b) a ws.length = .ok ws ∧
          (∀ x, (∀ i < ws.length, x ≠ a.nthWord i) →
            (placeWords a ws b).memory[x]? = b.memory[x]?) ∧
          placeWords a ws b = { b with memory := (placeWords a ws b).memory }) ∧
      ∀ n : Nat,
        ((∃ e, inspectWords b a n = .error e) ↔ ∃ i < n, b.memory[a.nthWord i]? = none) ∧
          (∀ e, inspectWords b a n = .error e ↔
            ∃ i, b.FirstMissing a n i ∧ e = .absent (a.nthWord i)) ∧
          ∀ ws, inspectWords b a n = .ok ws ↔ ws.length = n ∧ b.Present a ws := by
  refine ⟨fun ws hlen => ⟨inspectWords_of_present (present_placeWords hlen), ?_,
    placeWords_eq a ws b⟩, fun n => ⟨?_, fun e => inspectWords_eq_error_iff,
    fun ws => inspectWords_eq_ok_iff⟩⟩
  · intro x hx
    apply memory_placeWords_frame
    intro hmem
    obtain ⟨i, hi, rfl⟩ := mem_wordsFrom.mp hmem
    exact hx i hi rfl
  · rw [← exists_firstMissing_iff]
    constructor
    · rintro ⟨e, he⟩
      obtain ⟨i, hi, -⟩ := inspectWords_eq_error_iff.mp he
      exact ⟨i, hi⟩
    · rintro ⟨i, hi⟩
      exact ⟨_, inspectWords_of_firstMissing hi⟩

/-- Two words from the last address that is left for one: the second is placed at zero, both are
found, the word below them is untouched, and a third one is missing. -/
theorem placed_words_read_back_wrapped :
    let a : Address := ⟨0xfffffffc⟩
    let below : Address := ⟨0xfffffff8⟩
    let b := placeWords below [5] Bench.empty
    let c := placeWords a [7, 9] b
    inspectWords c a 2 = .ok [7, 9] ∧ c.memory[Address.zero]? = some 9 ∧
      c.memory[below]? = some 5 ∧ inspectWords c a 3 = .error (.absent ⟨4⟩) := by
  intro a below b c
  obtain ⟨hback, hframe, -⟩ := (placed_words_read_back b a).1 [7, 9] (by decide)
  obtain ⟨-, hfails, -⟩ := (placed_words_read_back c a).2 3
  have hthird : c.FirstMissing a 3 2 := ⟨by decide, by decide, by decide⟩
  exact ⟨hback, by decide, (hframe below (by decide)).trans (by decide),
    (hfails _).mpr ⟨2, hthird, by decide⟩⟩

end StageZero.Bench
