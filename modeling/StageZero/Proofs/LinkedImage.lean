/-
# The memory of the linked program

A program runs on a board, and its reset prepares RAM there for the one layout that the linker
decided on.  All words of that layout are accessible, so on a board nothing can go wrong: preparing
RAM returns from every state of the program (`prepareRam_layout`).  What it leaves is told word by
word: the zeroed region is zero, the data is what its source was, and every other word is as it
was.  Nothing of the program but the memory of its board is touched.

The two loops are followed for any ranges of accessible words, as long as the source and the target
of the copy have no word in common.
-/
import StageZero.Firmware
import StageZero.Proofs.BoardWords
import StageZero.Proofs.ForwardCopy
import StageZero.Proofs.Preservation

namespace StageZero

open Address (rebase rebase_nthWord)
open Board (Accessible)
open Region (wordsFrom)

namespace Firmware

/-! ## 1. Words -/

/-- Stores a word on the board of a program. -/
def setWord (a : Address) (w : Word) (f : Firmware) : Firmware :=
  { f with board := f.board.setWord a w }

theorem readWord_accessible {a : Address} (ha : Accessible a) (f : Firmware) :
    readWord a f = (.returned (f.board.word a), f) := by
  simp only [readWord, onBoard, if_pos ha]

theorem writeWord_accessible {a : Address} (ha : Accessible a) (w : Word) (f : Firmware) :
    writeWord a w f = (.returned (), f.setWord a w) := by
  simp only [writeWord, onBoard, if_pos ha, setWord]

/-- The later program differs from the earlier one in the memory of its board at most. -/
structure MemoryOnly (f after : Firmware) : Prop where
  heap : after.heap = f.heap
  origin : after.origin = f.origin
  signals : after.board.signals = f.board.signals

theorem MemoryOnly.refl (f : Firmware) : MemoryOnly f f := ⟨rfl, rfl, rfl⟩

theorem MemoryOnly.trans {f g after : Firmware} (hfg : MemoryOnly f g)
    (hga : MemoryOnly g after) : MemoryOnly f after :=
  ⟨hga.heap.trans hfg.heap, hga.origin.trans hfg.origin, hga.signals.trans hfg.signals⟩

/-- Word accesses change memory at most, accessible or not. -/
theorem keptByAccess_memoryOnly : KeptByAccess fun _ => MemoryOnly where
  refl := .refl
  trans := .trans
  read a f := by
    by_cases ha : Accessible a
    · rw [readWord_accessible ha]
      exact .refl f
    · simp only [readWord, onBoard, if_neg ha]
      exact .refl f
  write a w f := by
    by_cases ha : Accessible a
    · rw [writeWord_accessible ha]
      exact ⟨rfl, rfl, rfl⟩
    · simp only [writeWord, onBoard, if_neg ha]
      exact .refl f

/-! ## 2. Loops over accessible words -/

/-- **Copying accessible words**, apart from their source. -/
theorem copyWords_accessible {s t : Address} {n : Nat} (f : Firmware)
    (hs : ∀ a ∈ wordsFrom s n, Accessible a) (ht : ∀ a ∈ wordsFrom t n, Accessible a)
    (hapart : ∀ a ∈ wordsFrom s n, a ∉ wordsFrom t n) :
    ∃ after, copyWords s t n f = (.returned (), after) ∧
      ∀ a, a.Aligned → after.board.word a =
        if a ∈ wordsFrom t n then f.board.word (rebase t s a) else f.board.word a := by
  induction n with
  | zero => exact ⟨f, rfl, fun a _ => by simp [wordsFrom]⟩
  | succ n ih =>
    simp only [Region.mem_wordsFrom_succ] at hs ht hapart ⊢
    obtain ⟨mid, hrun, hmid⟩ := ih (fun a ha => hs a (Or.inr ha)) (fun a ha => ht a (Or.inr ha))
      (fun a ha hmem => hapart a (Or.inr ha) (Or.inr hmem))
    have hsource : Accessible (s.nthWord n) := hs _ (Or.inl rfl)
    have htarget : Accessible (t.nthWord n) := ht _ (Or.inl rfl)
    -- No earlier round wrote to the source word of this one.
    have hword : mid.board.word (s.nthWord n) = f.board.word (s.nthWord n) := by
      rw [hmid _ hsource.1, if_neg fun hmem => hapart _ (Or.inl rfl) (Or.inr hmem)]
    refine ⟨mid.setWord (t.nthWord n) (f.board.word (s.nthWord n)), ?_, fun a ha => ?_⟩
    · rw [copyWords_last, hrun, Run.andThen_returned, copyWord, Proc.bind_apply,
        readWord_accessible hsource, Run.andThen_returned, writeWord_accessible htarget, hword]
    · refine (Board.word_setWord htarget.1 ha _ mid.board).trans ?_
      by_cases heq : a = t.nthWord n
      · rw [if_pos heq, if_pos (Or.inl heq), heq, rebase_nthWord]
      · simp only [heq, if_false, false_or, hmid a ha]

/-- **Clearing accessible words.** -/
theorem clearWords_accessible {t : Address} {n : Nat} (f : Firmware)
    (ht : ∀ a ∈ wordsFrom t n, Accessible a) :
    ∃ after, clearWords t n f = (.returned (), after) ∧
      ∀ a, a.Aligned → after.board.word a = if a ∈ wordsFrom t n then 0 else f.board.word a := by
  induction n with
  | zero => exact ⟨f, rfl, fun a _ => by simp [wordsFrom]⟩
  | succ n ih =>
    simp only [Region.mem_wordsFrom_succ] at ht ⊢
    obtain ⟨mid, hrun, hmid⟩ := ih fun a ha => ht a (Or.inr ha)
    have htarget : Accessible (t.nthWord n) := ht _ (Or.inl rfl)
    refine ⟨mid.setWord (t.nthWord n) 0, ?_, fun a ha => ?_⟩
    · rw [clearWords_last, hrun, Run.andThen_returned, writeWord_accessible htarget]
    · refine (Board.word_setWord htarget.1 ha _ mid.board).trans ?_
      by_cases heq : a = t.nthWord n
      · rw [if_pos heq, if_pos (Or.inl heq)]
      · simp only [heq, if_false, false_or, hmid a ha]

/-! ## 3. The linked layout -/

/-- **RAM can be prepared at any time**, and the image is the same as on a bench: the zeroed
region is zero, the data is what its source was, all else is as it was. -/
theorem prepareRam_layout (f : Firmware) :
    ∃ ready, prepareRam layout f = (.returned (), ready) ∧ MemoryOnly f ready ∧
      ∀ a, a.Aligned → ready.board.word a =
        if layout.bss.HasWord a then 0
        else if layout.data.HasWord a then f.board.word (rebase layout.data.start layout.dataLoad a)
        else f.board.word a := by
  have hdata : layout.data.Ordered := by decide
  have hbss : layout.bss.Ordered := by decide
  have hfits : layout.SourceFits := by decide
  obtain ⟨loaded, hcopy, hloaded⟩ := copyWords_accessible (s := layout.dataLoad)
    (t := layout.data.start) (n := layout.data.wordCount) f (by decide) (by decide) (by decide)
  obtain ⟨ready, hclear, hready⟩ := clearWords_accessible (t := layout.bss.start)
    (n := layout.bss.wordCount) loaded (by decide)
  have hram : prepareRam layout f = (.returned (), ready) := by
    rw [← loadData_of_fits hdata hfits] at hcopy
    rw [prepareRam_of_loads hcopy, clearRegion_of_ordered hbss, hclear]
  have hkept := keptByAccess_memoryOnly.prepareRam layout f
  rw [hram] at hkept
  refine ⟨ready, hram, hkept, fun a ha => ?_⟩
  simp only [hready a ha, hloaded a ha, Region.hasWord_iff_mem hbss, Region.hasWord_iff_mem hdata]

/-- The image of the linked program, once RAM is prepared from `f`: six words of data, four words
that are zero, and all other words untouched. -/
structure Image (f ready : Firmware) : Prop where
  data : ∀ i < 6, ready.board.word (layout.data.start.nthWord i) =
    f.board.word (layout.dataLoad.nthWord i)
  bss : ∀ i < 4, ready.board.word (layout.bss.start.nthWord i) = 0
  frame : ∀ a, a.Aligned → ¬ layout.data.HasWord a → ¬ layout.bss.HasWord a →
    ready.board.word a = f.board.word a

theorem prepareRam_image (f : Firmware) :
    ∃ ready, prepareRam layout f = (.returned (), ready) ∧ Image f ready := by
  obtain ⟨ready, hram, -, hword⟩ := prepareRam_layout f
  have hdata : ∀ i < 6, layout.data.HasWord (layout.data.start.nthWord i) ∧
      ¬ layout.bss.HasWord (layout.data.start.nthWord i) := by decide
  have hbss : ∀ i < 4, layout.bss.HasWord (layout.bss.start.nthWord i) := by decide
  refine ⟨ready, hram, fun i hi => ?_, fun i hi => ?_, fun a ha hnotData hnotBss => ?_⟩
  · have haligned := (Address.aligned_nthWord (a := layout.data.start) i).mpr (by decide)
    rw [hword _ haligned, if_neg (hdata i hi).2, if_pos (hdata i hi).1, rebase_nthWord]
  · have haligned := (Address.aligned_nthWord (a := layout.bss.start) i).mpr (by decide)
    rw [hword _ haligned, if_pos (hbss i hi)]
  · rw [hword a ha, if_neg hnotBss, if_neg hnotData]

/-- **An image depends on its source alone.** -/
theorem Image.word_eq {f f' ready ready' : Firmware} (h : Image f ready) (h' : Image f' ready')
    (hsource : ∀ i < 6, f'.board.word (layout.dataLoad.nthWord i) =
      f.board.word (layout.dataLoad.nthWord i)) {a : Address}
    (ha : layout.data.HasWord a ∨ layout.bss.HasWord a) :
    ready'.board.word a = ready.board.word a := by
  rcases ha with ha | ha
  · obtain ⟨i, hi, rfl⟩ := (Region.hasWord_iff (by decide) a).mp ha
    rw [h'.data i hi, h.data i hi, hsource i hi]
  · obtain ⟨i, hi, rfl⟩ := (Region.hasWord_iff (by decide) a).mp ha
    rw [h'.bss i hi, h.bss i hi]

end Firmware

end StageZero
