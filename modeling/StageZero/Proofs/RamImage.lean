/-
# What is in memory once RAM is prepared

`prepareRam` is two loops: the data is copied word by word, and then the zeroed region is cleared.
This file says what the two leave behind on a bench, for every layout whose regions are in order
and whose source ends below the top of the address space.

* **The copy** returns exactly if each source word is there when its turn comes, be it because an
  earlier round of the copy put it there (`copyWords_returns_iff`).  It changes no word outside of
  its target (`copyWords_frame`).  If the source was there from the beginning, and the target does
  not begin inside the source above its first word, every target word is what the source word was
  BEFORE the copy (`copyWords_target`).  The target may overlap the source in every other way: a
  word that the loop overwrites has been read by then.
* **The clearing** never fails, and changes just the words of its region (`clearWords_memory`).

The regions may overlap each other.  Clearing comes second, so a word of both regions ends as
zero, and its share of the data is lost, even if the source lies apart from both.
-/
import StageZero.Bench
import StageZero.Proofs.Words
import StageZero.Ram
import StageZero.Rig

namespace StageZero

open Address (rebase rebase_nthWord rebase_addWords_one nthWord_addWords_one)
open Region (wordsFrom mem_wordsFrom)

/-! ## 1. The procedures as loops

Once the lengths are known both procedures are plain loops, on any machine. -/

section Loops

variable {σ : Type} [Machine σ]

theorem loadData_of_fits {l : Layout} (hdata : l.data.Ordered) (hfits : l.SourceFits) :
    (loadData l : Proc σ Unit) = copyWords l.dataLoad l.data.start l.data.wordCount := by
  have hsource : l.source.Ordered := (Layout.source_ordered_iff l).mpr hfits
  funext s
  simp only [loadData, Layout.dataSource_of_ordered hdata, Region.lengthWords_of_ordered hsource,
    Region.lengthWords_of_ordered hdata, Layout.wordCount_source hfits, Proc.bind_apply,
    Proc.lift_ok, Run.andThen_returned, UInt32.lt_irrefl, if_false, Region.toNat_ofNat_wordCount]
  rfl

/-- Data that has no length, or whose source has none, faults with nothing done. -/
theorem loadData_of_not_fits {l : Layout} (h : ¬ (l.data.Ordered ∧ l.SourceFits)) (s : σ) :
    loadData l s = (.faulted .underflow, s) := by
  by_cases hdata : l.data.Ordered
  · have hsource : ¬ l.source.Ordered := fun ho =>
      h ⟨hdata, (Layout.source_ordered_iff l).mp ho⟩
    simp only [loadData, Layout.dataSource_of_ordered hdata,
      Region.lengthWords_of_not_ordered hsource, Proc.bind_apply, Proc.lift_ok, Proc.lift_error,
      Run.andThen_returned, Run.andThen_faulted]
  · simp only [loadData, Layout.dataSource_of_not_ordered hdata, Proc.bind_apply, Proc.lift_error,
      Run.andThen_faulted]

theorem clearRegion_of_ordered {r : Region} (h : r.Ordered) :
    (clearRegion r : Proc σ Unit) = clearWords r.start r.wordCount := by
  funext s
  simp only [clearRegion, Region.lengthWords_of_ordered h, Proc.bind_apply, Proc.lift_ok,
    Run.andThen_returned, Region.toNat_ofNat_wordCount]

theorem clearRegion_of_not_ordered {r : Region} (h : ¬ r.Ordered) (s : σ) :
    clearRegion r s = (.faulted .underflow, s) := by
  simp only [clearRegion, Region.lengthWords_of_not_ordered h, Proc.bind_apply, Proc.lift_error,
    Run.andThen_faulted]

theorem prepareRam_of_loads {l : Layout} {s loaded : σ}
    (hload : loadData l s = (.returned (), loaded)) :
    prepareRam l s = clearRegion l.bss loaded := by
  simp only [prepareRam, Proc.bind_apply, hload, Run.andThen_returned]

theorem prepareRam_of_load_faults {l : Layout} {s spent : σ} {e : Fault}
    (hload : loadData l s = (.faulted e, spent)) : prepareRam l s = (.faulted e, spent) := by
  simp only [prepareRam, Proc.bind_apply, hload, Run.andThen_faulted]

end Loops

namespace Bench

/-! ## 2. Words of a bench -/

/-- The bench after a word was written. -/
def store (a : Address) (w : Word) (b : Bench) : Bench :=
  { b with
    memory := b.memory.insert a w
    log := b.log.push (.write a w)
    writes := b.writes.push (a, w) }

theorem writeWord_eq (a : Address) (w : Word) (b : Bench) :
    writeWord a w b = (.returned (), b.store a w) := rfl

theorem memory_store (a x : Address) (w : Word) (b : Bench) :
    (b.store a w).memory[x]? = if x = a then some w else b.memory[x]? := by
  simp only [store, Std.ExtTreeMap.getElem?_insert, Std.LawfulEqCmp.compare_eq_iff_eq]
  simp only [eq_comm]

@[simp] theorem memory_record (e : Event) (b : Bench) : (b.record e).memory = b.memory := rfl

/-! ## 3. Clearing -/

/-- **Clearing makes its words zero and leaves all others as they are.** -/
theorem clearWords_memory (t : Address) (n : Nat) (b : Bench) :
    ∃ after, clearWords t n b = (.returned (), after) ∧
      ∀ a, after.memory[a]? = if a ∈ wordsFrom t n then some 0 else b.memory[a]? := by
  induction n generalizing t b with
  | zero => exact ⟨b, rfl, fun a => by simp [wordsFrom]⟩
  | succ n ih =>
    obtain ⟨after, hrun, hmem⟩ := ih (t.addWords 1) (b.store t 0)
    refine ⟨after, hrun, fun a => ?_⟩
    rw [hmem, memory_store, wordsFrom]
    by_cases hrest : a ∈ wordsFrom (t.addWords 1) n
    · rw [if_pos hrest, if_pos (List.mem_cons_of_mem _ hrest)]
    · simp only [hrest, List.mem_cons, or_false, if_false]

/-! ## 4. Copying -/

/-- A round of the copy whose source word is there. -/
theorem copyWords_present {s t : Address} {n : Nat} {b : Bench} {w : Word}
    (h : b.memory[s]? = some w) :
    copyWords s t (n + 1) b =
      copyWords (s.addWords 1) (t.addWords 1) n ((b.record (.read s)).store t w) := by
  simp only [copyWords, Proc.bind_apply, readWord_present h, Run.andThen_returned, writeWord_eq]

/-- A round of the copy whose source word is missing is the last. -/
theorem copyWords_absent {s t : Address} {n : Nat} {b : Bench} (h : b.memory[s]? = none) :
    copyWords s t (n + 1) b = (.faulted (.unmapped s), b.record (.read s)) := by
  simp only [copyWords, Proc.bind_apply, readWord_absent h, Run.andThen_faulted]

/-- Each of the `n` words from `s` on is there when a copy to `t` comes to it: it was there at the
beginning, or an earlier round put it there. -/
def Readable (b : Bench) (s t : Address) (n : Nat) : Prop :=
  ∀ i < n, (b.memory[s.nthWord i]?).isSome ∨ ∃ j < i, s.nthWord i = t.nthWord j

instance (b : Bench) (s t : Address) (n : Nat) : Decidable (b.Readable s t n) :=
  inferInstanceAs (Decidable (∀ i < n, _ ∨ ∃ j < i, _))

theorem readable_of_present {b : Bench} {s t : Address} {n : Nat}
    (h : ∀ i < n, (b.memory[s.nthWord i]?).isSome) : b.Readable s t n :=
  fun i hi => Or.inl (h i hi)

/-- What a round leaves to be read is what was to be read before it, without the first word. -/
theorem readable_succ_iff {b : Bench} {s t : Address} {n : Nat} {w : Word}
    (hw : b.memory[s]? = some w) :
    b.Readable s t (n + 1) ↔
      ((b.record (.read s)).store t w).Readable (s.addWords 1) (t.addWords 1) n := by
  constructor
  · intro h i hi
    rw [nthWord_addWords_one, memory_store]
    by_cases ht : s.nthWord (i + 1) = t
    · left
      rw [if_pos ht]
      rfl
    · rw [if_neg ht]
      rcases h (i + 1) (by omega) with hthere | ⟨j, hj, heq⟩
      · exact Or.inl hthere
      · cases j with
        | zero => exact absurd (heq.trans (Address.nthWord_zero t)) ht
        | succ j => exact Or.inr ⟨j, by omega, by rw [nthWord_addWords_one, heq]⟩
  · intro h i hi
    cases i with
    | zero =>
      left
      rw [Address.nthWord_zero, hw]
      rfl
    | succ i =>
      have hround := h i (by omega)
      rw [nthWord_addWords_one, memory_store] at hround
      by_cases ht : s.nthWord (i + 1) = t
      · exact Or.inr ⟨0, by omega, by rw [ht, Address.nthWord_zero]⟩
      · rw [if_neg ht] at hround
        rcases hround with hthere | ⟨j, hj, heq⟩
        · exact Or.inl hthere
        · exact Or.inr ⟨j + 1, by omega, by rw [heq, nthWord_addWords_one]⟩

/-- **The copy returns exactly if each source word is there when its turn comes.** -/
theorem copyWords_returns_iff {s t : Address} {n : Nat} {b : Bench} :
    (∃ after, copyWords s t n b = (.returned (), after)) ↔ b.Readable s t n := by
  induction n generalizing s t b with
  | zero => exact ⟨fun _ i hi => absurd hi (by omega), fun _ => ⟨b, rfl⟩⟩
  | succ n ih =>
    cases hw : b.memory[s]? with
    | some w => rw [copyWords_present hw, ih, readable_succ_iff hw]
    | none =>
      rw [copyWords_absent hw]
      constructor
      · rintro ⟨after, hrun⟩
        exact absurd (congrArg Prod.fst hrun) (by simp)
      · intro h
        rcases h 0 (by omega) with hthere | ⟨j, hj, -⟩
        · rw [Address.nthWord_zero, hw] at hthere
          exact absurd hthere (by simp)
        · omega

/-- **The copy leaves all words outside of its target as they are**, also when it faults. -/
theorem copyWords_frame {s t a : Address} {n : Nat} {b : Bench} (ha : a ∉ wordsFrom t n) :
    (copyWords s t n b).2.memory[a]? = b.memory[a]? := by
  induction n generalizing s t b with
  | zero => rfl
  | succ n ih =>
    rw [wordsFrom, List.mem_cons, not_or] at ha
    cases hw : b.memory[s]? with
    | some w => rw [copyWords_present hw, ih ha.2, memory_store, if_neg ha.1, memory_record]
    | none => rw [copyWords_absent hw, memory_record]

/-- **The copy puts into each target word what its source word was at the beginning**, unless
the target begins inside the source. -/
theorem copyWords_target {s t a : Address} {n : Nat} {b : Bench}
    (hsource : ∀ i < n, (b.memory[s.nthWord i]?).isSome)
    (hapart : ∀ d < n, 0 < d → t ≠ s.nthWord d) (ha : a ∈ wordsFrom t n) :
    (copyWords s t n b).2.memory[a]? = b.memory[rebase t s a]? := by
  induction n generalizing s t b with
  | zero => exact absurd ha (List.not_mem_nil)
  | succ n ih =>
    obtain ⟨w, hw⟩ := Option.isSome_iff_exists.mp (hsource 0 (by omega))
    rw [Address.nthWord_zero] at hw
    -- The word just written is none of the source words that are still to be read.
    have hlater : ∀ i < n, ((b.record (.read s)).store t w).memory[s.nthWord (i + 1)]? =
        b.memory[s.nthWord (i + 1)]? := by
      intro i hi
      rw [memory_store, if_neg (hapart (i + 1) (by omega) (by omega)).symm, memory_record]
    rw [copyWords_present hw]
    by_cases hrest : a ∈ wordsFrom (t.addWords 1) n
    · rw [ih _ _ hrest, rebase_addWords_one]
      · obtain ⟨i, hi, rfl⟩ := mem_wordsFrom.mp hrest
        rw [nthWord_addWords_one, rebase_nthWord, hlater i hi]
      · intro i hi
        rw [nthWord_addWords_one, hlater i hi]
        exact hsource (i + 1) (by omega)
      · intro d hdn hd heq
        exact hapart d (by omega) hd (Address.eq_nthWord_of_addWords_one heq)
    · have hfirst : a = t := by
        rw [wordsFrom, List.mem_cons] at ha
        exact ha.resolve_right hrest
      subst hfirst
      have hself : rebase a s a = s := by simpa using rebase_nthWord a s 0
      rw [copyWords_frame hrest, memory_store, if_pos rfl, hself, hw]

end Bench

/-! ## 5. Both regions -/

open Bench

/-- What it takes to prepare RAM: both regions are in order, the source ends below the top of the
address space, and each of its words is there when it is to be copied. -/
structure Layout.Preparable (l : Layout) (b : Bench) : Prop where
  data : l.data.Ordered
  bss : l.bss.Ordered
  fits : l.SourceFits
  readable : b.Readable l.dataLoad l.data.start l.data.wordCount

/-- **Preparing RAM returns**, and leaves what the copy left, except for the words of the zeroed
region. -/
theorem prepareRam_returns {l : Layout} {b : Bench} (h : l.Preparable b) :
    ∃ ready, prepareRam l b = (.returned (), ready) ∧
      ∀ a, ready.memory[a]? =
        if l.bss.HasWord a then some 0
        else (copyWords l.dataLoad l.data.start l.data.wordCount b).2.memory[a]? := by
  obtain ⟨loaded, hcopy⟩ := copyWords_returns_iff.mpr h.readable
  obtain ⟨ready, hclear, hmem⟩ := clearWords_memory l.bss.start l.bss.wordCount loaded
  have hload : loadData l b = (.returned (), loaded) := by
    rw [loadData_of_fits h.data h.fits, hcopy]
  refine ⟨ready, ?_, fun a => ?_⟩
  · rw [prepareRam_of_loads hload, clearRegion_of_ordered h.bss, hclear]
  · rw [hmem, hcopy]
    simp only [Region.hasWord_iff_mem h.bss]

/-- Preparing RAM leaves all words outside of the two regions as they are. -/
theorem prepareRam_frame {l : Layout} {b ready : Bench} (h : l.Preparable b)
    (hrun : prepareRam l b = (.returned (), ready)) {a : Address} (hdata : ¬ l.data.HasWord a)
    (hbss : ¬ l.bss.HasWord a) : ready.memory[a]? = b.memory[a]? := by
  obtain ⟨ready', hrun', hmem⟩ := prepareRam_returns h
  obtain rfl : ready = ready' := congrArg Prod.snd (hrun.symm.trans hrun')
  rw [hmem, if_neg hbss]
  exact copyWords_frame fun hword => hdata ((Region.hasWord_iff_mem h.data a).mpr hword)

/-- **The memory image of a prepared RAM.**  The words of the zeroed region are zero, the other
words of the data region are what their source words were, and all other words are as before.

If the source lies apart from both regions it is still there afterwards, and a data word outside
of the zeroed region equals its source word, the old one and the present one. -/
theorem prepareRam_memory (l : Layout) (b : Bench) (hdata : l.data.Ordered) (hbss : l.bss.Ordered)
    (hfits : l.SourceFits)
    (hsource : ∀ i < l.data.wordCount, (b.memory[l.dataLoad.nthWord i]?).isSome)
    (hapart : ∀ d < l.data.wordCount, 0 < d → l.data.start ≠ l.dataLoad.nthWord d) :
    ∃ ready, prepareRam l b = (.returned (), ready) ∧
      (∀ a, ready.memory[a]? =
        if l.bss.HasWord a then some 0
        else if l.data.HasWord a then b.memory[rebase l.data.start l.dataLoad a]?
        else b.memory[a]?) ∧
      ((∀ i < l.data.wordCount, ¬ l.bss.HasWord (l.dataLoad.nthWord i) ∧
          ¬ l.data.HasWord (l.dataLoad.nthWord i)) →
        ∀ i < l.data.wordCount, ¬ l.bss.HasWord (l.data.start.nthWord i) →
          ready.memory[l.data.start.nthWord i]? = b.memory[l.dataLoad.nthWord i]? ∧
          ready.memory[l.data.start.nthWord i]? = ready.memory[l.dataLoad.nthWord i]?) := by
  have hprep : l.Preparable b := ⟨hdata, hbss, hfits, readable_of_present hsource⟩
  obtain ⟨ready, hrun, hmem⟩ := prepareRam_returns hprep
  have himage : ∀ a, l.data.HasWord a → ¬ l.bss.HasWord a →
      ready.memory[a]? = b.memory[rebase l.data.start l.dataLoad a]? := by
    intro a ha hclear
    rw [hmem, if_neg hclear]
    exact copyWords_target hsource hapart ((Region.hasWord_iff_mem hdata a).mp ha)
  refine ⟨ready, hrun, fun a => ?_, fun hfree i hi hclear => ?_⟩
  · by_cases hb : l.bss.HasWord a
    · rw [if_pos hb, hmem, if_pos hb]
    · rw [if_neg hb]
      by_cases hd : l.data.HasWord a
      · rw [if_pos hd, himage a hd hb]
      · rw [if_neg hd, prepareRam_frame hprep hrun hd hb]
  · obtain ⟨hb, hd⟩ := hfree i hi
    have hword : l.data.HasWord (l.data.start.nthWord i) :=
      (Region.hasWord_iff hdata _).mpr ⟨i, hi, rfl⟩
    have hcopied := himage _ hword hclear
    rw [rebase_nthWord] at hcopied
    exact ⟨hcopied, hcopied.trans (prepareRam_frame hprep hrun hd hb).symm⟩

/-- Overlaps of all kinds: the source begins at the second data word, and the zeroed region takes
the last data word and the last source word. -/
theorem prepareRam_memory_overlapping :
    let l : Layout :=
      { stackTop := ⟨0x20010000⟩
        data := ⟨⟨0x20000000⟩, ⟨0x20000010⟩⟩
        dataLoad := ⟨0x20000004⟩
        bss := ⟨⟨0x2000000c⟩, ⟨0x20000014⟩⟩ }
    ∃ ready, prepareRam l (placeWords l.data.start [1, 2, 3, 4, 5] Bench.empty) =
        (.returned (), ready) ∧
      ready.memory[l.data.start.nthWord 0]? = some 2 ∧
      ready.memory[l.data.start.nthWord 2]? = some 4 ∧
      ready.memory[l.data.start.nthWord 3]? = some 0 ∧
      ready.memory[l.dataLoad.nthWord 3]? = some 0 ∧
      ready.memory[l.bss.stop]? = none := by
  intro l
  obtain ⟨ready, hrun, himage, -⟩ :=
    prepareRam_memory l (placeWords l.data.start [1, 2, 3, 4, 5] Bench.empty) (by decide)
      (by decide) (by decide) (by decide) (by decide)
  refine ⟨ready, hrun, ?_, ?_, ?_, ?_, ?_⟩ <;> rw [himage] <;> decide

/-- **A source apart from both regions does not save the data.**  The second word of this data
region is the first of the zeroed one, and ends as zero although its source word is nine. -/
theorem cleared_data_is_lost :
    let l : Layout :=
      { stackTop := ⟨0x20010000⟩
        data := ⟨⟨0x20000000⟩, ⟨0x20000008⟩⟩
        dataLoad := ⟨0x08001000⟩
        bss := ⟨⟨0x20000004⟩, ⟨0x2000000c⟩⟩ }
    let b := placeWords l.dataLoad [7, 9] Bench.empty
    (l.data.Ordered ∧ l.bss.Ordered ∧ l.SourceFits) ∧
      (∀ i < l.data.wordCount, (b.memory[l.dataLoad.nthWord i]?).isSome) ∧
      (∀ d < l.data.wordCount, 0 < d → l.data.start ≠ l.dataLoad.nthWord d) ∧
      (∀ i < l.data.wordCount, ¬ l.bss.HasWord (l.dataLoad.nthWord i) ∧
        ¬ l.data.HasWord (l.dataLoad.nthWord i)) ∧
      ∃ ready, prepareRam l b = (.returned (), ready) ∧
        ready.memory[l.data.start.nthWord 1]? ≠ b.memory[l.dataLoad.nthWord 1]? :=
  ⟨by decide, by decide, by decide, by decide, _, rfl, by decide⟩

end StageZero
