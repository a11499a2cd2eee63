/-
# What a validated layout is good for

`Layout.validate` looks at the two regions and at the alignment of two addresses.  It does not
look at the range that the data is loaded from, and that range may still run past the top of the
address space.  This file settles how far validation goes on the way through preparing RAM.

* A validated layout has a source and its zeroed region has words: neither asks for the length of
  an inverted region (`validate_eq_ok_iff`).
* Its source has a length, which then is that of the data region, exactly if it ends below the top
  (`lengthWords_source_iff`).  Then RAM can be prepared from every bench that has the source words.
  Otherwise the end has wrapped, and preparing RAM faults before it touches a word.

The second case is real: a single data word will do, if it is loaded from the last word of the
address space.
-/
import StageZero.Proofs.RamImage

namespace StageZero

/-! ## 1. What is checked -/

namespace Region

/-- Both bounds of a region are aligned, and it is in order. -/
def Valid (r : Region) : Prop := r.start.Aligned ∧ r.stop.Aligned ∧ r.Ordered

instance (r : Region) : Decidable r.Valid := inferInstanceAs (Decidable (_ ∧ _ ∧ _))

/-- Misaligned bounds are reported first. -/
theorem check_of_misaligned {r : Region} (h : ¬ (r.start.Aligned ∧ r.stop.Aligned)) :
    r.check = .error .misaligned := by
  rw [check, ofBounds, if_pos (Decidable.not_and_iff_or_not.mp h)]

/-- With aligned bounds the order decides. -/
theorem check_of_aligned {r : Region} (hstart : r.start.Aligned) (hstop : r.stop.Aligned) :
    r.check = if r.stop.val < r.start.val then .error .inverted else .ok r := by
  have haligned : ¬ (¬ r.start.Aligned ∨ ¬ r.stop.Aligned) := by
    rintro (hmis | hmis)
    · exact hmis hstart
    · exact hmis hstop
  rw [check, ofBounds, if_neg haligned]

theorem check_of_valid {r : Region} (h : r.Valid) : r.check = .ok r := by
  obtain ⟨hstart, hstop, hord⟩ := h
  rw [check_of_aligned hstart hstop, if_neg (UInt32.not_lt.mpr hord)]

theorem check_of_inverted {r : Region} (hstart : r.start.Aligned) (hstop : r.stop.Aligned)
    (h : ¬ r.Ordered) : r.check = .error .inverted := by
  rw [check_of_aligned hstart hstop, if_pos (UInt32.not_le.mp h)]

theorem check_of_not_valid {r : Region} (h : ¬ r.Valid) : ∃ e, r.check = .error e := by
  by_cases haligned : r.start.Aligned ∧ r.stop.Aligned
  · obtain ⟨hstart, hstop⟩ := haligned
    exact ⟨_, check_of_inverted hstart hstop fun hord => h ⟨hstart, hstop, hord⟩⟩
  · exact ⟨_, check_of_misaligned haligned⟩

theorem not_valid_of_check {r : Region} {e : Error} (h : r.check = .error e) : ¬ r.Valid := by
  intro hvalid
  rw [check_of_valid hvalid] at h
  cases h

/-- A region passes its check exactly if it is valid, and is not changed by it. -/
theorem check_eq_ok_iff {r : Region} : r.check = .ok r ↔ r.Valid := by
  refine ⟨fun h => ?_, check_of_valid⟩
  by_cases hvalid : r.Valid
  · exact hvalid
  · obtain ⟨e, he⟩ := check_of_not_valid hvalid
    rw [he] at h
    cases h

/-- Bounds are accepted exactly if they are those of a valid region, and then it is that region. -/
theorem ofBounds_eq_ok_iff {start stop : Address} {r : Region} :
    ofBounds start stop = .ok r ↔ r = ⟨start, stop⟩ ∧ r.Valid := by
  constructor
  · intro h
    by_cases hvalid : (⟨start, stop⟩ : Region).Valid
    · have hsame : ofBounds start stop = .ok ⟨start, stop⟩ := check_of_valid hvalid
      rw [hsame] at h
      cases h
      exact ⟨rfl, hvalid⟩
    · obtain ⟨e, he⟩ := check_of_not_valid hvalid
      rw [show ofBounds start stop = .error e from he] at h
      cases h
  · rintro ⟨rfl, hvalid⟩
    exact check_of_valid hvalid

end Region

namespace Layout

/-- **What validation can come to.**  Each check is made only if those before it were passed. -/
theorem validate_cases (l : Layout) :
    (∃ e, l.data.check = .error e ∧ l.validate = .error e) ∨
      (l.data.Valid ∧ ∃ e, l.bss.check = .error e ∧ l.validate = .error e) ∨
      (l.data.Valid ∧ l.bss.Valid ∧ ¬ (l.dataLoad.Aligned ∧ l.stackTop.Aligned) ∧
        l.validate = .error .misaligned) ∨
      (l.data.Valid ∧ l.bss.Valid ∧ (l.dataLoad.Aligned ∧ l.stackTop.Aligned) ∧
        l.validate = .ok ()) := by
  unfold validate
  by_cases hdata : l.data.Valid
  · rw [Region.check_of_valid hdata]
    by_cases hbss : l.bss.Valid
    · rw [Region.check_of_valid hbss]
      by_cases haligned : l.dataLoad.Aligned ∧ l.stackTop.Aligned
      · simp [hdata, hbss, haligned]
      · have hmis : ¬ l.dataLoad.Aligned ∨ ¬ l.stackTop.Aligned :=
          Decidable.not_and_iff_or_not.mp haligned
        exact Or.inr (Or.inr (Or.inl ⟨hdata, hbss, haligned, if_pos hmis⟩))
    · obtain ⟨e, he⟩ := Region.check_of_not_valid hbss
      exact Or.inr (Or.inl ⟨hdata, e, he, by rw [he]⟩)
  · obtain ⟨e, he⟩ := Region.check_of_not_valid hdata
    exact Or.inl ⟨e, he, by rw [he]⟩

/-- **What a layout must be to pass.** -/
theorem validate_eq_ok_iff {l : Layout} :
    l.validate = .ok () ↔
      l.data.Valid ∧ l.bss.Valid ∧ l.dataLoad.Aligned ∧ l.stackTop.Aligned := by
  rcases l.validate_cases with
    ⟨e, hdata, h⟩ | ⟨-, e, hbss, h⟩ | ⟨-, -, haligned, h⟩ | ⟨hdata, hbss, haligned, h⟩
  · simp [h, Region.not_valid_of_check hdata]
  · simp [h, Region.not_valid_of_check hbss]
  · simp [h, haligned]
  · simp [h, hdata, hbss, haligned]

end Layout

/-! ## 2. The source of a layout whose load address is aligned -/

/-- The source passes a check of its bounds exactly if it ends below the top. -/
theorem Layout.ofBounds_source_iff {l : Layout} (hload : l.dataLoad.Aligned) :
    Region.ofBounds l.source.start l.source.stop = .ok l.source ↔ l.SourceFits := by
  refine Region.check_eq_ok_iff.trans ?_
  rw [← source_ordered_iff]
  constructor
  · rintro ⟨-, -, hord⟩
    exact hord
  · intro hord
    exact ⟨hload, (Address.aligned_nthWord _).mpr hload, hord⟩

/-- The source is as long as the data exactly if it ends below the top; else it has no length. -/
theorem Layout.lengthWords_source_iff {l : Layout} (hdata : l.data.Ordered) :
    l.source.lengthWords = l.data.lengthWords ↔ l.SourceFits := by
  rw [← source_ordered_iff, Region.lengthWords_of_ordered hdata]
  by_cases hsource : l.source.Ordered
  · have hcount := wordCount_source ((source_ordered_iff l).mp hsource)
    simp only [hsource, Region.lengthWords_of_ordered hsource, hcount]
  · simp only [hsource, Region.lengthWords_of_not_ordered hsource, reduceCtorEq]

/-! ## 3. How far validation goes -/

/-- **A validated layout and its RAM.**  Its source is there and so are the words of its zeroed
region.  The source passes the check of a region, and is as long as the data, exactly if it ends
below the top of the address space.  In that case RAM can be prepared from every bench with the
source words; otherwise preparing it faults, since the length of the source is a subtraction that is
checked for overflow, and nothing was done. -/
theorem prepareRam_of_validate (l : Layout) (h : l.validate = .ok ()) :
    ∃ source, l.dataSource = .ok source ∧
      (∃ ws, l.bss.words = .ok ws) ∧
      (Region.ofBounds source.start source.stop = .ok source ↔ l.SourceFits) ∧
      (source.lengthWords = l.data.lengthWords ↔ l.SourceFits) ∧
      (l.SourceFits → ∀ b : Bench,
        (∀ i < l.data.wordCount, (b.memory[l.dataLoad.nthWord i]?).isSome) →
        ∃ ready, prepareRam l b = (.returned (), ready)) ∧
      (¬ l.SourceFits → ∀ b : Bench, prepareRam l b = (.faulted .underflow, b)) := by
  obtain ⟨⟨-, -, hdata⟩, ⟨-, -, hbss⟩, hload, -⟩ := Layout.validate_eq_ok_iff.mp h
  refine ⟨l.source, Layout.dataSource_of_ordered hdata, ⟨_, Region.words_of_ordered hbss⟩,
    Layout.ofBounds_source_iff hload, Layout.lengthWords_source_iff hdata, ?_, ?_⟩
  · intro hfits b hsource
    obtain ⟨ready, hrun, -⟩ :=
      prepareRam_returns ⟨hdata, hbss, hfits, Bench.readable_of_present hsource⟩
    exact ⟨ready, hrun⟩
  · intro hnot b
    exact prepareRam_of_load_faults (loadData_of_not_fits (fun hboth => hnot hboth.2) b)

/-- A layout that is loaded from the very last place that is low enough. -/
theorem prepareRam_of_validate_highest :
    let l : Layout :=
      { stackTop := ⟨0x20010000⟩
        data := ⟨⟨0x20000000⟩, ⟨0x20000004⟩⟩
        dataLoad := ⟨0xfffffff8⟩
        bss := ⟨⟨0x20000004⟩, ⟨0x20000008⟩⟩ }
    l.validate = .ok () ∧
      ∃ ready, prepareRam l (placeWords l.dataLoad [7] Bench.empty) = (.returned (), ready) := by
  intro l
  have hvalid : l.validate = .ok () := Layout.validate_eq_ok_iff.mpr (by decide)
  obtain ⟨-, -, -, -, -, hloads, -⟩ := prepareRam_of_validate l hvalid
  exact ⟨hvalid, hloads (by decide) _ (by decide)⟩

/-- **Validation is not enough.**  One word of data, loaded from the last word there is: the end of
the source wraps to zero, so the source is no region, it has no length, and preparing RAM faults
although the word is there. -/
theorem validated_source_wraps :
    let l : Layout :=
      { stackTop := ⟨0x20010000⟩
        data := ⟨⟨0x20000000⟩, ⟨0x20000004⟩⟩
        dataLoad := ⟨0xfffffffc⟩
        bss := ⟨⟨0x20000004⟩, ⟨0x20000008⟩⟩ }
    let b := placeWords l.dataLoad [7] Bench.empty
    l.validate = .ok () ∧
      (∀ i < l.data.wordCount, (b.memory[l.dataLoad.nthWord i]?).isSome) ∧
      l.dataSource = .ok ⟨⟨0xfffffffc⟩, ⟨0⟩⟩ ∧
      Region.ofBounds ⟨0xfffffffc⟩ ⟨0⟩ = .error .inverted ∧
      Region.lengthWords ⟨⟨0xfffffffc⟩, ⟨0⟩⟩ = .error .underflow ∧
      l.data.lengthWords = .ok 1 ∧
      (prepareRam l b).1 = .faulted .underflow :=
  ⟨rfl, by decide, rfl, rfl, rfl, rfl, by decide⟩

end StageZero
