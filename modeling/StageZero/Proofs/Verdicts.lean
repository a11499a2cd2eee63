/-
# The verdict on a layout

A layout comes from the linker, which has checked its symbols before there was an image at all:
every one of them is a multiple of four, and neither of the two sections ends below its start
(`Layout.WellPlaced`).  `Layout.validate` is to come to the same verdict from the addresses alone,
and where it refuses, it has one reason to give although several may apply.  This file says which.

* **Passing** is what the linker asserts (`wellPlaced_iff`), and nothing more.
* **The first check that fails decides** (`validate_eq_error_iff`): the data region, then the
  zeroed region, then the two single addresses.  Within a region, alignment is looked at before the
  order.
* So a layout is called inverted only on account of a region whose bounds are aligned
  (`Region.Reversed`), and a reversed zeroed region is not noticed behind data that fails itself.
  Everything else that is wrong is called misaligned; there is no third reason.
-/
import StageZero.Firmware
import StageZero.Proofs.Underflow
import StageZero.Proofs.Validation

namespace StageZero

/-! ## 1. What the linker asserts -/

/-- A section is placed at multiples of four, and does not end below its start. -/
def Region.WellPlaced (r : Region) : Prop :=
  r.start.val.toNat % 4 = 0 ∧ r.stop.val.toNat % 4 = 0 ∧ r.start.val.toNat ≤ r.stop.val.toNat

theorem Region.wellPlaced_iff (r : Region) : r.WellPlaced ↔ r.Valid := by
  unfold WellPlaced Valid Ordered
  rw [Address.aligned_iff, Address.aligned_iff, UInt32.le_iff_toNat_le]

/-- **What the linker asserts of an image**, one assertion after the other. -/
structure Layout.WellPlaced (l : Layout) : Prop where
  stackTop : l.stackTop.val.toNat % 4 = 0
  data : l.data.WellPlaced
  dataLoad : l.dataLoad.val.toNat % 4 = 0
  bss : l.bss.WellPlaced

theorem Layout.wellPlaced_iff (l : Layout) :
    l.WellPlaced ↔ l.data.Valid ∧ l.bss.Valid ∧ l.dataLoad.Aligned ∧ l.stackTop.Aligned := by
  rw [← Region.wellPlaced_iff, ← Region.wellPlaced_iff, Address.aligned_iff, Address.aligned_iff]
  constructor
  · rintro ⟨htop, hdata, hload, hbss⟩
    exact ⟨hdata, hbss, hload, htop⟩
  · rintro ⟨hdata, hbss, hload, htop⟩
    exact ⟨htop, hdata, hload, hbss⟩

/-! ## 2. Why a region is refused -/

namespace Region

/-- Both bounds are aligned, but the region ends below its start. -/
def Reversed (r : Region) : Prop := r.start.Aligned ∧ r.stop.Aligned ∧ r.Inverted

/-- **A region is refused for its alignment, or, if that is good, for its order.** -/
theorem check_eq_error_iff {r : Region} {e : Error} :
    r.check = .error e ↔
      (e = .misaligned ∧ ¬ (r.start.Aligned ∧ r.stop.Aligned)) ∨ (e = .inverted ∧ r.Reversed) := by
  by_cases haligned : r.start.Aligned ∧ r.stop.Aligned
  · obtain ⟨hstart, hstop⟩ := haligned
    by_cases hord : r.Ordered
    · simp [check_of_valid ⟨hstart, hstop, hord⟩, Reversed, inverted_iff, hstart, hstop, hord]
    · simp [check_of_inverted hstart hstop hord, Reversed, inverted_iff, hstart, hstop, hord,
        eq_comm]
  · have hnot : ¬ r.Reversed := fun ⟨hstart, hstop, _⟩ => haligned ⟨hstart, hstop⟩
    simp [check_of_misaligned haligned, haligned, hnot, eq_comm]

theorem check_eq_inverted_iff {r : Region} : r.check = .error .inverted ↔ r.Reversed := by
  simp [check_eq_error_iff]

end Region

/-! ## 3. Why a layout is refused -/

namespace Layout

/-- **The first check that fails decides.** -/
theorem validate_eq_error_iff {l : Layout} {e : Error} :
    l.validate = .error e ↔
      l.data.check = .error e ∨ (l.data.Valid ∧ l.bss.check = .error e) ∨
        (l.data.Valid ∧ l.bss.Valid ∧ ¬ (l.dataLoad.Aligned ∧ l.stackTop.Aligned) ∧
          e = .misaligned) := by
  rcases l.validate_cases with
    ⟨e', hdata, h⟩ | ⟨hdata, e', hbss, h⟩ | ⟨hdata, hbss, haligned, h⟩ | ⟨hdata, hbss, haligned, h⟩
  · simp [h, hdata, Region.not_valid_of_check hdata]
  · simp [h, hdata, hbss, Region.check_of_valid hdata, Region.not_valid_of_check hbss]
  · simp [h, hdata, hbss, haligned, Region.check_of_valid, eq_comm]
  · simp [h, hdata, hbss, haligned, Region.check_of_valid]

theorem validate_eq_inverted_iff {l : Layout} :
    l.validate = .error .inverted ↔ l.data.Reversed ∨ l.data.Valid ∧ l.bss.Reversed := by
  rw [validate_eq_error_iff, Region.check_eq_inverted_iff, Region.check_eq_inverted_iff]
  constructor
  · rintro (hdata | hbss | ⟨-, -, -, hreason⟩)
    · exact Or.inl hdata
    · exact Or.inr hbss
    · cases hreason
  · rintro (hdata | hbss)
    · exact Or.inl hdata
    · exact Or.inr (Or.inl hbss)

/-- There are three verdicts. -/
theorem validate_ok_or_inverted_or_misaligned (l : Layout) :
    l.validate = .ok () ∨ l.validate = .error .inverted ∨ l.validate = .error .misaligned := by
  cases h : l.validate with
  | ok _ => exact Or.inl rfl
  | error e =>
    have hregion : ∀ {r : Region}, r.check = .error e → e = .inverted ∨ e = .misaligned := by
      intro r hr
      rcases Region.check_eq_error_iff.mp hr with ⟨hreason, -⟩ | ⟨hreason, -⟩
      · exact Or.inr hreason
      · exact Or.inl hreason
    have hreason : e = .inverted ∨ e = .misaligned := by
      rcases validate_eq_error_iff.mp h with hdata | ⟨-, hbss⟩ | ⟨-, -, -, hreason⟩
      · exact hregion hdata
      · exact hregion hbss
      · exact Or.inr hreason
    rcases hreason with rfl | rfl
    · exact Or.inr (Or.inl rfl)
    · exact Or.inr (Or.inr rfl)

/-- What does not pass, and is not called inverted, is called misaligned. -/
theorem validate_eq_misaligned_iff {l : Layout} :
    l.validate = .error .misaligned ↔
      ¬ l.validate = .ok () ∧ ¬ l.validate = .error .inverted := by
  constructor
  · intro h
    rw [h]
    exact ⟨nofun, nofun⟩
  · rintro ⟨hfails, hother⟩
    rcases l.validate_ok_or_inverted_or_misaligned with hok | hinverted | hmis
    · exact absurd hok hfails
    · exact absurd hinverted hother
    · exact hmis

/-- A layout passes exactly if both of its regions can be made again from their bounds, and its
single addresses are aligned. -/
theorem validate_eq_ok_iff_rebuilds {l : Layout} :
    l.validate = .ok () ↔
      (∃ data, Region.ofBounds l.data.start l.data.stop = .ok data) ∧
        (∃ bss, Region.ofBounds l.bss.start l.bss.stop = .ok bss) ∧
        l.dataLoad.Aligned ∧ l.stackTop.Aligned := by
  have hrebuilds : ∀ r : Region,
      (∃ same, Region.ofBounds r.start r.stop = .ok same) ↔ r.Valid := by
    intro r
    simp only [Region.ofBounds_eq_ok_iff, exists_eq_left]
  rw [validate_eq_ok_iff, hrebuilds, hrebuilds]

/-- **The verdict on a layout**, however its regions came about.  It passes exactly if all that the
linker asserts is so.  It is called inverted exactly if its data is aligned and reversed, or its
data is valid and its zeroed region is aligned and reversed.  In every remaining case it is called
misaligned.  It passes exactly if the bounds of both regions are accepted when they are checked
again, its load address is aligned and its stack top is; and a region whose bounds are accepted
again is the region that it was. -/
theorem validate_decides_placement (l : Layout) :
    (l.validate = .ok () ↔ l.WellPlaced) ∧
      (l.validate = .error .inverted ↔ l.data.Reversed ∨ l.data.Valid ∧ l.bss.Reversed) ∧
      (l.validate = .error .misaligned ↔
        ¬ l.WellPlaced ∧ ¬ (l.data.Reversed ∨ l.data.Valid ∧ l.bss.Reversed)) ∧
      (l.validate = .ok () ↔
        (∃ data, Region.ofBounds l.data.start l.data.stop = .ok data) ∧
          (∃ bss, Region.ofBounds l.bss.start l.bss.stop = .ok bss) ∧
          l.dataLoad.Aligned ∧ l.stackTop.Aligned) ∧
      ∀ r same : Region, Region.ofBounds r.start r.stop = .ok same ↔ same = r ∧ r.Valid := by
  have hpasses : l.validate = .ok () ↔ l.WellPlaced := by
    rw [validate_eq_ok_iff, wellPlaced_iff]
  refine ⟨hpasses, validate_eq_inverted_iff, ?_, validate_eq_ok_iff_rebuilds, fun r same => ?_⟩
  · rw [validate_eq_misaligned_iff, hpasses, validate_eq_inverted_iff]
  · rw [Region.ofBounds_eq_ok_iff]
    constructor
    · rintro ⟨rfl, hvalid⟩
      exact ⟨rfl, hvalid⟩
    · rintro ⟨rfl, hvalid⟩
      exact ⟨rfl, hvalid⟩

/-- The layout of the linked program passes. -/
example : Firmware.layout.validate = .ok () := rfl

end Layout

end StageZero
