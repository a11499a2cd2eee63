/-
# A break that only moves up

Nothing checks how far a heap grows.  The break is a wrapped sum, so a heap that is grown for long
enough begins again at zero, and hands out bytes that it has handed out before.  This file settles
when that happens: the breaks of a heap are in ascending order exactly if its origin and all of its
increments together stay below the size of the address space (`Fits`, `pairwise_breaks_iff`).  A wrap never
goes unseen, not even one that many small steps lead up to: no increment is as large as the address
space, so the step that wraps lands below where it began.

As long as there is no wrap, the blocks that were handed out lie one behind the other
(`pairwise_blocks`, `isChain_blocks`), and every byte between the origin and the break is in one of
them (`mem_blocks_iff`).

All of this is by induction on the increments.  Growing a heap from `a` by the first of them leaves
what a new heap with its origin there would be (`breaks_cons`, `blocks_cons`).
-/
import StageZero.Allocator
import StageZero.Proofs.Growth

namespace StageZero.Heap

open Allocator (Extent)

/-! ## 1. Growing again and again -/

/-- Grows a heap by one increment after the other.  For each there is where the break was, and the
heap after it. -/
def growAll : List UInt32 → Origin → Heap → List (Address × Heap)
  | [], _, _ => []
  | n :: ns, o, h =>
    let (previous, o, h) := h.grow n o
    (previous, h) :: growAll ns o h

/-- **The breaks of a heap that begins at `a`**: first `a`, and then the one after each growth. -/
def breaks (a : Address) (ns : List UInt32) : List Address :=
  a :: (growAll ns { value := a } untouched).filterMap (·.2.top)

/-- **The blocks that a heap hands out** which begins at `a`: from where the break was, as many bytes
as were asked for. -/
def blocks (a : Address) (ns : List UInt32) : List Extent :=
  List.zipWith (fun grown n => ⟨grown.1.val.toNat, n.toNat⟩)
    (growAll ns { value := a } untouched) ns

/-- A heap that has a break does not ask for its origin. -/
theorem growAll_of_top (ns : List UInt32) (a : Address) (o o' : Origin) :
    growAll ns o ⟨some a⟩ = growAll ns o' ⟨some a⟩ := by
  induction ns generalizing a with
  | nil => rfl
  | cons n ns ih => exact congrArg (List.cons _) (ih _)

/-- A heap with a break grows as a new one would that has its origin there. -/
theorem growAll_untouched (ns : List UInt32) (a : Address) (o : Origin) :
    growAll ns o ⟨some a⟩ = growAll ns { value := a } untouched := by
  cases ns with
  | nil => rfl
  | cons n ns => exact congrArg (List.cons _) (growAll_of_top ns _ _ _)

theorem growAll_cons (a : Address) (n : UInt32) (ns : List UInt32) :
    growAll (n :: ns) { value := a } untouched =
      (a, ⟨some ⟨a.val + n⟩⟩) :: growAll ns { value := ⟨a.val + n⟩ } untouched :=
  congrArg (List.cons _) (growAll_untouched ns _ _)

theorem breaks_cons (a : Address) (n : UInt32) (ns : List UInt32) :
    breaks a (n :: ns) = a :: breaks ⟨a.val + n⟩ ns := by
  rw [breaks, growAll_cons]
  rfl

theorem blocks_cons (a : Address) (n : UInt32) (ns : List UInt32) :
    blocks a (n :: ns) = ⟨a.val.toNat, n.toNat⟩ :: blocks ⟨a.val + n⟩ ns := by
  rw [blocks, growAll_cons]
  rfl

theorem length_breaks (a : Address) (ns : List UInt32) :
    (breaks a ns).length = ns.length + 1 := by
  induction ns generalizing a with
  | nil => rfl
  | cons n ns ih => rw [breaks_cons, List.length_cons, ih, List.length_cons]

theorem length_blocks (a : Address) (ns : List UInt32) : (blocks a ns).length = ns.length := by
  induction ns generalizing a with
  | nil => rfl
  | cons n ns ih => rw [blocks_cons, List.length_cons, ih, List.length_cons]

/-! ## 2. Breaks in ascending order -/

/-- An origin and all increments together stay below the size of the address space. -/
def Fits (a : Address) (ns : List UInt32) : Prop := a.val.toNat + totalBytes ns < 4294967296

instance (a : Address) (ns : List UInt32) : Decidable (Fits a ns) :=
  inferInstanceAs (Decidable (_ < _))

variable {a : Address} {n : UInt32} {ns : List UInt32}

theorem Fits.toNat_next (h : Fits a (n :: ns)) : (a.val + n).toNat = a.val.toNat + n.toNat := by
  rw [Fits, totalBytes_cons] at h
  rw [UInt32.toNat_add, Nat.mod_eq_of_lt (by omega)]

/-- **The first step goes up, or it wraps and goes down**: no increment is as large as the address
space. -/
theorem fits_cons_iff : Fits a (n :: ns) ↔ a.val ≤ a.val + n ∧ Fits ⟨a.val + n⟩ ns := by
  have ha := UInt32.toNat_lt a.val
  have hn := UInt32.toNat_lt n
  rw [Fits, Fits, totalBytes_cons, UInt32.le_iff_toNat_le, UInt32.toNat_add]
  omega

/-- **The breaks are in ascending order exactly if the last of them has not wrapped.** -/
theorem pairwise_breaks_iff (a : Address) (ns : List UInt32) :
    (breaks a ns).Pairwise (fun x y => x.val ≤ y.val) ↔ Fits a ns := by
  induction ns generalizing a with
  | nil =>
    have ha := UInt32.toNat_lt a.val
    simp only [breaks, growAll, List.filterMap_nil, List.pairwise_singleton, Fits, totalBytes_nil,
      true_iff]
    omega
  | cons n ns ih =>
    rw [breaks_cons, List.pairwise_cons, ih, fits_cons_iff]
    constructor
    · rintro ⟨hfirst, hrest⟩
      exact ⟨hfirst ⟨a.val + n⟩ List.mem_cons_self, hrest⟩
    · rintro ⟨hup, hrest⟩
      refine ⟨fun x hx => ?_, hrest⟩
      rcases List.mem_cons.mp hx with rfl | hx
      · exact hup
      · have hsorted := (ih ⟨a.val + n⟩).mpr hrest
        exact UInt32.le_trans hup ((List.pairwise_cons.mp hsorted).1 x hx)

/-- The last break is the origin with everything added. -/
theorem getLast?_breaks (a : Address) (ns : List UInt32) :
    (breaks a ns).getLast? = some (a.above ns) := by
  induction ns generalizing a with
  | nil => rw [Address.above_nil]; rfl
  | cons n ns ih =>
    rw [breaks_cons, List.getLast?_cons, ih, Option.getD_some]
    apply congrArg some
    apply Address.ext_toNat
    rw [Address.toNat_above, Address.toNat_above, UInt32.toNat_add, totalBytes_cons]
    omega

/-! ## 3. Blocks -/

/-- **The blocks together are all bytes between the origin and the break.** -/
theorem mem_blocks_iff (h : Fits a ns) (j : Nat) :
    (∃ e ∈ blocks a ns, e.base ≤ j ∧ j < e.base + e.size) ↔
      a.val.toNat ≤ j ∧ j < a.val.toNat + totalBytes ns := by
  induction ns generalizing a with
  | nil => simp [blocks]
  | cons n ns ih =>
    simp only [blocks_cons, List.mem_cons, exists_eq_or_imp, ih (fits_cons_iff.mp h).2,
      h.toNat_next, totalBytes_cons]
    omega

/-- No block begins below the origin. -/
theorem le_base_of_mem_blocks (h : Fits a ns) {e : Extent} (he : e ∈ blocks a ns) :
    a.val.toNat ≤ e.base := by
  induction ns generalizing a with
  | nil => cases he
  | cons n ns ih =>
    rw [blocks_cons] at he
    rcases List.mem_cons.mp he with rfl | he
    · exact Nat.le_refl _
    · have hle := ih (fits_cons_iff.mp h).2 he
      rw [h.toNat_next] at hle
      omega

/-- **Each block ends before all later ones begin.** -/
theorem pairwise_blocks (h : Fits a ns) :
    (blocks a ns).Pairwise fun e f => e.base + e.size ≤ f.base := by
  induction ns generalizing a with
  | nil => exact .nil
  | cons n ns ih =>
    have hrest := (fits_cons_iff.mp h).2
    rw [blocks_cons]
    refine .cons (fun e he => ?_) (ih hrest)
    have hle := le_base_of_mem_blocks hrest he
    rwa [h.toNat_next] at hle

/-- **Each block begins where the one before it ends.** -/
theorem isChain_blocks (h : Fits a ns) :
    (blocks a ns).IsChain fun e f => f.base = e.base + e.size := by
  induction ns generalizing a with
  | nil => exact .nil
  | cons n ns ih =>
    have hrest := ih (fits_cons_iff.mp h).2
    rw [blocks_cons]
    cases ns with
    | nil => exact .singleton _
    | cons m ns =>
      rw [blocks_cons] at hrest ⊢
      exact .cons_cons h.toNat_next hrest

/-! ## 4. One heap -/

/-- **The break of a heap only moves up, exactly as long as the address space lasts.**  After each
growth there is a break.  These are in ascending order, from the origin on, exactly if the origin and
all increments together are below the size of the address space.  In that case the blocks that were
handed out, one for each growth, have no byte in common; they lie in ascending order, each beginning
where the one before it ends; and together they are all bytes from the origin up to the break. -/
theorem break_only_moves_up (a : Address) (ns : List UInt32) :
    (breaks a ns).length = ns.length + 1 ∧
      ((breaks a ns).Pairwise (fun x y => x.val ≤ y.val) ↔
        a.val.toNat + totalBytes ns < 4294967296) ∧
      (a.val.toNat + totalBytes ns < 4294967296 →
        (blocks a ns).length = ns.length ∧
        (blocks a ns).Pairwise Extent.Apart ∧
        (blocks a ns).Pairwise (fun e f => e.base + e.size ≤ f.base) ∧
        (blocks a ns).IsChain (fun e f => f.base = e.base + e.size) ∧
        ∃ last, (breaks a ns).getLast? = some last ∧
          ∀ j, (∃ e ∈ blocks a ns, e.base ≤ j ∧ j < e.base + e.size) ↔
            a.val.toNat ≤ j ∧ j < last.val.toNat) := by
  refine ⟨length_breaks a ns, pairwise_breaks_iff a ns, fun hfits => ?_⟩
  have hascending := pairwise_blocks hfits
  refine ⟨length_blocks a ns, hascending.imp Or.inl, hascending, isChain_blocks hfits,
    a.above ns, getLast?_breaks a ns, fun j => ?_⟩
  rw [Address.toNat_above, Nat.mod_eq_of_lt hfits]
  exact mem_blocks_iff hfits j

/-- Three growths, one of them for no bytes, up to the last address there is.  One byte more and the
break is zero. -/
theorem break_only_moves_up_to_top :
    let a : Address := ⟨0xfffffff0⟩
    (blocks a [8, 0, 7]).Pairwise Extent.Apart ∧
      (breaks a [8, 0, 7]).Pairwise (fun x y => x.val ≤ y.val) ∧
      ¬ (breaks a [8, 0, 7, 1]).Pairwise (fun x y => x.val ≤ y.val) := by
  intro a
  obtain ⟨-, hup, hblocks⟩ := break_only_moves_up a [8, 0, 7]
  obtain ⟨-, hwrap, -⟩ := break_only_moves_up a [8, 0, 7, 1]
  refine ⟨(hblocks (by decide)).2.1, hup.mpr (by decide), fun hsorted => ?_⟩
  exact absurd (hwrap.mp hsorted) (by decide)

end StageZero.Heap
