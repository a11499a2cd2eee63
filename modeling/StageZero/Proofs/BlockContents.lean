/-
# What is in a block

Between the header of a block and the header of the next there is nothing but memory that callers
write to.  This file proves that no block is the worse for its neighbours: a block in hand is filled
with the byte of the last fill of that very block, or with zeros if there was none since it was got,
whatever else was done in the meantime.  Its header is what `allocate` wrote there.

Two facts are read off what a step can do (`Change`).

* **A byte of a block in hand** (`Sound.get_of_change`) is after a step what it was before, unless
  the step fills this block.  New grants are apart from all extents that are out, blocks in hand are
  apart from each other, and giving a block back writes nothing.
* **A block in hand after a step** (`Change.block?`) was in hand before it, or the step is the
  allocation that it came by.

The two facts together carry the story of a block (`Story`) from one turn to the next.  The
induction is on the last turn, so that the story of a block never has to be told ahead: what happens
to it after it was given back does not matter.  As for the books, where a new block goes is settled
anew in each turn, and all that is known of the place is that it is vacant.
-/
import Mathlib.Data.List.Induction
import StageZero.Proofs.Ledger

namespace StageZero.Allocator

/-! ## 1. The bytes of a block -/

/-- Memory that holds one byte all over a block shows as that many copies of it. -/
theorem Block.window_eq_replicate {b : Block} {m : Bytes} {byte : UInt8}
    (h : ∀ j, b.body.Has j → m.get j = byte) :
    m.window b.address b.size = List.replicate b.size byte := by
  refine List.ext_getElem? fun k => ?_
  rw [Bytes.getElem?_window, List.getElem?_replicate]
  by_cases hk : k < b.size
  · rw [if_pos hk, if_pos hk, h (b.address + k) ⟨by simp [body], by simpa [body] using hk⟩]
  · rw [if_neg hk, if_neg hk]

/-- The block that was granted is all zeros. -/
theorem Arena.get_give_behind {base size : Nat} (a : Arena) {j : Nat}
    (hj : (Block.behind base size).body.Has j) :
    (a.give base (size + headerBytes)).memory.get j = 0 := by
  simp only [Extent.Has, Block.body, Block.behind] at hj
  rw [give, Bytes.get_writeLE_outside (by omega), Bytes.get_wipe, if_pos (by omega)]

/-! ## 2. One step -/

/-- The byte of the last fill of a block, if there is one among some steps. -/
def lastFill? (i : Nat) (steps : List Step) : Option UInt8 := steps.reverse.findSome? (Step.fill? i)

theorem lastFill?_concat (i : Nat) (steps : List Step) (x : Step) :
    lastFill? i (steps ++ [x]) = (x.fill? i).or (lastFill? i steps) := by
  rw [lastFill?, List.reverse_concat, List.findSome?_cons]
  cases x.fill? i <;> rfl

namespace Session

/-- **A block in hand after a step** was in hand before it, or came by it. -/
theorem Change.block? {p : Placement} {s after : Session} {x : Step} {reply : Reply}
    (h : Change p s x reply after) {i : Nat} {b : Block} (hb : after.block? i = some b) :
    s.block? i = some b ∨ ∃ size base, x = .allocate size ∧ s.Granted p size base ∧
      i = s.blocks.size ∧ b = .behind base size.toNat := by
  cases h with
  | nothing _ _ => exact Or.inl hb
  | @granted size base hgranted =>
    rw [got, block?_push] at hb
    by_cases hi : i = s.blocks.size
    · rw [if_pos hi] at hb
      exact Or.inr ⟨size, base, rfl, hgranted, hi, (Option.some.inj hb).symm⟩
    · rw [if_neg hi] at hb
      exact Or.inl hb
  | @released k c _ =>
    rw [block?_setNone] at hb
    by_cases hi : i = k
    · rw [if_pos hi] at hb
      cases hb
    · rw [if_neg hi] at hb
      exact Or.inl hb
  | filled _ _ => exact Or.inl hb

section Sound

variable {capacity : Nat} {entries : List Entry} {s : Session} (h : Sound capacity entries s)
include h

theorem Sound.kept_of_block {i : Nat} {b : Block} (hb : s.block? i = some b) :
    b.Kept s.arena := by
  obtain ⟨e, he, -, rfl⟩ := h.listed.mp hb
  exact h.kept e he

theorem Sound.apart_of_block {i k : Nat} {b c : Block} (hb : s.block? i = some b)
    (hc : s.block? k = some c) (hne : i ≠ k) : b.extent.Apart c.extent := by
  obtain ⟨e, he, rfl, rfl⟩ := h.listed.mp hb
  obtain ⟨f, hf, rfl, rfl⟩ := h.listed.mp hc
  exact h.apart he hf hne

/-- **A byte of a block in hand** is after a step what it was before, unless the step fills this
block. -/
theorem Sound.get_of_change {p : Placement} {x : Step} {reply : Reply} {after : Session}
    (hchange : Change p s x reply after) {i : Nat} {b : Block} (hb : s.block? i = some b) {j : Nat}
    (hj : b.body.Has j) :
    after.arena.memory.get j = (x.fill? i).getD (s.arena.memory.get j) := by
  have hkept := h.kept_of_block hb
  have hextent : b.extent.Has j := (Block.extent_has_iff hkept.above j).mpr (Or.inr hj)
  cases hchange with
  | nothing _ hfill => rw [hfill i b hb, Option.getD_none]
  | granted hgranted =>
    exact Arena.get_give hkept.granted hextent hgranted.vacant (Nat.le_add_left _ _)
  | released _ => rfl
  | @filled k c byte hc =>
    rw [Bytes.get_fill, Step.fill?]
    by_cases hk : k = i
    · subst hk
      obtain rfl : b = c := Option.some.inj (hb.symm.trans hc)
      have hin : b.address ≤ j ∧ j < b.address + b.size := hj
      rw [if_pos rfl, if_pos hin, Option.getD_some]
    · -- The other block is apart from this one, and its body all the more.
      have hout := (h.apart_of_block hb hc (Ne.symm hk)).not_has hextent
      have hin : ¬ (c.address ≤ j ∧ j < c.address + c.size) := fun hin =>
        hout ((Block.extent_has_iff (h.kept_of_block hc).above j).mpr (Or.inr hin))
      rw [if_neg hk, if_neg hin, Option.getD_none]

end Sound

/-! ## 3. The story of a block -/

theorem finish_concat (past : List Turn) (t : Turn) (s : Session) :
    finish (past ++ [t]) s = ((finish past s).step t.placement t.step).2 := by
  induction past generalizing s with
  | nil => rw [List.nil_append, finish_cons]; rfl
  | cons u past ih => rw [List.cons_append, finish_cons, ih, finish_cons]

/-- **The story of a block** that came by allocating `size` bytes after the turns `before`, when the
arena put it at `base`, and of what was done in the turns `later` since then. -/
structure Story (capacity : Nat) (i : Nat) (b : Block) (before : List Turn) (size : UInt64)
    (p : Placement) (base : Nat) (later : List Turn) : Prop where
  granted : (finish before (new capacity)).Granted p size base
  number : i = (finish before (new capacity)).blocks.size
  block : b = .behind base size.toNat
  bytes : ∀ j, b.body.Has j →
    (finish (before ++ ⟨.allocate size, p⟩ :: later) (new capacity)).arena.memory.get j =
      (lastFill? i (later.map Turn.step)).getD 0

/-- **Every block in hand has a story.** -/
theorem exists_story {capacity : Nat} (past : List Turn) {i : Nat} {b : Block}
    (hb : (finish past (new capacity)).block? i = some b) :
    ∃ before size p base later, past = before ++ ⟨.allocate size, p⟩ :: later ∧
      Story capacity i b before size p base later := by
  induction past using List.reverseRecOn with
  | nil => simp [finish, play, new, block?] at hb
  | append_singleton past t ih =>
    obtain ⟨x, q⟩ := t
    have hsound := (sound_new capacity).finish past
    rw [finish_concat] at hb
    rcases (step_change q _ x).block? hb with hold | ⟨size, base, rfl, hgranted, hi, hnew⟩
    · obtain ⟨before, size, p, base, later, rfl, story⟩ := ih hold
      refine ⟨before, size, p, base, later ++ [⟨x, q⟩], by simp, story.granted, story.number,
        story.block, fun j hj => ?_⟩
      have hpast : before ++ ⟨.allocate size, p⟩ :: (later ++ [⟨x, q⟩]) =
          (before ++ ⟨.allocate size, p⟩ :: later) ++ [⟨x, q⟩] := by simp
      rw [hpast, finish_concat, hsound.get_of_change (step_change q _ x) hold hj,
        story.bytes j hj, List.map_append, List.map_singleton, lastFill?_concat]
      cases x.fill? i <;> rfl
    · refine ⟨past, size, q, base, [], rfl, hgranted, hi, hnew, fun j hj => ?_⟩
      rw [finish_concat, step_allocate_granted q hgranted]
      rw [hnew] at hj
      exact Arena.get_give_behind _ hj

section Story

variable {capacity i base : Nat} {b : Block} {before later : List Turn} {size : UInt64}
variable {p : Placement} (story : Story capacity i b before size p base later)
include story

/-- The block of a story is the one that the allocation handed out. -/
theorem Story.reply : ((finish before (new capacity)).step p (.allocate size)).1 =
    .allocated (some ⟨size.toNat + headerBytes, alignment⟩) (some (i, b)) := by
  rw [step_allocate_granted p story.granted, ← story.number, ← story.block]

/-- It lies in what the arena granted for it. -/
theorem Story.grant : ∃ granted,
    (finish before (new capacity)).arena.grant p (size.toNat + headerBytes) =
      some (base, granted) := by
  rw [Arena.grant, if_pos story.granted.fits, story.granted.placed]
  exact ⟨_, rfl⟩

end Story

/-! ## 4. Every block in hand -/

/-- **A block holds what its caller last put there.**  After any turns on a fresh arena, every block
in hand came by an allocation among them.  It is aligned; the bytes that the arena granted for it,
none of them at address zero, are those of its header and its own; and it shares none of them with
another block in hand.

Its header says how long the grant is.  Its bytes are that of the last fill of this block since it
came, or zero if there was none, whatever the turns did to other blocks.  So this is what its caller
sees. -/
theorem block_holds_last_fill (capacity : Nat) (past : List Turn) (i : Nat) (b : Block)
    (hb : (finish past (new capacity)).block? i = some b) :
    ∃ before size p later, past = before ++ ⟨.allocate size, p⟩ :: later ∧
      let s := finish past (new capacity)
      let earlier := finish before (new capacity)
      let byte := (lastFill? i (later.map Turn.step)).getD 0
      (earlier.step p (.allocate size)).1 =
        .allocated (some ⟨size.toNat + 8, 8⟩) (some (i, b)) ∧
      b.size = size.toNat ∧
      8 ∣ b.address ∧
      (∃ base granted, earlier.arena.grant p (size.toNat + 8) = some (base, granted) ∧ 0 < base ∧
        ∀ j, Extent.Has ⟨base, size.toNat + 8⟩ j ↔ b.front.Has j ∨ b.body.Has j) ∧
      (∀ k c, k ≠ i → s.block? k = some c → b.extent.Apart c.extent) ∧
      header b.address s.arena = size.toNat + 8 ∧
      s.arena.memory.window b.address b.size = List.replicate b.size byte ∧
      (∀ q, (s.step q (.peek i)).1 = .peeked (size.toNat + 8) (List.replicate b.size byte)) := by
  have hsound := (sound_new capacity).finish past
  have hkept := hsound.kept_of_block hb
  obtain ⟨before, size, p, base, later, hpast, story⟩ := exists_story past hb
  obtain ⟨granted, hgrant⟩ := story.grant
  obtain ⟨hnonzero, haligned, -⟩ := story.granted.vacant
  have hblock := story.block
  have hsize : b.size = size.toNat := by
    rw [hblock]
    rfl
  have hheader : header b.address (finish past (new capacity)).arena = size.toNat + 8 := by
    rw [hkept.header, hsize]
    rfl
  have hbytes := story.bytes
  rw [← hpast] at hbytes
  have hwindow := Block.window_eq_replicate hbytes
  refine ⟨before, size, p, later, hpast, story.reply, hsize, ?_,
    ⟨base, granted, hgrant, hnonzero, ?_⟩, ?_, hheader, hwindow, ?_⟩
  · rw [hblock]
    simp only [Block.behind, alignment, headerBytes] at haligned ⊢
    omega
  · intro j
    rw [← Block.extent_has_iff hkept.above, hblock, Block.extent_behind, headerBytes]
  · intro k c hne hc
    exact hsound.apart_of_block hb hc (Ne.symm hne)
  · intro q
    simp only [step, hb, hheader, hwindow]

/-- A block in a place that another one was given back from.  What was written there before is gone,
and what was written next to it never came there; in between, a block of the same size went
elsewhere. -/
theorem block_holds_last_fill_reused :
    let past : List Turn := [⟨.allocate 8, .above⟩, ⟨.allocate 16, .above⟩, ⟨.fill 1 0xff, .above⟩,
      ⟨.fill 0 0x11, .above⟩, ⟨.free (some 1), .above⟩, ⟨.allocate 3, .aim 1024 .above⟩,
      ⟨.free (some 2), .above⟩, ⟨.allocate 3, .above⟩, ⟨.fill 0 0x22, .above⟩]
    let s := finish past (new 64)
    s.block? 3 = some ⟨32, 3⟩ ∧ (s.step .above (.peek 3)).1 = .peeked 11 [0, 0, 0] := by
  intro past s
  have hb : s.block? 3 = some ⟨32, 3⟩ := by decide +kernel
  obtain ⟨before, size, p, later, hpast, -, hsize, -, -, -, -, -, hpeek⟩ :=
    block_holds_last_fill 64 past 3 ⟨32, 3⟩ hb
  -- No step fills the block, and so none of those since it came does.
  have hnone : ∀ x ∈ past.map Turn.step, x.fill? 3 = none := by decide
  have hlast : lastFill? 3 (later.map Turn.step) = none := by
    refine List.findSome?_eq_none_iff.mpr fun x hx => hnone x ?_
    rw [hpast, List.map_append, List.map_cons]
    exact List.mem_append_right _ (List.mem_cons_of_mem _ (List.mem_reverse.mp hx))
  have hpeek := hpeek .above
  rw [← hsize, hlast] at hpeek
  exact ⟨hb, hpeek⟩

end Session

end StageZero.Allocator
