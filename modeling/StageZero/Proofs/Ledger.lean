/-
# The books of the allocator balance

A block is given back by its address alone.  How much is given back with it is read from the header
in front of the block, a few bytes below memory that belongs to the caller and next to blocks that
come and go.  This file proves that this is right in every session: the arena has granted just what
the blocks in the caller's hands cost, and each block goes back with the request it was got by.

* **The books** (`books`) are kept from what a caller sees, its own steps and the replies to them:
  a block is entered when it is got, and struck out when it is given back.
* **A block is kept** (`Block.Kept`) as long as its extent is out and its header is what was written
  there.  Whatever changes no byte of the header and does not take the extent back keeps it
  (`Block.Kept.frame`).
* **What a step can do** is said once (`Change`, `step_change`).  No two blocks in the books have a
  byte in common (`Sound.apart`), so a step that works on one of them, on all of its extent even,
  keeps all others.  Books that agree with the session still agree after the step (`Sound.of_step`)
  and after any number of turns (`Sound.finish`).

Nothing is assumed of the places that the arena chooses but that they are vacant (`Vacant`).  Each
turn has a placement of its own, and any vacant place is the choice of one
(`Placement.exists_obliging`), so a block that was given back may be granted again at once or never.
-/
import Mathlib.Algebra.GroupWithZero.Nat
import StageZero.Allocator.Session
import StageZero.Proofs.BoardWords

namespace StageZero.Allocator

/-! ## 1. Places -/

instance (out : List Extent) (e : Extent) : Decidable (Vacant out e) :=
  decidable_of_iff (0 < e.base ∧ e.base % alignment = 0 ∧ ∀ f ∈ out, f.Apart e)
    ⟨fun h => ⟨h.1, h.2.1, h.2.2⟩, fun h => ⟨h.nonzero, h.aligned, h.apart⟩⟩

namespace Placement

/-- A placement that has a place for every request, so that the arena refuses none but those which
are too large for what it has left. -/
def Obliging (p : Placement) : Prop := ∀ out n, ∃ base, p.place out n = some base

theorem obliging_above : above.Obliging := fun _ _ => ⟨_, rfl⟩

/-- Takes one place where that is vacant, and leaves all else to another placement. -/
def aim (base : Nat) (p : Placement) : Placement where
  place out n := if Vacant out ⟨base, n⟩ then some base else p.place out n
  vacant := by
    intro out n found h
    split at h
    case isTrue hvacant =>
      cases h
      exact hvacant
    case isFalse => exact p.vacant h

theorem place_aim {out : List Extent} {base n : Nat} (h : Vacant out ⟨base, n⟩) (p : Placement) :
    (p.aim base).place out n = some base := if_pos h

theorem Obliging.aim {p : Placement} (h : p.Obliging) (base : Nat) : (p.aim base).Obliging := by
  intro out n
  by_cases hvacant : Vacant out ⟨base, n⟩
  · exact ⟨base, place_aim hvacant p⟩
  · obtain ⟨other, hother⟩ := h out n
    exact ⟨other, (if_neg hvacant).trans hother⟩

/-- **Every vacant place is the choice of a placement**, and of one that never lacks a place. -/
theorem exists_obliging {out : List Extent} {base n : Nat} (h : Vacant out ⟨base, n⟩) :
    ∃ p : Placement, p.Obliging ∧ p.place out n = some base :=
  ⟨above.aim base, obliging_above.aim base, place_aim h above⟩

end Placement

/-! ## 2. Extents and blocks -/

/-- A byte belongs to an extent. -/
def Extent.Has (e : Extent) (j : Nat) : Prop := e.base ≤ j ∧ j < e.base + e.size

theorem Extent.Apart.symm {e f : Extent} (h : e.Apart f) : f.Apart e := Or.symm h

/-- Two extents that are apart share no byte. -/
theorem Extent.Apart.not_has {e f : Extent} (h : e.Apart f) {j : Nat} (hj : e.Has j) :
    ¬ f.Has j := by
  rintro ⟨hlo, hhi⟩
  obtain ⟨hlo', hhi'⟩ := hj
  rcases h with h | h
  · omega
  · omega

/-- The extent that was granted for a block: its header, and behind it the block. -/
def Block.extent (b : Block) : Extent := ⟨b.address - headerBytes, b.size + headerBytes⟩

/-- The bytes of a block that its caller writes to. -/
def Block.body (b : Block) : Extent := ⟨b.address, b.size⟩

/-- The bytes right before it, which hold its header. -/
def Block.front (b : Block) : Extent := ⟨b.address - headerBytes, headerBytes⟩

/-- The front and the body of a block make up its extent. -/
theorem Block.extent_has_iff {b : Block} (habove : headerBytes ≤ b.address) (j : Nat) :
    b.extent.Has j ↔ b.front.Has j ∨ b.body.Has j := by
  simp only [Extent.Has, Block.extent, Block.front, Block.body]
  omega

theorem Block.front_apart_body {b : Block} (habove : headerBytes ≤ b.address) :
    b.front.Apart b.body := Or.inl (Nat.le_of_eq (Nat.sub_add_cancel habove))

/-- **An arena keeps a block**: its extent is out, and its header says how long that is. -/
structure Block.Kept (b : Block) (a : Arena) : Prop where
  above : headerBytes ≤ b.address
  granted : b.extent ∈ a.out
  header : header b.address a = b.size + headerBytes

/-- A block is kept as long as its extent is not taken back and its header is not written to. -/
theorem Block.Kept.frame {b : Block} {a after : Arena} (h : b.Kept a)
    (hout : b.extent ∈ after.out)
    (hmem : ∀ j, b.front.Has j → after.memory.get j = a.memory.get j) : b.Kept after where
  above := h.above
  granted := hout
  header := (Bytes.readLE_congr fun j hlo hhi => hmem j ⟨hlo, hhi⟩).trans h.header

/-- Blocks that are apart begin at different places, since no extent of a block is empty. -/
theorem Block.base_ne_of_apart {b c : Block} (h : b.extent.Apart c.extent) :
    b.extent.base ≠ c.extent.base := by
  simp only [Extent.Apart, Block.extent, headerBytes] at h ⊢
  omega

/-! ## 3. The books of a caller -/

/-- A block in the books of a caller: its number, and what reached the arena when it was got. -/
structure Entry where
  number : Nat
  block : Block
  request : Option Request
deriving DecidableEq

/-- What a caller does to its books when it sees the reply to a step. -/
def post (entries : List Entry) : Step × Reply → List Entry
  | (_, .allocated request (some (number, block))) => ⟨number, block, request⟩ :: entries
  | (.free (some number), .freed _) => entries.filter (·.number != number)
  | _ => entries

/-- **The books after some steps and their replies**: the blocks that were got and have not been
given back, the latest first. -/
def books (history : List (Step × Reply)) : List Entry := history.foldl post []

/-- What the blocks in the books cost, their headers included. -/
def owed (entries : List Entry) : Nat := (entries.map (·.block.size + headerBytes)).sum

/-- A block that is struck out is no longer owed for. -/
theorem owed_filter {entries : List Entry} (hnumbers : entries.Pairwise (·.number ≠ ·.number))
    {e : Entry} (he : e ∈ entries) :
    owed (entries.filter (·.number != e.number)) + (e.block.size + headerBytes) =
      owed entries := by
  induction entries with
  | nil => cases he
  | cons f rest ih =>
    obtain ⟨hf, hrest⟩ := List.pairwise_cons.mp hnumbers
    rcases List.mem_cons.mp he with rfl | he
    · have hothers : rest.filter (·.number != e.number) = rest :=
        List.filter_eq_self.mpr fun g hg => by simpa using (hf g hg).symm
      simp [owed, hothers, Nat.add_comm]
    · have ih := ih hrest he
      have hne : f.number ≠ e.number := hf e he
      simp only [owed, List.filter_cons, bne_iff_ne, ne_eq, hne, not_false_eq_true, if_true,
        List.map_cons, List.sum_cons] at ih ⊢
      omega

namespace Session

/-- The session after some turns. -/
def finish (turns : List Turn) (s : Session) : Session :=
  ((play turns s).map Prod.snd).getLastD s

/-- The steps of some turns, each with the reply to it. -/
def history (turns : List Turn) (s : Session) : List (Step × Reply) :=
  (turns.map Turn.step).zip ((play turns s).map Prod.fst)

section Turns

variable (t : Turn) (rest : List Turn) (s : Session)

theorem finish_cons : finish (t :: rest) s = finish rest (s.step t.placement t.step).2 := by
  rw [finish, play, List.map_cons, List.getLastD_cons, finish]

theorem history_cons :
    history (t :: rest) s =
      (t.step, (s.step t.placement t.step).1) :: history rest (s.step t.placement t.step).2 := rfl

end Turns

/-! ### Numbered blocks -/

theorem block?_push (s : Session) (a : Arena) (b : Block) (i : Nat) :
    block? ⟨a, s.blocks.push (some b)⟩ i = if i = s.blocks.size then some b else s.block? i := by
  by_cases h : i = s.blocks.size
  · simp [block?, h]
  · simp [block?, Array.getElem?_push, h]

theorem block?_setNone (s : Session) (a : Arena) (k i : Nat) :
    block? ⟨a, s.blocks.setIfInBounds k none⟩ i = if i = k then none else s.block? i := by
  by_cases h : i = k
  · simp only [block?, Array.getElem?_setIfInBounds, h, if_true]
    by_cases hk : k < s.blocks.size
    · simp [hk]
    · simp [hk]
  · simp [block?, h, Ne.symm h]

/-- A number that is in hand was given out. -/
theorem lt_size_of_block? {s : Session} {i : Nat} {b : Block} (h : s.block? i = some b) :
    i < s.blocks.size := by
  refine Nat.lt_of_not_le fun hle => ?_
  rw [block?, Array.getElem?_eq_none hle] at h
  cases h

/-! ### Agreement -/

/-- **The books agree with a session**: they list the blocks in hand, and the arena has granted what
these cost, and no more than it has.  It keeps each of them, and no two have a byte in common. -/
structure Sound (capacity : Nat) (entries : List Entry) (s : Session) : Prop where
  capacity : s.arena.capacity = capacity
  live : s.arena.live = owed entries
  fits : s.arena.live ≤ s.arena.capacity
  listed : ∀ {i b}, s.block? i = some b ↔ ∃ e ∈ entries, e.number = i ∧ e.block = b
  numbers : entries.Pairwise (·.number ≠ ·.number)
  asked : ∀ e ∈ entries, e.request = some ⟨e.block.size + headerBytes, alignment⟩
  kept : ∀ e ∈ entries, e.block.Kept s.arena
  apart : ∀ {e f}, e ∈ entries → f ∈ entries → e.number ≠ f.number →
    e.block.extent.Apart f.block.extent

theorem sound_new (capacity : Nat) : Sound capacity [] (new capacity) where
  capacity := rfl
  live := rfl
  fits := Nat.zero_le _
  listed := by simp [new, block?]
  numbers := .nil
  asked _ h := by cases h
  kept _ h := by cases h
  apart h := by cases h

section Listed

variable {capacity : Nat} {entries : List Entry} {s : Session} (h : Sound capacity entries s)
include h

theorem Sound.block {e : Entry} (he : e ∈ entries) : s.block? e.number = some e.block :=
  h.listed.mpr ⟨e, he, rfl, rfl⟩

theorem Sound.lt_size {e : Entry} (he : e ∈ entries) : e.number < s.blocks.size :=
  lt_size_of_block? (h.block he)

end Listed

end Session

/-! ## 4. What a step does -/

/-- The arena after it granted `n` bytes at `base` for a block, with their number in the header. -/
def Arena.give (base n : Nat) (a : Arena) : Arena :=
  { a with
    live := a.live + n
    out := ⟨base, n⟩ :: a.out
    memory := (a.memory.wipe base n).writeLE base headerBytes n }

/-- A grant writes to no extent that is out. -/
theorem Arena.get_give {a : Arena} {e : Extent} (he : e ∈ a.out) {j : Nat} (hj : e.Has j)
    {base n : Nat} (hvacant : Vacant a.out ⟨base, n⟩) (hn : headerBytes ≤ n) :
    (a.give base n).memory.get j = a.memory.get j := by
  have hout := (hvacant.apart e he).not_has hj
  simp only [Extent.Has] at hout
  rw [give, Bytes.get_writeLE_outside (by omega), Bytes.get_wipe, if_neg hout]

/-- The block behind the header at `base`. -/
def Block.behind (base size : Nat) : Block := ⟨base + headerBytes, size⟩

theorem Block.extent_behind (base size : Nat) :
    (behind base size).extent = ⟨base, size + headerBytes⟩ := by
  simp [extent, behind]

/-- A block of this size can be asked for. -/
def Askable (size : UInt64) : Prop := 0 < size.toNat ∧ size.toNat + headerBytes ≤ 2 ^ 63 - 8

instance (size : UInt64) : Decidable (Askable size) := inferInstanceAs (Decidable (_ ∧ _))

theorem Request.ofSize?_eq (size : UInt64) :
    Request.ofSize? size =
      if Askable size then some ⟨size.toNat + headerBytes, alignment⟩ else none := by
  have hzero : size = 0 ↔ size.toNat = 0 := by rw [← UInt64.toNat_inj]; rfl
  by_cases h : Askable size
  · have hnot : ¬ (size = 0 ∨ maxRequest < size.toNat + headerBytes) := by
      simp only [Askable, maxRequest, hzero] at h ⊢
      omega
    simp only [ofSize?, if_neg hnot, if_pos h]
  · have hnot : size = 0 ∨ maxRequest < size.toNat + headerBytes := by
      simp only [Askable, maxRequest, hzero] at h ⊢
      omega
    simp only [ofSize?, if_pos hnot, if_neg h]

/-- The byte that a step writes all over the block with a number. -/
def Step.fill? (i : Nat) : Step → Option UInt8
  | .fill k byte => if k = i then some byte else none
  | _ => none

namespace Session

/-- **A block is granted** at a place: it can be asked for, it fits, and this is where it goes. -/
structure Granted (p : Placement) (size : UInt64) (base : Nat) (s : Session) : Prop where
  askable : Askable size
  fits : size.toNat + headerBytes ≤ s.arena.capacity - s.arena.live
  placed : p.place s.arena.out (size.toNat + headerBytes) = some base

theorem Granted.vacant {p : Placement} {size : UInt64} {base : Nat} {s : Session}
    (h : s.Granted p size base) :
    Vacant s.arena.out ⟨base, size.toNat + headerBytes⟩ := p.vacant h.placed

/-- The session after a block was granted. -/
def got (base size : Nat) (s : Session) : Session :=
  ⟨s.arena.give base (size + headerBytes), s.blocks.push (some (.behind base size))⟩

/-- **What a step can do**, with the reply to it and the session after it.  It grants a block, takes
one back, writes over one, or changes nothing; then there is nothing to post, and no block in hand
was to be filled. -/
inductive Change (p : Placement) (s : Session) : Step → Reply → Session → Prop
  | nothing {x : Step} {reply : Reply} (hpost : ∀ entries, post entries (x, reply) = entries)
      (hfill : ∀ i b, s.block? i = some b → x.fill? i = none) : Change p s x reply s
  | granted {size : UInt64} {base : Nat} (hgranted : s.Granted p size base) :
      Change p s (.allocate size)
        (.allocated (some ⟨size.toNat + headerBytes, alignment⟩)
          (some (s.blocks.size, .behind base size.toNat)))
        (s.got base size.toNat)
  | released {k : Nat} {c : Block} (hc : s.block? k = some c) :
      Change p s (.free (some k)) (.freed (free (some c.address) s.arena).1)
        ⟨(free (some c.address) s.arena).2, s.blocks.setIfInBounds k none⟩
  | filled {k : Nat} {c : Block} (byte : UInt8) (hc : s.block? k = some c) :
      Change p s (.fill k byte) .filled
        { s with arena := { s.arena with memory := s.arena.memory.fill c.address byte c.size } }

section Replies

variable (p : Placement) {s : Session}

theorem step_allocate_granted {size : UInt64} {base : Nat} (h : s.Granted p size base) :
    s.step p (.allocate size) =
      (.allocated (some ⟨size.toNat + headerBytes, alignment⟩)
        (some (s.blocks.size, .behind base size.toNat)), s.got base size.toNat) := by
  simp only [step, allocate, Request.ofSize?_eq, if_pos h.askable, Arena.grant, if_pos h.fits,
    h.placed, Option.map_some]
  rfl

/-- An allocation that gets no block changes nothing, whether the arena was asked or not. -/
theorem step_allocate_refused {size : UInt64} (h : ¬ ∃ base, s.Granted p size base) :
    s.step p (.allocate size) =
      (.allocated (if Askable size then some ⟨size.toNat + headerBytes, alignment⟩ else none) none,
        s) := by
  simp only [step, allocate, Request.ofSize?_eq]
  by_cases hask : Askable size
  · have hgrant : s.arena.grant p (size.toNat + headerBytes) = none := by
      by_cases hfits : size.toNat + headerBytes ≤ s.arena.capacity - s.arena.live
      · have hnone : p.place s.arena.out (size.toNat + headerBytes) = none :=
          Option.eq_none_iff_forall_ne_some.mpr fun base hplaced => h ⟨base, hask, hfits, hplaced⟩
        rw [Arena.grant, if_pos hfits, hnone, Option.map_none]
      · rw [Arena.grant, if_neg hfits]
    simp only [if_pos hask, hgrant]
  · simp only [if_neg hask]

/-- **What an allocation asks, hands out and changes.** -/
theorem step_allocate (size : UInt64) : ∃ request block,
    (s.step p (.allocate size)).1 = .allocated request block ∧
    request = (if Askable size then some ⟨size.toNat + headerBytes, alignment⟩ else none) ∧
    (block.isSome ↔ ∃ base, s.Granted p size base) ∧
    (∀ number b, block = some (number, b) → b.size = size.toNat) ∧
    (block = none → (s.step p (.allocate size)).2 = s) := by
  by_cases h : ∃ base, s.Granted p size base
  · obtain ⟨base, hgranted⟩ := h
    rw [step_allocate_granted p hgranted]
    refine ⟨_, _, rfl, (if_pos hgranted.askable).symm, ?_, ?_, ?_⟩
    · exact iff_of_true rfl ⟨base, hgranted⟩
    · rintro _ _ ⟨⟩
      rfl
    · rintro ⟨⟩
  · rw [step_allocate_refused p h]
    refine ⟨_, _, rfl, rfl, iff_of_false Bool.false_ne_true h, ?_, fun _ => rfl⟩
    rintro _ _ ⟨⟩

/-- With a placement that has a place for everything, only the size of a request counts. -/
theorem exists_granted_iff {p : Placement} (hp : p.Obliging) (size : UInt64) :
    (∃ base, s.Granted p size base) ↔
      Askable size ∧ size.toNat + headerBytes ≤ s.arena.capacity - s.arena.live := by
  constructor
  · rintro ⟨base, h⟩
    exact ⟨h.askable, h.fits⟩
  · rintro ⟨hask, hfits⟩
    obtain ⟨base, hplaced⟩ := hp s.arena.out (size.toNat + headerBytes)
    exact ⟨base, hask, hfits, hplaced⟩

theorem step_change (s : Session) (x : Step) : Change p s x (s.step p x).1 (s.step p x).2 := by
  cases x with
  | allocate size =>
    by_cases hgranted : ∃ base, s.Granted p size base
    · obtain ⟨base, hgranted⟩ := hgranted
      rw [step_allocate_granted p hgranted]
      exact .granted hgranted
    · rw [step_allocate_refused p hgranted]
      exact .nothing (fun _ => rfl) fun _ _ _ => rfl
  | free block =>
    cases block with
    | none => exact .nothing (fun _ => rfl) fun _ _ _ => rfl
    | some k =>
      cases hc : s.block? k with
      | none =>
        simp only [step, hc]
        exact .nothing (fun _ => rfl) fun _ _ _ => rfl
      | some c =>
        simp only [step, hc]
        exact .released hc
  | fill k byte =>
    cases hc : s.block? k with
    | none =>
      simp only [step, hc]
      refine .nothing (fun _ => rfl) fun i b hb => if_neg ?_
      rintro rfl
      rw [hb] at hc
      cases hc
    | some c =>
      simp only [step, hc]
      exact .filled byte hc
  | peek k =>
    simp only [step]
    cases s.block? k with
    | none => exact .nothing (fun _ => rfl) fun _ _ _ => rfl
    | some c => exact .nothing (fun _ => rfl) fun _ _ _ => rfl

variable {capacity : Nat} {entries : List Entry} (h : Sound capacity entries s)
include h

/-- **A block goes back with the request it was got by**, for the header says so. -/
theorem Sound.free_eq {e : Entry} (he : e ∈ entries) :
    free (some e.block.address) s.arena =
      (e.request, s.arena.release e.block.extent.base e.block.extent.size) := by
  simp only [free, (h.kept e he).header, h.asked e he]
  rfl

theorem step_free {e : Entry} (he : e ∈ entries) :
    s.step p (.free (some e.number)) =
      (.freed e.request,
        ⟨s.arena.release e.block.extent.base e.block.extent.size,
          s.blocks.setIfInBounds e.number none⟩) := by
  simp only [step, h.block he, h.free_eq he]

end Replies

/-! ## 5. The books stay in agreement -/

/-- A block in hand is kept while the arena grants another one. -/
theorem kept_give {a : Arena} {b : Block} (h : b.Kept a) {base n : Nat}
    (hvacant : Vacant a.out ⟨base, n⟩) (hn : headerBytes ≤ n) : b.Kept (a.give base n) := by
  refine h.frame (List.mem_cons_of_mem _ h.granted) fun j hj => ?_
  have hextent := (Block.extent_has_iff h.above j).mpr (Or.inl hj)
  exact Arena.get_give h.granted hextent hvacant hn

/-- The block that was granted is kept. -/
theorem kept_behind {size : Nat} (hmax : size + headerBytes ≤ 2 ^ 63 - 8) (base : Nat)
    (a : Arena) : (Block.behind base size).Kept (a.give base (size + headerBytes)) where
  above := Nat.le_add_left _ _
  granted := by
    rw [Block.extent_behind]
    exact List.mem_cons_self
  header := by
    have hlt : size + headerBytes < 256 ^ headerBytes := by
      simp only [headerBytes] at hmax ⊢
      omega
    rw [header, Block.behind, Nat.add_sub_cancel, Arena.give, Bytes.readLE_writeLE,
      Nat.mod_eq_of_lt hlt]

/-- A block in hand is kept while another one is taken back. -/
theorem kept_release {a : Arena} {b c : Block} (h : b.Kept a) (happart : b.extent.Apart c.extent) :
    b.Kept (a.release c.extent.base c.extent.size) := by
  have hne := Block.base_ne_of_apart happart
  refine h.frame ?_ fun _ _ => rfl
  exact List.mem_filter.mpr ⟨h.granted, by simpa using hne⟩

/-- A block in hand is kept while its caller writes over a block, be it this one. -/
theorem kept_fill {a : Arena} {b c : Block} (h : b.Kept a) (hc : c.Kept a)
    (happart : b = c ∨ b.extent.Apart c.extent) (byte : UInt8) :
    b.Kept { a with memory := a.memory.fill c.address byte c.size } := by
  refine h.frame h.granted fun j hj => ?_
  have hout : ¬ c.body.Has j := by
    rcases happart with rfl | happart
    · exact (Block.front_apart_body h.above).not_has hj
    · intro hbody
      have hextent := (Block.extent_has_iff h.above j).mpr (Or.inl hj)
      exact happart.not_has hextent ((Block.extent_has_iff hc.above j).mpr (Or.inr hbody))
  exact (Bytes.get_fill ..).trans (if_neg hout)

namespace Sound

variable {capacity : Nat} {entries : List Entry} {s : Session} (h : Sound capacity entries s)
include h

theorem granted {p : Placement} {size : UInt64} {base : Nat} (hgranted : s.Granted p size base) :
    Sound capacity
      (⟨s.blocks.size, .behind base size.toNat, some ⟨size.toNat + headerBytes, alignment⟩⟩ ::
        entries)
      (s.got base size.toNat) := by
  -- The new block is apart from all others, since their extents were out when it was placed.
  have hnew : ∀ e ∈ entries, e.block.extent.Apart (Block.behind base size.toNat).extent := by
    intro e he
    rw [Block.extent_behind]
    exact hgranted.vacant.apart _ (h.kept e he).granted
  have hfits := hgranted.fits
  have hlive := h.live
  have hle := h.fits
  refine ⟨h.capacity, ?_, ?_, ?_, ?_, ?_, ?_, ?_⟩
  · simp only [got, Arena.give, owed, List.map_cons, List.sum_cons, Block.behind] at hlive ⊢
    omega
  · simp only [got, Arena.give]
    omega
  · intro i b
    rw [got, block?_push]
    by_cases hi : i = s.blocks.size
    · subst hi
      have hnone : ∀ e ∈ entries, e.number ≠ s.blocks.size := fun e he =>
        Nat.ne_of_lt (h.lt_size he)
      simp only [if_true, Option.some.injEq, List.mem_cons, exists_eq_or_imp, true_and]
      refine ⟨Or.inl, ?_⟩
      rintro (hb | ⟨e, he, hnumber, -⟩)
      · exact hb
      · exact absurd hnumber (hnone e he)
    · simp only [if_neg hi, h.listed, List.mem_cons, exists_eq_or_imp, Ne.symm hi, false_and,
        false_or]
  · exact List.pairwise_cons.mpr ⟨fun e he => (Nat.ne_of_lt (h.lt_size he)).symm, h.numbers⟩
  · exact List.forall_mem_cons.mpr ⟨rfl, h.asked⟩
  · exact List.forall_mem_cons.mpr ⟨kept_behind hgranted.askable.2 base s.arena,
      fun e he => kept_give (h.kept e he) hgranted.vacant (Nat.le_add_left _ _)⟩
  · intro e f he hf hne
    rcases List.mem_cons.mp he with rfl | he
    · rcases List.mem_cons.mp hf with rfl | hf
      · exact absurd rfl hne
      · exact (hnew f hf).symm
    · rcases List.mem_cons.mp hf with rfl | hf
      · exact hnew e he
      · exact h.apart he hf hne

theorem released {e : Entry} (he : e ∈ entries) :
    Sound capacity (entries.filter (·.number != e.number))
      ⟨s.arena.release e.block.extent.base e.block.extent.size,
        s.blocks.setIfInBounds e.number none⟩ := by
  have hleft : ∀ f, f ∈ entries.filter (·.number != e.number) ↔
      f ∈ entries ∧ f.number ≠ e.number := by
    simp [List.mem_filter]
  have howed := owed_filter h.numbers he
  have hlive := h.live
  refine ⟨h.capacity, ?_, ?_, ?_, ?_, ?_, ?_, ?_⟩
  · simp only [Arena.release, Block.extent]
    omega
  · exact Nat.le_trans (Nat.sub_le _ _) h.fits
  · intro i b
    rw [block?_setNone]
    by_cases hi : i = e.number
    · simp only [if_pos hi, hleft, reduceCtorEq, false_iff]
      rintro ⟨f, ⟨-, hne⟩, hnumber, -⟩
      exact hne (hnumber.trans hi)
    · simp only [if_neg hi, h.listed, hleft]
      constructor
      · rintro ⟨f, hf, rfl, hb⟩
        exact ⟨f, ⟨hf, hi⟩, rfl, hb⟩
      · rintro ⟨f, ⟨hf, -⟩, hb⟩
        exact ⟨f, hf, hb⟩
  · exact h.numbers.filter _
  · exact fun f hf => h.asked f ((hleft f).mp hf).1
  · intro f hf
    obtain ⟨hf, hne⟩ := (hleft f).mp hf
    exact kept_release (h.kept f hf) (h.apart hf he hne)
  · exact fun hf hg => h.apart ((hleft _).mp hf).1 ((hleft _).mp hg).1

theorem filled {e : Entry} (byte : UInt8) (he : e ∈ entries) :
    Sound capacity entries
      { s with arena :=
        { s.arena with memory := s.arena.memory.fill e.block.address byte e.block.size } } := by
  refine ⟨h.capacity, h.live, h.fits, h.listed, h.numbers, h.asked, fun f hf => ?_, h.apart⟩
  refine kept_fill (h.kept f hf) (h.kept e he) ?_ byte
  by_cases hnumber : f.number = e.number
  · have hsame : s.block? f.number = some e.block := hnumber ▸ h.block he
    exact Or.inl (Option.some.inj ((h.block hf).symm.trans hsame))
  · exact Or.inr (h.apart hf he hnumber)

theorem of_change {p : Placement} {x : Step} {reply : Reply} {after : Session}
    (hchange : Change p s x reply after) : Sound capacity (post entries (x, reply)) after := by
  cases hchange with
  | nothing hpost _ =>
    rw [hpost]
    exact h
  | granted hgranted => exact h.granted hgranted
  | released hc =>
    obtain ⟨e, he, rfl, rfl⟩ := h.listed.mp hc
    rw [h.free_eq he]
    exact h.released he
  | filled byte hc =>
    obtain ⟨e, he, rfl, rfl⟩ := h.listed.mp hc
    exact h.filled byte he

/-- **A step keeps the books in agreement.** -/
theorem of_step (p : Placement) (x : Step) :
    Sound capacity (post entries (x, (s.step p x).1)) (s.step p x).2 :=
  h.of_change (step_change p s x)

/-- **So does a whole run.** -/
theorem finish (turns : List Turn) :
    Sound capacity ((history turns s).foldl post entries) (finish turns s) := by
  induction turns generalizing entries s with
  | nil => exact h
  | cons t rest ih =>
    rw [history_cons, finish_cons, List.foldl_cons]
    exact ih (h.of_step t.placement t.step)

/-- A number that is freed is struck out of the books; one that is not in them changes nothing. -/
theorem post_free (p : Placement) (i : Nat) :
    post entries (.free (some i), (s.step p (.free (some i))).1) =
      entries.filter (·.number != i) := by
  cases hb : s.block? i with
  | none =>
    have hnone : ∀ e ∈ entries, e.number ≠ i := by
      rintro e he rfl
      rw [h.block he] at hb
      cases hb
    simp only [step, hb, post]
    exact (List.filter_eq_self.mpr fun e he => by simpa using hnone e he).symm
  | some b =>
    obtain ⟨e, he, rfl, -⟩ := h.listed.mp hb
    rw [step_free p h he, post]

end Sound

/-- The turns that free blocks one after another. -/
def frees (p : Placement) (order : List Nat) : List Turn :=
  order.map fun i => ⟨.free (some i), p⟩

/-- After blocks were freed, the books list the others. -/
theorem Sound.foldl_post_frees {capacity : Nat} {entries : List Entry} {s : Session}
    (h : Sound capacity entries s) (p : Placement) (order : List Nat) :
    (history (frees p order) s).foldl post entries =
      entries.filter (fun e => decide (e.number ∉ order)) := by
  induction order generalizing entries s with
  | nil => exact (List.filter_eq_self.mpr fun e _ => by simp).symm
  | cons i rest ih =>
    have hrest := ih (h.of_step p (.free (some i)))
    rw [h.post_free] at hrest
    rw [frees, List.map_cons, history_cons, List.foldl_cons, h.post_free]
    refine hrest.trans ?_
    rw [List.filter_filter]
    refine List.filter_congr fun e _ => ?_
    by_cases hi : e.number = i
    · simp [hi]
    · simp [hi]

/-! ## 6. Every session -/

/-- **The books of the allocator balance.**  After any turns on a fresh arena, the arena has granted
what the blocks in the books cost, and no more than its capacity.

From there, an allocation asks the arena for the block and its header, if that can be asked for, and
hands out a block of the right size or none.  If places are not wanting, it hands one out just when
the arena has this much left.  A refusal changes nothing.  A block in the books goes back with the
request that it was got by, nothing goes back for no block, and when all of them went back, in any
order, nothing is granted any more. -/
theorem books_balance (capacity : Nat) (past : List Turn) :
    let s := finish past (new capacity)
    let entries := books (history past (new capacity))
    s.arena.live = owed entries ∧
    s.arena.live ≤ capacity ∧
    (∀ (p : Placement) (size : UInt64), ∃ request block,
      (s.step p (.allocate size)).1 = .allocated request block ∧
      request = (if Askable size then some ⟨size.toNat + headerBytes, alignment⟩ else none) ∧
      (p.Obliging →
        (block.isSome ↔ Askable size ∧ size.toNat + headerBytes ≤ capacity - s.arena.live)) ∧
      (∀ number b, block = some (number, b) → b.size = size.toNat) ∧
      (block = none → (s.step p (.allocate size)).2 = s)) ∧
    (∀ p : Placement, ∀ e ∈ entries, (s.step p (.free (some e.number))).1 = .freed e.request) ∧
    (∀ p : Placement, s.step p (.free none) = (.freed none, s)) ∧
    (∀ (p : Placement) (order : List Nat), (∀ e ∈ entries, e.number ∈ order) →
      (finish (frees p order) s).arena.live = 0) := by
  intro s entries
  have h : Sound capacity entries s := (sound_new capacity).finish past
  have hcapacity : s.arena.capacity = capacity := h.capacity
  refine ⟨h.live, hcapacity ▸ h.fits, ?_, ?_, fun _ => rfl, ?_⟩
  · intro p size
    obtain ⟨request, block, hreply, hrequest, hblock, hsize, hsame⟩ := step_allocate p size
    exact ⟨request, block, hreply, hrequest,
      fun hp => hcapacity ▸ hblock.trans (exists_granted_iff hp size), hsize, hsame⟩
  · intro p e he
    rw [step_free p h he]
  · intro p order hall
    have hnone : entries.filter (fun e => decide (e.number ∉ order)) = [] :=
      List.filter_eq_nil_iff.mpr fun e he => by simpa using hall e he
    rw [(h.finish (frees p order)).live, h.foldl_post_frees, hnone]
    rfl

/-- Two blocks are written over and one of them goes back.  As much as it took is asked for twice
more, with the same extents out: the first time the block goes far away, the second time to where
the old one was. -/
theorem books_balance_written_over :
    let past : List Turn := [⟨.allocate 3, .above⟩, ⟨.allocate 16, .above⟩, ⟨.fill 0 0xff, .above⟩,
      ⟨.fill 1 0xff, .above⟩, ⟨.free (some 0), .above⟩, ⟨.allocate 3, .aim 1024 .above⟩,
      ⟨.fill 2 0xff, .above⟩, ⟨.free (some 2), .above⟩, ⟨.allocate 3, .aim 8 .above⟩]
    let s := finish past (new 64)
    (finish (past.take 6) (new 64)).block? 2 = some ⟨1032, 3⟩ ∧
    books (history past (new 64)) =
      [⟨3, ⟨16, 3⟩, some ⟨11, 8⟩⟩, ⟨1, ⟨32, 16⟩, some ⟨24, 8⟩⟩] ∧
    s.arena.live = 35 ∧
    s.step .above (.allocate 22) = (.allocated (some ⟨30, 8⟩) none, s) ∧
    (s.step .above (.free (some 1))).1 = .freed (some ⟨24, 8⟩) ∧
    (finish (frees .above [1, 3]) s).arena.live = 0 := by
  intro past s
  have hbooks : books (history past (new 64)) =
      [⟨3, ⟨16, 3⟩, some ⟨11, 8⟩⟩, ⟨1, ⟨32, 16⟩, some ⟨24, 8⟩⟩] := by decide +kernel
  obtain ⟨hlive, -, hallocate, hfree, -, hall⟩ := books_balance 64 past
  rw [hbooks] at hlive hfree hall
  obtain ⟨request, block, hreply, hrequest, hblock, -, hsame⟩ := hallocate .above 22
  -- There are 29 bytes left, and 30 are asked for.
  have hnone : block = none := by
    rw [hlive] at hblock
    refine Option.not_isSome_iff_eq_none.mp fun hsome => ?_
    exact absurd ((hblock Placement.obliging_above).mp hsome).2 (by decide)
  have hasked : request = some ⟨30, 8⟩ := hrequest
  refine ⟨by decide +kernel, hbooks, hlive, ?_, hfree .above ⟨1, ⟨32, 16⟩, some ⟨24, 8⟩⟩ (by decide),
    hall .above [1, 3] (by decide)⟩
  rw [hnone, hasked] at hreply
  exact Prod.ext hreply (hsame hnone)

end Session

end StageZero.Allocator
