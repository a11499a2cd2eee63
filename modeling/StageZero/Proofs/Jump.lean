/-
# How a jump to another image can end

A jump masks interrupts, reads the two words at the head of the image's vector table, makes the table
the current one, and starts the image.  The last two steps can not be taken back, and the reads in
front of them are all that can go wrong.  This file goes through all ends of a jump on a bench, from
any state that an earlier run may have left it in.

* If both words are there the image is started (`chainLoad_present`, in `Boot`).
* If one of them is missing the jump faults on the first such word.  All it has done is to mask
  interrupts and to read (`chainLoad_no_stackPointer`, `chainLoad_no_entry`): the vectors are where
  they were, and nothing is started or written.

There is no third way (`chainLoad_cases`).  So in whatever state a jump finds the bench, if it starts
an image then with interrupts masked and with the image's own vectors.
-/
import StageZero.Proofs.Account
import StageZero.Proofs.Boot

namespace StageZero

namespace Bench

/-! ## 1. Jumps that get no further than the header -/

/-- The later bench has masked interrupts and read these words, and that is all that was done. -/
structure MaskedAndRead (reads : List Address) (b after : Bench) : Prop where
  log : after.log.toList = b.log.toList ++ .maskInterrupts :: reads.map .read
  masked : after.masked = true
  memory : after.memory = b.memory
  writes : after.writes = b.writes
  marks : after.marks = b.marks
  vectorBase : after.vectorBase = b.vectorBase
  stackPointer : after.stackPointer = b.stackPointer
  entry : after.entry = b.entry

theorem header_no_stackPointer {table : Address} {b : Bench} (hsp : b.memory[table]? = none) :
    VectorHeader.read table b = (.faulted (.unmapped table), b.record (.read table)) := by
  simp only [VectorHeader.read, VectorHeader.stackPointerIndex, Address.addWords_zero,
    Proc.bind_apply, readWord_absent hsp, Run.andThen_faulted]

theorem header_no_entry {table : Address} {sp : Word} {b : Bench}
    (hsp : b.memory[table]? = some sp) (hentry : b.memory[table.addWords 1]? = none) :
    VectorHeader.read table b = (.faulted (.unmapped (table.addWords 1)),
      (b.record (.read table)).record (.read (table.addWords 1))) := by
  simp only [VectorHeader.read, VectorHeader.stackPointerIndex, VectorHeader.resetIndex,
    Address.addWords_zero, Proc.bind_apply, readWord_present hsp, Run.andThen_returned,
    readWord_absent (b := b.record (.read table)) hentry, Run.andThen_faulted]

/-- A header that can not be read is the end of a jump. -/
theorem chainLoad_of_header_faults {table : Address} {b spent : Bench} {e : Fault}
    (h : VectorHeader.read table (Machine.maskInterrupts b) = (.faulted e, spent)) :
    chainLoad table b = (.faulted e, spent) := by
  simp only [chainLoad, Proc.bind_apply, Proc.act_apply, Run.andThen_returned, h,
    Run.andThen_faulted]

/-- **Without a stack pointer a jump ends at once.** -/
theorem chainLoad_no_stackPointer {table : Address} {b : Bench} (hsp : b.memory[table]? = none) :
    ∃ spent, chainLoad table b = (.faulted (.unmapped table), spent) ∧
      MaskedAndRead [table] b spent := by
  refine ⟨_, chainLoad_of_header_faults (header_no_stackPointer hsp), ?_⟩
  refine ⟨?_, rfl, rfl, rfl, rfl, rfl, rfl, rfl⟩
  simp [record, Machine.maskInterrupts]

/-- **Without a reset handler it ends one read later.** -/
theorem chainLoad_no_entry {table : Address} {sp : Word} {b : Bench}
    (hsp : b.memory[table]? = some sp) (hentry : b.memory[table.addWords 1]? = none) :
    ∃ spent, chainLoad table b = (.faulted (.unmapped (table.addWords 1)), spent) ∧
      MaskedAndRead [table, table.addWords 1] b spent := by
  refine ⟨_, chainLoad_of_header_faults (header_no_entry hsp hentry), ?_⟩
  refine ⟨?_, rfl, rfl, rfl, rfl, rfl, rfl, rfl⟩
  simp [record, Machine.maskInterrupts]

/-- What was only masked and read started nothing. -/
theorem MaskedAndRead.not_started {reads : List Address} {b after : Bench}
    (h : MaskedAndRead reads b after) {e : Event} (he : e ∈ b.eventsSince after) :
    e.start? = none := by
  rw [eventsSince_eq h.log, List.mem_cons, List.mem_map] at he
  rcases he with rfl | ⟨a, -, rfl⟩
  · rfl
  · rfl

/-! ## 2. All jumps -/

/-- **A jump starts the image, or stops while it reads the header.** -/
theorem chainLoad_cases (table : Address) (b : Bench) :
    (∃ sp entry, chainLoad table b = (.diverged .started, b.handOver table sp entry)) ∨
      ∃ a reads spent, chainLoad table b = (.faulted (.unmapped a), spent) ∧
        MaskedAndRead reads b spent := by
  cases hsp : b.memory[table]? with
  | none =>
    obtain ⟨spent, hrun, hspent⟩ := chainLoad_no_stackPointer hsp
    exact Or.inr ⟨_, _, spent, hrun, hspent⟩
  | some sp =>
    cases hentry : b.memory[table.addWords 1]? with
    | none =>
      obtain ⟨spent, hrun, hspent⟩ := chainLoad_no_entry hsp hentry
      exact Or.inr ⟨_, _, spent, hrun, hspent⟩
    | some entry => exact Or.inl ⟨sp, entry, chainLoad_present hsp hentry⟩

/-- A jump that started an image left it with interrupts masked and with its own vectors, which were
put in place right before the start. -/
theorem chainLoad_start_guarded {table : Address} {b : Bench} {sp entry : Word} {masked : Bool}
    (h : Event.start sp entry masked ∈ b.eventsSince (chainLoad table b).2) :
    masked = true ∧ (chainLoad table b).2.masked = true ∧
      (chainLoad table b).2.vectorBase = table ∧
      [.relocate table, .start sp entry true] <:+ (chainLoad table b).2.log.toList := by
  rcases chainLoad_cases table b with ⟨sp', entry', hrun⟩ | ⟨a, reads, spent, hrun, hspent⟩
  · rw [hrun] at h ⊢
    rw [eventsSince_eq (log_handOver table sp' entry' b)] at h
    simp only [List.mem_cons, reduceCtorEq, List.not_mem_nil, or_false, false_or,
      Event.start.injEq] at h
    obtain ⟨rfl, rfl, rfl⟩ := h
    refine ⟨rfl, rfl, rfl, b.log.toList ++ [.maskInterrupts, .read table,
      .read (table.addWords 1)], ?_⟩
    rw [log_handOver, List.append_assoc]
    rfl
  · rw [hrun] at h
    cases hspent.not_started h

end Bench

open Bench

/-- **Every end of a jump**, whatever was done to the bench before.  If both words of the header are
there, the image is started after just five events, with its own stack, entry and vectors and with
interrupts masked, and memory and the records of it are as they were.  If not, the jump faults on the
first word that is missing, with interrupts masked, the words up to it read, and nothing else done.
So each start among the events of a jump is made with interrupts masked, and follows at once on the
relocation to the table of the jump. -/
theorem chainLoad_outcomes (table : Address) (b : Bench) :
    (∀ sp entry, b.memory[table]? = some sp → b.memory[table.addWords 1]? = some entry →
      ∃ final, chainLoad table b = (.diverged .started, final) ∧
        final.log.toList = b.log.toList ++
          [.maskInterrupts, .read table, .read (table.addWords 1), .relocate table,
            .start sp entry true] ∧
        final.vectorBase = table ∧
        final.stackPointer = some sp ∧
        final.entry = some entry ∧
        final.masked = true ∧
        final.memory = b.memory ∧
        final.writes = b.writes ∧
        final.marks = b.marks) ∧
      (b.memory[table]? = none →
        ∃ spent, chainLoad table b = (.faulted (.unmapped table), spent) ∧
          MaskedAndRead [table] b spent) ∧
      (∀ sp, b.memory[table]? = some sp → b.memory[table.addWords 1]? = none →
        ∃ spent, chainLoad table b = (.faulted (.unmapped (table.addWords 1)), spent) ∧
          MaskedAndRead [table, table.addWords 1] b spent) ∧
      ∀ sp entry masked, Event.start sp entry masked ∈ b.eventsSince (chainLoad table b).2 →
        masked = true ∧ (chainLoad table b).2.masked = true ∧
          (chainLoad table b).2.vectorBase = table ∧
          [.relocate table, .start sp entry true] <:+ (chainLoad table b).2.log.toList := by
  refine ⟨fun sp entry hsp hentry => ?_, chainLoad_no_stackPointer,
    fun sp hsp hentry => chainLoad_no_entry hsp hentry,
    fun sp entry masked h => chainLoad_start_guarded h⟩
  exact ⟨_, chainLoad_present hsp hentry, log_handOver table sp entry b, rfl, rfl, rfl, rfl, rfl,
    rfl, rfl⟩

/-- A jump out of an image that was started before, to a table that wraps at the top of the address
space.  Without its second word it stops there, and the other image's vectors and entry are still in
place; with it, the new image is started. -/
theorem chainLoad_outcomes_again :
    let other : Address := ⟨0x08008000⟩
    let table : Address := ⟨0xfffffffc⟩
    let b := (chainLoad other (placeWords other [0x20010000, 0x08008101]
      (placeWords table [0x20008000] Bench.empty))).2
    (∃ spent, chainLoad table b = (.faulted (.unmapped ⟨0⟩), spent) ∧
      spent.vectorBase = other ∧ spent.entry = some 0x08008101) ∧
      ∃ final, chainLoad table (b.place ⟨0⟩ 0x00000401) = (.diverged .started, final) ∧
        final.vectorBase = table ∧ final.entry = some 0x00000401 := by
  intro other table b
  obtain ⟨-, -, hstops, -⟩ := chainLoad_outcomes table b
  obtain ⟨hstarts, -⟩ := chainLoad_outcomes table (b.place ⟨0⟩ 0x00000401)
  have hwraps : table.addWords 1 = ⟨0⟩ := by decide
  rw [hwraps] at hstops hstarts
  obtain ⟨spent, hrun, hspent⟩ := hstops 0x20008000 (by decide) (by decide)
  obtain ⟨final, hfinal, -, hbase, -, hentry, -⟩ :=
    hstarts 0x20008000 0x00000401 (by decide) (by decide)
  exact ⟨⟨spent, hrun, hspent.vectorBase.trans (by decide), hspent.entry.trans (by decide)⟩,
    final, hfinal, hbase, hentry⟩

end StageZero
