/-
# From reset to another image

A cold start whose entry hands over to another image is the whole of what a loader is for.  On a
bench all of it can be told: what is in memory, what the registers hold, and in which order things
were asked of the machine.

* A jump to a table whose two words are there starts the image, after just five events, and does
  not touch memory (`chainLoad_present`).
* So a cold start that ends in a jump leaves the memory that preparing RAM left, and its log is
  what preparing RAM logged followed by these five events (`coldStart_of_ready`).  The machine
  never goes to sleep on the way.

The table may lie anywhere: in RAM that was prepared a moment before, or with its second word past
the top of the address space.  Only a table outside of both regions is sure to be what it was.
-/
import StageZero.Proofs.Preservation
import StageZero.Proofs.RamImage

namespace StageZero

/-! ## 1. The jump -/

namespace Bench

theorem header_present {table : Address} {sp entry : Word} {b : Bench}
    (hsp : b.memory[table]? = some sp) (hentry : b.memory[table.addWords 1]? = some entry) :
    VectorHeader.read table b =
      (.returned ⟨sp, entry⟩, (b.record (.read table)).record (.read (table.addWords 1))) := by
  simp only [VectorHeader.read, VectorHeader.stackPointerIndex, VectorHeader.resetIndex,
    Address.addWords_zero, Proc.bind_apply, Proc.pure_apply, readWord_present hsp,
    Run.andThen_returned, readWord_present (b := b.record (.read table)) hentry]

/-- The bench after it was handed over to the image at `table`. -/
def handOver (table : Address) (stackPointer entry : Word) (b : Bench) : Bench :=
  { b with
    log := ((((b.log.push .maskInterrupts).push (.read table)).push
      (.read (table.addWords 1))).push (.relocate table)).push (.start stackPointer entry true)
    masked := true
    vectorBase := table
    stackPointer := some stackPointer
    entry := some entry }

theorem log_handOver (table : Address) (sp entry : Word) (b : Bench) :
    (b.handOver table sp entry).log.toList = b.log.toList ++
      [.maskInterrupts, .read table, .read (table.addWords 1), .relocate table,
        .start sp entry true] := by
  simp only [handOver, Array.toList_push, List.append_assoc, List.cons_append, List.nil_append]

/-- **A jump to a table that is there starts its image**, with interrupts masked. -/
theorem chainLoad_present {table : Address} {sp entry : Word} {b : Bench}
    (hsp : b.memory[table]? = some sp) (hentry : b.memory[table.addWords 1]? = some entry) :
    chainLoad table b = (.diverged .started, b.handOver table sp entry) := by
  have hheader := header_present (b := Machine.maskInterrupts b) hsp hentry
  simp only [chainLoad, Proc.bind_apply, Proc.act_apply, Run.andThen_returned, hheader,
    start_apply]
  rfl

end Bench

/-! ## 2. A cold start that jumps -/

open Bench

/-- A cold start that got RAM ready and jumps to a table that is there. -/
theorem coldStart_of_ready {l : Layout} {b ready : Bench} {table : Address} {sp entry : Word}
    (hram : prepareRam l b = (.returned (), ready)) (hsp : ready.memory[table]? = some sp)
    (hentry : ready.memory[table.addWords 1]? = some entry) :
    coldStart l (chainLoad table).silent b =
      ((.diverged .started, ready.handOver table sp entry), some ()) := by
  rw [coldStart_of_returned hram]
  simp only [Proc.silent, chainLoad_present hsp hentry, Outcome.map, Run.andThen_diverged]

/-- **A loader, from reset to the image.**  RAM can be prepared, and from then on every table whose
two words are there is started: memory stays as it was prepared, the registers are those of the
image, and the log goes on with the five events of the jump.  No event of the run is a sleep.  A
table outside of both regions is started as it was at reset. -/
theorem coldStart_chainLoad (l : Layout) (b : Bench) (h : l.Preparable b) :
    ∃ ready, prepareRam l b = (.returned (), ready) ∧ Event.idle ∉ b.eventsSince ready ∧
      ∀ table sp entry, ready.memory[table]? = some sp →
        ready.memory[table.addWords 1]? = some entry →
        ∃ final, coldStart l (chainLoad table).silent b = ((.diverged .started, final), some ()) ∧
          final.memory = ready.memory ∧
          final.vectorBase = table ∧
          final.stackPointer = some sp ∧
          final.entry = some entry ∧
          final.masked = true ∧
          final.log.toList = b.log.toList ++ b.eventsSince ready ++
            [.maskInterrupts, .read table, .read (table.addWords 1), .relocate table,
              .start sp entry true] ∧
          (¬ l.data.HasWord table → ¬ l.bss.HasWord table →
            ¬ l.data.HasWord (table.addWords 1) → ¬ l.bss.HasWord (table.addWords 1) →
            b.memory[table]? = some sp ∧ b.memory[table.addWords 1]? = some entry) := by
  obtain ⟨ready, hram, -⟩ := prepareRam_returns h
  have hlogged : Logged Event.IsAccess b ready := by
    have hkept := (keptByAccess_logged fun _ he => he).prepareRam l b
    rwa [hram] at hkept
  refine ⟨ready, hram, fun hidle => hlogged.of_mem hidle, ?_⟩
  intro table sp entry hsp hentry
  refine ⟨_, coldStart_of_ready hram hsp hentry, rfl, rfl, rfl, rfl, rfl, ?_, ?_⟩
  · rw [log_handOver, hlogged.log_eq]
  · intro hdata hbss hdata' hbss'
    rw [← prepareRam_frame h hram hdata hbss, ← prepareRam_frame h hram hdata' hbss']
    exact ⟨hsp, hentry⟩

/-- A table that wraps at the top of the address space, with its second word in data that was
loaded a moment before. -/
theorem coldStart_chainLoad_wrapped :
    let l : Layout :=
      { stackTop := ⟨0x20010000⟩
        data := ⟨⟨0x00000000⟩, ⟨0x00000004⟩⟩
        dataLoad := ⟨0x08001000⟩
        bss := ⟨⟨0x20000000⟩, ⟨0x20000004⟩⟩ }
    let b := placeWords ⟨0xfffffffc⟩ [0x20010000] (placeWords l.dataLoad [0x08008101] Bench.empty)
    ∃ final, coldStart l (chainLoad ⟨0xfffffffc⟩).silent b =
        ((.diverged .started, final), some ()) ∧
      final.entry = some 0x08008101 ∧
      final.log.toList =
        [.read ⟨0x08001000⟩, .write ⟨0⟩ 0x08008101, .write ⟨0x20000000⟩ 0, .maskInterrupts,
          .read ⟨0xfffffffc⟩, .read ⟨0⟩, .relocate ⟨0xfffffffc⟩,
          .start 0x20010000 0x08008101 true] := by
  intro l b
  obtain ⟨ready, hram, -, hboot⟩ :=
    coldStart_chainLoad l b ⟨by decide, by decide, by decide, by decide⟩
  obtain rfl : (prepareRam l b).2 = ready := congrArg Prod.snd hram
  obtain ⟨final, hrun, -, -, -, hentry, -, hlog, -⟩ :=
    hboot ⟨0xfffffffc⟩ 0x20010000 0x08008101 (by decide) (by decide)
  exact ⟨final, hrun, hentry, hlog.trans (by decide)⟩

end StageZero
