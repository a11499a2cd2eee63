/-
# Preparing RAM

Before an image may run, its data must be in place and its zeroed memory must be zero.

`loadData` copies word by word, ascending, each word read just before it is written.  So where the
data region overlaps the range it is loaded from, and lies above it, words that were already
copied are copied again.

The lengths of all regions are known before the first word is touched: a region that has no
length faults with nothing done.
-/
import StageZero.Layout
import StageZero.Machine

namespace StageZero

variable {σ : Type} [Machine σ]

/-! ## 1. Runs of words -/

/-- Copies `n` words, the lowest first. -/
def copyWords (source target : Address) : Nat → Proc σ Unit
  | 0 => pure ()
  | n + 1 => do
    let w ← readWord source
    writeWord target w
    copyWords (source.addWords 1) (target.addWords 1) n

/-- Clears `n` words, the lowest first. -/
def clearWords (target : Address) : Nat → Proc σ Unit
  | 0 => pure ()
  | n + 1 => do
    writeWord target 0
    clearWords (target.addWords 1) n

/-! ## 2. Whole regions -/

/-- Loads the data of an image into RAM.  No more words are copied than both regions have. -/
def loadData (l : Layout) : Proc σ Unit := do
  let source ← Proc.lift l.dataSource
  let available ← Proc.lift source.lengthWords
  let wanted ← Proc.lift l.data.lengthWords
  let n := if available < wanted then available else wanted
  copyWords source.start l.data.start n.toNat

/-- Clears every word of a region. -/
def clearRegion (r : Region) : Proc σ Unit := do
  let n ← Proc.lift r.lengthWords
  clearWords r.start n.toNat

/-- **Brings RAM into the state that an image expects**: its data loaded, its zeroed memory
cleared, in this order. -/
def prepareRam (l : Layout) : Proc σ Unit := do
  loadData l
  clearRegion l.bss

end StageZero
