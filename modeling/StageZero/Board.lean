/-
# The board

The hardware.  Memory is made of bytes, and two ranges of it are there: flash and RAM.  A word is
the unsigned cell of four bytes at its address, and an access to it is an access to this cell.  An
access outside the two ranges, or one that is not aligned, is a bus fault.

The board does not record memory accesses; what can be watched from outside are the signals of
its processor.  A new vector table is announced by three of them, for the two barriers must
follow the write to the vector base register.
-/
import StageZero.Cell
import StageZero.Machine
import StageZero.Region

namespace StageZero

/-- Something that the processor of a board was seen doing. -/
inductive Signal where
  | maskInterrupts
  /-- The vector base register was written. -/
  | vectorBase (table : Address)
  | dataBarrier
  | instructionBarrier
  /-- The stack pointer was set and a branch was taken. -/
  | bootstrap (stackPointer entry : Word)
  | waitForInterrupt
  /-- A waiting loop was run. -/
  | spin (loops : UInt32)
deriving DecidableEq

/-- A processor with flash and RAM. -/
structure Board where
  memory : Bytes := .zeros
  /-- All signals, the oldest first. -/
  signals : Array Signal := #[]

namespace Board

/-! ## 1. Memory -/

/-- The range of the flash, 128 KiB.  This is what is mapped on the board on which programs are
tried.  It comes from no memory map that a program is linked by: the parts that the programs are
for have 256 KiB, of which a loader is linked for the first 32. -/
def flash : Region := ⟨⟨0x08000000⟩, ⟨0x08020000⟩⟩

/-- The range of the RAM, 64 KiB on that board and on those parts. -/
def ram : Region := ⟨⟨0x20000000⟩, ⟨0x20010000⟩⟩

/-- An address lies inside a region. -/
def Within (a : Address) (r : Region) : Prop := r.start.val ≤ a.val ∧ a.val < r.stop.val

instance (a : Address) (r : Region) : Decidable (Within a r) :=
  inferInstanceAs (Decidable (_ ∧ _))

/-- A word may be accessed at an address. -/
def Accessible (a : Address) : Prop := a.Aligned ∧ (Within a flash ∨ Within a ram)

instance (a : Address) : Decidable (Accessible a) := inferInstanceAs (Decidable (_ ∧ _))

/-- The cell that holds the word at an address. -/
def cell (a : Address) : Cell := ⟨⟨.word, false⟩, a.val.toNat⟩

/-- The word at an address, accessible or not. -/
def word (b : Board) (a : Address) : Word := UInt32.ofNat ((cell a).get b.memory).toNat

/-- Stores a word at an address, accessible or not. -/
def setWord (a : Address) (w : Word) (b : Board) : Board :=
  { b with memory := (cell a).set w.toNat b.memory }

/-- Puts a word into memory from outside.  Nothing is kept where there is no memory. -/
def place (a : Address) (w : Word) (b : Board) : Board :=
  if Accessible a then b.setWord a w else b

/-- Looks at a word from outside. -/
def inspect (b : Board) (a : Address) : Except Fault Word :=
  if Accessible a then .ok (b.word a) else .error (.bus a)

/-- The words in memory that are not zero, in ascending order of their addresses. -/
def words (b : Board) : List (Address × Word) :=
  b.memory.cells.keys.filterMap fun i =>
    let a : Address := ⟨UInt32.ofNat i⟩
    if i % 4 = 0 ∧ b.word a ≠ 0 then some (a, b.word a) else none

/-! ## 2. The board as a machine -/

/-- A board after power-on. -/
def blank : Board := {}

/-- Shows a signal. -/
def emit (s : Signal) (b : Board) : Board := { b with signals := b.signals.push s }

/-- Runs a waiting loop. -/
def spin (loops : UInt32) (b : Board) : Board := b.emit (.spin loops)

instance : Machine Board where
  readWord a b := if Accessible a then (.returned (b.word a), b) else (.faulted (.bus a), b)
  writeWord a w b :=
    if Accessible a then (.returned (), b.setWord a w) else (.faulted (.bus a), b)
  maskInterrupts b := b.emit .maskInterrupts
  relocateVectors table b :=
    ((b.emit (.vectorBase table)).emit .dataBarrier).emit .instructionBarrier
  launch stackPointer entry b := b.emit (.bootstrap stackPointer entry)
  sleep b := b.emit .waitForInterrupt

/-- The signals that a board showed since an earlier moment. -/
def signalsSince (before after : Board) : List Signal :=
  after.signals.toList.drop before.signals.size

end Board

end StageZero
