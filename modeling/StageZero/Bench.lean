/-
# The bench

A machine to watch the loader on.  Its memory is a sparse map from addresses to words, with any
address as a key, aligned or not; reading a word that is not there is a fault.  Everything that
is asked of it goes into a log, a read that faults included.  Words that are placed from outside
(`Bench.place`) leave no trace.

Beside the log the bench keeps what the registers hold.  It takes marks too, texts with which an
entry can note how far it came.
-/
import StageZero.Machine

namespace StageZero

/-- Something that was asked of a bench. -/
inductive Event where
  | read (a : Address)
  | write (a : Address) (w : Word)
  | maskInterrupts
  | relocate (table : Address)
  /-- An image was started, with interrupts masked or not. -/
  | start (stackPointer entry : Word) (masked : Bool)
  | idle
deriving DecidableEq

/-- A machine that records what is asked of it. -/
structure Bench where
  memory : Std.ExtTreeMap Address Word := {}
  /-- All events, the oldest first. -/
  log : Array Event := #[]
  /-- All words written, the oldest first. -/
  writes : Array (Address × Word) := #[]
  marks : Array String := #[]
  masked : Bool := false
  /-- The vector base register. -/
  vectorBase : Address := .zero
  stackPointer : Option Word := none
  entry : Option Word := none

namespace Bench

/-- A bench after power-on. -/
def empty : Bench := {}

/-- Adds an event to the log. -/
def record (e : Event) (b : Bench) : Bench := { b with log := b.log.push e }

/-- Notes how far a program came. -/
def mark (text : String) (b : Bench) : Bench := { b with marks := b.marks.push text }

/-- Puts a word into memory from outside. -/
def place (a : Address) (w : Word) (b : Bench) : Bench :=
  { b with memory := b.memory.insert a w }

/-- Looks at a word from outside. -/
def inspect (b : Bench) (a : Address) : Except Fault Word :=
  match b.memory[a]? with
  | some w => .ok w
  | none => .error (.absent a)

instance : Machine Bench where
  readWord a b :=
    match b.memory[a]? with
    | some w => (.returned w, b.record (.read a))
    | none => (.faulted (.unmapped a), b.record (.read a))
  writeWord a w b :=
    (.returned (),
      { b with
        memory := b.memory.insert a w
        log := b.log.push (.write a w)
        writes := b.writes.push (a, w) })
  maskInterrupts b := { b.record .maskInterrupts with masked := true }
  relocateVectors table b := { b.record (.relocate table) with vectorBase := table }
  launch stackPointer entry b :=
    { b.record (.start stackPointer entry b.masked) with
      stackPointer := some stackPointer
      entry := some entry }
  sleep b := b.record .idle

theorem readWord_present {b : Bench} {a : Address} {w : Word} (h : b.memory[a]? = some w) :
    readWord a b = (.returned w, b.record (.read a)) := by
  simp only [readWord, h]

theorem readWord_absent {b : Bench} {a : Address} (h : b.memory[a]? = none) :
    readWord a b = (.faulted (.unmapped a), b.record (.read a)) := by
  simp only [readWord, h]

/-- The events that were added to a bench since an earlier moment. -/
def eventsSince (before after : Bench) : List Event := after.log.toList.drop before.log.size

/-- The words in memory, in ascending order of their addresses. -/
def words (b : Bench) : List (Address × Word) := b.memory.toList

end Bench

end StageZero
