/-
# Machines

What the loader asks of a machine: word access, interrupts off, a new vector table, and the two
ways of giving the machine away.  Everything the loader does is written against this class, so it
runs on any machine; `Bench` and `Board` are two of them.
-/
import StageZero.Proc

namespace StageZero

/-- A machine that the loader can run on. -/
class Machine (σ : Type) where
  /-- Reads the word at an address. -/
  readWord : Address → Proc σ Word
  /-- Writes a word to an address. -/
  writeWord : Address → Word → Proc σ Unit
  /-- Turns interrupts off. -/
  maskInterrupts : σ → σ
  /-- Makes the table at an address the one that the processor takes its vectors from. -/
  relocateVectors : Address → σ → σ
  /-- Sets the stack pointer and branches; the machine belongs to the code there from then on. -/
  launch : (stackPointer entry : Word) → σ → σ
  /-- Goes to sleep, never to wake up. -/
  sleep : σ → σ

export Machine (readWord writeWord)

variable {σ : Type} [Machine σ]

/-- Gives the machine to the code at `entry`. -/
def start (stackPointer entry : Word) : Proc σ Empty :=
  Proc.leave .started (Machine.launch stackPointer entry)

/-- Puts the machine to sleep for good. -/
def idle : Proc σ Empty := Proc.leave .idle Machine.sleep

@[simp] theorem start_apply (sp entry : Word) (s : σ) :
    start sp entry s = (.diverged .started, Machine.launch sp entry s) := rfl

@[simp] theorem idle_apply (s : σ) : idle s = (.diverged .idle, Machine.sleep s) := rfl

end StageZero
