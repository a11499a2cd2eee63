/-
# The firmware

A program linked for the board: where the linker put its memory, its vector table, and a heap
that begins where the zeroed memory ends.

The break of the heap is kept beside the board and not in its memory.  This is an assumption about
the linker: the break lies outside the memory that a reset prepares, the initialised data and the
zeroed memory both, so that a reset prepares RAM again and leaves the break where it is.  A linker
that puts it among the initialised data has every reset take it back to where it began.

A run is a list of tasks.  A service comes back with a value; a jump to another image and a reset
do not come back.  Reset runs a cold start whose entry is the program's main list of tasks.
-/
import StageZero.ColdStart
import StageZero.Delay
import StageZero.Handover
import StageZero.Heap
import StageZero.Rig

namespace StageZero

/-- The handlers that a vector table can name. -/
inductive Handler where
  /-- The cold start of the program. -/
  | reset
deriving DecidableEq

/-- The vector table of a program. -/
structure VectorTable where
  initialStackPointer : Address
  reset : Handler
deriving DecidableEq

/-- A program on a board. -/
structure Firmware where
  board : Board
  heap : Heap
  origin : Origin

namespace Firmware

/-! ## 1. What the linker decided -/

/-- The layout of the linked program. -/
def layout : Layout where
  stackTop := ⟨0x20010000⟩
  data := ⟨⟨0x20000000⟩, ⟨0x20000018⟩⟩
  dataLoad := ⟨0x08001000⟩
  bss := ⟨⟨0x20000018⟩, ⟨0x20000028⟩⟩

/-- The vector table of the linked program. -/
def vectorTable : VectorTable where
  initialStackPointer := layout.stackTop
  reset := .reset

/-- The program before it does anything. -/
def fresh : Firmware where
  board := .blank
  heap := .untouched
  origin := { value := layout.bss.stop }

/-! ## 2. The program as a machine -/

/-- Runs a procedure on the board. -/
def onBoard {α : Type} (p : Proc Board α) : Proc Firmware α := fun f =>
  let (outcome, board) := p f.board
  (outcome, { f with board })

instance : Machine Firmware where
  readWord a := onBoard (readWord a)
  writeWord a w := onBoard (writeWord a w)
  maskInterrupts f := { f with board := Machine.maskInterrupts f.board }
  relocateVectors table f := { f with board := Machine.relocateVectors table f.board }
  launch stackPointer entry f := { f with board := Machine.launch stackPointer entry f.board }
  sleep f := { f with board := Machine.sleep f.board }

/-! ## 3. Tasks -/

/-- A task that comes back. -/
inductive Service where
  /-- Grows the heap. -/
  | grow (n : UInt32)
  | layout
  | vectorTable
  | place (a : Address) (ws : List Word)
  | inspect (a : Address) (count : UInt32)
  | delay (ms : UInt32)

/-- A task of the program. -/
inductive Task where
  | service (s : Service)
  | jump (table : Address)
  | reset (main : List Task)

/-- What a service returns. -/
inductive Value where
  | nothing
  | address (a : Address)
  | layout (l : Layout)
  | vectorTable (t : VectorTable)
  | words (ws : List Word)
deriving DecidableEq

/-- The procedure of a service. -/
def Service.proc : Service → Proc Firmware Value
  | .grow n => fun f =>
    let (previous, origin, heap) := f.heap.grow n f.origin
    (.returned (.address previous), { f with heap, origin })
  | .layout => return .layout Firmware.layout
  | .vectorTable => return .vectorTable Firmware.vectorTable
  | .place a ws => do
    Proc.act fun f => { f with board := placeWords a ws f.board }
    return .nothing
  | .inspect a count => do
    return .words (← Proc.observe fun f => inspectWords f.board a count.toNat)
  | .delay ms => do
    Proc.act fun f => { f with board := f.board.spin (Delay.loopsFor ms) }
    return .nothing

/-- The end of a run that cannot return, where any run may stand. -/
def ofExit (r : Run Firmware Empty) : Run Firmware Unit := (r.1.map Empty.elim, r.2)

mutual

/-- Carries out a task, and returns the values of the services in it. -/
def Task.run : Task → Firmware → Run Firmware Unit × List Value
  | .service s, f =>
    match s.proc f with
    | (.returned v, f) => ((.returned (), f), [v])
    | (.faulted e, f) => ((.faulted e, f), [])
    | (.diverged d, f) => ((.diverged d, f), [])
  | .jump table, f => (ofExit (chainLoad table f), [])
  | .reset main, f =>
    let (r, values) := coldStart layout (runTasks main) f
    (ofExit r, values.getD [])

/-- **Carries out tasks one after another**, up to the first that does not come back. -/
def runTasks : List Task → Firmware → Run Firmware Unit × List Value
  | [], f => ((.returned (), f), [])
  | task :: rest, f =>
    match task.run f with
    | ((.returned (), f), values) =>
      let (r, more) := runTasks rest f
      (r, values ++ more)
    | stopped => stopped

end

end Firmware

end StageZero
