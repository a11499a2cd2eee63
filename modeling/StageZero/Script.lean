/-
# Scripts

A script is a list of steps for a rig.  There are three kinds.

* A command does something and comes back.
* An exit gives the machine away.
* A reset runs a cold start whose entry is again a list of steps.

A step that faults, or that is refused because of its layout, is reported and the next one runs.
Within an entry a step that gives the machine away is the last: the entry ends with it, and so
does every reset around it.  At the top of a script the next step goes on with the machine that
was left behind.
-/
import StageZero.ColdStart
import StageZero.Delay
import StageZero.Handover
import StageZero.Rig

namespace StageZero.Script

/-! ## 1. Steps -/

/-- A step that comes back. -/
inductive Command where
  /-- Places words from outside. -/
  | place (a : Address) (ws : List Word)
  /-- Looks at words from outside. -/
  | inspect (a : Address) (count : UInt32)
  | read (a : Address)
  | write (a : Address) (w : Word)
  | mark (text : String)
  | delay (ms : UInt32)
  | header (table : Address)
  | loadData (layout : Layout.Draft)
  | clearRegion (region : Region.Draft)
  | prepareRam (layout : Layout.Draft)
  | maskInterrupts
  | relocate (table : Address)

/-- A step that gives the machine away. -/
inductive Exit where
  | start (stackPointer entry : Word)
  | idle
  | chainLoad (table : Address)

/-- A step of a script. -/
inductive Step where
  | command (c : Command)
  | exit (e : Exit)
  | reset (layout : Layout.Draft) (entry : List Step)

/-! ## 2. Reports -/

/-- What a command returns. -/
inductive Value where
  | nothing
  | word (w : Word)
  | words (ws : List Word)
  | header (h : VectorHeader)
deriving DecidableEq

/-- How a step ended. -/
inductive Reply where
  /-- It was not carried out. -/
  | refused (e : Error)
  | ended (outcome : Outcome Value)
deriving DecidableEq

/-- How the machine was given away, if it was. -/
def Reply.ending? : Reply → Option Ending
  | .refused _ => none
  | .ended outcome => outcome.ending?

/-- An account of one step. -/
structure Report (σ : Type) where
  before : σ
  after : σ
  reply : Reply
  /-- For a reset that was carried out, an account of the steps of its entry. -/
  entry : Option (List (Report σ)) := none

/-! ## 3. Running -/

variable {σ : Type} [Rig σ]

/-- A procedure without a value. -/
def quiet (p : Proc σ Unit) : Proc σ Value := do
  p
  return .nothing

/-- The procedure of a command, unless it is refused. -/
def Command.proc : Command → Except Error (Proc σ Value)
  | .place a ws => .ok (quiet (Proc.act (placeWords a ws)))
  | .inspect a count => .ok do return .words (← Proc.observe (inspectWords · a count.toNat))
  | .read a => .ok do return .word (← readWord a)
  | .write a w => .ok (quiet (writeWord a w))
  | .mark text => .ok (quiet (Proc.act (Rig.mark text)))
  | .delay ms => .ok (quiet (Proc.act (Rig.spin (Delay.loopsFor ms))))
  | .header table => .ok do return .header (← VectorHeader.read table)
  | .loadData layout => layout.build.map fun l => quiet (StageZero.loadData l)
  | .clearRegion region => region.build.map fun r => quiet (StageZero.clearRegion r)
  | .prepareRam layout => layout.build.map fun l => quiet (StageZero.prepareRam l)
  | .maskInterrupts => .ok (quiet (Proc.act Machine.maskInterrupts))
  | .relocate table => .ok (quiet (Proc.act (Machine.relocateVectors table)))

/-- The procedure of an exit. -/
def Exit.proc : Exit → Proc σ Empty
  | .start stackPointer entry => StageZero.start stackPointer entry
  | .idle => StageZero.idle
  | .chainLoad table => StageZero.chainLoad table

/-- Carries out a command. -/
def Command.run (c : Command) (s : σ) : Report σ :=
  match (c.proc : Except Error (Proc σ Value)) with
  | .error e => { before := s, after := s, reply := .refused e }
  | .ok p =>
    let (outcome, after) := p s
    { before := s, after, reply := .ended outcome }

/-- What is in hand after a procedure that takes hold of the machine. -/
def inHand (held : σ) : Run σ Empty → σ
  | (.faulted _, spent) => Rig.salvage held spent
  | (_, left) => left

/-- The account of a procedure that takes hold of the machine. -/
def Report.ofExit (held : σ) (r : Run σ Empty) (entry : Option (List (Report σ))) : Report σ :=
  { before := held, after := inHand held r, reply := .ended (r.1.map Empty.elim), entry }

mutual

/-- **Carries out a step.** -/
def Step.run : Step → σ → Report σ
  | .command c, s => c.run s
  | .exit e, s => Report.ofExit s (e.proc s) none
  | .reset layout entry, s =>
    match layout.build with
    | .error e => { before := s, after := s, reply := .refused e }
    | .ok l =>
      let (r, reports) := coldStart l (runEntry entry) s
      Report.ofExit s r (some (reports.getD []))

/-- Carries out the steps of an entry, up to the first one that gives the machine away. -/
def runEntry : List Step → σ → Run σ Unit × List (Report σ)
  | [], s => ((.returned (), s), [])
  | step :: rest, s =>
    let report := step.run s
    match report.reply.ending? with
    | some d => ((.diverged d, report.after), [report])
    | none =>
      let (r, reports) := runEntry rest report.after
      (r, report :: reports)

end

theorem Step.run_before (step : Step) (s : σ) : (step.run s).before = s := by
  cases step with
  | command c =>
    rw [Step.run, Command.run]
    split <;> rfl
  | exit e =>
    rw [Step.run]
    rfl
  | reset layout entry =>
    rw [Step.run]
    split <;> rfl

theorem Step.run_refused {layout : Layout.Draft} {e : Error} (h : layout.build = .error e)
    (entry : List Step) (s : σ) :
    (Step.reset layout entry).run s = { before := s, after := s, reply := .refused e } := by
  rw [Step.run, h]

theorem Step.run_reset {layout : Layout.Draft} {l : Layout} (h : layout.build = .ok l)
    (entry : List Step) (s : σ) :
    (Step.reset layout entry).run s =
      Report.ofExit s (coldStart l (runEntry entry) s).1
        (some ((coldStart l (runEntry entry) s).2.getD [])) := by
  rw [Step.run, h]

theorem runEntry_of_ending {step : Step} {s : σ} {d : Ending}
    (h : (step.run s).reply.ending? = some d) (rest : List Step) :
    runEntry (step :: rest) s = ((.diverged d, (step.run s).after), [step.run s]) := by
  simp only [runEntry, h]

theorem runEntry_of_no_ending {step : Step} {s : σ} (h : (step.run s).reply.ending? = none)
    (rest : List Step) :
    runEntry (step :: rest) s =
      ((runEntry rest (step.run s).after).1,
        step.run s :: (runEntry rest (step.run s).after).2) := by
  simp only [runEntry, h]

/-- **Carries out a script**, every step of it, and returns the machine in hand at the end. -/
def run : List Step → σ → List (Report σ) × σ
  | [], s => ([], s)
  | step :: rest, s =>
    let report := step.run s
    let (reports, last) := run rest report.after
    (report :: reports, last)

end StageZero.Script
