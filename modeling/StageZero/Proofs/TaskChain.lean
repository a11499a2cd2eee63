/-
# The chain that a run follows

The tasks of a program are lists inside of lists, but a run of them is a line.  It takes the
services of a list one after the other, up to the first jump or reset.  A jump is its end.  A reset
leads into a list of its own, and never out of it again.  So what a run comes by can be read off the
tasks before anything is carried out: some services, and a stop (`chain`).

* A run is at every moment somewhere on its chain: services are taken off the front of it, with a
  value and some signals each (`Reaches.chain_eq`).
* If all its accesses are good, a run gets to the stop (`reaches_stop`), and what happens there is
  the same at any depth (`Stopped.run_eq`): there is one farewell, by a jump or by the reset that ran
  out of tasks, and no reset around it adds another.
* Tasks that are not on the chain can be left out (`runTasks_prune`).
-/
import Mathlib.Data.List.Forall2
import StageZero.Proofs.WarmReset

namespace StageZero

open Board (Accessible)
open Region (wordsFrom)

/-! ## 1. What services show, need and return -/

theorem Delay.loopsFor_eq (ms : UInt32) :
    Delay.loopsFor ms = UInt32.ofNat (min (ms.toNat * 8000) 4294967295) := by
  apply UInt32.toNat_inj.mp
  rw [Delay.toNat_loopsFor, UInt32.toNat_ofNat']
  split <;> omega

theorem Board.signals_placeWords (a : Address) (ws : List Word) (b : Board) :
    (placeWords a ws b).signals = b.signals := by
  induction ws generalizing a b with
  | nil => rfl
  | cons w ws ih =>
    rw [placeWords, ih]
    simp only [Rig.place, Board.place]
    split <;> rfl

theorem Board.inspectWords_accessible {b : Board} {a : Address} {n : Nat}
    (h : ∀ x ∈ wordsFrom a n, Accessible x) : ∃ ws, inspectWords b a n = .ok ws := by
  induction n generalizing a with
  | zero => exact ⟨[], rfl⟩
  | succ n ih =>
    obtain ⟨ws, hws⟩ := ih fun x hx => h x (List.mem_cons_of_mem _ hx)
    have ha : Rig.inspect b a = .ok (b.word a) := if_pos (h a List.mem_cons_self)
    refine ⟨b.word a :: ws, ?_⟩
    rw [inspectWords, ha, hws]
    rfl

namespace Firmware

namespace Service

/-- The signals of a service.  A delay shows the rounds of its waiting loop, as many as the counter
can tell. -/
def signals : Service → List Signal
  | .delay ms => [.spin (UInt32.ofNat (min (ms.toNat * 8000) 4294967295))]
  | _ => []

/-- The addresses that a service accesses. -/
def accesses : Service → List Address
  | .place a ws => wordsFrom a ws.length
  | .inspect a count => wordsFrom a count.toNat
  | _ => []

/-- A service returned this value, at some time. -/
def Answers (s : Service) (v : Value) : Prop := ∃ f g, s.proc f = (.returned v, g)

theorem proc_inspect_of_ok {f : Firmware} {a : Address} {count : UInt32} {ws : List Word}
    (h : inspectWords f.board a count.toNat = .ok ws) :
    (Service.inspect a count).proc f = (.returned (.words ws), f) := by
  simp only [Service.proc, Proc.bind_apply, Proc.observe_apply, h, Proc.lift_ok,
    Run.andThen_returned, Proc.pure_apply]

theorem proc_inspect_of_error {f : Firmware} {a : Address} {count : UInt32} {e : Fault}
    (h : inspectWords f.board a count.toNat = .error e) :
    (Service.inspect a count).proc f = (.faulted e, f) := by
  simp only [Service.proc, Proc.bind_apply, Proc.observe_apply, h, Proc.lift_error,
    Run.andThen_faulted]

/-- A service whose accesses are good returns. -/
theorem returns {s : Service} (h : ∀ a ∈ s.accesses, Accessible a) (f : Firmware) :
    ∃ v g, s.proc f = (.returned v, g) := by
  cases s with
  | grow n => exact ⟨_, _, rfl⟩
  | layout => exact ⟨_, _, rfl⟩
  | vectorTable => exact ⟨_, _, rfl⟩
  | place a ws => exact ⟨_, _, rfl⟩
  | inspect a count =>
    obtain ⟨ws, hws⟩ := Board.inspectWords_accessible (b := f.board) h
    exact ⟨_, _, proc_inspect_of_ok hws⟩
  | delay ms => exact ⟨_, _, rfl⟩

theorem signals_of_returned {s : Service} {f g : Firmware} {v : Value}
    (h : s.proc f = (.returned v, g)) :
    g.board.signals.toList = f.board.signals.toList ++ s.signals := by
  cases s with
  | grow n => cases h; exact (List.append_nil _).symm
  | layout => cases h; exact (List.append_nil _).symm
  | vectorTable => cases h; exact (List.append_nil _).symm
  | place a ws =>
    cases h
    simp only [signals, Board.signals_placeWords, List.append_nil]
  | inspect a count =>
    cases hws : inspectWords f.board a count.toNat with
    | error e =>
      rw [proc_inspect_of_error hws] at h
      cases h
    | ok ws =>
      rw [proc_inspect_of_ok hws] at h
      cases h
      exact (List.append_nil _).symm
  | delay ms =>
    cases h
    simp only [signals, Board.spin, Board.emit, Array.toList_push, Delay.loopsFor_eq]

end Service

/-! ## 2. The chain of a list of tasks -/

/-- How a run comes to its end. -/
inductive Stop where
  /-- No task is left at the top. -/
  | done
  /-- No task is left in the main list of a reset. -/
  | asleep
  | jump (table : Address)
deriving DecidableEq

/-- What it is to run out of tasks. -/
def Level.stop : Level → Stop
  | .top => .done
  | .main => .asleep

/-- The services that a run comes by, and how it ends. -/
structure Chain where
  services : List Service
  stop : Stop

mutual

/-- The chain of a task that others follow, with a chain of theirs. -/
def Task.chain : Task → Chain → Chain
  | .service s, later => { later with services := s :: later.services }
  | .jump table, _ => ⟨[], .jump table⟩
  | .reset main, _ => Firmware.chain .main main

/-- **The chain of a list of tasks**: its services up to the first jump or reset.  A jump is the
end, and from a reset on the chain is that of its main list. -/
def chain (level : Level) : List Task → Chain
  | [] => ⟨[], level.stop⟩
  | task :: rest => task.chain (chain level rest)

end

/-- The chain from a moment of a run on. -/
def Moment.chain (m : Moment) : Chain := Firmware.chain m.level m.tasks

/-- Lists of tasks are made of services one after the other, and of resets one inside the other.
What stands behind a jump or a reset has no part in the induction. -/
theorem tasks_induction {motive : List Task → Prop} (nil : motive [])
    (service : ∀ s rest, motive rest → motive (.service s :: rest))
    (jump : ∀ table rest, motive (.jump table :: rest))
    (reset : ∀ main rest, motive main → motive (.reset main :: rest)) : ∀ tasks, motive tasks
  | [] => nil
  | .service s :: rest => service s rest (tasks_induction nil service jump reset rest)
  | .jump table :: rest => jump table rest
  | .reset main :: rest => reset main rest (tasks_induction nil service jump reset main)

theorem stop_main_ne_done (tasks : List Task) : (chain .main tasks).stop ≠ .done := by
  induction tasks using tasks_induction with
  | nil => exact Stop.noConfusion
  | service s rest ih => exact ih
  | jump table rest => exact Stop.noConfusion
  | reset main rest ih => exact ih

/-- A run stops for want of tasks exactly if all of them are services. -/
theorem stop_top_eq_done_iff (tasks : List Task) :
    (chain .top tasks).stop = .done ↔ ∀ task ∈ tasks, ∃ s, task = .service s := by
  induction tasks using tasks_induction with
  | nil => simp [chain, Level.stop]
  | service s rest ih => simpa [chain, Task.chain] using ih
  | jump table rest => simp [chain, Task.chain]
  | reset main rest => simpa [chain, Task.chain] using stop_main_ne_done main

/-- **A run goes by its chain.**  From one moment to a later one services are taken off the chain,
each with its value and its signals. -/
theorem Reaches.chain_eq {m later : Moment} {values : List Value} (h : Reaches m values later) :
    ∃ services, m.chain = ⟨services ++ later.chain.services, later.chain.stop⟩ ∧
      List.Forall₂ Service.Answers services values ∧
      later.program.board.signals.toList =
        m.program.board.signals.toList ++ services.flatMap Service.signals := by
  induction h with
  | here m => exact ⟨[], rfl, .nil, (List.append_nil _).symm⟩
  | @service level s rest f g v values later hservice _ ih =>
    obtain ⟨services, hchain, hanswers, hsignals⟩ := ih
    have hone : (Moment.mk level (.service s :: rest) f).chain =
        ⟨s :: (Moment.mk level rest g).chain.services, (Moment.mk level rest g).chain.stop⟩ := rfl
    refine ⟨s :: services, ?_, .cons ⟨f, g, hservice⟩ hanswers, ?_⟩
    · rw [hone, hchain, List.cons_append]
    · rw [hsignals, Service.signals_of_returned hservice, List.flatMap_cons, List.append_assoc]
  | @reset level main rest f ready values later hram _ ih =>
    -- The chain of a reset is that of its main list, and preparing RAM shows nothing.
    obtain ⟨services, hchain, hanswers, hsignals⟩ := ih
    have hkept := (keptByAccess_memoryOnly.prepareRam layout f).signals
    rw [hram] at hkept
    exact ⟨services, hchain, hanswers, hsignals.trans (by rw [← hkept])⟩

/-! ## 3. From the beginning to the stop -/

/-- The addresses that a run accesses when it stops. -/
def Stop.accesses : Stop → List Address
  | .jump table => wordsFrom table 2
  | _ => []

/-- The addresses that are accessed along a chain, the words that resets prepare apart. -/
def Chain.accesses (c : Chain) : List Address :=
  c.services.flatMap Service.accesses ++ c.stop.accesses

/-- A moment at which a run stops. -/
inductive Stopped : Stop → Moment → Prop
  | done (f : Firmware) : Stopped .done ⟨.top, [], f⟩
  | asleep (f : Firmware) : Stopped .asleep ⟨.main, [], f⟩
  | jump (table : Address) (level : Level) (rest : List Task) (f : Firmware) :
      Stopped (.jump table) ⟨level, .jump table :: rest, f⟩

/-- Nothing but the stop is left of the chain then. -/
theorem Stopped.chain_eq {stop : Stop} {m : Moment} (h : Stopped stop m) :
    m.chain = ⟨[], stop⟩ := by
  cases h <;> rfl

/-- **A run whose accesses are good comes to the stop of its chain.** -/
theorem reaches_stop {tasks : List Task} {level : Level} (f : Firmware)
    (hacc : ∀ a ∈ (chain level tasks).accesses, Accessible a) :
    ∃ values last, Reaches ⟨level, tasks, f⟩ values last ∧
      Stopped (chain level tasks).stop last := by
  induction tasks using tasks_induction generalizing level f with
  | nil =>
    refine ⟨[], _, .here _, ?_⟩
    cases level with
    | top => exact .done f
    | main => exact .asleep f
  | service s rest ih =>
    have hsplit : (chain level (.service s :: rest)).accesses =
        s.accesses ++ (chain level rest).accesses := by
      simp only [chain, Task.chain, Chain.accesses, List.flatMap_cons, List.append_assoc]
    rw [hsplit, List.forall_mem_append] at hacc
    obtain ⟨v, g, hservice⟩ := Service.returns hacc.1 f
    obtain ⟨values, last, hreaches, hstopped⟩ := ih g hacc.2
    exact ⟨v :: values, last, .service hservice hreaches, hstopped⟩
  | jump table rest => exact ⟨[], _, .here _, .jump table level rest f⟩
  | reset main rest ih =>
    obtain ⟨ready, hram, -⟩ := prepareRam_layout f
    obtain ⟨values, last, hreaches, hstopped⟩ := ih ready hacc
    exact ⟨values, last, .reset hram hreaches, hstopped⟩

/-! ## 4. The stop -/

/-- How a run ends that stops so. -/
def Stop.outcome : Stop → Outcome Unit
  | .done => .returned ()
  | .asleep => .diverged .idle
  | .jump _ => .diverged .started

theorem Stop.outcome_eq_returned_iff (stop : Stop) :
    stop.outcome = .returned () ↔ stop = .done := by
  cases stop <;> simp [outcome]

theorem Stop.outcome_eq_idle_iff (stop : Stop) :
    stop.outcome = .diverged .idle ↔ stop = .asleep := by
  cases stop <;> simp [outcome]

theorem Stop.outcome_eq_started_iff (stop : Stop) :
    stop.outcome = .diverged .started ↔ ∃ table, stop = .jump table := by
  cases stop <;> simp [outcome]

/-- The signals of a stop.  A jump takes the stack pointer and the entry from the board. -/
def Stop.signals : Stop → Board → List Signal
  | .done, _ => []
  | .asleep, _ => [.waitForInterrupt]
  | .jump table, b => [.maskInterrupts, .vectorBase table, .dataBarrier, .instructionBarrier,
      .bootstrap (b.word table) (b.word (table.addWords 1))]

theorem chainLoad_accessible {table : Address} (h : ∀ a ∈ wordsFrom table 2, Accessible a)
    (f : Firmware) :
    ∃ final, chainLoad table f = (.diverged .started, final) ∧
      final.board.memory = f.board.memory ∧
      final.board.signals.toList =
        f.board.signals.toList ++ (Stop.jump table).signals f.board := by
  have hfirst : Accessible table := h _ List.mem_cons_self
  have hsecond : Accessible (table.addWords 1) := h _ (List.mem_cons_of_mem _ List.mem_cons_self)
  simp only [chainLoad, VectorHeader.read, VectorHeader.stackPointerIndex,
    VectorHeader.resetIndex, Address.addWords_zero, Proc.bind_apply, Proc.act_apply,
    Proc.pure_apply, Run.andThen_returned, readWord_accessible hfirst,
    readWord_accessible hsecond, start_apply]
  refine ⟨_, rfl, rfl, ?_⟩
  simp only [Machine.launch, Machine.relocateVectors, Machine.maskInterrupts, Board.emit,
    Array.toList_push, List.append_assoc, List.cons_append, List.nil_append]
  rfl

/-- **The rest of a run that stops**: no more values, no change of memory, and the signals of the
stop. -/
theorem Stopped.run_eq {stop : Stop} {m : Moment} (h : Stopped stop m)
    (hacc : ∀ a ∈ stop.accesses, Accessible a) :
    ∃ final, m.run = ((stop.outcome, final), []) ∧
      final.board.memory = m.program.board.memory ∧
      final.board.signals.toList =
        m.program.board.signals.toList ++ stop.signals m.program.board := by
  cases h with
  | done f =>
    refine ⟨f, ?_, rfl, (List.append_nil _).symm⟩
    rw [Moment.run_top, runTasks]
    rfl
  | asleep f =>
    refine ⟨Machine.sleep f, ?_, rfl, Array.toList_push⟩
    rw [Moment.run, runTasks]
    rfl
  | jump table level rest f =>
    obtain ⟨final, hjump, hmem, hsignals⟩ := chainLoad_accessible hacc f
    refine ⟨final, ?_, hmem, hsignals⟩
    rw [Moment.run_jump, hjump]
    rfl

/-! ## 5. Tasks that no run comes to -/

mutual

/-- A task, and those that a run comes to after it. -/
def Task.prune : Task → List Task → List Task
  | .service s, later => .service s :: later
  | .jump table, _ => [.jump table]
  | .reset main, _ => [.reset (Firmware.prune main)]

/-- **A list of tasks without those after its first jump or reset**, and so for the main lists in
it. -/
def prune : List Task → List Task
  | [] => []
  | task :: rest => task.prune (prune rest)

end

/-- Such tasks change nothing, whether the run comes to a good end or not. -/
theorem runTasks_prune (tasks : List Task) : runTasks (prune tasks) = runTasks tasks := by
  induction tasks using tasks_induction with
  | nil => rfl
  | service s rest ih =>
    funext f
    simp only [prune, Task.prune, runTasks, ih]
  | jump table rest =>
    funext f
    rw [prune, Task.prune, runTasks_jump, runTasks_jump]
  | reset main rest ih =>
    funext f
    obtain ⟨ready, hram, -⟩ := prepareRam_layout f
    rw [prune, Task.prune, runTasks_reset hram, runTasks_reset hram, ih]

/-! ## 6. Every run -/

/-- **The shape of a run.**  A run whose accesses are good follows the chain of its tasks to its
stop.  Each service on the chain gave one value, in order.  The signals are those of the delays on
the chain, and then those of the stop, with the stack pointer and the entry of a jump as they were
in memory at that moment.  How the run ended tells where its chain stopped, and it comes back
exactly if all tasks at the top are services.  Tasks after a jump or a reset, at any level, might as
well not be there. -/
theorem runTasks_follows_chain (tasks : List Task) (f : Firmware)
    (hacc : ∀ a ∈ (chain .top tasks).accesses, Accessible a) :
    ∃ outcome values last final, runTasks tasks f = ((outcome, final), values) ∧
      Reaches ⟨.top, tasks, f⟩ values last ∧
      Stopped (chain .top tasks).stop last ∧
      List.Forall₂ Service.Answers (chain .top tasks).services values ∧
      final.board.memory = last.program.board.memory ∧
      final.board.signals.toList = f.board.signals.toList ++
        (chain .top tasks).services.flatMap Service.signals ++
        (chain .top tasks).stop.signals last.program.board ∧
      (outcome = .diverged .started ↔ ∃ table, (chain .top tasks).stop = .jump table) ∧
      (outcome = .diverged .idle ↔ (chain .top tasks).stop = .asleep) ∧
      (outcome = .returned () ↔ ∀ task ∈ tasks, ∃ s, task = .service s) ∧
      ∀ tasks', prune tasks' = prune tasks → runTasks tasks' f = runTasks tasks f := by
  obtain ⟨values, last, hreaches, hstopped⟩ := reaches_stop f hacc
  obtain ⟨services, hchain, hanswers, hsignals⟩ := hreaches.chain_eq
  obtain ⟨final, hlast, hmem, hfinal⟩ :=
    hstopped.run_eq fun a ha => hacc a (List.mem_append_right _ ha)
  obtain rfl : (chain .top tasks).services = services := by
    rw [hstopped.chain_eq, List.append_nil] at hchain
    exact congrArg Chain.services hchain
  refine ⟨(chain .top tasks).stop.outcome, values, last, final, ?_, hreaches, hstopped, hanswers,
    hmem, ?_, Stop.outcome_eq_started_iff _, Stop.outcome_eq_idle_iff _, ?_, ?_⟩
  · rw [← Moment.run_top, hreaches.run_eq, hlast, List.append_nil]
  · rw [hfinal, hsignals]
  · rw [Stop.outcome_eq_returned_iff, stop_top_eq_done_iff]
  · intro tasks' hprune
    rw [← runTasks_prune tasks', hprune, runTasks_prune]

/-- A reset inside a reset, left by a jump.  The second delay is longer than the counter can tell,
and neither the tasks after the jump nor the wild jump at the end are ever come to. -/
theorem runTasks_follows_chain_nested :
    let tasks : List Task :=
      [.service (.delay 5), .service (.place ⟨0x08001000⟩ [0x20008000, 0x08008101]),
        .reset
          [.service (.delay 600000),
            .reset [.service (.inspect ⟨0x20000000⟩ 2), .jump ⟨0x20000000⟩, .service (.delay 1)],
            .service (.grow 4)],
        .jump ⟨0xfffffffe⟩]
    ∃ final values, runTasks tasks fresh = ((.diverged .started, final), values) ∧
      values.length = 4 ∧
      final.board.signals.toList = [.spin 40000, .spin 0xffffffff, .maskInterrupts,
        .vectorBase ⟨0x20000000⟩, .dataBarrier, .instructionBarrier,
        .bootstrap 0x20008000 0x08008101] := by
  intro tasks
  obtain ⟨outcome, values, last, final, hrun, -, -, hanswers, hmem, hsignals, hstarted, -⟩ :=
    runTasks_follows_chain tasks fresh (by decide +kernel)
  obtain rfl : outcome = .diverged .started := hstarted.mpr ⟨⟨0x20000000⟩, rfl⟩
  refine ⟨final, values, hrun, hanswers.length_eq.symm, hsignals.trans ?_⟩
  -- The jump leaves memory alone, so the words it took are those at the end of the run.
  have hword (a : Address) :
      last.program.board.word a = (runTasks tasks fresh).1.2.board.word a := by
    rw [hrun, Board.word_eq, Board.word_eq, hmem]
  have hstop : (chain .top tasks).stop.signals last.program.board =
      [.maskInterrupts, .vectorBase ⟨0x20000000⟩, .dataBarrier, .instructionBarrier,
        .bootstrap (last.program.board.word ⟨0x20000000⟩)
          (last.program.board.word ⟨0x20000004⟩)] := rfl
  rw [hstop, hword, hword]
  decide +kernel

end Firmware

end StageZero
