/-
# Resets in the middle of a run

A program may call its reset at any time: from the main list of another reset, with a heap that has
grown, with RAM full of what was done before.  This file proves that the main list of a reset can not
tell.  When it starts, the data is what its source is, the zeroed memory is zero, and nothing else
has changed (`reset_gives_main_its_image`).

To speak of every reset in a run, the run is cut into moments.  A moment is what is left to do and
the program as it is then.  There is no way back out of a reset, so the levels around the present
one do not matter, and a moment has just the tasks of one level in it.  `Reaches` leads from a
moment to the later ones, and the whole run can be picked up at each of them (`Reaches.run_eq`).
-/
import StageZero.Proofs.LinkedImage

namespace StageZero.Firmware

/-! ## 1. Tasks that do not come back -/

theorem andThen_ofExit (r : Run Firmware Empty) (k : Unit → Proc Firmware Unit) :
    Run.andThen (ofExit r) k = ofExit r := by
  obtain ⟨outcome, f⟩ := r
  cases outcome with
  | returned e => exact e.elim
  | faulted e => rfl
  | diverged d => rfl

/-- What comes after a task that does not come back is not carried out. -/
theorem runTasks_of_exit {task : Task} {f : Firmware} {r : Run Firmware Empty}
    {values : List Value} (h : task.run f = (ofExit r, values)) (rest : List Task) :
    runTasks (task :: rest) f = (ofExit r, values) := by
  obtain ⟨outcome, g⟩ := r
  cases outcome with
  | returned e => exact e.elim
  | faulted e => simp only [runTasks, h, ofExit, Outcome.map]
  | diverged d => simp only [runTasks, h, ofExit, Outcome.map]

theorem runTasks_service {s : Service} {f g : Firmware} {v : Value}
    (h : s.proc f = (.returned v, g)) (rest : List Task) :
    runTasks (.service s :: rest) f = ((runTasks rest g).1, v :: (runTasks rest g).2) := by
  simp only [runTasks, Task.run, h]
  rfl

theorem runTasks_jump (table : Address) (rest : List Task) (f : Firmware) :
    runTasks (.jump table :: rest) f = (ofExit (chainLoad table f), []) :=
  runTasks_of_exit (by rw [Task.run]) rest

theorem runTasks_reset {main : List Task} {f ready : Firmware}
    (hram : prepareRam layout f = (.returned (), ready)) (rest : List Task) :
    runTasks (.reset main :: rest) f =
      (ofExit (Run.andThen (runTasks main ready).1 fun _ => idle), (runTasks main ready).2) := by
  apply runTasks_of_exit
  simp only [Task.run, coldStart_of_returned hram, Option.getD_some]

/-! ## 2. Moments of a run -/

/-- Where a list of tasks stands: at the top of a run, or as the main list of a reset. -/
inductive Level where
  | top
  | main
deriving DecidableEq

/-- What is done when the tasks of a level have run out: nothing at the top, while a reset goes to
sleep. -/
def Level.close : Level → Proc Firmware Unit
  | .top => pure ()
  | .main => fun f => ofExit (idle f)

theorem ofExit_andThen_idle (r : Run Firmware Unit) :
    ofExit (Run.andThen r fun _ => idle) = Run.andThen r fun _ => Level.main.close := by
  obtain ⟨outcome, f⟩ := r
  cases outcome <;> rfl

/-- **A moment of a run**: the tasks that are left at the present level, and the program as it
is. -/
structure Moment where
  level : Level
  tasks : List Task
  program : Firmware

namespace Moment

/-- The rest of a run, from a moment on. -/
def run (m : Moment) : Run Firmware Unit × List Value :=
  (Run.andThen (runTasks m.tasks m.program).1 fun _ => m.level.close,
    (runTasks m.tasks m.program).2)

theorem run_top (tasks : List Task) (f : Firmware) :
    (Moment.mk .top tasks f).run = runTasks tasks f :=
  congrArg (·, _) (Run.andThen_pure _)

theorem run_service {s : Service} {f g : Firmware} {v : Value}
    (hservice : s.proc f = (.returned v, g)) (level : Level) (rest : List Task) :
    (Moment.mk level (.service s :: rest) f).run =
      ((Moment.mk level rest g).run.1, v :: (Moment.mk level rest g).run.2) := by
  simp only [run, runTasks_service hservice]

theorem run_jump (level : Level) (table : Address) (rest : List Task) (f : Firmware) :
    (Moment.mk level (.jump table :: rest) f).run = (ofExit (chainLoad table f), []) := by
  simp only [run, runTasks_jump, andThen_ofExit]

/-- Whatever stands around a reset, the run goes on with its main list. -/
theorem run_reset {main : List Task} {f ready : Firmware}
    (hram : prepareRam layout f = (.returned (), ready)) (level : Level) (rest : List Task) :
    (Moment.mk level (.reset main :: rest) f).run = (Moment.mk .main main ready).run := by
  rw [run, run, runTasks_reset hram]
  simp only [andThen_ofExit]
  rw [ofExit_andThen_idle]

end Moment

/-- **From one moment of a run to a later one**, with the values of the services on the way.  A
service that returns leads to the tasks after it, and a reset leads to its main list, on prepared
RAM.  A jump leads nowhere. -/
inductive Reaches : Moment → List Value → Moment → Prop
  | here (m : Moment) : Reaches m [] m
  | service {level : Level} {s : Service} {rest : List Task} {f g : Firmware} {v : Value}
      {values : List Value} {m : Moment} (hservice : s.proc f = (.returned v, g))
      (hrest : Reaches ⟨level, rest, g⟩ values m) :
      Reaches ⟨level, .service s :: rest, f⟩ (v :: values) m
  | reset {level : Level} {main rest : List Task} {f ready : Firmware} {values : List Value}
      {m : Moment} (hram : prepareRam layout f = (.returned (), ready))
      (hrest : Reaches ⟨.main, main, ready⟩ values m) :
      Reaches ⟨level, .reset main :: rest, f⟩ values m

/-- **The run of a moment is that of every later moment**, after the values on the way. -/
theorem Reaches.run_eq {m later : Moment} {values : List Value} (h : Reaches m values later) :
    m.run = (later.run.1, values ++ later.run.2) := by
  induction h with
  | here m => rfl
  | service hservice _ ih => rw [Moment.run_service hservice, ih, List.cons_append]
  | reset hram _ ih => rw [Moment.run_reset hram, ih]

/-! ## 3. What a reset gives to its main list -/

/-- **Cold or warm, main finds the same.**  Whenever a run comes to a reset, the layout is valid, the
main list starts on prepared RAM, and the run goes on as the main list does.  The data then is what
its source was when the reset was called, the zeroed memory is zero, and every other word is as it
was.  So two runs whose source words agree when they come to a reset start its main list with the
same words in both regions, whatever was there before. -/
theorem reset_gives_main_its_image (tasks main rest : List Task) (f g : Firmware) (level : Level)
    (values : List Value)
    (hreaches : Reaches ⟨.top, tasks, f⟩ values ⟨level, .reset main :: rest, g⟩) :
    layout.validate = .ok () ∧
      ∃ ready, prepareRam layout g = (.returned (), ready) ∧
        runTasks tasks f =
          ((Moment.mk .main main ready).run.1, values ++ (Moment.mk .main main ready).run.2) ∧
        (∀ i < 6, ready.board.word (layout.data.start.nthWord i) =
          g.board.word (layout.dataLoad.nthWord i)) ∧
        (∀ i < 4, ready.board.word (layout.bss.start.nthWord i) = 0) ∧
        (∀ a, a.Aligned → ¬ layout.data.HasWord a → ¬ layout.bss.HasWord a →
          ready.board.word a = g.board.word a) ∧
        ∀ tasks' main' rest' f' g' level' values',
          Reaches ⟨.top, tasks', f'⟩ values' ⟨level', .reset main' :: rest', g'⟩ →
          (∀ i < 6, g'.board.word (layout.dataLoad.nthWord i) =
            g.board.word (layout.dataLoad.nthWord i)) →
          ∃ ready', prepareRam layout g' = (.returned (), ready') ∧
            runTasks tasks' f' = ((Moment.mk .main main' ready').run.1,
              values' ++ (Moment.mk .main main' ready').run.2) ∧
            ∀ a, layout.data.HasWord a ∨ layout.bss.HasWord a →
              ready'.board.word a = ready.board.word a := by
  obtain ⟨ready, hram, himage⟩ := prepareRam_image g
  refine ⟨rfl, ready, hram, ?_, himage.data, himage.bss, himage.frame, ?_⟩
  · rw [← Moment.run_top, hreaches.run_eq, Moment.run_reset hram]
  · intro tasks' main' rest' f' g' level' values' hreaches' hsource
    obtain ⟨ready', hram', himage'⟩ := prepareRam_image g'
    refine ⟨ready', hram', ?_, fun a ha => himage.word_eq himage' hsource ha⟩
    rw [← Moment.run_top, hreaches'.run_eq, Moment.run_reset hram']

/-- A reset out of the main list of a reset, with a heap that has grown, a source word that was
changed, and zeroed memory that was written to. -/
theorem reset_gives_main_its_image_warm :
    let source := placeWords layout.dataLoad [1, 2, 3, 4, 5, 6] Board.blank
    let main : List Task :=
      [.service (.grow 16), .service (.place ⟨0x08001004⟩ [7]),
        .service (.place ⟨0x2000001c⟩ [9]), .reset []]
    ∃ g ready values,
      Reaches ⟨.top, [.reset main], { fresh with board := source }⟩ values
        ⟨.main, [.reset []], g⟩ ∧
      g.board.word ⟨0x20000004⟩ = 2 ∧ g.board.word ⟨0x2000001c⟩ = 9 ∧
      prepareRam layout g = (.returned (), ready) ∧
      ready.board.word ⟨0x20000004⟩ = 7 ∧ ready.board.word ⟨0x2000001c⟩ = 0 := by
  intro source main
  obtain ⟨first, hfirst, -⟩ := prepareRam_image { fresh with board := source }
  obtain rfl : (prepareRam layout { fresh with board := source }).2 = first :=
    congrArg Prod.snd hfirst
  have hreaches : Reaches ⟨.top, [.reset main], { fresh with board := source }⟩ _
      ⟨.main, [.reset []], _⟩ :=
    .reset hfirst (.service rfl (.service rfl (.service rfl (.here _))))
  obtain ⟨-, ready, hram, -, hdata, hbss, -⟩ := reset_gives_main_its_image _ _ _ _ _ _ _ hreaches
  exact ⟨_, ready, _, hreaches, by decide +kernel, by decide +kernel, hram,
    (hdata 1 (by decide)).trans (by decide +kernel), hbss 1 (by decide)⟩

end StageZero.Firmware
