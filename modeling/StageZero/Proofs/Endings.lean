/-
# How a machine is given away

A bench logs how it was given away: an image was started, or the machine went to sleep.  This file
proves that the log of a step has such an event exactly if the step gave the machine away, that
there is just one, that it is the last, and that it is of the kind that the step reports
(`Closes`).  A step that comes back, that is refused, or that faults leaves no such event, however
far it came.

For a reset more can be said.  Its log is that of preparing RAM, followed by the logs of the steps
of its entry, one after the other, up to the first that gives the machine away; only if there is
none does the machine go to sleep at the end.  Inside of an entry there may be resets again, and the
same is true of them: an ending goes out through all resets around it, and none of them adds a
sleep of its own.
-/
import StageZero.Proofs.Account

namespace StageZero

/-! ## 1. Lists that close with an ending -/

section Closes

variable {α : Type} {tell : α → Option Ending}

/-- **A list closes with an ending**: the last item tells of it, and no other item tells of any.
A list that closes with none has no item that does. -/
def Closes (tell : α → Option Ending) : Option Ending → List α → Prop
  | none, xs => ∀ x ∈ xs, tell x = none
  | some d, xs => ∃ past last, xs = past ++ [last] ∧ (∀ x ∈ past, tell x = none) ∧
      tell last = some d

theorem closes_nil : Closes tell none [] := fun _ hx => absurd hx List.not_mem_nil

theorem closes_singleton (x : α) : Closes tell (tell x) [x] := by
  cases h : tell x with
  | none =>
    intro y hy
    rw [List.mem_singleton.mp hy, h]
  | some d => exact ⟨[], x, rfl, closes_nil, h⟩

theorem Closes.append {d : Option Ending} {xs ys : List α} (hxs : Closes tell none xs)
    (hys : Closes tell d ys) : Closes tell d (xs ++ ys) := by
  cases d with
  | none => exact List.forall_mem_append.mpr ⟨hxs, hys⟩
  | some d =>
    obtain ⟨past, last, rfl, hpast, hlast⟩ := hys
    exact ⟨xs ++ past, last, (List.append_assoc _ _ _).symm,
      List.forall_mem_append.mpr ⟨hxs, hpast⟩, hlast⟩

end Closes

/-! ## 2. The log of a step -/

namespace Bench

/-- The log has grown by events that close with an ending. -/
def LogCloses (d : Option Ending) (b after : Bench) : Prop :=
  ∃ es, after.log.toList = b.log.toList ++ es ∧ Closes Event.ending? d es

theorem LogCloses.of_log_eq {b after : Bench} (h : after.log = b.log) : LogCloses none b after :=
  ⟨[], by rw [h, List.append_nil], closes_nil⟩

theorem LogCloses.trans {d : Option Ending} {b c after : Bench} (hbc : LogCloses none b c)
    (hcd : LogCloses d c after) : LogCloses d b after := by
  obtain ⟨es, hes, hquiet⟩ := hbc
  obtain ⟨fs, hfs, hcloses⟩ := hcd
  exact ⟨es ++ fs, by rw [hfs, hes, List.append_assoc], hquiet.append hcloses⟩

/-- **Whatever is done to a bench, its log closes with the ending that is reported.** -/
theorem keptByRig_logCloses : KeptByRig LogCloses where
  toKeptByScript := KeptByEvents.keptByScript
    { refl := fun _ => .of_log_eq rfl
      trans := .trans
      noted := fun {e _ _} hnoted => ⟨[e], hnoted.log, closes_singleton e⟩
      mark := fun _ _ => .of_log_eq rfl }
  place _ _ _ := .of_log_eq rfl

theorem LogCloses.eventsSince {d : Option Ending} {b after : Bench} (h : LogCloses d b after) :
    Closes Event.ending? d (b.eventsSince after) := by
  obtain ⟨es, hes, hcloses⟩ := h
  rwa [eventsSince_eq hes]

/-- Word accesses come back or fault; commands do too. -/
theorem keptByCommand_comesBack : KeptByCommand fun d (_ _ : Bench) => d = none where
  refl _ := rfl
  trans _ h := h
  read a b := by
    cases hw : b.memory[a]? with
    | some w => rw [readWord_present hw]; rfl
    | none => rw [readWord_absent hw]; rfl
  write _ _ _ := rfl
  mask _ := rfl
  relocate _ _ := rfl
  mark _ _ := rfl
  spin _ _ := rfl

end Bench

namespace Script

open Bench

/-- How the machine was given away in the step that a report is about. -/
def Report.ending? {σ : Type} (r : Report σ) : Option Ending := r.reply.ending?

/-- The events of the step that a report is about. -/
def Report.events (r : Report Bench) : List Event := r.before.eventsSince r.after

theorem Step.command_comes_back (c : Command) (b : Bench) :
    ((Step.command c).run b).ending? = none := by
  rw [Report.ending?, Step.run]
  exact keptByCommand_comesBack.command_run c (fun _ _ _ _ => rfl) b

/-- What takes hold of the machine does not come back. -/
theorem Report.ofExit_reply {σ : Type} [Rig σ] (held : σ) (r : Run σ Empty)
    (entry : Option (List (Report σ))) :
    (∃ e, (Report.ofExit held r entry).reply = .ended (.faulted e)) ∨
      ∃ d, (Report.ofExit held r entry).reply = .ended (.diverged d) := by
  obtain ⟨outcome, s⟩ := r
  cases outcome with
  | returned e => exact e.elim
  | faulted e => exact Or.inl ⟨e, rfl⟩
  | diverged d => exact Or.inr ⟨d, rfl⟩

/-- A step that is no command is refused, faults, or gives the machine away. -/
theorem Step.reply_of_not_command {step : Step} (hstep : ∀ c, step ≠ .command c) (b : Bench) :
    (∃ e, (step.run b).reply = .refused e) ∨ (∃ e, (step.run b).reply = .ended (.faulted e)) ∨
      ∃ d, (step.run b).reply = .ended (.diverged d) := by
  cases step with
  | command c => exact absurd rfl (hstep c)
  | exit e =>
    rw [Step.run]
    exact Or.inr (Report.ofExit_reply _ _ _)
  | reset layout entry =>
    cases hl : layout.build with
    | error e =>
      rw [Step.run_refused hl]
      exact Or.inl ⟨e, rfl⟩
    | ok l =>
      rw [Step.run_reset hl]
      exact Or.inr (Report.ofExit_reply _ _ _)

/-- The log of a script is made of the logs of its steps. -/
theorem log_run : ∀ (script : List Step) (b : Bench),
    (run script b).2.log.toList = b.log.toList ++ (run script b).1.flatMap Report.events
  | [], b => (List.append_nil _).symm
  | step :: rest, b => by
    have hstep := (keptByRig_logged.step_run step b).log_eq
    rw [run, log_run rest, hstep, List.flatMap_cons, Report.events, Step.run_before,
      List.append_assoc]

/-! ## 3. The steps of an entry -/

/-- **The steps of an entry that are carried out on a machine**: from the first one on, up to one
that gives the machine away, or all of them if none does. -/
structure CarriedOut {σ : Type} [Rig σ] (entry : List Step) (s : σ) (ran : List Step)
    (d : Option Ending) : Prop where
  first : ran <+: entry
  stops : Closes Report.ending? d (run ran s).1
  all : d = none → ran = entry

/-- How an entry ends that ends so. -/
def entryOutcome : Option Ending → Outcome Unit
  | none => .returned ()
  | some d => .diverged d

/-- **An entry is a script that stops early.** -/
theorem runEntry_eq {σ : Type} [Rig σ] : ∀ (entry : List Step) (s : σ),
    ∃ ran d, CarriedOut entry s ran d ∧
      runEntry entry s = ((entryOutcome d, (run ran s).2), (run ran s).1)
  | [], s => ⟨[], none, ⟨List.prefix_rfl, closes_nil, fun _ => rfl⟩, by rw [runEntry]; rfl⟩
  | step :: rest, s => by
    cases hend : (step.run s).reply.ending? with
    | some d =>
      refine ⟨[step], some d, ⟨⟨rest, rfl⟩, ⟨[], step.run s, rfl, closes_nil, hend⟩, ?_⟩, ?_⟩
      · intro h
        cases h
      · rw [runEntry_of_ending hend]
        rfl
    | none =>
      obtain ⟨ran, d, hran, hrun⟩ := runEntry_eq rest (step.run s).after
      have hfirst : Closes Report.ending? none [step.run s] := by
        intro r hr
        rw [List.mem_singleton.mp hr]
        exact hend
      refine ⟨step :: ran, d, ⟨?_, hfirst.append hran.stops, ?_⟩, ?_⟩
      · exact (List.prefix_cons_inj step).mpr hran.first
      · intro hd
        rw [hran.all hd]
      · rw [runEntry_of_no_ending hend, hrun]
        rfl

/-! ## 4. Resets -/

/-- What is added to the log when an entry came back. -/
def sleepAfter : Option Ending → List Event
  | none => [.idle]
  | some _ => []

/-- A cold start whose entry was carried out so far. -/
theorem coldStart_carriedOut {l : Layout} {entry ran : List Step} {b ready : Bench}
    {d : Option Ending} (hram : prepareRam l b = (.returned (), ready))
    (hrun : runEntry entry ready = ((entryOutcome d, (run ran ready).2), (run ran ready).1)) :
    ∃ final, coldStart l (runEntry entry) b =
        ((.diverged (d.getD .idle), final), some (run ran ready).1) ∧
      final.log.toList = (run ran ready).2.log.toList ++ sleepAfter d := by
  rw [coldStart_of_returned hram, hrun]
  cases d with
  | none => exact ⟨_, rfl, (noted_sleep _).log⟩
  | some d => exact ⟨_, rfl, (List.append_nil _).symm⟩

/-- **A reset that gives the machine away**, step by step: RAM is prepared, the entry is carried out
on it, and there is a sleep at the end exactly if the entry came back. -/
theorem reset_carriedOut {layout : Layout.Draft} {entry : List Step} {b : Bench} {d : Ending}
    (hd : ((Step.reset layout entry).run b).reply = .ended (.diverged d)) :
    ∃ l ready ran inner, layout.build = .ok l ∧ prepareRam l b = (.returned (), ready) ∧
      CarriedOut entry ready ran inner ∧
      ((Step.reset layout entry).run b).entry = some (run ran ready).1 ∧
      d = inner.getD .idle ∧
      b.eventsSince ((Step.reset layout entry).run b).after =
        b.eventsSince ready ++ (run ran ready).1.flatMap Report.events ++ sleepAfter inner := by
  cases hl : layout.build with
  | error e =>
    rw [Step.run_refused hl] at hd
    cases hd
  | ok l =>
    have hback := keptByCommand_comesBack.prepareRam l b
    have hlogged := keptByRig_logged.toKeptByAccess.prepareRam l b
    rw [Step.run_reset hl] at hd ⊢
    cases hram : prepareRam l b with
    | mk outcome ready =>
    rw [hram] at hback hlogged
    cases outcome with
    | returned u =>
      obtain ⟨ran, inner, hran, hrun⟩ := runEntry_eq entry ready
      obtain ⟨final, hcold, hlog⟩ := coldStart_carriedOut hram hrun
      rw [hcold] at hd ⊢
      refine ⟨l, ready, ran, inner, rfl, hram, hran, rfl, ?_, eventsSince_eq ?_⟩
      · cases hd
        rfl
      · calc final.log.toList
            = (run ran ready).2.log.toList ++ sleepAfter inner := hlog
          _ = b.log.toList ++ (b.eventsSince ready ++ (run ran ready).1.flatMap Report.events ++
                sleepAfter inner) := by
              rw [log_run, hlogged.log_eq, List.append_assoc, List.append_assoc, List.append_assoc]
    | faulted e =>
      rw [coldStart_of_faulted hram] at hd
      cases hd
    | diverged x => cases hback

/-! ## 5. Every step -/

/-- **One ending, and it is the last event.**  A command comes back, and every other step is
refused, faults, or gives the machine away.  Only in the last case does the step log an event that
gives the machine away, just one, as its last, and of the kind that is reported; so it is too for
what a step left that faulted.  A reset logs what preparing RAM logs, then what the steps of its
entry log that are carried out, then a sleep if none of them gave the machine away; and the first
of them finds the RAM that was prepared. -/
theorem ending_is_last_event (step : Step) (b : Bench) :
    (∀ c, step = .command c → (step.run b).ending? = none) ∧
    ((∀ c, step ≠ .command c) →
      (∃ e, (step.run b).reply = .refused e) ∨ (∃ e, (step.run b).reply = .ended (.faulted e)) ∨
        ∃ d, (step.run b).reply = .ended (.diverged d)) ∧
    (step.run b).after.log.toList = b.log.toList ++ b.eventsSince (step.run b).after ∧
    Closes Event.ending? (step.run b).ending? (b.eventsSince (step.run b).after) ∧
    Closes Event.ending? (step.run b).ending? (b.eventsSince (step.leaves b)) ∧
    ∀ layout entry d, step = .reset layout entry → (step.run b).reply = .ended (.diverged d) →
      ∃ l ready ran inner, layout.build = .ok l ∧ prepareRam l b = (.returned (), ready) ∧
        CarriedOut entry ready ran inner ∧
        (step.run b).entry = some (run ran ready).1 ∧
        (∀ report ∈ (run ran ready).1.head?, report.before = ready) ∧
        d = inner.getD .idle ∧
        b.eventsSince (step.run b).after =
          b.eventsSince ready ++ (run ran ready).1.flatMap Report.events ++ sleepAfter inner := by
  refine ⟨?_, fun hstep => Step.reply_of_not_command hstep b,
    (keptByRig_logged.step_run step b).log_eq, (keptByRig_logCloses.step_run step b).eventsSince,
    ?_, ?_⟩
  · rintro c rfl
    exact Step.command_comes_back c b
  · exact (keptByRig_logCloses.step_leaves step (fun _ => keptByRig_logCloses.place) b).eventsSince
  · rintro layout entry d rfl hd
    obtain ⟨l, ready, ran, inner, hl, hram, hran, hentry, hinner, hevents⟩ :=
      reset_carriedOut hd
    refine ⟨l, ready, ran, inner, hl, hram, hran, hentry, ?_, hinner, hevents⟩
    intro report hreport
    cases ran with
    | nil => cases hreport
    | cons first rest =>
      cases hreport
      exact Step.run_before first ready

/-- A jump that faults, and one out of a reset inside a reset: the first leaves no event, the second
ends both resets, and the write after it is not carried out. -/
theorem ending_is_last_event_nested :
    let layout : Layout :=
      { stackTop := ⟨0x20010000⟩
        data := ⟨⟨0x20000000⟩, ⟨0x20000008⟩⟩
        dataLoad := ⟨0x08001000⟩
        bss := ⟨⟨0x20000008⟩, ⟨0x2000000c⟩⟩ }
    let entry : List Step :=
      [.exit (.chainLoad ⟨0x20000008⟩), .reset ⟨layout, true⟩ [.exit (.chainLoad ⟨0x20000000⟩)],
        .command (.write ⟨0x20000000⟩ 1)]
    let b := placeWords ⟨0x08001000⟩ [0x20008000, 0x08008101] Bench.empty
    let report := (Step.reset ⟨layout, false⟩ entry).run b
    report.reply = .ended (.diverged .started) ∧
      Closes Event.ending? (some .started) (b.eventsSince report.after) ∧
      ∃ ready ran, prepareRam layout b = (.returned (), ready) ∧
        CarriedOut entry ready ran (some .started) ∧
        b.eventsSince report.after =
          b.eventsSince ready ++ (run ran ready).1.flatMap Report.events := by
  intro layout entry b report
  have hreply : report.reply = .ended (.diverged .started) := by decide +kernel
  obtain ⟨-, -, -, hcloses, -, hreset⟩ := ending_is_last_event (.reset ⟨layout, false⟩ entry) b
  obtain ⟨l, ready, ran, inner, hl, hram, hran, -, -, hinner, hevents⟩ :=
    hreset _ _ _ rfl hreply
  obtain rfl : layout = l := Except.ok.inj hl
  have hending : report.ending? = some .started := congrArg Reply.ending? hreply
  obtain rfl : inner = some .started := by
    cases inner with
    | none => cases hinner
    | some x => exact congrArg some hinner.symm
  refine ⟨hreply, hending ▸ hcloses, ready, ran, hram, hran, ?_⟩
  rw [hevents, sleepAfter, List.append_nil]

end Script

end StageZero
