/-
# What every step of a machine keeps, every run keeps

Everything the loader does is made of a handful of operations of a machine, and everything a
script does is made of these and of a few operations of a rig.  So a relation between an earlier
and a later state of a machine need only be checked for these operations: if it is reflexive and
transitive, it holds between the beginning and the end of any run.

The laws come in layers, by what a procedure is made of.

* `KeptByAccess`: reading and writing words.  Enough for preparing RAM and for reading a header.
* `KeptByMachine`: the other operations of a machine too.  Enough for handing over and for a cold
  start.
* `KeptByCommand`: what the commands of a script do to their rig, except that they place words.
* `KeptByScript`: both.  Enough for every step that places no words, with resets nested to any depth
  (`step_run`, `run_entry`), and for whole scripts of such steps (`reaches`).
* `KeptByRig`: placing words too, and with it every script.

A relation may depend on how the machine was given away, if it was.  A fault is a way to stop
early, and says nothing more.
-/
import StageZero.Script

namespace StageZero

variable {σ α β : Type}

/-! ## 1. Procedures -/

/-- A procedure keeps a relation between the machine before it and the machine after it, which
may depend on how the machine was given away. -/
def Proc.Keeps (R : Option Ending → σ → σ → Prop) (p : Proc σ α) : Prop :=
  ∀ s, R (p s).1.ending? s (p s).2

/-- A procedure that was made from something built keeps what every such procedure keeps. -/
theorem Proc.keeps_of_map {R : Option Ending → σ → σ → Prop} {γ : Type} {x : Except Error γ}
    {f : γ → Proc σ α} {p : Proc σ α} (hp : x.map f = .ok p) (hf : ∀ c, (f c).Keeps R) :
    p.Keeps R := by
  cases x with
  | error e => cases hp
  | ok c =>
    cases hp
    exact hf c

/-- A relation between earlier and later machines that word accesses keep. -/
structure KeptByAccess [Machine σ] (R : Option Ending → σ → σ → Prop) : Prop where
  refl : ∀ s, R none s s
  trans : ∀ {d s t u}, R none s t → R d t u → R d s u
  read : ∀ a, (readWord a : Proc σ Word).Keeps R
  write : ∀ a w, (writeWord a w : Proc σ Unit).Keeps R

namespace KeptByAccess

variable [Machine σ] {R : Option Ending → σ → σ → Prop} (h : KeptByAccess R)
include h

theorem pure (a : α) : (Pure.pure a : Proc σ α).Keeps R := fun s => h.refl s

theorem lift (x : Except Fault α) : (Proc.lift x : Proc σ α).Keeps R := by
  intro s
  cases x with
  | ok a => exact h.refl s
  | error e => exact h.refl s

/-- Going on from the end of a run. -/
theorem and_then {s : σ} {r : Run σ α} {f : α → Proc σ β} (hr : R r.1.ending? s r.2)
    (hf : ∀ a, (f a).Keeps R) : R (Run.andThen r f).1.ending? s (Run.andThen r f).2 := by
  obtain ⟨outcome, t⟩ := r
  cases outcome with
  | returned a => exact h.trans hr (hf a t)
  | faulted e => exact hr
  | diverged d => exact hr

theorem bind {p : Proc σ α} {f : α → Proc σ β} (hp : p.Keeps R) (hf : ∀ a, (f a).Keeps R) :
    (p >>= f).Keeps R :=
  fun s => h.and_then (hp s) hf

theorem copyWords : ∀ (n : Nat) (source target : Address),
    (StageZero.copyWords source target n : Proc σ Unit).Keeps R
  | 0, _, _ => h.pure ()
  | n + 1, source, target =>
    h.bind (h.read source) fun w => h.bind (h.write target w) fun _ => copyWords n _ _

theorem clearWords : ∀ (n : Nat) (target : Address),
    (StageZero.clearWords target n : Proc σ Unit).Keeps R
  | 0, _ => h.pure ()
  | n + 1, target => h.bind (h.write target 0) fun _ => clearWords n _

theorem loadData (l : Layout) : (StageZero.loadData l : Proc σ Unit).Keeps R :=
  h.bind (h.lift _) fun _ => h.bind (h.lift _) fun _ => h.bind (h.lift _) fun _ =>
    h.copyWords _ _ _

theorem clearRegion (r : Region) : (StageZero.clearRegion r : Proc σ Unit).Keeps R :=
  h.bind (h.lift _) fun _ => h.clearWords _ _

theorem prepareRam (l : Layout) : (StageZero.prepareRam l : Proc σ Unit).Keeps R :=
  h.bind (h.loadData l) fun _ => h.clearRegion l.bss

theorem header (table : Address) : (VectorHeader.read table : Proc σ VectorHeader).Keeps R :=
  h.bind (h.read _) fun _ => h.bind (h.read _) fun _ => h.pure _

end KeptByAccess

/-! ## 2. Giving the machine away -/

/-- A relation between earlier and later machines that every operation of a machine keeps. -/
structure KeptByMachine [Machine σ] (R : Option Ending → σ → σ → Prop) : Prop
    extends KeptByAccess R where
  mask : ∀ s, R none s (Machine.maskInterrupts s)
  relocate : ∀ table s, R none s (Machine.relocateVectors table s)
  launch : ∀ stackPointer entry s, R (some .started) s (Machine.launch stackPointer entry s)
  sleep : ∀ s, R (some .idle) s (Machine.sleep s)

namespace KeptByMachine

variable [Machine σ] {R : Option Ending → σ → σ → Prop} (h : KeptByMachine R)
include h

theorem chainLoad (table : Address) : (StageZero.chainLoad table : Proc σ Empty).Keeps R :=
  h.bind h.mask fun _ => h.bind (h.header table) fun _ => h.bind (h.relocate table) fun _ =>
    h.launch _ _

/-- A cold start keeps what its entry keeps. -/
theorem coldStart {τ : Type} {l : Layout} {entry : σ → Run σ Unit × τ}
    (hentry : ∀ s, R (entry s).1.1.ending? s (entry s).1.2) (s : σ) :
    R (StageZero.coldStart l entry s).1.1.ending? s (StageZero.coldStart l entry s).1.2 := by
  have hram := h.prepareRam l s
  cases hrun : StageZero.prepareRam l s with
  | mk outcome ready =>
  rw [hrun] at hram
  cases outcome with
  | returned u =>
    rw [coldStart_of_returned hrun]
    exact h.and_then (h.trans hram (hentry ready)) fun _ => h.sleep
  | faulted e =>
    rw [coldStart_of_faulted hrun]
    exact hram
  | diverged d =>
    rw [coldStart_of_diverged hrun]
    exact hram

end KeptByMachine

/-! ## 3. Steps of a script -/

namespace Script

/-- A command places words from outside. -/
def Command.places : Command → Bool
  | .place _ _ => true
  | _ => false

mutual

/-- A step places words from outside, or one inside of it does. -/
def Step.places : Step → Bool
  | .command c => c.places
  | .exit _ => false
  | .reset _ entry => anyPlaces entry

/-- One of these steps places words from outside. -/
def anyPlaces : List Step → Bool
  | [] => false
  | step :: rest => step.places || anyPlaces rest

end

end Script

/-- A relation between earlier and later machines that the commands of a script keep, words that
are placed from outside apart. -/
structure KeptByCommand [Rig σ] (R : Option Ending → σ → σ → Prop) : Prop
    extends KeptByAccess R where
  mask : ∀ s, R none s (Machine.maskInterrupts s)
  relocate : ∀ table s, R none s (Machine.relocateVectors table s)
  mark : ∀ text s, R none s (Rig.mark text s)
  spin : ∀ loops s, R none s (Rig.spin loops s)

/-- A relation between earlier and later machines that a word placed from outside keeps. -/
def KeptByPlace [Rig σ] (R : Option Ending → σ → σ → Prop) : Prop :=
  ∀ a w s, R none s (Rig.place a w s)

namespace KeptByCommand

open Script

variable [Rig σ] {R : Option Ending → σ → σ → Prop} (h : KeptByCommand R)
include h

theorem placeWords (hplace : KeptByPlace R) : ∀ (ws : List Word) (a : Address) (s : σ),
    R none s (StageZero.placeWords a ws s)
  | [], _, s => h.refl s
  | w :: ws, a, s => h.trans (hplace a w s) (placeWords hplace ws _ _)

theorem quiet {p : Proc σ Unit} (hp : p.Keeps R) : (Script.quiet p).Keeps R :=
  h.bind hp fun _ => h.pure _

theorem command_proc {c : Command} (hplace : c.places = true → KeptByPlace R) {p : Proc σ Value}
    (hp : c.proc = .ok p) : p.Keeps R := by
  cases c with
  | place a ws => cases hp; exact h.quiet (h.placeWords (hplace rfl) ws a)
  | inspect a count => cases hp; exact h.bind (fun s => h.lift _ s) fun _ => h.pure _
  | read a => cases hp; exact h.bind (h.read a) fun _ => h.pure _
  | write a w => cases hp; exact h.quiet (h.write a w)
  | mark text => cases hp; exact h.quiet (h.mark text)
  | delay ms => cases hp; exact h.quiet (h.spin _)
  | header table => cases hp; exact h.bind (h.header table) fun _ => h.pure _
  | loadData layout => exact Proc.keeps_of_map hp fun l => h.quiet (h.loadData l)
  | clearRegion region => exact Proc.keeps_of_map hp fun r => h.quiet (h.clearRegion r)
  | prepareRam layout => exact Proc.keeps_of_map hp fun l => h.quiet (h.prepareRam l)
  | maskInterrupts => cases hp; exact h.quiet h.mask
  | relocate table => cases hp; exact h.quiet (h.relocate table)

theorem command_run (c : Command) (hplace : c.places = true → KeptByPlace R) (s : σ) :
    R (c.run s).reply.ending? s (c.run s).after := by
  unfold Command.run
  split
  · exact h.refl s
  · rename_i p hp
    exact h.command_proc hplace hp s

end KeptByCommand

/-- A relation between earlier and later machines that everything in a script keeps, words that
are placed from outside apart. -/
structure KeptByScript [Rig σ] (R : Option Ending → σ → σ → Prop) : Prop
    extends KeptByMachine R, KeptByCommand R where
  salvage : ∀ {held spent}, R none held spent → R none held (Rig.salvage held spent)

namespace KeptByScript

open Script

variable [Rig σ] {R : Option Ending → σ → σ → Prop} (h : KeptByScript R)
include h

theorem exit_proc (e : Exit) : (e.proc : Proc σ Empty).Keeps R := by
  cases e with
  | start stackPointer entry => exact h.launch stackPointer entry
  | idle => exact h.sleep
  | chainLoad table => exact h.chainLoad table

theorem in_hand {held : σ} {r : Run σ Empty} (hr : R r.1.ending? held r.2)
    (entry : Option (List (Report σ))) :
    R (Report.ofExit held r entry).reply.ending? held (Report.ofExit held r entry).after := by
  obtain ⟨outcome, s⟩ := r
  cases outcome with
  | returned e => exact e.elim
  | faulted e => exact h.salvage hr
  | diverged d => exact hr

mutual

/-- **A step of a script keeps what the operations of its rig keep.** -/
theorem step_run : ∀ (step : Step), (step.places = true → KeptByPlace R) → ∀ s : σ,
    R (step.run s).reply.ending? s (step.run s).after
  | .command c, hplace, s => by
    rw [Step.places] at hplace
    rw [Step.run]
    exact h.command_run c hplace s
  | .exit e, _, s => by
    rw [Step.run]
    exact h.in_hand (h.exit_proc e s) none
  | .reset layout entry, hplace, s => by
    rw [Step.places] at hplace
    rw [Step.run]
    split
    · exact h.refl s
    · exact h.in_hand (h.coldStart (fun t => run_entry entry hplace t) s) _

/-- So does an entry, up to the step that gives the machine away. -/
theorem run_entry : ∀ (entry : List Step), (anyPlaces entry = true → KeptByPlace R) → ∀ s : σ,
    R (runEntry entry s).1.1.ending? s (runEntry entry s).1.2
  | [], _, s => by
    rw [runEntry]
    exact h.refl s
  | step :: rest, hplace, s => by
    rw [anyPlaces, Bool.or_eq_true] at hplace
    have hstep := step_run step (fun hp => hplace (Or.inl hp)) s
    cases hend : (step.run s).reply.ending? with
    | some d =>
      rw [hend] at hstep
      rw [runEntry_of_ending hend]
      exact hstep
    | none =>
      rw [hend] at hstep
      rw [runEntry_of_no_ending hend]
      exact h.trans hstep (run_entry rest (fun hp => hplace (Or.inr hp)) _)

end

end KeptByScript

/-- A relation between earlier and later machines that everything done to a rig keeps. -/
structure KeptByRig [Rig σ] (R : Option Ending → σ → σ → Prop) : Prop extends KeptByScript R where
  place : ∀ a w s, R none s (Rig.place a w s)

/-- A step keeps what everything done to its rig keeps, whatever the step is. -/
theorem KeptByRig.step_run [Rig σ] {R : Option Ending → σ → σ → Prop} (h : KeptByRig R)
    (step : Script.Step) (s : σ) : R (step.run s).reply.ending? s (step.run s).after :=
  h.toKeptByScript.step_run step (fun _ => h.place) s

/-! ## 4. Whole scripts -/

namespace Script

variable [Rig σ]

theorem Report.ending_ofExit (held : σ) (r : Run σ Empty) (entry : Option (List (Report σ))) :
    (Report.ofExit held r entry).reply.ending? = r.1.ending? := by
  obtain ⟨outcome, s⟩ := r
  cases outcome with
  | returned e => exact e.elim
  | faulted e => rfl
  | diverged d => rfl

/-- The machine that a step worked on, as the step left it.  Should the step fault while it has
hold of the machine, this is the spent one, and not what is in hand afterwards. -/
def Step.leaves : Step → σ → σ
  | .command c, s => (c.run s).after
  | .exit e, s => (e.proc s).2
  | .reset layout entry, s =>
    match layout.build with
    | .error _ => s
    | .ok l => (StageZero.coldStart l (runEntry entry) s).1.2

/-- **The machines that steps lead to.**  Each step is carried out on the machine that was in hand
after the one before it, or on the machine that the one before it left.  The steps of an entry are
steps on prepared RAM, so that what is in hand in the middle of a reset is among these too. -/
inductive Reaches : σ → List Step → σ → Prop
  | here (s : σ) : Reaches s [] s
  | inHand {step : Step} {rest : List Step} {s t : σ} (h : Reaches (step.run s).after rest t) :
      Reaches s (step :: rest) t
  | left {step : Step} {rest : List Step} {s t : σ} (h : Reaches (step.leaves s) rest t) :
      Reaches s (step :: rest) t

theorem reaches_run : ∀ (script : List Step) (s : σ), Reaches s script (run script s).2
  | [], s => .here s
  | step :: rest, s => .inHand (reaches_run rest (step.run s).after)

end Script

namespace KeptByScript

open Script

variable [Rig σ] {R : Option Ending → σ → σ → Prop}

/-- The machine that a step left is related as the one in hand is, also when the two differ. -/
theorem step_leaves (h : KeptByScript R) (step : Step) (hplace : step.places = true → KeptByPlace R)
    (s : σ) : R (step.run s).reply.ending? s (step.leaves s) := by
  cases step with
  | command c =>
    rw [Step.places] at hplace
    rw [Step.run, Step.leaves]
    exact h.command_run c hplace s
  | exit e =>
    rw [Step.run, Step.leaves, Report.ending_ofExit]
    exact h.exit_proc e s
  | reset layout entry =>
    rw [Step.places] at hplace
    cases hl : layout.build with
    | error e =>
      rw [Step.run_refused hl]
      simp only [Step.leaves, hl]
      exact h.refl s
    | ok l =>
      rw [Step.run_reset hl, Report.ending_ofExit]
      simp only [Step.leaves, hl]
      exact h.coldStart (fun t => h.run_entry entry hplace t) s

/-- **What each step keeps, a script keeps.**  How a step in the middle ended does not matter. -/
theorem reaches {Q : σ → σ → Prop} (h : KeptByScript fun _ => Q) {steps : List Step} {s t : σ}
    (hreaches : Reaches s steps t)
    (hplace : anyPlaces steps = true → KeptByPlace fun _ => Q) : Q s t := by
  induction hreaches with
  | here s => exact h.refl s
  | inHand _ ih =>
    rw [anyPlaces, Bool.or_eq_true] at hplace
    exact h.trans (d := none) (h.step_run _ (fun hp => hplace (Or.inl hp)) _)
      (ih fun hp => hplace (Or.inr hp))
  | left _ ih =>
    rw [anyPlaces, Bool.or_eq_true] at hplace
    exact h.trans (d := none) (h.step_leaves _ (fun hp => hplace (Or.inl hp)) _)
      (ih fun hp => hplace (Or.inr hp))

end KeptByScript

/-- A script keeps what everything done to its rig keeps, whatever its steps are. -/
theorem KeptByRig.reaches [Rig σ] {Q : σ → σ → Prop} (h : KeptByRig fun _ => Q)
    {steps : List Script.Step} {s t : σ} (hreaches : Script.Reaches s steps t) : Q s t :=
  h.toKeptByScript.reaches hreaches fun _ => h.place

/-! ## 5. The log of a bench -/

/-- An event is a word access. -/
def Event.IsAccess : Event → Prop
  | .read _ => True
  | .write _ _ => True
  | _ => False

namespace Bench

/-- The later bench has the log of the earlier one, and after it events of one kind. -/
def Logged (P : Event → Prop) (b after : Bench) : Prop :=
  ∃ es, after.log.toList = b.log.toList ++ es ∧ ∀ e ∈ es, P e

variable {P : Event → Prop}

theorem Logged.of_log_eq {b after : Bench} (h : after.log = b.log) : Logged P b after :=
  ⟨[], by rw [h, List.append_nil], fun _ he => absurd he List.not_mem_nil⟩

theorem Logged.of_push {b after : Bench} {e : Event} (h : after.log = b.log.push e) (he : P e) :
    Logged P b after :=
  ⟨[e], by rw [h, Array.toList_push], fun _ hmem => List.mem_singleton.mp hmem ▸ he⟩

theorem Logged.trans {b c d : Bench} (hbc : Logged P b c) (hcd : Logged P c d) : Logged P b d := by
  obtain ⟨es, hes, hP⟩ := hbc
  obtain ⟨fs, hfs, hQ⟩ := hcd
  refine ⟨es ++ fs, by rw [hfs, hes, List.append_assoc], fun e he => ?_⟩
  rcases List.mem_append.mp he with he | he
  · exact hP e he
  · exact hQ e he

/-- The events since an earlier moment are what the log has grown by. -/
theorem Logged.log_eq {b after : Bench} (h : Logged P b after) :
    after.log.toList = b.log.toList ++ b.eventsSince after := by
  obtain ⟨es, hes, -⟩ := h
  rw [eventsSince, hes, ← Array.length_toList, List.drop_left]

theorem Logged.of_mem {b after : Bench} (h : Logged P b after) {e : Event}
    (he : e ∈ b.eventsSince after) : P e := by
  obtain ⟨es, hes, hP⟩ := h
  rw [eventsSince, hes, ← Array.length_toList, List.drop_left] at he
  exact hP e he

/-- Word accesses log word accesses, and nothing else. -/
theorem keptByAccess_logged (hP : ∀ e, Event.IsAccess e → P e) :
    KeptByAccess fun _ => Logged P where
  refl _ := .of_log_eq rfl
  trans := Logged.trans
  read a b := by
    cases hw : b.memory[a]? with
    | some w =>
      rw [readWord_present hw]
      exact .of_push rfl (hP _ trivial)
    | none =>
      rw [readWord_absent hw]
      exact .of_push rfl (hP _ trivial)
  write _ _ _ := .of_push rfl (hP _ trivial)

/-- **Whatever is done to a bench, its log only grows.** -/
theorem keptByRig_logged : KeptByRig fun _ => Logged fun _ => True where
  toKeptByAccess := keptByAccess_logged fun _ _ => trivial
  mask _ := .of_push rfl trivial
  relocate _ _ := .of_push rfl trivial
  launch _ _ _ := .of_push rfl trivial
  sleep _ := .of_push rfl trivial
  place _ _ _ := .of_log_eq rfl
  mark _ _ := .of_log_eq rfl
  spin _ _ := .of_log_eq rfl
  salvage _ := .of_log_eq rfl

end Bench

end StageZero
