/-
# Procedures that may not come back

A procedure runs on the state of a machine and ends in one of three ways: it returns a value, it
faults, or it diverges, which means that the machine was given away for good (another image was
started, or the machine went to sleep).  The state at the end is there in all three cases, since
what was done before a fault stays done.

Procedures form a monad.  A fault and a divergence both skip what was to follow.  A procedure
that cannot return has the type `Proc σ Empty`.
-/
import StageZero.Fault

namespace StageZero

/-! ## 1. How a procedure ends -/

/-- The two ways to give a machine away. -/
inductive Ending where
  /-- Another image was started. -/
  | started
  /-- The machine sleeps for good. -/
  | idle
deriving DecidableEq

/-- How a procedure ends. -/
inductive Outcome (α : Type) where
  | returned (value : α)
  | faulted (fault : Fault)
  | diverged (ending : Ending)
deriving DecidableEq

/-- Changes the value of a procedure that returned. -/
def Outcome.map {α β : Type} (f : α → β) : Outcome α → Outcome β
  | .returned a => .returned (f a)
  | .faulted e => .faulted e
  | .diverged d => .diverged d

/-- How the machine was given away, if it was. -/
def Outcome.ending? {α : Type} : Outcome α → Option Ending
  | .diverged d => some d
  | _ => none

/-! ## 2. Procedures -/

/-- The end of a run: its outcome and the machine it left. -/
abbrev Run (σ α : Type) := Outcome α × σ

/-- A procedure on a machine with state `σ`. -/
def Proc (σ α : Type) := σ → Run σ α

variable {σ α β : Type}

/-- Goes on from the end of a run, if it returned. -/
@[inline] def Run.andThen (r : Run σ α) (f : α → Proc σ β) : Run σ β :=
  match r with
  | (.returned a, s) => f a s
  | (.faulted e, s) => (.faulted e, s)
  | (.diverged d, s) => (.diverged d, s)

namespace Proc

@[inline] instance : Monad (Proc σ) where
  pure a := fun s => (.returned a, s)
  bind m f := fun s => Run.andThen (m s) f

/-- A computation that does not touch the machine. -/
def lift (x : Except Fault α) : Proc σ α := fun s =>
  match x with
  | .ok a => (.returned a, s)
  | .error e => (.faulted e, s)

/-- A computation that looks at the machine and leaves it as it is. -/
def observe (f : σ → Except Fault α) : Proc σ α := fun s => lift (f s) s

/-- Changes the machine and returns. -/
def act (f : σ → σ) : Proc σ Unit := fun s => (.returned (), f s)

/-- Changes the machine a last time and gives it away. -/
def leave (d : Ending) (f : σ → σ) : Proc σ Empty := fun s => (.diverged d, f s)

@[simp] theorem pure_apply (a : α) (s : σ) : (pure a : Proc σ α) s = (.returned a, s) := rfl

@[simp] theorem bind_apply (m : Proc σ α) (f : α → Proc σ β) (s : σ) :
    (m >>= f) s = Run.andThen (m s) f := rfl

@[simp] theorem lift_ok (a : α) (s : σ) : (lift (.ok a) : Proc σ α) s = (.returned a, s) := rfl

@[simp] theorem lift_error (e : Fault) (s : σ) :
    (lift (.error e) : Proc σ α) s = (.faulted e, s) := rfl

@[simp] theorem observe_apply (f : σ → Except Fault α) (s : σ) : observe f s = lift (f s) s := rfl

@[simp] theorem act_apply (f : σ → σ) (s : σ) : act f s = (.returned (), f s) := rfl

@[simp] theorem leave_apply (d : Ending) (f : σ → σ) (s : σ) :
    leave d f s = (.diverged d, f s) := rfl

end Proc

@[simp] theorem Run.andThen_returned (a : α) (s : σ) (f : α → Proc σ β) :
    Run.andThen (.returned a, s) f = f a s := rfl

@[simp] theorem Run.andThen_faulted (e : Fault) (s : σ) (f : α → Proc σ β) :
    Run.andThen (.faulted e, s) f = (.faulted e, s) := rfl

@[simp] theorem Run.andThen_diverged (d : Ending) (s : σ) (f : α → Proc σ β) :
    Run.andThen (.diverged d, s) f = (.diverged d, s) := rfl

theorem Run.andThen_pure (r : Run σ α) : Run.andThen r pure = r := by
  obtain ⟨outcome, s⟩ := r
  cases outcome <;> rfl

theorem Run.andThen_assoc {γ : Type} (r : Run σ α) (f : α → Proc σ β) (g : β → Proc σ γ) :
    Run.andThen (Run.andThen r f) g = Run.andThen r fun a => f a >>= g := by
  obtain ⟨outcome, s⟩ := r
  cases outcome <;> rfl

end StageZero
