/-
# Cold start

What happens between reset and the end of a program: RAM is prepared, the program's entry runs,
and should it come back the machine goes to sleep.

The entry leaves an account of what it did, however it ends.  A cold start hands that account
out; there is none if RAM could not be prepared, for then the entry never ran.
-/
import StageZero.Ram

namespace StageZero

variable {σ τ : Type} [Machine σ]

/-- **Prepares RAM, runs the entry, and sleeps should it come back.** -/
def coldStart (l : Layout) (entry : σ → Run σ Unit × τ) (s : σ) : Run σ Empty × Option τ :=
  match prepareRam l s with
  | (.returned (), ready) =>
    let (run, account) := entry ready
    (Run.andThen run fun _ => idle, some account)
  | (.faulted e, spent) => ((.faulted e, spent), none)
  | (.diverged d, spent) => ((.diverged d, spent), none)

theorem coldStart_of_returned {l : Layout} {entry : σ → Run σ Unit × τ} {s ready : σ}
    (h : prepareRam l s = (.returned (), ready)) :
    coldStart l entry s =
      (Run.andThen (entry ready).1 fun _ => idle, some (entry ready).2) := by
  simp only [coldStart, h]

theorem coldStart_of_faulted {l : Layout} {entry : σ → Run σ Unit × τ} {s spent : σ} {e : Fault}
    (h : prepareRam l s = (.faulted e, spent)) :
    coldStart l entry s = ((.faulted e, spent), none) := by
  simp only [coldStart, h]

theorem coldStart_of_diverged {l : Layout} {entry : σ → Run σ Unit × τ} {s spent : σ}
    {d : Ending} (h : prepareRam l s = (.diverged d, spent)) :
    coldStart l entry s = ((.diverged d, spent), none) := by
  simp only [coldStart, h]

/-- A procedure as an entry that leaves no account. -/
def Proc.silent {α : Type} (p : Proc σ α) (s : σ) : Run σ Unit × Unit :=
  let (outcome, left) := p s
  ((outcome.map fun _ => (), left), ())

end StageZero
