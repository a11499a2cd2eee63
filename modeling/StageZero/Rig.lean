/-
# Rigs

A rig is a machine under observation: besides running the loader, it lets somebody outside place
words and look at them, note marks, and spend time.

A procedure that gives the machine away takes hold of it first.  If it faults instead, what is in
hand afterwards depends on the rig.  A bench lends out a copy of itself and keeps what it was; a
board is there only once, so what was done to it stays done.
-/
import StageZero.Bench
import StageZero.Board

namespace StageZero

/-- A machine under observation. -/
class Rig (σ : Type) extends Machine σ where
  /-- Puts a word into memory from outside. -/
  place : Address → Word → σ → σ
  /-- Looks at a word from outside. -/
  inspect : σ → Address → Except Fault Word
  /-- Takes down a mark; a rig without a notebook ignores it. -/
  mark : String → σ → σ
  /-- Runs a waiting loop; a rig without a clock ignores it. -/
  spin : UInt32 → σ → σ
  /-- What is in hand after a procedure that was to give the machine away faulted. -/
  salvage : (held spent : σ) → σ

instance : Rig Bench where
  place := Bench.place
  inspect := Bench.inspect
  mark := Bench.mark
  spin _ b := b
  salvage held _ := held

instance : Rig Board where
  place := Board.place
  inspect := Board.inspect
  mark _ b := b
  spin := Board.spin
  salvage _ spent := spent

theorem Bench.inspect_present {b : Bench} {a : Address} {w : Word} (h : b.memory[a]? = some w) :
    Rig.inspect b a = .ok w := by
  simp only [Rig.inspect, Bench.inspect, h]

theorem Bench.inspect_absent {b : Bench} {a : Address} (h : b.memory[a]? = none) :
    Rig.inspect b a = .error (.absent a) := by
  simp only [Rig.inspect, Bench.inspect, h]

variable {σ : Type} [Rig σ]

/-- Puts words at consecutive word addresses from `a` on. -/
def placeWords (a : Address) : List Word → σ → σ
  | [], s => s
  | w :: rest, s => placeWords (a.addWords 1) rest (Rig.place a w s)

/-- Looks at `n` consecutive words from `a` on.  The first one that is missing is reported. -/
def inspectWords (s : σ) (a : Address) : Nat → Except Fault (List Word)
  | 0 => .ok []
  | n + 1 =>
    match Rig.inspect s a with
    | .error e => .error e
    | .ok w => (inspectWords s (a.addWords 1) n).map (w :: ·)

end StageZero
