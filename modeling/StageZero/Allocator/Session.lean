/-
# A caller of the allocator

A caller that numbers the blocks it gets, from zero on and never twice, and uses a block only
between getting it and giving it back.  The caller chooses the steps; where a new block goes is not
up to it, and is settled anew in each turn.
-/
import StageZero.Allocator

namespace StageZero.Allocator

/-- A block in the hands of a caller. -/
structure Block where
  address : Nat
  size : Nat
deriving DecidableEq

/-- How far a block is from being aligned. -/
def Block.misalignment (b : Block) : Nat := b.address % alignment

/-- An arena, and the blocks that a caller got from it; one that was given back is `none`. -/
structure Session where
  arena : Arena
  blocks : Array (Option Block) := #[]

/-- What a caller does. -/
inductive Step where
  | allocate (size : UInt64)
  /-- Frees a block, or nothing at all. -/
  | free (block : Option Nat)
  /-- Writes a byte all over a block. -/
  | fill (block : Nat) (b : UInt8)
  /-- Looks at a block and at its header. -/
  | peek (block : Nat)
deriving DecidableEq

/-- A step, and where the arena puts a block if the step asks for one. -/
structure Turn where
  step : Step
  placement : Placement

/-- What a caller sees. -/
inductive Reply where
  | allocated (request : Option Request) (block : Option (Nat × Block))
  | freed (request : Option Request)
  | filled
  | peeked (header : Nat) (bytes : List UInt8)
  /-- The caller has no such block. -/
  | noBlock
deriving DecidableEq

namespace Session

/-- A session on a fresh arena. -/
def new (capacity : Nat) : Session := { arena := { capacity } }

/-- The block with a number, if the caller has it. -/
def block? (s : Session) (i : Nat) : Option Block := (s.blocks[i]?).join

/-- Carries out a step. -/
def step (p : Placement) (x : Step) (s : Session) : Reply × Session :=
  match x with
  | .allocate size =>
    match allocate p size s.arena with
    | (request, none, arena) => (.allocated request none, { s with arena })
    | (request, some address, arena) =>
      let block : Block := ⟨address, size.toNat⟩
      (.allocated request (some (s.blocks.size, block)), ⟨arena, s.blocks.push (some block)⟩)
  | .free none =>
    let (request, arena) := free none s.arena
    (.freed request, { s with arena })
  | .free (some i) =>
    match s.block? i with
    | none => (.noBlock, s)
    | some block =>
      let (request, arena) := free (some block.address) s.arena
      (.freed request, ⟨arena, s.blocks.setIfInBounds i none⟩)
  | .fill i b =>
    match s.block? i with
    | none => (.noBlock, s)
    | some block =>
      let memory := s.arena.memory.fill block.address b block.size
      (.filled, { s with arena := { s.arena with memory } })
  | .peek i =>
    match s.block? i with
    | none => (.noBlock, s)
    | some block =>
      (.peeked (header block.address s.arena) (s.arena.memory.window block.address block.size), s)

/-- Carries out turns one after another, each with the session after it. -/
def play : List Turn → Session → List (Reply × Session)
  | [], _ => []
  | t :: rest, s =>
    let (reply, after) := s.step t.placement t.step
    (reply, after) :: play rest after

/-- Carries out steps one after another, all of them with the same placement. -/
def run (p : Placement) (steps : List Step) (s : Session) : List (Reply × Session) :=
  play (steps.map fun step => ⟨step, p⟩) s

end Session

end StageZero.Allocator
