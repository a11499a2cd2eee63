/-
# Heaps that only grow

A heap is the range between an origin and a break.  The origin is not known when the heap is
made; it is asked for when the heap grows for the first time, and never again.  From then on each
growth moves the break up and returns where it was.  The break wraps at the top of the address
space.

A `Pool` is any number of heaps that share one origin.  The origin can be changed, which matters
only to heaps that have not grown yet, and it counts how often it was asked.
-/
import StageZero.Address

namespace StageZero

/-! ## 1. One heap -/

/-- Where heaps begin, and how often that was asked. -/
structure Origin where
  value : Address
  consulted : Nat := 0
deriving DecidableEq

/-- Asks for the origin. -/
def Origin.consult (o : Origin) : Address × Origin :=
  (o.value, { o with consulted := o.consulted + 1 })

/-- A heap, which has a break once it has grown. -/
structure Heap where
  top : Option Address := none
deriving DecidableEq

namespace Heap

/-- A heap that never grew. -/
def untouched : Heap := {}

/-- The current break of a heap; the origin is asked for if there is none yet. -/
def current (o : Origin) (h : Heap) : Address × Origin :=
  match h.top with
  | some top => (top, o)
  | none => o.consult

/-- **Moves the break up by `n` bytes and returns where it was.** -/
def grow (n : UInt32) (o : Origin) (h : Heap) : Address × Origin × Heap :=
  let (previous, o) := h.current o
  (previous, o, ⟨some ⟨previous.val + n⟩⟩)

end Heap

/-! ## 2. Several heaps -/

/-- Heaps that share an origin. -/
structure Pool where
  origin : Origin
  heaps : Array Heap

/-- What can be asked of a pool. -/
inductive Pool.Request where
  /-- One more heap. -/
  | add
  /-- Another origin, from now on. -/
  | moveOrigin (a : Address)
  | grow (heap : Nat) (n : UInt32)
  /-- Nothing; the answer shows the pool as it is. -/
  | look
deriving DecidableEq

/-- What a pool answers. -/
inductive Pool.Reply where
  | added (heap : Nat)
  | grown (previous : Address)
  | done
  /-- There is no such heap. -/
  | noHeap
deriving DecidableEq

namespace Pool

/-- A pool with one heap. -/
def new (origin : Address) : Pool := ⟨{ value := origin }, #[.untouched]⟩

/-- The breaks of all heaps. -/
def tops (p : Pool) : List (Option Address) := p.heaps.toList.map Heap.top

/-- Answers a request. -/
def step (r : Request) (p : Pool) : Reply × Pool :=
  match r with
  | .add => (.added p.heaps.size, { p with heaps := p.heaps.push .untouched })
  | .moveOrigin a => (.done, { p with origin := { p.origin with value := a } })
  | .grow i n =>
    match p.heaps[i]? with
    | none => (.noHeap, p)
    | some h =>
      let (previous, origin, h) := h.grow n p.origin
      (.grown previous, ⟨origin, p.heaps.setIfInBounds i h⟩)
  | .look => (.done, p)

/-- Answers requests one after another, each with the pool after it. -/
def run : List Request → Pool → List (Reply × Pool)
  | [], _ => []
  | r :: rest, p =>
    let (reply, after) := p.step r
    (reply, after) :: run rest after

end Pool

end StageZero
