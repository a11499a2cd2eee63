/-
# Typed cells

A cell is an integer of a fixed width at a place in byte memory, lowest byte first, negative
numbers in two's complement.  Cells of different types may share bytes; each access sees what the
last one left there.

A cell is used inside a `Buffer`, a block of bytes of fixed length, where it must be aligned to
its own width.
-/
import StageZero.Bytes

namespace StageZero

/-! ## 1. Integer types -/

/-- The width of an integer. -/
inductive Width where
  | byte
  | half
  | word
  | double
deriving DecidableEq

/-- The width in bytes. -/
def Width.bytes : Width → Nat
  | .byte => 1
  | .half => 2
  | .word => 4
  | .double => 8

/-- How many bit patterns there are of a width. -/
def Width.card : Width → Nat
  | .byte => UInt8.size
  | .half => UInt16.size
  | .word => UInt32.size
  | .double => UInt64.size

/-- An integer type: its width, and whether it has negative values. -/
structure IntType where
  width : Width
  signed : Bool
deriving DecidableEq

namespace IntType

/-- How many values the type has. -/
def card (t : IntType) : Nat := t.width.card

/-- The smallest value of the type. -/
def lowest (t : IntType) : Int := if t.signed then -(t.card / 2 : Nat) else 0

/-- A number is a value of the type. -/
def Holds (t : IntType) (v : Int) : Prop := t.lowest ≤ v ∧ v < t.lowest + t.card

instance (t : IntType) (v : Int) : Decidable (t.Holds v) := inferInstanceAs (Decidable (_ ∧ _))

/-- The bits of a value, read as an unsigned number. -/
def encode (t : IntType) (v : Int) : Nat := (v % (t.card : Int)).toNat

/-- The value that has these bits. -/
def decode (t : IntType) (bits : Nat) : Int :=
  if t.signed ∧ t.card / 2 ≤ bits then (bits : Int) - t.card else bits

/-- The bits of a value give the value back. -/
theorem decode_encode {t : IntType} {v : Int} (h : t.Holds v) : t.decode (t.encode v) = v := by
  obtain ⟨width, signed⟩ := t
  cases width <;> cases signed <;>
    simp [Holds, lowest, card, Width.card, UInt8.size, UInt16.size, UInt32.size, UInt64.size,
      decode, encode] at h ⊢ <;>
    omega

end IntType

/-! ## 2. Cells in byte memory -/

/-- An integer of a type at a place in memory. -/
structure Cell where
  type : IntType
  offset : Nat
deriving DecidableEq

namespace Cell

/-- The value of a cell. -/
def get (c : Cell) (m : Bytes) : Int :=
  c.type.decode (m.readLE c.offset c.type.width.bytes)

/-- Gives a cell a value. -/
def set (c : Cell) (v : Int) (m : Bytes) : Bytes :=
  m.writeLE c.offset c.type.width.bytes (c.type.encode v)

end Cell

/-! ## 3. Buffers -/

/-- A block of bytes of fixed length. -/
structure Buffer where
  size : Nat
  memory : Bytes

/-- An access to a cell. -/
inductive Access where
  | get (c : Cell)
  | set (c : Cell) (v : Int)
deriving DecidableEq

/-- The cell of an access. -/
def Access.cell : Access → Cell
  | .get c => c
  | .set c _ => c

namespace Buffer

/-- The buffer with these bytes. -/
def ofList (bytes : List UInt8) : Buffer := ⟨bytes.length, Bytes.zeros.store 0 bytes⟩

/-- The bytes of a buffer. -/
def toList (b : Buffer) : List UInt8 := b.memory.window 0 b.size

/-- A cell lies inside the buffer and is aligned to its width. -/
def Fits (b : Buffer) (c : Cell) : Prop :=
  c.offset % c.type.width.bytes = 0 ∧ c.offset + c.type.width.bytes ≤ b.size

instance (b : Buffer) (c : Cell) : Decidable (b.Fits c) := inferInstanceAs (Decidable (_ ∧ _))

/-- An access is to a cell that fits, with a value of its type. -/
def Admits (b : Buffer) : Access → Prop
  | .get c => b.Fits c
  | .set c v => b.Fits c ∧ c.type.Holds v

instance (b : Buffer) (a : Access) : Decidable (b.Admits a) := by
  cases a <;> unfold Admits <;> infer_instance

/-- The buffer after an access. -/
def access (a : Access) (b : Buffer) : Buffer :=
  match a with
  | .get _ => b
  | .set c v => { b with memory := c.set v b.memory }

/-- Makes accesses one after another.  For each there is the value that its cell has then, and
the buffer. -/
def run : List Access → Buffer → List (Int × Buffer)
  | [], _ => []
  | a :: rest, b =>
    let after := b.access a
    (a.cell.get after.memory, after) :: run rest after

end Buffer

end StageZero
