/-
# Memory layouts

A layout says where an image keeps its memory: the top of the stack, the region of initialised
data, the address from which that data is loaded, and the region that starts out as zero.

The range the data is loaded from, `Layout.dataSource`, is as long as the data region.  Its upper
bound wraps at the top of the address space, so that range may be inverted although the data
region is not.
-/
import StageZero.Region

namespace StageZero

/-- Where an image keeps its memory. -/
structure Layout where
  stackTop : Address
  /-- The initialised data. -/
  data : Region
  /-- Where the words of the data are loaded from. -/
  dataLoad : Address
  /-- The memory that starts out as zero. -/
  bss : Region
deriving DecidableEq

namespace Layout

/-- The range that the data is loaded from. -/
def dataSource (l : Layout) : Except Fault Region :=
  l.data.lengthWords.map fun n => ⟨l.dataLoad, l.dataLoad.addWords n⟩

/-- **Checks a layout**: first the data region, then the zeroed region, then the alignment of the
load address and of the stack top. -/
def validate (l : Layout) : Except Error Unit :=
  match l.data.check with
  | .error e => .error e
  | .ok _ =>
    match l.bss.check with
    | .error e => .error e
    | .ok _ =>
      if ¬ l.dataLoad.Aligned ∨ ¬ l.stackTop.Aligned then .error .misaligned else .ok ()

end Layout

/-- A layout as somebody asks for it: its regions taken as they come, or checked. -/
structure Layout.Draft where
  layout : Layout
  checked : Bool
deriving DecidableEq

/-- The layout of a draft, or why it is refused.  The data region is looked at first. -/
def Layout.Draft.build (d : Layout.Draft) : Except Error Layout := do
  let data ← Region.Draft.build ⟨d.layout.data, d.checked⟩
  let bss ← Region.Draft.build ⟨d.layout.bss, d.checked⟩
  return { d.layout with data, bss }

end StageZero
