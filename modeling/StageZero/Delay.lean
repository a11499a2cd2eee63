/-
# Delays

A delay is spent in a counted loop.  The count saturates: a delay too long for a word is cut to
the longest one.
-/
import StageZero.Address

namespace StageZero.Delay

/-- How many rounds of the waiting loop take a millisecond. -/
def loopsPerMs : UInt32 := 8000

/-- The rounds of the waiting loop for a delay in milliseconds. -/
def loopsFor (ms : UInt32) : UInt32 :=
  let loops := ms.toNat * loopsPerMs.toNat
  if loops < UInt32.size then UInt32.ofNat loops else 0xffffffff

/-- The count is the product, cut to the largest word. -/
theorem toNat_loopsFor (ms : UInt32) :
    (loopsFor ms).toNat =
      if ms.toNat * 8000 < 4294967296 then ms.toNat * 8000 else 4294967295 := by
  have hk : loopsPerMs.toNat = 8000 := rfl
  by_cases h : ms.toNat * 8000 < 4294967296
  · simp only [loopsFor, hk, UInt32.size, if_pos h, UInt32.toNat_ofNat']
    omega
  · simp only [loopsFor, hk, UInt32.size, if_neg h]
    rfl

end StageZero.Delay
