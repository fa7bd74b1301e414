import CopyingHeap.Memory.Block
import CopyingHeap.StartBits

/-!
Spaces: regions of memory whose objects are evacuated together. A space that is being collected is a
from-space; releasing it forgets every object in it.
-/

namespace CopyingHeap

/-- A region of memory that holds objects. -/
structure Space where
  name : String
  start : Address
  extent : Nat
  isFrom : Bool
  deriving DecidableEq

namespace Space

def stop (s : Space) : Except Fault Address :=
  s.start.add s.extent

def range (s : Space) : Except Fault AddressRange :=
  return ⟨s.start, ← s.stop⟩

def contains (s : Space) (a : Address) : Except Fault Bool :=
  return decide ((← s.range).Contains a)

/-- Clears the start bits of the space and, on request, its memory. -/
def release (s : Space) (m : Memory) (bits : StartBits) (zero : Bool) :
    Except Fault (Space × Memory × StartBits) := do
  let bits ← bits.clearRange s.start (← s.stop)
  if zero then
    let m ← m.zero s.start s.extent
    return ({ s with isFrom := false }, m, bits)
  else return ({ s with isFrom := false }, m, bits)

end Space

end CopyingHeap
