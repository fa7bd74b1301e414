import CopyingHeap.Bump
import CopyingHeap.Forwarding
import CopyingHeap.Space
import CopyingHeap.Statistics
import CopyingHeap.Tracing

/-!
Evacuation: copying objects out of a source space. An object is copied whole the first time it is
reached, and forwarded; the slots of a copy are traced later. The copies lie one after another below
the cursor of a bump.
-/

namespace CopyingHeap

/-- What a collection changes beside the memory: where it copies to, the start bits, the counters. -/
structure Evacuation where
  bump : Bump
  bits : StartBits
  statistics : Statistics

namespace Evacuation

def reserve (bump : Bump) (bytes : Nat) : Except Fault (Address × Bump) :=
  match bump.alloc bytes with
  | some reserved => .ok reserved
  | none => do throw (.toSpaceExhausted bytes (← bump.remaining))

/-- Copies the `bytes` bytes of an object as they are, and forwards it to the copy. -/
def copyWhole (e : Evacuation) (m : Memory) (r : Reference) (k : Kind) (bytes : Nat) :
    Except Fault (Reference × Evacuation × Memory) := do
  let ⟨bump, bits, statistics⟩ := e
  let (a, bump) ← reserve bump bytes
  let m ← m.copy r.address a bytes
  let target ← Reference.ofAddress a
  let m ← m.forward r target
  let bits ← bits.set target.address
  let statistics ← statistics.recordCopy k bytes
  return (target, ⟨bump, bits, statistics⟩, m)

/-- Copies an object that is not forwarded yet. Symbols never move. -/
def copyObject (e : Evacuation) (m : Memory) (r : Reference) :
    Except Fault (Reference × Evacuation × Memory) := do
  match ← m.kind r with
  | .symbol => return (r, e, m)
  | k => e.copyWhole m r k (← m.sizeAs r k)

/-- Where an object will be after the collection: its copy, made now if there is none, or, outside the
source space, the object itself. -/
def trace (source : Space) : Tracer Evacuation := fun e m r => do
  if source.isFrom then
    if ← source.contains r.address then
      match ← m.forwarded? r with
      | some target => return (target, e, m)
      | none => e.copyObject m r
    else return (r, e, m)
  else return (r, e, m)

end Evacuation

end CopyingHeap
