import CopyingHeap.Object.Array

/-!
Tracing: following the references that an object holds. A tracer says where the object of a
reference will be; tracing a slot asks it and writes the answer back, and tracing an object does so
for each of its reference slots, in the order of their addresses.
-/

namespace CopyingHeap

/-- Says where the object of a reference will be. It may change the memory and a state of its own. -/
abbrev Tracer (σ : Type) :=
  σ → Memory → Reference → Except Fault (Reference × σ × Memory)

namespace Tracer

variable {σ : Type}

/-- Traces the reference in a slot, if there is one, and updates the slot if it moves. -/
@[specialize] def traceSlot (trace : Tracer σ) (s : σ) (m : Memory) (slot : Address) :
    Except Fault (σ × Memory) := do
  match (Value.decode (← m.load slot)).object? with
  | none => return (s, m)
  | some r =>
    let (target, s, m) ← trace s m r
    if target = r then return (s, m) else return (s, ← m.store slot target.word)

@[specialize] def traceSlots (trace : Tracer σ) (s : σ) (m : Memory) (slot : Address) :
    Nat → Except Fault (σ × Memory)
  | 0 => .ok (s, m)
  | count + 1 => do
    let (s, m) ← traceSlot trace s m slot
    traceSlots trace s m (Address.ofNat (slot.toNat + 4)) count

/-- Traces the reference slots of an object. The address is the one past the object. -/
@[specialize] def traceObject (trace : Tracer σ) (s : σ) (m : Memory) (r : Reference) :
    Except Fault (Address × σ × Memory) := do
  match ← m.kind r with
  | .array =>
    let size ← m.length r
    let first ← Memory.elementAddress r 0
    let past ← Memory.elementAddress r size
    let (s, m) ← traceSlots trace s m first (first.wordsBetween past)
    return (← r.address.add (← Kind.array.size size), s, m)
  | .listNode =>
    let (s, m) ← traceSlot trace s m (← r.address.add headOffset)
    let (s, m) ← traceSlot trace s m (← r.address.add tailOffset)
    return (← r.address.add (← Kind.listNode.size 0), s, m)
  | k => return (← r.address.add (← m.sizeAs r k), s, m)

end Tracer

end CopyingHeap
