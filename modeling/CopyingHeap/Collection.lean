import CopyingHeap.Evacuation

/-!
Collection: the roots are traced first, then the copies in the order they were made, until the scan
pointer meets the cursor. The words of the stack are conservative roots: a word counts only if it is
the address of an initialised object in the source space.
-/

namespace CopyingHeap

namespace Evacuation

/-- Is `a` the start of a copy that this collection has made? The copies begin at `start`. -/
def isCopy (start : Address) (e : Evacuation) (a : Address) : Bool :=
  decide (start ≤ a) && decide (a < e.bump.cursor) && e.bits.isSet a

/-- The object that a word of the stack keeps alive, if it is a root. A block that only looks
forwarded is none: the word behind its header is not the address of a copy. -/
def root? (source : Space) (start : Address) (e : Evacuation) (m : Memory) (w : Word) :
    Except Fault (Option Reference) := do
  match (Value.decode w).object? with
  | none => return none
  | some r =>
    if !(← source.contains r.address) then return none
    else if !e.bits.isSet r.address then return none
    else if ← m.isForwarded r then
      let target ← m.loadAddress (← r.address.add forwardingOffset)
      return if e.isCopy start target then some r else none
    else
      match ← m.kind? r with
      | some _ => return some r
      | none => return none

/-- Traces the root in a slot of the stack, if it holds one; the number counts it. -/
def traceRoot (source : Space) (start : Address) (e : Evacuation) (m : Memory) (slot : Address) :
    Except Fault (Nat × Evacuation × Memory) := do
  match ← root? source start e m (← m.load slot) with
  | none => return (0, e, m)
  | some r =>
    let (target, e, m) ← trace source e m r
    return (1, e, ← m.store slot target.word)

/-- Traces `count` slots of the stack from `slot` on, and counts the roots among them onto `roots`. -/
def traceRoots (source : Space) (start : Address) (roots : Nat) (e : Evacuation) (m : Memory)
    (slot : Address) : Nat → Except Fault (Nat × Evacuation × Memory)
  | 0 => .ok (roots, e, m)
  | count + 1 => do
    let (found, e, m) ← traceRoot source start e m slot
    traceRoots source start (roots + found) e m (Address.ofNat (slot.toNat + 4)) count

/-- Traces the copies from `position` on until the scan pointer meets the cursor. -/
def close (source : Space) (e : Evacuation) (m : Memory) (position : Address) :
    Except Fault (Evacuation × Memory) :=
  if position < e.bump.cursor then do
    let copy ← Reference.ofAddress position
    let (next, e, m) ← (trace source).traceObject e m copy
    if _h : position < next then close source e m next
    else throw (.scanStalled position)
  else if position = e.bump.cursor then .ok (e, m)
  else .error (.scanMissedCursor position e.bump.cursor)
termination_by 0x100000000 - position.toNat
decreasing_by
  have hn := next.toNat_lt
  rw [Address.lt_iff] at _h
  omega

end Evacuation

end CopyingHeap
