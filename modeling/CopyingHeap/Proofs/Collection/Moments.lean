import CopyingHeap.Proofs.Collection.Result

/-!
The moments of a collection: the heads of its three loops, over the words of the stack, over the copies,
and over the reference slots of a copy. Each turn of a loop is one step from a moment to the next. What
is left of the collection at a moment is left also after the step, so the moments are those that the
collection passes.
-/

namespace CopyingHeap

/-- The loop that a collection is in, and how far it is: the next word of the stack, the next copy, or
the slots that are left of the copy at `position`, which ends at `past`. -/
inductive Stage where
  | roots (slot : Address)
  | copies (position : Address)
  | slots (position past : Address) (left : AddressRange)

/-- A collection between two turns of a loop; `found` counts the roots. -/
structure Moment where
  stage : Stage
  found : Nat
  evacuation : Evacuation
  memory : Memory

namespace Moment

/-- Where the scan pointer is. -/
def scan (h : Heap) (x : Moment) : Address :=
  match x.stage with
  | .roots _ => h.spaces.scratch.start
  | .copies position => position
  | .slots _ _ left => left.start

/-- One turn of the loop, or the end of it. There is no next moment once all copies are traced. -/
def next (h : Heap) : Moment → Except Fault (Option Moment)
  | ⟨.roots slot, found, e, m⟩ =>
    if slot < h.stack.base then do
      let (more, e, m) ← Evacuation.traceRoot h.source h.spaces.scratch.start e m slot
      return some ⟨.roots (Address.ofNat (slot.toNat + 4)), found + more, e, m⟩
    else return some ⟨.copies h.spaces.scratch.start, found, e, m⟩
  | ⟨.copies position, found, e, m⟩ =>
    if position < e.bump.cursor then do
      let copy ← Reference.ofAddress position
      let left ← m.referenceSlots copy
      let past ← copy.address.add (← m.objectSize copy)
      return some ⟨.slots position past left, found, e, m⟩
    else if position = e.bump.cursor then return none
    else throw (.scanMissedCursor position e.bump.cursor)
  | ⟨.slots position past left, found, e, m⟩ =>
    if left.start < left.stop then do
      let (e, m) ← Tracer.traceSlot (Evacuation.trace h.source) e m left.start
      return some
        ⟨.slots position past ⟨Address.ofNat (left.start.toNat + 4), left.stop⟩, found, e, m⟩
    else if position < past then return some ⟨.copies past, found, e, m⟩
    else throw (.scanStalled position)

/-- All turns that are left, and what they lead to. -/
def rest (h : Heap) : Moment → Except Fault (Nat × Evacuation × Memory)
  | ⟨.roots slot, found, e, m⟩ => do
    let (found, e, m) ← Evacuation.traceRoots h.source h.spaces.scratch.start found e m slot
      (slot.wordsBetween h.stack.base)
    return (found, ← Evacuation.close h.source e m h.spaces.scratch.start)
  | ⟨.copies position, found, e, m⟩ => do
    return (found, ← Evacuation.close h.source e m position)
  | ⟨.slots position past left, found, e, m⟩ => do
    let (e, m) ← Tracer.traceSlots (Evacuation.trace h.source) e m left.start
      (left.start.wordsBetween left.stop)
    if position < past then return (found, ← Evacuation.close h.source e m past)
    else throw (.scanStalled position)

/-- The words of the stack and the addresses that the scan pointer has not passed, and the slots of the
copy that it is in. -/
def ahead (h : Heap) (x : Moment) : Nat × Nat :=
  match x.stage with
  | .roots slot => (0x100000001 + slot.wordsBetween h.stack.base, 0)
  | .copies position => (0x100000000 - position.toNat, 0)
  | .slots _ past left => (0x100000000 - past.toNat, left.start.wordsBetween left.stop + 1)

/-- Is `y` closer to the end of the collection than `x`? -/
def Later (h : Heap) (y x : Moment) : Prop :=
  Prod.Lex (· < ·) (· < ·) (y.ahead h) (x.ahead h)

/-- What is left after a turn: that of the next moment, or nothing. -/
def resume (h : Heap) (x : Moment) : Option Moment → Except Fault (Nat × Evacuation × Memory)
  | some y => y.rest h
  | none => .ok (x.found, x.evacuation, x.memory)

end Moment

namespace Heap

/-- The moments that a collection of `h` passes. -/
inductive Visits (h : Heap) : Moment → Prop where
  | start {stop : Address} {bump : Bump} : h.spaces.scratch.stop = .ok stop →
      Bump.spanning h.spaces.scratch.start stop = .ok bump →
      Visits h ⟨.roots h.stack.sp, 0, ⟨bump, h.spaces.bits, h.statistics⟩, h.memory⟩
  | next {x y : Moment} : Visits h x → x.next h = .ok (some y) → Visits h y

/-- A collection is what is left of it at its first moment. -/
theorem collect_eq_rest {h : Heap} {stop : Address} {bump : Bump}
    (hstop : h.spaces.scratch.stop = .ok stop)
    (hbump : Bump.spanning h.spaces.scratch.start stop = .ok bump) : h.collect =
    Moment.rest h ⟨.roots h.stack.sp, 0, ⟨bump, h.spaces.bits, h.statistics⟩, h.memory⟩ >>=
      h.settle := by
  rw [Heap.collect_eq, hstop, ok_bind, hbump, ok_bind, Moment.rest, bind_assoc]
  refine bind_congr fun x => ?_
  rw [bind_assoc]
  refine bind_congr fun y => ?_
  show _ = h.settle (x.1, y)
  unfold settle
  rw [hstop]
  rfl

end Heap

end CopyingHeap
