import CopyingHeap.Heap.Basic

/-!
The roots of a heap: the values on its shadow stack, in frames that a mark closes. A root slot is up
to date even if a collection has moved its object.
-/

namespace CopyingHeap

namespace Heap

def enterFrame (h : Heap) : StackMark :=
  h.stack.mark

/-- Pops every root pushed since the mark was taken. -/
def leaveFrame (h : Heap) (mark : StackMark) : Except Fault Heap :=
  return { h with stack := ← h.stack.reset mark }

/-- Pushes a root; a full stack is fatal. -/
def pushRoot (h : Heap) (v : Value) : Except Fault (RootSlot × Heap) := do
  let w ← v.encode
  match h with
  | ⟨memory, stack, spaces, bump, options, statistics, recent⟩ =>
    match ← stack.push memory w with
    | .error cause => throw (.outOfMemory cause)
    | .ok (slot, stack, memory) =>
      return (slot, ⟨memory, stack, spaces, bump, options, statistics, recent⟩)

def pushRoots (h : Heap) : List Value → Except Fault (List RootSlot × Heap)
  | [] => .ok ([], h)
  | v :: rest => do
    let (slot, h) ← h.pushRoot v
    let (slots, h) ← h.pushRoots rest
    return (slot :: slots, h)

def popRoot (h : Heap) : Except Fault (Value × Heap) := do
  let (w, stack) ← h.stack.pop h.memory
  return (Value.decode w, { h with stack })

def root (h : Heap) (slot : RootSlot) : Except Fault Value :=
  return Value.decode (← h.stack.load h.memory slot)

def setRoot (h : Heap) (slot : RootSlot) (v : Value) : Except Fault Heap := do
  let w ← v.encode
  let stack := h.stack
  h.changeMemory fun m => stack.store m slot w

end Heap

end CopyingHeap
