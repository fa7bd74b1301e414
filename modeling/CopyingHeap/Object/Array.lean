import CopyingHeap.Object.Layout
import CopyingHeap.Value

/-!
Arrays in memory: `kind; size; elements`. The size of an array never changes; its elements are
values.
-/

namespace CopyingHeap

namespace Memory

def elementAddress (array : Reference) (i : Nat) : Except Fault Address := do
  (← array.address.add contentOffset).add (Size.ofWords i)

def arraySize (m : Memory) (array : Reference) : Except Fault Nat := do
  if (← m.kind? array) = some .array then m.length array
  else throw (.notArray array.address)

def checkIndex (m : Memory) (array : Reference) (i : Nat) : Except Fault Unit := do
  let size ← m.arraySize array
  if i < size then return () else throw (.indexOutOfBounds i array.address size)

def arrayGet (m : Memory) (array : Reference) (i : Nat) : Except Fault Value := do
  m.checkIndex array i
  return Value.decode (← m.load (← elementAddress array i))

def arraySet (m : Memory) (array : Reference) (i : Nat) (v : Value) : Except Fault Memory := do
  m.checkIndex array i
  let a ← elementAddress array i
  m.store a (← v.encode)

def elementsFrom (m : Memory) (array : Reference) (i : Nat) : Nat → Except Fault (List Value)
  | 0 => .ok []
  | count + 1 => do
    let w ← m.load (← elementAddress array i)
    return Value.decode w :: (← m.elementsFrom array (i + 1) count)

def arrayElements (m : Memory) (array : Reference) : Except Fault (List Value) := do
  m.elementsFrom array 0 (← m.arraySize array)

end Memory

end CopyingHeap
