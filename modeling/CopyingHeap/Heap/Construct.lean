import CopyingHeap.Heap.Roots
import CopyingHeap.Object.Array
import CopyingHeap.Object.ListNode
import CopyingHeap.Object.Scalar
import CopyingHeap.Object.Text

/-!
Making objects. Whatever a new object will refer to is kept in root slots while it is allocated, and
read back from them afterwards, since the allocation may move it.
-/

namespace CopyingHeap

namespace Heap

/-- An array whose elements are null. Nothing is kept alive meanwhile. -/
def allocArray (h : Heap) (size : Nat) : Except Fault (Reference × Heap) := do
  let (a, h) ← h.alloc (← Kind.array.size size)
  let h ← h.changeMemory (·.writeHeader a .array)
  let lengthAt ← a.add lengthOffset
  let h ← h.changeMemory (·.store lengthAt (UInt32.ofNat size))
  return (← Reference.ofAddress a, h)

/-- Sets the elements from index `i` on to the values in the slots. -/
def setElements (h : Heap) (array : Reference) (i : Nat) : List RootSlot → Except Fault Heap
  | [] => .ok h
  | slot :: rest => do
    let v ← h.root slot
    let h ← h.changeMemory (·.arraySet array i v)
    h.setElements array (i + 1) rest

def newArray (h : Heap) (elements : List Value) : Except Fault (Reference × Heap) := do
  let frame := h.enterFrame
  let (slots, h) ← h.pushRoots elements
  let (array, h) ← h.allocArray elements.length
  let h ← h.setElements array 0 slots
  return (array, ← h.leaveFrame frame)

/-- An array of `size` elements, all of them `v`. -/
def newFilledArray (h : Heap) (size : Nat) (v : Value) : Except Fault (Reference × Heap) := do
  let frame := h.enterFrame
  let (slot, h) ← h.pushRoot v
  let (array, h) ← h.allocArray size
  let v ← h.root slot
  let h ← h.leaveFrame frame
  let first ← Memory.elementAddress array 0
  let w ← v.encode
  return (array, ← h.changeMemory (·.fill first (Size.ofWords size) w))

/-- A new array of the same size that holds the same values. -/
def copyArray (h : Heap) (array : Reference) : Except Fault (Reference × Heap) := do
  let size ← h.memory.arraySize array
  let frame := h.enterFrame
  let (slot, h) ← h.pushRoot (.object array)
  let (copy, h) ← h.allocArray size
  match (← h.root slot).object? with
  | none => throw .arraySourceCleared
  | some source =>
    let h ← h.leaveFrame frame
    if (← h.memory.arraySize source) = size then
      let fromAddress ← Memory.elementAddress source 0
      let toAddress ← Memory.elementAddress copy 0
      return (copy, ← h.changeMemory (·.copy fromAddress toAddress (Size.ofWords size)))
    else throw .sourceResized

def newString (h : Heap) (bs : List UInt8) : Except Fault (Reference × Heap) := do
  let (a, h) ← h.alloc (← Kind.string.size bs.length)
  let h ← h.changeMemory (·.writeText a .string bs)
  return (← Reference.ofAddress a, h)

/-- A new string with the bytes of a string or symbol. -/
def copyString (h : Heap) (text : Reference) : Except Fault (Reference × Heap) := do
  let length ← h.memory.textLength text
  let frame := h.enterFrame
  let (slot, h) ← h.pushRoot (.object text)
  let size ← Kind.string.size length
  let (a, h) ← h.alloc size
  match (← h.root slot).object? with
  | none => throw .stringSourceCleared
  | some source =>
    let h ← h.leaveFrame frame
    let h ← h.changeMemory (·.writeHeader a .string)
    let lengthAt ← a.add lengthOffset
    let h ← h.changeMemory (·.store lengthAt (UInt32.ofNat length))
    let fromAddress ← source.address.add contentOffset
    let toAddress ← a.add contentOffset
    let h ← h.changeMemory (·.copy fromAddress toAddress (size - contentOffset))
    return (← Reference.ofAddress a, h)

def newScalar (h : Heap) (k : Kind) (payload : Word) : Except Fault (Reference × Heap) := do
  let (a, h) ← h.alloc (← k.size 0)
  let h ← h.changeMemory (·.writeScalar a k payload)
  return (← Reference.ofAddress a, h)

/-- An integer, in the word itself if it fits and boxed otherwise. -/
def newInteger (h : Heap) (n : Int32) : Except Fault (Value × Heap) := do
  match Value.ofInt? n with
  | some v => return (v, h)
  | none =>
    let (r, h) ← h.newScalar .integer n.toUInt32
    return (.object r, h)

def newFloat (h : Heap) (bits : Word) : Except Fault (Reference × Heap) :=
  h.newScalar .float bits

def newChar (h : Heap) (c : Char) : Except Fault (Reference × Heap) :=
  h.newScalar .char c.val

def newListNode (h : Heap) (head tail : Value) : Except Fault (Reference × Heap) := do
  let frame := h.enterFrame
  let (headSlot, h) ← h.pushRoot head
  let (tailSlot, h) ← h.pushRoot tail
  let (a, h) ← h.alloc (← Kind.listNode.size 0)
  let head ← h.root headSlot
  let tail ← h.root tailSlot
  let h ← h.leaveFrame frame
  let h ← h.changeMemory (·.writeListNode a head tail)
  return (← Reference.ofAddress a, h)

/-- Puts the values in the slots in front of `list`, one node at a time. Each slot then keeps the list
built so far alive. -/
def prepend (h : Heap) (list : Value) : List RootSlot → Except Fault (Value × Heap)
  | [] => .ok (list, h)
  | slot :: rest => do
    let head ← h.root slot
    let (node, h) ← h.newListNode head list
    let h ← h.setRoot slot (.object node)
    h.prepend (.object node) rest

/-- A list of `values`, which is null if there are none. -/
def newList (h : Heap) (values : List Value) : Except Fault (Value × Heap) := do
  let frame := h.enterFrame
  let (slots, h) ← h.pushRoots values
  let (list, h) ← h.prepend .null slots.reverse
  return (list, ← h.leaveFrame frame)

end Heap

end CopyingHeap
