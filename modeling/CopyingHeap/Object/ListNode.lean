import CopyingHeap.Object.Layout
import CopyingHeap.Value

/-!
List nodes in memory: `kind; head; tail`. A list is a chain of tails that ends in null.
-/

namespace CopyingHeap

namespace Memory

def writeListNode (m : Memory) (a : Address) (head tail : Value) : Except Fault Memory := do
  let m ← m.writeHeader a .listNode
  let headAt ← a.add headOffset
  let m ← m.store headAt (← head.encode)
  let tailAt ← a.add tailOffset
  m.store tailAt (← tail.encode)

def checkListNode (m : Memory) (r : Reference) : Except Fault Unit := do
  if (← m.kind? r) = some .listNode then return ()
  else throw (.notListNode r.address)

def listHead (m : Memory) (r : Reference) : Except Fault Value := do
  m.checkListNode r
  return Value.decode (← m.load (← r.address.add headOffset))

def listTail (m : Memory) (r : Reference) : Except Fault Value := do
  m.checkListNode r
  return Value.decode (← m.load (← r.address.add tailOffset))

end Memory

end CopyingHeap
