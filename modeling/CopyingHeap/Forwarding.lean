import CopyingHeap.Memory.Basic
import CopyingHeap.Reference

/-!
Forwarding. An object that has been copied is overwritten: its header becomes a marker that no kind
has, and its second word the address of the copy.
-/

namespace CopyingHeap

/-- No kind has this header, so a forwarded object is never taken for an intact one. -/
def forwardedHeader : Word :=
  0xFFFFFFFF

def forwardingOffset : Nat :=
  4

namespace Memory

def isForwarded (m : Memory) (r : Reference) : Except Fault Bool :=
  return (← m.load r.address) == forwardedHeader

def forwardingPointer (m : Memory) (r : Reference) : Except Fault Reference := do
  if ← m.isForwarded r then
    Reference.ofAddress (← m.loadAddress (← r.address.add forwardingOffset))
  else throw (.notForwarded r.address)

/-- The copy of an object, if it has been copied. -/
def forwarded? (m : Memory) (r : Reference) : Except Fault (Option Reference) := do
  if ← m.isForwarded r then return some (← m.forwardingPointer r) else return none

/-- Forwards an object, which must not be forwarded yet. -/
def forward (m : Memory) (r target : Reference) : Except Fault Memory := do
  if ← m.isForwarded r then
    throw (.alreadyForwarded r.address (← m.forwardingPointer r).address)
  else
    let m ← m.store r.address forwardedHeader
    m.store (← r.address.add forwardingOffset) target.word

end Memory

end CopyingHeap
