import CopyingHeap.Memory.Bytes
import CopyingHeap.Object.Layout

/-!
Strings and symbols in memory: `kind; length; bytes`, padded to a whole word. Strings are objects of
the heap; symbols have the same layout and never move.
-/

namespace CopyingHeap

namespace Memory

/-- Writes a string or symbol into a block that is large enough. -/
def writeText (m : Memory) (a : Address) (k : Kind) (bs : List UInt8) : Except Fault Memory := do
  let m ← m.writeHeader a k
  let m ← m.store (← a.add lengthOffset) (UInt32.ofNat bs.length)
  m.writeBytes (← a.add contentOffset) bs

def textLength (m : Memory) (r : Reference) : Except Fault Nat := do
  match ← m.kind? r with
  | some .string | some .symbol => m.length r
  | _ => throw (.notText r.address)

def textBytes (m : Memory) (r : Reference) : Except Fault (List UInt8) := do
  let length ← m.textLength r
  m.readBytes (← r.address.add contentOffset) length

def sameText (m : Memory) (a b : Reference) : Except Fault Bool := do
  let x ← m.textBytes a
  let y ← m.textBytes b
  return x == y

end Memory

end CopyingHeap
