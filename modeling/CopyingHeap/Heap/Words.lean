import CopyingHeap.Heap.Construct
import CopyingHeap.Object.Equality

/-!
Operations on raw words, for programs that see every value as a word. Answers that are booleans are
tagged words too.
-/

namespace CopyingHeap

namespace Heap

def equalWords (h : Heap) (a b : Word) : Except Fault Word :=
  return Value.boolWord (← h.memory.equal (Value.decode a) (Value.decode b))

def notEqualWords (h : Heap) (a b : Word) : Except Fault Word :=
  return Value.boolWord (← h.memory.notEqual (Value.decode a) (Value.decode b))

def sameSymbolWords (h : Heap) (a b : Word) : Except Fault Word :=
  return Value.boolWord (← h.memory.sameSymbol (Value.decode a) (Value.decode b))

def copyArrayWord (h : Heap) (array : Word) : Except Fault (Word × Heap) := do
  match (Value.decode array).object? with
  | none => throw (.notReference array)
  | some r =>
    let (copy, h) ← h.copyArray r
    return (copy.word, h)

end Heap

end CopyingHeap
