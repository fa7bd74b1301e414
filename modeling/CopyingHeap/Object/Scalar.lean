import CopyingHeap.Object.Layout
import CopyingHeap.Value

/-!
Boxed scalars in memory: `kind; payload`. Integers of more than 30 bits, single-precision floats and
characters are kept in objects of two words. A float is its bits.
-/

namespace CopyingHeap

namespace Memory

def writeScalar (m : Memory) (a : Address) (k : Kind) (payload : Word) : Except Fault Memory := do
  let m ← m.writeHeader a k
  m.store (← a.add scalarOffset) payload

def scalar (m : Memory) (r : Reference) (k : Kind) : Except Fault Word := do
  if (← m.kind? r) = some k then m.load (← r.address.add scalarOffset)
  else throw (.notScalar r.address)

def integerValue (m : Memory) (r : Reference) : Except Fault Int32 :=
  return (← m.scalar r .integer).toInt32

def floatBits (m : Memory) (r : Reference) : Except Fault Word :=
  m.scalar r .float

/-- The character of a code point; U+FFFD stands for words that are none. -/
def charOfWord (w : Word) : Char :=
  if h : w.isValidChar then ⟨w, h⟩ else '\uFFFD'

def charValue (m : Memory) (r : Reference) : Except Fault Char :=
  return charOfWord (← m.scalar r .char)

/-- The integer of a value, in the word itself or boxed. -/
def integer? (m : Memory) (v : Value) : Except Fault (Option Int32) := do
  match v with
  | .int n => return some n
  | v =>
    match v.object? with
    | none => return none
    | some r =>
      match ← m.kind? r with
      | some .integer => return some (← m.integerValue r)
      | _ => return none

end Memory

end CopyingHeap
