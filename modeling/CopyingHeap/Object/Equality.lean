import CopyingHeap.Object.Array
import CopyingHeap.Object.ListNode
import CopyingHeap.Object.Number
import CopyingHeap.Object.Text

/-!
Equality of values. It is structural for arrays, strings, characters, list nodes and numbers, and
identity for symbols; equal words are always equal. Comparing a pair of objects never leads back to
the same pair unless the comparison has no end, so the number of pairs of words in memory bounds the
depth of every comparison that has one.
-/

namespace CopyingHeap

/-- Does `p` hold at `count` indices from `i` on? The first that fails ends the test. -/
def allFrom (p : Nat → Except Fault Bool) (i : Nat) : Nat → Except Fault Bool
  | 0 => .ok true
  | count + 1 => do
    if ← p i then allFrom p (i + 1) count else return false

namespace Memory

/-- Equality of values, with a bound on the depth of the comparison. -/
def equalWithin (m : Memory) : Nat → Value → Value → Except Fault Bool
  | 0, _, _ => .error .endlessComparison
  | depth + 1, a, b =>
    if a = b then .ok true
    else do
      let x? ← m.number? a
      let y? ← m.number? b
      match x?, y? with
      | some x, some y => return x.equals y
      | _, _ =>
        match a.object?, b.object? with
        | some r, some s =>
          match ← m.kind? r, ← m.kind? s with
          | some .array, some .array =>
            let size ← m.arraySize r
            if size = (← m.arraySize s) then
              allFrom (fun i => do equalWithin m depth (← m.arrayGet r i) (← m.arrayGet s i)) 0 size
            else return false
          | some .string, some .string => m.sameText r s
          | some .char, some .char => return (← m.charValue r) == (← m.charValue s)
          | some .listNode, some .listNode =>
            if ← equalWithin m depth (← m.listHead r) (← m.listHead s) then
              equalWithin m depth (← m.listTail r) (← m.listTail s)
            else return false
          | _, _ => return false
        | _, _ => return false

/-- The depth that every comparison with an end stays below. -/
def comparisonDepth (m : Memory) : Nat :=
  m.words.size * m.words.size + 1

def equal (m : Memory) (a b : Value) : Except Fault Bool :=
  m.equalWithin m.comparisonDepth a b

def notEqual (m : Memory) (a b : Value) : Except Fault Bool :=
  return !(← m.equal a b)

/-- Are both values the same symbol? -/
def sameSymbol (m : Memory) (a b : Value) : Except Fault Bool := do
  match a.object?, b.object? with
  | some r, some s =>
    if r = s then return (← m.kind? r) = some .symbol else return false
  | _, _ => return false

end Memory

end CopyingHeap
