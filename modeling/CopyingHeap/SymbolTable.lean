import CopyingHeap.Memory.Growth
import CopyingHeap.Object.Text

/-!
The static segment: symbols laid out from a start address upwards, one object for each name. A name
is written the first time it is interned, so two symbols are the same exactly when they are the same
object.
-/

namespace CopyingHeap

/-- The symbols written so far, the newest first, and the end of their segment. -/
structure SymbolTable where
  start : Address
  stop : Address
  symbols : List (String × Reference)

namespace SymbolTable

/-- An empty segment. It starts at a word, above the reserved bytes. -/
def startingAt (start : Address) : Except Fault SymbolTable :=
  if start.WordAligned ∧ Size.reservedBytes ≤ start.toNat then .ok ⟨start, start, []⟩
  else .error (.segmentStart start)

def find? (t : SymbolTable) (name : String) : Option Reference :=
  t.symbols.lookup name

def length (t : SymbolTable) : Nat :=
  t.symbols.length

/-- The bytes of a name as a symbol holds them. -/
def nameBytes (name : String) : List UInt8 :=
  name.toUTF8.toList

/-- The symbol of a name, written at the end of the segment if the name is new. The memory grows if
needed; if it cannot, nothing changes. -/
def intern (t : SymbolTable) (m : Memory) (name : String) :
    Except Fault (Except GrowError (Reference × SymbolTable × Memory)) := do
  match t.find? name with
  | some symbol => return .ok (symbol, t, m)
  | none =>
    let bs := nameBytes name
    let stop ← t.stop.add (← Kind.symbol.size bs.length)
    match ← m.ensure stop with
    | .error refusal => return .error refusal
    | .ok m =>
      let m ← m.writeText t.stop .symbol bs
      let symbol ← Reference.ofAddress t.stop
      return .ok (symbol, { t with stop, symbols := (name, symbol) :: t.symbols }, m)

end SymbolTable

end CopyingHeap
