import CopyingHeap.Address

/-!
The kinds of objects. The kind of an object is its header word; the headers of the seven kinds are 1
to 7, so a zeroed block has no kind.
-/

namespace CopyingHeap

/-- The seven sorts of objects. -/
inductive Kind where
  | array
  | symbol
  | string
  | integer
  | float
  | char
  | listNode
  deriving DecidableEq

namespace Kind

/-- All kinds in the order of their headers. -/
def all : List Kind :=
  [array, symbol, string, integer, float, char, listNode]

def header : Kind → Word
  | array => 1
  | symbol => 2
  | string => 3
  | integer => 4
  | float => 5
  | char => 6
  | listNode => 7

def ofHeader? (w : Word) : Option Kind :=
  all.find? fun k => k.header == w

def name : Kind → String
  | array => "Array"
  | symbol => "Symbol"
  | string => "String"
  | integer => "Integer"
  | float => "Float"
  | char => "Char"
  | listNode => "ListNode"

def ofName? (s : String) : Option Kind :=
  all.find? fun k => k.name == s

theorem mem_all (k : Kind) : k ∈ all := by
  cases k <;> decide

theorem header_inj {k l : Kind} : k.header = l.header ↔ k = l := by
  cases k <;> cases l <;> decide

theorem ofHeader?_eq_some_iff {w : Word} {k : Kind} : ofHeader? w = some k ↔ k.header = w := by
  constructor
  · intro h
    simpa using List.find?_some h
  · rintro rfl
    cases k <;> decide

end Kind

end CopyingHeap
