import CopyingHeap.Size

/-!
The texts that options are read from: numerals, words between blanks, `key=value` pairs, and names
in any case. All of it works on lists of characters.
-/

namespace CopyingHeap

namespace OptionText

/-- A space, tab, line feed, form feed or carriage return. -/
def isBlank (c : Char) : Bool :=
  c == ' ' || c == '\t' || c == '\n' || c == '\x0c' || c == '\r'

def digit? (c : Char) : Option Nat :=
  if '0' ≤ c ∧ c ≤ '9' then some (c.toNat - '0'.toNat) else none

/-- The value of decimal digits, of which there must be one, read onto `n`. -/
def digits? (n : Nat) : List Char → Option Nat
  | [] => some n
  | c :: rest => do digits? (10 * n + (← digit? c)) rest

/-- A count in decimal digits, perhaps behind one plus sign. -/
def count? (text : String) : Option Nat := do
  let digits := match text.toList with
    | '+' :: rest => rest
    | cs => cs
  if digits.isEmpty then none
  else
    let n ← digits? 0 digits
    if n < Size.bound then some n else none

def bool? (text : String) : Option Bool :=
  if text = "true" then some true
  else if text = "false" then some false
  else none

/-- The pieces between blanks, empty ones too. -/
def pieces : List Char → List (List Char)
  | [] => [[]]
  | c :: rest =>
    if isBlank c then [] :: pieces rest
    else
      match pieces rest with
      | piece :: more => (c :: piece) :: more
      | [] => [[c]]

/-- The words of a text, which blanks separate. -/
def words (text : String) : List (List Char) :=
  (pieces text.toList).filter fun piece => !piece.isEmpty

/-- The parts of a word around its first equals sign, if it has one. -/
def keyValue? (word : List Char) : Option (String × String) :=
  match word.dropWhile (· != '=') with
  | [] => none
  | _ :: value => some (String.ofList (word.takeWhile (· != '=')), String.ofList value)

/-- Lower case as far as names in ASCII go: besides the capitals A to Z, the Kelvin sign is the only
character whose lower case is in ASCII. -/
def lower (c : Char) : Char :=
  if c = '\u212A' then 'k' else c.toLower

/-- What follows `marker` at the start of a text, in lower case. -/
def nameAfter? (marker text : String) : Option String :=
  if marker.toList.isPrefixOf text.toList then
    some (String.ofList ((text.toList.drop marker.length).map lower))
  else none

end OptionText

end CopyingHeap
