import CopyingHeap.Reference

/-!
Tagged values. Every value of a program is one word. Its two low bits are the tag and its upper 30
bits the payload: a pointer to an object (zero is null), a signed integer, a boolean, or the index
of a function. Every word decodes; encoding refuses integers and indices of more than 30 bits.
-/

namespace CopyingHeap

inductive Tag where
  | pointer
  | int
  | bool
  | func
  deriving DecidableEq

namespace Tag

def code : Tag → Nat
  | pointer => 0
  | int => 1
  | bool => 2
  | func => 3

def ofWord (w : Word) : Tag :=
  match w.toNat % 4 with
  | 0 => pointer
  | 1 => int
  | 2 => bool
  | _ => func

end Tag

/-- What a word means to a program. -/
inductive Value where
  | int (n : Int32)
  | bool (b : Bool)
  | func (index : UInt32)
  | object (r : Reference)
  deriving DecidableEq

namespace Value

def null : Value :=
  object Reference.null

/-- The smallest integer held in the word itself. -/
def minInt : Int :=
  -0x20000000

def maxInt : Int :=
  0x1FFFFFFF

def maxFunction : Nat :=
  0x3FFFFFFF

def falseWord : Word :=
  2

def trueWord : Word :=
  6

/-- Does an integer have at most 30 bits? -/
def FitsInt (n : Int32) : Prop :=
  minInt ≤ n.toInt ∧ n.toInt ≤ maxInt

instance (n : Int32) : Decidable (FitsInt n) :=
  inferInstanceAs (Decidable (_ ∧ _))

/-- An integer held in the word itself, if it fits. -/
def ofInt? (n : Int32) : Option Value :=
  if FitsInt n then some (int n) else none

def tag : Value → Tag
  | int _ => .int
  | bool _ => .bool
  | func _ => .func
  | object _ => .pointer

def isImmediate : Value → Bool
  | object _ => false
  | _ => true

/-- The object referred to, unless the value is null or no reference. -/
def object? : Value → Option Reference
  | object r => if r.isNull then none else some r
  | _ => none

def boolWord (b : Bool) : Word :=
  if b then trueWord else falseWord

def decode (w : Word) : Value :=
  if h : (Address.mk w).WordAligned then object ⟨⟨w⟩, h⟩
  else if w.toNat % 4 = 1 then int (Int32.ofInt (w.toInt32.toInt / 4))
  else if w.toNat % 4 = 2 then bool (w.toNat / 4 != 0)
  else func (UInt32.ofNat (w.toNat / 4))

def encode : Value → Except Fault Word
  | int n => if FitsInt n then .ok (n.toUInt32 * 4 + 1) else .error (.wideInteger n)
  | bool b => .ok (boolWord b)
  | func index =>
    if index.toNat ≤ maxFunction then .ok (index * 4 + 3) else .error (.wideFunction index)
  | object r => .ok r.word

theorem object?_eq_some_iff {v : Value} {r : Reference} :
    v.object? = some r ↔ v = object r ∧ r ≠ Reference.null := by
  cases v <;> simp [object?]
  rename_i s
  by_cases h : s.isNull = true
  · have hs := Reference.isNull_iff.mp h
    subst hs
    simp only [h]
    grind
  · simp only [h]
    have hs : s ≠ Reference.null := fun hs => h (Reference.isNull_iff.mpr hs)
    grind

theorem eq_of_object?_object {r s : Reference} (h : (object r).object? = some s) : s = r := by
  obtain ⟨heq, -⟩ := object?_eq_some_iff.mp h
  injection heq with heq
  exact heq.symm

theorem decode_word (r : Reference) : decode r.word = object r :=
  dif_pos r.aligned

end Value

end CopyingHeap
