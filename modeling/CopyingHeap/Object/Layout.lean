import CopyingHeap.Memory.Basic
import CopyingHeap.Object.Kind
import CopyingHeap.Reference

/-!
The layout of objects in memory. An object starts with its header; arrays, strings and symbols have
their length next and their elements or bytes after it; scalars have one word of payload; a list
node has a head and a tail. Every object takes whole words, at least two of them. Only arrays and
list nodes hold references.
-/

namespace CopyingHeap

/-- Where the length of an array, string or symbol is, in bytes from the header. -/
def lengthOffset : Nat :=
  4

def contentOffset : Nat :=
  8

def scalarOffset : Nat :=
  4

def headOffset : Nat :=
  4

def tailOffset : Nat :=
  8

/-- The bytes that an object takes, given its kind and length. -/
def Kind.size (k : Kind) (length : Nat) : Except Fault Nat := do
  match k with
  | array => return Size.objectBytes (← Size.add contentOffset (Size.ofWords length))
  | symbol | string => return Size.objectBytes (← Size.add contentOffset length)
  | integer | float | char => return Size.objectBytes 8
  | listNode => return Size.objectBytes 12

/-- Does the kind keep a length behind its header? -/
def Kind.hasLength : Kind → Bool
  | array | symbol | string => true
  | _ => false

namespace Memory

/-- The kind of an object, if its header is one. -/
def kind? (m : Memory) (r : Reference) : Except Fault (Option Kind) :=
  return Kind.ofHeader? (← m.load r.address)

/-- The kind of an object that must have one. -/
def kind (m : Memory) (r : Reference) : Except Fault Kind := do
  let header ← m.load r.address
  match Kind.ofHeader? header with
  | some k => return k
  | none => throw (.noHeader r.address header)

def writeHeader (m : Memory) (a : Address) (k : Kind) : Except Fault Memory :=
  m.store a k.header

def length (m : Memory) (r : Reference) : Except Fault Nat := do
  return (← m.load (← r.address.add lengthOffset)).toNat

/-- The bytes that an object of kind `k` takes. -/
def sizeAs (m : Memory) (r : Reference) (k : Kind) : Except Fault Nat := do
  if k.hasLength then k.size (← m.length r) else k.size 0

def objectSize (m : Memory) (r : Reference) : Except Fault Nat := do
  m.sizeAs r (← m.kind r)

/-- The words of an object that hold values a collection must follow. -/
def referenceSlots (m : Memory) (r : Reference) : Except Fault AddressRange := do
  match ← m.kind r with
  | .array =>
    let start ← r.address.add contentOffset
    return ⟨start, ← start.add (Size.ofWords (← m.length r))⟩
  | .listNode =>
    let start ← r.address.add headOffset
    return ⟨start, ← (← r.address.add tailOffset).add Size.wordBytes⟩
  | _ => return ⟨r.address, r.address⟩

theorem kind?_eq_ok_iff {m : Memory} {r : Reference} {o : Option Kind} :
    m.kind? r = .ok o ↔ ∃ w, m.load r.address = .ok w ∧ o = Kind.ofHeader? w := by
  unfold kind?
  cases m.load r.address with
  | error f => simp [bind, Except.bind]
  | ok w => simp [bind, Except.bind, pure, Except.pure, eq_comm]

theorem kind_eq_ok_iff {m : Memory} {r : Reference} {k : Kind} :
    m.kind r = .ok k ↔ m.load r.address = .ok k.header := by
  unfold kind
  cases m.load r.address with
  | error f => simp [bind, Except.bind]
  | ok w =>
    simp only [bind, Except.bind, Except.ok.injEq]
    cases h : Kind.ofHeader? w with
    | none =>
      simp only [throw, throwThe, MonadExceptOf.throw, reduceCtorEq, false_iff]
      intro hw
      rw [Kind.ofHeader?_eq_some_iff.mpr hw.symm] at h
      nomatch h
    | some l =>
      rw [Kind.ofHeader?_eq_some_iff] at h
      subst h
      simp only [pure, Except.pure, Except.ok.injEq, Kind.header_inj]

end Memory

end CopyingHeap
