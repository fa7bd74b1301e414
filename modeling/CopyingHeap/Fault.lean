import CopyingHeap.Exhaustion

/-!
Faults: the checks that end an operation. A fault is its cause; `Fault.text` gives the wording of
those that have one.
-/

namespace CopyingHeap

/-- Why an operation was stopped. -/
inductive Fault where
  /-- A 32-bit address or a 64-bit count left its range. -/
  | overflow
  /-- An index outside memory or outside the bitmap. -/
  | outOfBounds
  | addressOrder (larger smaller : Address)
  | unalignedWord (address : Address)
  | unalignedReference (address : Address)
  /-- A byte count that is not a whole number of words. -/
  | partialWord (bytes : Nat)
  | wideInteger (value : Int32)
  | wideFunction (index : UInt32)
  | initialSize (pages maximum : Nat)
  /-- A start bit was asked for inside a word. -/
  | unalignedStart (address : Address)
  /-- An allocation cursor was placed past its limit. -/
  | cursorPastLimit (cursor limit : Address)
  | unalignedStack (base : Address)
  | emptyStack
  | slotOffStack (slot : Address)
  | markAboveFrame (mark sp : Address)
  | segmentStart (address : Address)
  | noHeader (object : Address) (header : Word)
  | notArray (object : Address)
  | notListNode (object : Address)
  /-- Text was read from an object that is neither a string nor a symbol. -/
  | notText (object : Address)
  /-- A scalar was read from an object of another kind. -/
  | notScalar (object : Address)
  | indexOutOfBounds (index : Nat) (array : Address) (size : Nat)
  | arraySourceCleared
  | stringSourceCleared
  /-- The source of an array copy changed its size while the copy was allocated. -/
  | sourceResized
  | notReference (word : Word)
  /-- Comparing two cyclic structures would not end. -/
  | endlessComparison
  | notForwarded (object : Address)
  | alreadyForwarded (object target : Address)
  /-- The extent of a space is not a whole number of words. -/
  | unalignedExtent (bytes : Nat)
  | toSpaceExhausted (bytes left : Nat)
  /-- The scan pointer did not end at the copy cursor. -/
  | scanMissedCursor (scan cursor : Address)
  /-- The scan pointer did not advance over an object. -/
  | scanStalled (scan : Address)
  | unalignedBases (stack heap : Address)
  | heapBelowStack (heap stack : Address)
  | heapOverReserved (heap : Address)
  | outOfMemory (cause : AllocationError)
  deriving DecidableEq

namespace Fault

def text : Fault → Option String
  | addressOrder larger smaller =>
    s!"for (addr_a - addr_b), a({larger}) needs to be larger than b({smaller})"
  | unalignedWord a => s!"unaligned word access at {a}"
  | unalignedReference a => s!"object reference {a} is not aligned"
  | wideInteger value => s!"{value} does not fit in an immediate integer"
  | wideFunction index => s!"function index {index} is too large"
  | initialSize pages maximum =>
    s!"initial size ({pages} pages) exceeds the maximum ({maximum} pages)"
  | emptyStack => "pop from an empty shadow stack"
  | slotOffStack slot => s!"RootSlot({slot}) is not on the stack"
  | markAboveFrame mark sp =>
    s!"stack mark {mark} is not below the current frame (sp = {sp})"
  | segmentStart a => s!"static data cannot start at {a}"
  | noHeader object header =>
    s!"{object} has no valid object header ({hexText header.toNat})"
  | notArray object => s!"{object} is not an array"
  | notListNode object => s!"{object} is not a list node"
  | indexOutOfBounds i array size => s!"index {i} out of bounds for array {array} of size {size}"
  | arraySourceCleared =>
    "internal error: entered unreachable code: the root slot of the source array was cleared"
  | stringSourceCleared =>
    "internal error: entered unreachable code: the root slot of the source string was cleared"
  | notReference word => s!"copy_array: {hexText word.toNat} is not a heap reference"
  | notForwarded object => s!"{object} is not forwarded, cannot read its forwarding pointer"
  | alreadyForwarded object target => s!"{object} is already forwarded to {target}"
  | toSpaceExhausted bytes left =>
    s!"to-space exhausted while copying {bytes} bytes ({left} bytes left)"
  | unalignedBases stack heap =>
    s!"stack base {stack} and heap base {heap} must be word aligned"
  | heapBelowStack heap stack => s!"heap base {heap} is below the stack base {stack}"
  | heapOverReserved heap =>
    s!"heap base {heap} overlaps the reserved bytes at address zero"
  | outOfMemory cause => s!"Out of memory with {cause.details}!"
  | _ => none

end Fault

/-- A step with a continuation succeeds exactly when both do. -/
theorem bind_eq_ok_iff {α β : Type} {x : Except Fault α} {f : α → Except Fault β} {b : β} :
    (x >>= f) = .ok b ↔ ∃ a, x = .ok a ∧ f a = .ok b := by
  cases x with
  | error e => exact ⟨fun h => (nomatch h), fun ⟨_, h, _⟩ => (nomatch h)⟩
  | ok a => exact ⟨fun h => ⟨a, rfl, h⟩, fun ⟨_, h, hb⟩ => by cases h; exact hb⟩

end CopyingHeap
