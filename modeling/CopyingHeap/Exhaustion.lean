import CopyingHeap.Address

/-!
The ways of running out of memory, with their texts: the host refuses to grow the memory, the
heap reaches the end of the address space, or the shadow stack is full.
-/

namespace CopyingHeap

/-- The host refused to grow the memory past its maximum; both sizes are in pages. -/
structure GrowError where
  requested : Nat
  maximum : Nat
  deriving DecidableEq

namespace GrowError

def text (e : GrowError) : String :=
  s!"cannot grow linear memory to {e.requested} pages (maximum {e.maximum} pages)"

/-- The error with its fields named. -/
def details (e : GrowError) : String :=
  s!"ExceedsMaximum \x7b requested_pages: {e.requested}, max_pages: {e.maximum} \x7d"

end GrowError

/-- Why a request for memory could not be met. -/
inductive AllocationError where
  /-- The heap would need to grow past the 32-bit address space. -/
  | heapExhausted (requested : Nat)
  | growFailed (cause : GrowError)
  | stackOverflow
  deriving DecidableEq

namespace AllocationError

def text : AllocationError → String
  | heapExhausted requested => s!"heap exhausted while allocating {requested} bytes"
  | growFailed cause => "out of host memory: " ++ cause.text
  | stackOverflow => "shadow stack overflow"

/-- The error with its fields named. -/
def details : AllocationError → String
  | heapExhausted requested => s!"HeapOutOfMemory \x7b requested: {requested} \x7d"
  | growFailed cause => "MemoryGrowFailed(" ++ cause.details ++ ")"
  | stackOverflow => "StackOverflow"

/-- The error of the host behind this one. -/
def cause? : AllocationError → Option GrowError
  | growFailed cause => some cause
  | _ => none

end AllocationError

end CopyingHeap
