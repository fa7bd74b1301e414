import CopyingHeap.Options.Basic
import CopyingHeap.Semispaces
import CopyingHeap.ShadowStack

/-!
A heap: a memory with a shadow stack and two spaces in it, and the bump that allocates in the active
space. Every allocation may collect and move objects, so a reference that has to survive one is kept
in a root slot and read back from it.
-/

namespace CopyingHeap

/-- A memory with a garbage-collected heap in it. -/
structure Heap where
  memory : Memory
  stack : ShadowStack
  spaces : Semispaces
  /-- The free part of the active space. -/
  bump : Bump
  options : Options
  statistics : Statistics
  /-- Bytes handed out since the last collection. -/
  recent : Nat

namespace Heap

/-- A heap of `bytes` bytes from `heapBase` on, in two spaces, with its stack below `stackBase`. The
memory grows to hold both spaces. -/
def build (options : Options) (m : Memory) (stackBase heapBase : Address) (bytes : Nat) :
    Except Fault Heap := do
  if ¬(stackBase.WordAligned ∧ heapBase.WordAligned) then
    throw (.unalignedBases stackBase heapBase)
  else if heapBase < stackBase then throw (.heapBelowStack heapBase stackBase)
  else if heapBase.toNat < Size.reservedBytes then throw (.heapOverReserved heapBase)
  else
    let extent := Size.alignDown (bytes / 2) Size.wordBytes
    match heapBase.add? (2 * extent) with
    | none => throw (.outOfMemory (.heapExhausted bytes))
    | some heapStop =>
      match ← (m.limitPages options.maxMemoryPages).ensure heapStop with
      | .error refusal => throw (.outOfMemory (.growFailed refusal))
      | .ok m =>
        let spaces ← Semispaces.split heapBase extent
        let bump ← Bump.spanning spaces.active.start (← spaces.active.stop)
        let stack ← ShadowStack.below stackBase options.stackSize
        return ⟨m, stack, spaces, bump, options, Statistics.initial, 0⟩

def changeMemory (h : Heap) (f : Memory → Except Fault Memory) : Except Fault Heap :=
  match h with
  | ⟨memory, stack, spaces, bump, options, statistics, recent⟩ => do
    let memory ← f memory
    return ⟨memory, stack, spaces, bump, options, statistics, recent⟩

def capacity (h : Heap) : Nat :=
  h.spaces.active.extent

def used (h : Heap) : Except Fault Nat :=
  h.bump.cursor.diff h.spaces.active.start

def free (h : Heap) : Except Fault Nat :=
  h.bump.remaining

def isInHeap (h : Heap) (a : Address) : Except Fault Bool :=
  h.spaces.active.contains a

/-- Is the reference the start of an object or block in the active space? -/
def isLive (h : Heap) (r : Reference) : Bool :=
  h.spaces.isLive r h.bump.cursor

/-- The objects and blocks of the active space, in the order of their addresses. -/
def objects (h : Heap) : Except Fault (List Reference) :=
  (h.spaces.bits.setBetween h.spaces.active.start h.bump.cursor).mapM Reference.ofAddress

def collect (h : Heap) : Except Fault Heap :=
  match h with
  | ⟨memory, stack, spaces, _, options, statistics, _⟩ => do
    let (cursor, spaces, memory, statistics) ←
      spaces.collect memory stack.slots statistics options.zeroOnRelease
    let bump ← Bump.spanning cursor (← spaces.active.stop)
    return ⟨memory, stack, spaces, bump, options, statistics, 0⟩

/-- Zeroes, marks and records the block that the bump has just handed out. -/
def takeBlock (h : Heap) (a : Address) (bump : Bump) (bytes : Nat) : Except Fault Heap :=
  match h with
  | ⟨memory, stack, ⟨active, scratch, base, bits⟩, _, options, statistics, recent⟩ => do
    let memory ← memory.zero a bytes
    let bits ← bits.set a
    let statistics ← statistics.recordAllocation bytes
    return ⟨memory, stack, ⟨active, scratch, base, bits⟩, bump, options, statistics, recent⟩

/-- Allocates in the active space, if the block fits there. -/
def tryAlloc (h : Heap) (bytes : Nat) : Except Fault (Option Address × Heap) :=
  match h.bump.alloc bytes with
  | none => .ok (none, h)
  | some (a, bump) => do return (some a, ← h.takeBlock a bump bytes)

/-- Counts a request against the stress factor, and collects if that is due. -/
def charge (h : Heap) (bytes : Nat) : Except Fault Heap := do
  let recent ← Size.add h.recent bytes
  if h.options.stress && h.options.stressFactor < recent then
    return { (← h.collect) with recent := bytes }
  else return { h with recent }

/-- Enlarges the spaces until the active one holds `bytes` more bytes. -/
def growFor (h : Heap) (bytes : Nat) : Except Fault Heap := do
  let required ← Size.add (← h.used) bytes
  match h with
  | ⟨memory, stack, spaces, bump, options, statistics, recent⟩ =>
    match ← spaces.grow memory required options.minGrowthBytes with
    | .error cause => throw (.outOfMemory cause)
    | .ok (spaces, memory) =>
      let bump ← bump.moveLimit (← spaces.active.stop)
      let statistics ← statistics.recordGrowth
      return ⟨memory, stack, spaces, bump, options, statistics, recent⟩

/-- Allocates a zeroed block of at least `size` bytes. It collects if the block does not fit, and
grows the spaces if it does not fit then. -/
def alloc (h : Heap) (size : Nat) : Except Fault (Address × Heap) := do
  if Address.highest.toNat < size then throw (.outOfMemory (.heapExhausted size))
  else
    let bytes := Size.objectBytes size
    match ← (← h.charge bytes).tryAlloc bytes with
    | (some a, h) => return (a, h)
    | (none, h) =>
      match ← { (← h.collect) with recent := bytes }.tryAlloc bytes with
      | (some a, h) => return (a, h)
      | (none, h) =>
        match ← (← h.growFor bytes).tryAlloc bytes with
        | (some a, h) => return (a, h)
        | (none, _) => throw (.outOfMemory (.heapExhausted size))

end Heap

end CopyingHeap
