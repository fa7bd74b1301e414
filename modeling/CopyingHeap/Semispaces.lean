import CopyingHeap.Collection
import CopyingHeap.Memory.Growth

/-!
Two spaces of equal size. Allocation goes on in the active one. A collection exchanges them, copies
what the roots reach into the new active space, and forgets the other. Growing keeps the active
space in place and moves the scratch space to where the larger one fits.
-/

namespace CopyingHeap

/-- The two halves of a heap and the start bits over both. -/
structure Semispaces where
  active : Space
  scratch : Space
  /-- The lowest address of the heap. -/
  base : Address
  bits : StartBits

namespace Semispaces

/-- Two spaces of `extent` bytes from `base` on, the lower one active. -/
def split (base : Address) (extent : Nat) : Except Fault Semispaces := do
  if extent % Size.wordBytes = 0 then
    let middle ← base.add extent
    let bits ← StartBits.covering (← middle.add extent).toNat
    return ⟨⟨"copyspace0", base, extent, false⟩, ⟨"copyspace1", middle, extent, true⟩, base, bits⟩
  else throw (.unalignedExtent extent)

/-- Is `r` the start of an object in the active space, below the cursor? -/
def isLive (s : Semispaces) (r : Reference) (cursor : Address) : Bool :=
  decide (s.active.start ≤ r.address) && decide (r.address < cursor) && s.bits.isSet r.address

/-- Exchanges the spaces: the one in use becomes the source of the collection. -/
def flip (s : Semispaces) : Semispaces :=
  { s with active := { s.scratch with isFrom := false }, scratch := { s.active with isFrom := true } }

/-- Collects, with every word in `roots` as a conservative root. The address is the end of the
copies, where allocation goes on. -/
def collect (s : Semispaces) (m : Memory) (roots : AddressRange) (statistics : Statistics)
    (zero : Bool) : Except Fault (Address × Semispaces × Memory × Statistics) := do
  let ⟨active, scratch, base, bits⟩ := s.flip
  let bump ← Bump.spanning active.start (← active.stop)
  let (found, e, m) ← Evacuation.traceRoots scratch active.start 0 ⟨bump, bits, statistics⟩ m
    roots.start (roots.start.wordsBetween roots.stop)
  let (⟨bump, bits, statistics⟩, m) ← Evacuation.close scratch e m active.start
  let (scratch, m, bits) ← scratch.release m bits zero
  let liveBytes ← bump.cursor.diff active.start
  let statistics ← statistics.recordCollection found liveBytes
  return (bump.cursor, ⟨active, scratch, base, bits⟩, m, statistics)

/-- The common extent of both spaces after a growth, unless it is no 64-bit count. -/
def grownExtent (extent required minGrowth : Nat) : Except Fault (Option Nat) := do
  let wanted := max (max (← Size.double extent) required) (min (extent + minGrowth) Size.highest)
  return if wanted + 3 < Size.bound then some ((wanted + 3) / 4 * 4) else none

/-- Where the scratch space starts once both spaces have `extent` bytes: at the base of the heap if
it fits below the active space there, else right after the active space. -/
def scratchStart (base start past : Address) (extent : Nat) : Address :=
  match base.add? extent with
  | some below => if below ≤ start then base else past
  | none => past

/-- The layout of the spaces with `extent` bytes each, if it ends in the address space: the end of
the active space, and the start and end of the scratch space. -/
def grownLayout (s : Semispaces) (extent : Nat) : Option (Address × Address × Address) := do
  let past ← s.active.start.add? extent
  let scratch := scratchStart s.base s.active.start past extent
  return (past, scratch, ← scratch.add? extent)

/-- Enlarges both spaces so that the active one can hold `required` bytes. If that fails nothing
changes. -/
def grow (s : Semispaces) (m : Memory) (required minGrowth : Nat) :
    Except Fault (Except AllocationError (Semispaces × Memory)) := do
  match ← grownExtent s.active.extent required minGrowth with
  | none => return .error (.heapExhausted required)
  | some extent =>
    match s.grownLayout extent with
    | none => return .error (.heapExhausted required)
    | some (past, scratchStart, scratchStop) =>
      let heapStop := max past scratchStop
      match ← m.ensure heapStop with
      | .error refusal => return .error (.growFailed refusal)
      | .ok m =>
        let ⟨active, scratch, base, bits⟩ := s
        let bits ← bits.ensureCovers heapStop.toNat
        return .ok (⟨{ active with extent }, { scratch with start := scratchStart, extent }, base,
          bits⟩, m)

end Semispaces

end CopyingHeap
