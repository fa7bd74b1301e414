import CopyingHeap.Memory.Basic

/-!
The shadow stack: the words of memory that hold the references of a program. It grows down from its
base. A program keeps there every reference it needs across an allocation, since a collection may
move the object and rewrite the slot. The last word pushed is at the lowest address.
-/

namespace CopyingHeap

structure StackMark where
  address : Address
  deriving DecidableEq

/-- The place of one pushed word. -/
structure RootSlot where
  address : Address
  deriving DecidableEq

/-- A stack that has its words in `[sp, base)` and may grow down to `limit`. -/
structure ShadowStack where
  base : Address
  limit : Address
  sp : Address
  deriving DecidableEq

namespace ShadowStack

/-- An empty stack of at most `bytes` bytes below `base`, kept off the reserved low bytes. -/
def below (base : Address) (bytes : Nat) : Except Fault ShadowStack :=
  if base.WordAligned then
    let lowest := max (base.saturatingSub bytes) (Address.ofNat Size.reservedBytes)
    .ok ⟨base, lowest.alignUp Size.wordBytes, base⟩
  else .error (.unalignedStack base)

def depth (s : ShadowStack) : Except Fault Nat :=
  return (← s.base.diff s.sp) / Size.wordBytes

/-- The addresses of the words on the stack, which a collection scans. -/
def slots (s : ShadowStack) : AddressRange :=
  ⟨s.sp, s.base⟩

/-- Pushes a word, unless the stack is full. -/
def push (s : ShadowStack) (m : Memory) (w : Word) :
    Except Fault (Except AllocationError (RootSlot × ShadowStack × Memory)) := do
  if s.sp < (← s.limit.add Size.wordBytes) then return .error .stackOverflow
  else
    let sp ← s.sp.sub Size.wordBytes
    let m ← m.store sp w
    return .ok (⟨sp⟩, { s with sp }, m)

def pop (s : ShadowStack) (m : Memory) : Except Fault (Word × ShadowStack) := do
  if s.sp < s.base then
    let w ← m.load s.sp
    return (w, { s with sp := ← s.sp.add Size.wordBytes })
  else throw .emptyStack

/-- Is the slot among those pushed and not yet popped? -/
def Holds (s : ShadowStack) (slot : RootSlot) : Prop :=
  s.slots.Contains slot.address

instance (s : ShadowStack) (slot : RootSlot) : Decidable (s.Holds slot) :=
  inferInstanceAs (Decidable (s.slots.Contains slot.address))

def load (s : ShadowStack) (m : Memory) (slot : RootSlot) : Except Fault Word :=
  if s.Holds slot then m.load slot.address else .error (.slotOffStack slot.address)

def store (s : ShadowStack) (m : Memory) (slot : RootSlot) (w : Word) : Except Fault Memory :=
  if s.Holds slot then m.store slot.address w else .error (.slotOffStack slot.address)

def mark (s : ShadowStack) : StackMark :=
  StackMark.mk s.sp

/-- Pops every word pushed since the mark was taken. -/
def reset (s : ShadowStack) (mark : StackMark) : Except Fault ShadowStack :=
  if s.sp ≤ mark.address ∧ mark.address ≤ s.base then .ok { s with sp := mark.address }
  else .error (.markAboveFrame mark.address s.sp)

/-- The words on the stack, the last one pushed first. -/
def words (s : ShadowStack) (m : Memory) : Except Fault (List Word) :=
  m.loadWords s.sp (s.sp.wordsBetween s.base)

theorem reset_eq_ok_iff {s t : ShadowStack} {k : StackMark} :
    s.reset k = .ok t ↔ (s.sp ≤ k.address ∧ k.address ≤ s.base) ∧ t = { s with sp := k.address } := by
  unfold reset
  split <;> simp_all [eq_comm]

end ShadowStack

end CopyingHeap
