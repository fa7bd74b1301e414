import CopyingHeap.Memory.Basic

/-!
The byte view of a memory. Words are little-endian: byte `k` of a word has weight `256 ^ k`. Bytes
are read and written at any address; only the range is checked.
-/

namespace CopyingHeap

namespace Memory

def byteWeight : Nat → Nat
  | 0 => 1
  | 1 => 0x100
  | 2 => 0x10000
  | _ => 0x1000000

/-- Byte `k` of a word, the lowest one first. -/
def byteOf (w : Word) (k : Nat) : UInt8 :=
  UInt8.ofNat (w.toNat / byteWeight k)

def withByte (w : Word) (k : Nat) (b : UInt8) : Word :=
  UInt32.ofNat (w.toNat - (byteOf w k).toNat * byteWeight k + b.toNat * byteWeight k)

def byteAt (words : Array Word) (i : Nat) : UInt8 :=
  byteOf (words.getD (i / 4) 0) (i % 4)

def setByte (words : Array Word) (i : Nat) (b : UInt8) : Array Word :=
  words.modify (i / 4) fun w => withByte w (i % 4) b

def setBytes (words : Array Word) (i : Nat) : List UInt8 → Array Word
  | [] => words
  | b :: bs => setBytes (setByte words i b) (i + 1) bs

/-- Do `count` bytes from `start` lie in memory? The end must be a count of 64 bits. -/
def checkBytes (m : Memory) (start : Address) (count : Nat) : Except Fault Unit := do
  let past ← Size.add start.toNat count
  if past ≤ m.bytes then return () else throw .outOfBounds

def readBytes (m : Memory) (start : Address) (count : Nat) : Except Fault (List UInt8) := do
  m.checkBytes start count
  return (List.range' start.toNat count).map (byteAt m.words)

def writeBytes (m : Memory) (start : Address) (bs : List UInt8) : Except Fault Memory := do
  m.checkBytes start bs.length
  match m with
  | ⟨words, maxPages⟩ => return ⟨setBytes words start.toNat bs, maxPages⟩

@[simp] theorem size_setByte (words : Array Word) (i : Nat) (b : UInt8) :
    (setByte words i b).size = words.size := by
  simp [setByte]

@[simp] theorem size_setBytes (words : Array Word) (i : Nat) (bs : List UInt8) :
    (setBytes words i bs).size = words.size := by
  induction bs generalizing words i with
  | nil => rfl
  | cons b bs ih => simp [setBytes, ih]

theorem toNat_byteOf (w : Word) (k : Nat) : (byteOf w k).toNat = w.toNat / byteWeight k % 256 :=
  UInt8.toNat_ofNat'

theorem toNat_withByte (w : Word) {k : Nat} (hk : k < 4) (b : UInt8) :
    (withByte w k b).toNat =
      w.toNat - w.toNat / byteWeight k % 256 * byteWeight k + b.toNat * byteWeight k := by
  have hw := w.toNat_lt
  have hb := b.toNat_lt
  rw [withByte, toNat_byteOf, UInt32.toNat_ofNat', Nat.mod_eq_of_lt]
  rcases (by omega : k = 0 ∨ k = 1 ∨ k = 2 ∨ k = 3) with rfl | rfl | rfl | rfl <;>
    simp only [byteWeight] <;> omega

/-- Replacing a byte changes that byte and no other. -/
theorem byteOf_withByte (w : Word) {j k : Nat} (hj : j < 4) (hk : k < 4) (b : UInt8) :
    byteOf (withByte w k b) j = if j = k then b else byteOf w j := by
  have hw := w.toNat_lt
  have hb := b.toNat_lt
  apply UInt8.toNat_inj.mp
  rw [toNat_byteOf, toNat_withByte w hk]
  rcases (by omega : k = 0 ∨ k = 1 ∨ k = 2 ∨ k = 3) with rfl | rfl | rfl | rfl <;>
    rcases (by omega : j = 0 ∨ j = 1 ∨ j = 2 ∨ j = 3) with rfl | rfl | rfl | rfl <;>
      simp [toNat_byteOf, byteWeight] <;> omega

end Memory

end CopyingHeap
