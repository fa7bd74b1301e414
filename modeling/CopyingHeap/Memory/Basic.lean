import CopyingHeap.Address.Arithmetic

/-!
Linear memory: words from address zero, whole pages of them, and a maximum size. This module holds
the type, its size, and single words. A word access checks its alignment first and its range second;
`load_eq_ok_iff` and the lemmas on `store` say exactly when one succeeds and what it does.
-/

namespace CopyingHeap

/-- A word-backed memory that may grow up to a maximum number of pages. -/
structure Memory where
  words : Array Word
  maxPages : Nat
  deriving DecidableEq

namespace Memory

/-- A zeroed memory. No maximum is above the one that addresses allow. -/
def ofPages (pages maxPages : Nat) : Except Fault Memory :=
  let maximum := min maxPages Size.maxPages
  if pages ≤ maximum then
    .ok ⟨Array.replicate (Size.ofPages pages / Size.wordBytes) 0, maximum⟩
  else .error (.initialSize pages maximum)

def bytes (m : Memory) : Nat :=
  Size.ofWords m.words.size

def pages (m : Memory) : Nat :=
  m.bytes / Size.pageBytes

def details (m : Memory) : String :=
  s!"LinearMemory \x7b pages: {m.pages}, max_pages: {m.maxPages} \x7d"

def stop (m : Memory) : Address :=
  Address.ofNat m.bytes

/-- Do the `bytes` bytes from `start` lie in memory? -/
def containsRange (m : Memory) (start : Address) (bytes : Nat) : Bool :=
  match start.add? bytes with
  | some past => decide (past ≤ m.stop)
  | none => false

def wordIndex (a : Address) : Except Fault Nat :=
  if a.WordAligned then .ok (a.toNat / 4) else .error (.unalignedWord a)

def load (m : Memory) (a : Address) : Except Fault Word := do
  let i ← wordIndex a
  match m.words[i]? with
  | some w => return w
  | none => throw .outOfBounds

def store (m : Memory) (a : Address) (w : Word) : Except Fault Memory := do
  let i ← wordIndex a
  match m with
  | ⟨words, maxPages⟩ =>
    if h : i < words.size then return ⟨words.set i w h, maxPages⟩
    else throw .outOfBounds

def loadAddress (m : Memory) (a : Address) : Except Fault Address :=
  return ⟨← m.load a⟩

def loadWords (m : Memory) (a : Address) : Nat → Except Fault (List Word)
  | 0 => .ok []
  | count + 1 => do
    let w ← m.load a
    return w :: (← m.loadWords (Address.ofNat (a.toNat + 4)) count)

theorem load_eq (m : Memory) {a : Address} (h : a.WordAligned) :
    m.load a = match m.words[a.toNat / 4]? with
      | some w => .ok w
      | none => .error .outOfBounds := by
  simp only [load, wordIndex, if_pos h]
  rfl

theorem load_eq_ok_iff {m : Memory} {a : Address} {w : Word} :
    m.load a = .ok w ↔ a.WordAligned ∧ m.words[a.toNat / 4]? = some w := by
  by_cases h : a.WordAligned
  · rw [load_eq m h]
    cases m.words[a.toNat / 4]? <;> simp [h]
  · simp only [load, wordIndex, h, false_and, iff_false]
    exact fun hf => nomatch hf

theorem store_eq (m : Memory) {a : Address} (w : Word) (h : a.WordAligned) :
    m.store a w = if a.toNat / 4 < m.words.size
      then .ok ⟨m.words.setIfInBounds (a.toNat / 4) w, m.maxPages⟩
      else .error .outOfBounds := by
  simp only [store, wordIndex, if_pos h, Array.setIfInBounds]
  by_cases hi : a.toNat / 4 < m.words.size
  · rw [if_pos hi, dif_pos hi]
    exact dif_pos hi
  · rw [if_neg hi]
    exact dif_neg hi

theorem store_eq_ok_iff {m n : Memory} {a : Address} {w : Word} :
    m.store a w = .ok n ↔ a.WordAligned ∧ a.toNat / 4 < m.words.size ∧
      n = ⟨m.words.setIfInBounds (a.toNat / 4) w, m.maxPages⟩ := by
  by_cases h : a.WordAligned
  · rw [store_eq m w h]
    by_cases hi : a.toNat / 4 < m.words.size
    · simp [h, hi, eq_comm]
    · simp [hi]
  · simp only [store, wordIndex, h, false_and, iff_false]
    exact fun hf => nomatch hf

theorem size_store {m n : Memory} {a : Address} {w : Word} (h : m.store a w = .ok n) :
    n.words.size = m.words.size := by
  obtain ⟨_, _, rfl⟩ := store_eq_ok_iff.mp h
  simp

theorem maxPages_store {m n : Memory} {a : Address} {w : Word} (h : m.store a w = .ok n) :
    n.maxPages = m.maxPages := by
  obtain ⟨_, _, rfl⟩ := store_eq_ok_iff.mp h
  rfl

/-- A store changes the word at its address and no other. -/
theorem getElem?_store {m n : Memory} {a : Address} {w : Word} (h : m.store a w = .ok n) (i : Nat) :
    n.words[i]? = if i = a.toNat / 4 then some w else m.words[i]? := by
  obtain ⟨_, hlt, rfl⟩ := store_eq_ok_iff.mp h
  by_cases hi : i = a.toNat / 4
  · subst hi
    simp [hlt]
  · rw [if_neg hi, Array.getElem?_setIfInBounds_ne (fun he => hi he.symm)]

end Memory

end CopyingHeap
