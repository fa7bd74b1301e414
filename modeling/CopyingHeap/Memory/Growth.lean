import CopyingHeap.Memory.Basic

/-!
Growing a memory. New pages are zero, old words stay, and a refusal by the host changes nothing.
-/

namespace CopyingHeap

namespace Memory

/-- Lowers the maximum, which never falls below the size the memory has. -/
def limitPages (m : Memory) (maxPages : Nat) : Memory :=
  { m with maxPages := max m.pages (min maxPages m.maxPages) }

def resize (m : Memory) (pages : Nat) : Memory :=
  match m with
  | ⟨words, maxPages⟩ =>
    ⟨words ++ Array.replicate (Size.ofPages pages / Size.wordBytes - words.size) 0, maxPages⟩

/-- Adds `delta` pages, unless the host refuses. -/
def grow (m : Memory) (delta : Nat) : Except Fault (Except GrowError Memory) := do
  let requested ← Size.add m.pages delta
  if m.maxPages < requested then return .error ⟨requested, m.maxPages⟩
  else return .ok (m.resize requested)

/-- Grows the memory, if needed, until `past` is not beyond its end. -/
def ensure (m : Memory) (past : Address) : Except Fault (Except GrowError Memory) := do
  if past ≤ m.stop then return .ok m
  else m.grow ((← Size.pagesUp past.toNat) - m.pages)

theorem getElem?_resize {m : Memory} {pages i : Nat} (h : i < m.words.size) :
    (m.resize pages).words[i]? = m.words[i]? := by
  cases m
  exact Array.getElem?_append_left h

theorem size_resize (m : Memory) (pages : Nat) :
    (m.resize pages).words.size =
      max m.words.size (Size.ofPages pages / Size.wordBytes) := by
  cases m
  simp [resize]
  omega

theorem maxPages_resize (m : Memory) (pages : Nat) : (m.resize pages).maxPages = m.maxPages := by
  cases m
  rfl

/-- The words that growing adds are zero. -/
theorem getElem?_resize_new {m : Memory} {pages i : Nat} (h : m.words.size ≤ i)
    (hi : i < (m.resize pages).words.size) : (m.resize pages).words[i]? = some 0 := by
  rw [size_resize] at hi
  cases m
  simp only [resize] at *
  rw [Array.getElem?_append_right h, Array.getElem?_replicate, if_pos (by omega)]

end Memory

end CopyingHeap
