import CopyingHeap.Memory.Basic

/-!
Blocks of words: copying, where the two blocks may overlap, and filling. Byte counts must be whole
words. The lemmas on `overwrite` and `fillWords` say word by word what the result holds.
-/

namespace CopyingHeap

namespace Memory

def overwrite (words : Array Word) (i : Nat) : List Word → Array Word
  | [] => words
  | w :: block => overwrite (words.setIfInBounds i w) (i + 1) block

def fillWords (words : Array Word) (w : Word) (i : Nat) : Nat → Array Word
  | 0 => words
  | count + 1 => fillWords (words.setIfInBounds i w) w (i + 1) count

def block (words : Array Word) (i count : Nat) : List Word :=
  (words.extract i (i + count)).toList

/-- Copies `bytes` bytes from `source` to `target`, as if through a third place. -/
def copy (m : Memory) (source target : Address) (bytes : Nat) : Except Fault Memory := do
  let count ← Size.toWords bytes
  let i ← wordIndex source
  let j ← wordIndex target
  match m with
  | ⟨words, maxPages⟩ =>
    if i + count ≤ words.size ∧ j + count ≤ words.size then
      let moved := block words i count
      return ⟨overwrite words j moved, maxPages⟩
    else throw .outOfBounds

def fill (m : Memory) (start : Address) (bytes : Nat) (w : Word) : Except Fault Memory := do
  let count ← Size.toWords bytes
  let i ← wordIndex start
  match m with
  | ⟨words, maxPages⟩ =>
    if i + count ≤ words.size then return ⟨fillWords words w i count, maxPages⟩
    else throw .outOfBounds

def zero (m : Memory) (start : Address) (bytes : Nat) : Except Fault Memory :=
  m.fill start bytes 0

@[simp] theorem size_overwrite (words : Array Word) (i : Nat) (b : List Word) :
    (overwrite words i b).size = words.size := by
  induction b generalizing words i with
  | nil => rfl
  | cons w b ih => simp [overwrite, ih]

@[simp] theorem size_fillWords (words : Array Word) (w : Word) (i count : Nat) :
    (fillWords words w i count).size = words.size := by
  induction count generalizing words i with
  | zero => rfl
  | succ count ih => simp [fillWords, ih]

theorem getElem?_overwrite (words : Array Word) (i : Nat) (b : List Word)
    (h : i + b.length ≤ words.size) (k : Nat) :
    (overwrite words i b)[k]? =
      if i ≤ k ∧ k < i + b.length then b[k - i]? else words[k]? := by
  induction b generalizing words i with
  | nil =>
    rw [if_neg (by simp)]
    rfl
  | cons w b ih =>
    rw [List.length_cons] at h
    rw [overwrite, ih _ _ (by rw [Array.size_setIfInBounds]; omega), List.length_cons]
    by_cases hk : i + 1 ≤ k ∧ k < i + 1 + b.length
    · have hsucc : k - i = k - (i + 1) + 1 := by omega
      rw [if_pos hk, if_pos (by omega), hsucc, List.getElem?_cons_succ]
    · rw [if_neg hk]
      by_cases he : k = i
      · subst he
        rw [if_pos (by omega), Nat.sub_self, List.getElem?_cons_zero,
          Array.getElem?_setIfInBounds_self_of_lt (by omega)]
      · rw [if_neg (by omega), Array.getElem?_setIfInBounds_ne (fun hi => he hi.symm)]

theorem getElem?_fillWords (words : Array Word) (w : Word) (i count : Nat)
    (h : i + count ≤ words.size) (k : Nat) :
    (fillWords words w i count)[k]? =
      if i ≤ k ∧ k < i + count then some w else words[k]? := by
  induction count generalizing words i with
  | zero =>
    rw [if_neg (by omega)]
    rfl
  | succ count ih =>
    rw [fillWords, ih _ _ (by rw [Array.size_setIfInBounds]; omega)]
    by_cases hk : i + 1 ≤ k ∧ k < i + 1 + count
    · rw [if_pos hk, if_pos (by omega)]
    · rw [if_neg hk]
      by_cases he : k = i
      · subst he
        rw [if_pos (by omega), Array.getElem?_setIfInBounds_self_of_lt (by omega)]
      · rw [if_neg (by omega), Array.getElem?_setIfInBounds_ne (fun hi => he hi.symm)]

theorem length_block {words : Array Word} {i count : Nat} (h : i + count ≤ words.size) :
    (block words i count).length = count := by
  simp [block]
  omega

theorem getElem?_block {words : Array Word} {i count k : Nat} (hk : k < count) :
    (block words i count)[k]? = words[i + k]? := by
  rw [block, Array.getElem?_toList, Array.getElem?_extract]
  by_cases h : i + k < words.size
  · rw [if_pos (by omega)]
  · rw [if_neg (by omega), Array.getElem?_eq_none (by omega)]

theorem fill_eq_ok_iff {m n : Memory} {a : Address} {bytes : Nat} {w : Word} :
    m.fill a bytes w = .ok n ↔ bytes % 4 = 0 ∧ a.WordAligned ∧
      a.toNat / 4 + bytes / 4 ≤ m.words.size ∧
      n = ⟨fillWords m.words w (a.toNat / 4) (bytes / 4), m.maxPages⟩ := by
  simp only [fill, Size.toWords, Size.wordBytes, wordIndex, bind, Except.bind, pure, Except.pure,
    throw, throwThe, MonadExceptOf.throw]
  by_cases hb : bytes % 4 = 0
  · by_cases ha : a.WordAligned
    · by_cases hs : a.toNat / 4 + bytes / 4 ≤ m.words.size
      · simp [hb, ha, hs, eq_comm]
      · simp [hb, ha, hs]
    · simp [hb, ha]
  · simp [hb]

theorem copy_eq_ok_iff {m n : Memory} {a b : Address} {bytes : Nat} :
    m.copy a b bytes = .ok n ↔ bytes % 4 = 0 ∧ a.WordAligned ∧ b.WordAligned ∧
      a.toNat / 4 + bytes / 4 ≤ m.words.size ∧ b.toNat / 4 + bytes / 4 ≤ m.words.size ∧
      n = ⟨overwrite m.words (b.toNat / 4) (block m.words (a.toNat / 4) (bytes / 4)),
        m.maxPages⟩ := by
  simp only [copy, Size.toWords, Size.wordBytes, wordIndex, bind, Except.bind, pure, Except.pure,
    throw, throwThe, MonadExceptOf.throw]
  by_cases hb : bytes % 4 = 0
  · by_cases ha : a.WordAligned
    · by_cases hc : b.WordAligned
      · by_cases hs : a.toNat / 4 + bytes / 4 ≤ m.words.size ∧
          b.toNat / 4 + bytes / 4 ≤ m.words.size
        · simp [hb, ha, hc, hs, eq_comm]
        · simp [hb, ha, hc, hs]
          exact fun h h' => absurd ⟨h, h'⟩ hs
      · simp [hb, ha, hc]
    · simp [hb, ha]
  · simp [hb]

/-- After a fill, the filled words hold the value and all others are as before. -/
theorem getElem?_fill {m n : Memory} {a : Address} {bytes : Nat} {w : Word}
    (h : m.fill a bytes w = .ok n) (k : Nat) :
    n.words[k]? = if a.toNat / 4 ≤ k ∧ k < a.toNat / 4 + bytes / 4 then some w
      else m.words[k]? := by
  obtain ⟨_, _, hs, rfl⟩ := fill_eq_ok_iff.mp h
  exact getElem?_fillWords _ _ _ _ hs k

/-- After a copy, the target holds the words the source held before, and all others stay. -/
theorem getElem?_copy {m n : Memory} {a b : Address} {bytes : Nat}
    (h : m.copy a b bytes = .ok n) (k : Nat) :
    n.words[k]? = if b.toNat / 4 ≤ k ∧ k < b.toNat / 4 + bytes / 4
      then m.words[a.toNat / 4 + (k - b.toNat / 4)]? else m.words[k]? := by
  obtain ⟨_, _, _, ha, hb, rfl⟩ := copy_eq_ok_iff.mp h
  rw [getElem?_overwrite _ _ _ (by rw [length_block ha]; exact hb), length_block ha]
  by_cases hk : b.toNat / 4 ≤ k ∧ k < b.toNat / 4 + bytes / 4
  · rw [if_pos hk, if_pos hk, getElem?_block (by omega)]
  · rw [if_neg hk, if_neg hk]

end Memory

end CopyingHeap
