import CopyingHeap.Address.Arithmetic

/-!
Start bits: one bit for each word of memory, set where an object or a block starts. The bits are
kept in cells of 64, and a bitmap covers whole cells. `isSet` is the view of the bitmap; the lemmas
say what each operation does to it.
-/

namespace CopyingHeap

/-- A bitmap over the words of memory, in cells of 64 bits. -/
structure StartBits where
  cells : Array (BitVec 64)
  deriving DecidableEq

namespace StartBits

def cellBytes : Nat :=
  256

def cellIndex (a : Address) : Nat :=
  a.toNat / 256

/-- The place, in its cell, of the bit of the word at an address. -/
def bitIndex (a : Address) : Nat :=
  a.toNat / 4 % 64

def cellCount (bytes : Nat) : Except Fault Nat :=
  return ((← Size.add (Size.alignUp bytes Size.wordBytes / Size.wordBytes) 64) - 1) / 64

def extend (b : StartBits) (count : Nat) : StartBits :=
  match b with
  | ⟨cells⟩ => ⟨cells ++ Array.replicate (count - cells.size) 0⟩

/-- Extends the bitmap by clear bits until it covers the first `bytes` bytes of memory. -/
def ensureCovers (b : StartBits) (bytes : Nat) : Except Fault StartBits :=
  return b.extend (← cellCount bytes)

def covering (bytes : Nat) : Except Fault StartBits :=
  ensureCovers ⟨#[]⟩ bytes

/-- Is the bit of the word at `a` set? No bit is set inside a word or outside the bitmap. -/
def isSet (b : StartBits) (a : Address) : Bool :=
  decide a.WordAligned && (b.cells.getD (cellIndex a) 0).getLsbD (bitIndex a)

def checkAligned (a : Address) : Except Fault Unit :=
  if a.WordAligned then .ok () else .error (.unalignedStart a)

/-- Changes the cell at `i`, which must be in the bitmap. -/
def updateCell (b : StartBits) (i : Nat) (f : BitVec 64 → BitVec 64) : Except Fault StartBits :=
  match b with
  | ⟨cells⟩ => if i < cells.size then .ok ⟨cells.modify i f⟩ else .error .outOfBounds

def set (b : StartBits) (a : Address) : Except Fault StartBits := do
  checkAligned a
  b.updateCell (cellIndex a) (· ||| BitVec.twoPow 64 (bitIndex a))

def clear (b : StartBits) (a : Address) : Except Fault StartBits := do
  checkAligned a
  b.updateCell (cellIndex a) (· &&& ~~~ BitVec.twoPow 64 (bitIndex a))

/-- Clears the bits from `start` up to `stop`, a whole cell at a time where one lies in the range. -/
def clearRange (b : StartBits) (start stop : Address) : Except Fault StartBits :=
  if _h : start < stop then do
    checkAligned start
    let cellStart := Address.ofNat (cellIndex start * cellBytes)
    match _hc : cellStart.add cellBytes with
    | .error fault => throw fault
    | .ok cellStop =>
      if _hw : start = cellStart ∧ cellStop ≤ stop then
        let b ← b.updateCell (cellIndex start) fun _ => 0
        clearRange b cellStop stop
      else
        let b ← b.clear start
        match _hn : start.add Size.wordBytes with
        | .error fault => throw fault
        | .ok next => clearRange b next stop
  else .ok b
termination_by stop.toNat - start.toNat
decreasing_by
  · have hlt := Address.lt_of_add _hc (by decide)
    rw [Address.lt_iff] at _h
    rw [← _hw.1] at hlt
    omega
  · have hlt := Address.lt_of_add _hn (by decide)
    rw [Address.lt_iff] at _h
    omega

/-- The addresses of the set bits whose words lie wholly in the range, in increasing order. -/
def setBetween (b : StartBits) (start stop : Address) : List Address :=
  let first := (start.alignUp Size.wordBytes).toNat / 4
  let last := min (stop.toNat / 4) (64 * b.cells.size)
  ((List.range' first (last - first)).map fun word => Address.ofNat (4 * word)).filter b.isSet

theorem bitIndex_lt (a : Address) : bitIndex a < 64 :=
  Nat.mod_lt _ (by decide)

theorem checkAligned_eq_ok_iff {a : Address} {u : Unit} :
    checkAligned a = .ok u ↔ a.WordAligned := by
  unfold checkAligned
  split <;> simp_all

theorem updateCell_eq_ok_iff {b c : StartBits} {i : Nat} {f : BitVec 64 → BitVec 64} :
    b.updateCell i f = .ok c ↔ i < b.cells.size ∧ c = ⟨b.cells.modify i f⟩ := by
  cases b with
  | mk cells =>
    by_cases h : i < cells.size
    · simp [updateCell, h, eq_comm]
    · simp [updateCell, h]

theorem cell_updateCell {b c : StartBits} {i : Nat} {f : BitVec 64 → BitVec 64}
    (h : b.updateCell i f = .ok c) (j : Nat) :
    c.cells.getD j 0 = if j = i then f (b.cells.getD j 0) else b.cells.getD j 0 := by
  obtain ⟨hi, rfl⟩ := updateCell_eq_ok_iff.mp h
  rw [Array.getD_eq_getD_getElem?, Array.getD_eq_getD_getElem?, Array.getElem?_modify]
  by_cases hj : j = i
  · subst hj
    simp [hi]
  · rw [if_neg (fun he => hj he.symm), if_neg hj]

/-- An aligned address is named by its cell and its bit. -/
theorem eq_of_indices {a c : Address} (ha : a.WordAligned) (hc : c.WordAligned)
    (hcell : cellIndex a = cellIndex c) (hbit : bitIndex a = bitIndex c) : a = c := by
  apply Address.ext_toNat
  unfold cellIndex at hcell
  unfold bitIndex at hbit
  unfold Address.WordAligned at ha hc
  omega

theorem isSet_eq_true_iff {b : StartBits} {a : Address} :
    b.isSet a = true ↔
      a.WordAligned ∧ (b.cells.getD (cellIndex a) 0).getLsbD (bitIndex a) = true := by
  simp [isSet]

theorem getLsbD_or_twoPow (w : BitVec 64) {k : Nat} (hk : k < 64) (j : Nat) :
    (w ||| BitVec.twoPow 64 k).getLsbD j = (w.getLsbD j || decide (j = k)) := by
  rw [BitVec.getLsbD_or, BitVec.getLsbD_twoPow]
  simp [hk, eq_comm]

theorem getLsbD_and_not_twoPow (w : BitVec 64) {j k : Nat} (hj : j < 64) (hk : k < 64) :
    (w &&& ~~~ BitVec.twoPow 64 k).getLsbD j = (w.getLsbD j && decide (j ≠ k)) := by
  rw [BitVec.getLsbD_and, BitVec.getLsbD_not, BitVec.getLsbD_twoPow]
  by_cases h : k = j
  · simp [h]
  · have hne : j ≠ k := fun he => h he.symm
    simp [hj, hk, h, hne]

theorem isSet_extend (b : StartBits) (count : Nat) (a : Address) :
    (b.extend count).isSet a = b.isSet a := by
  cases b with
  | mk cells =>
    simp only [isSet, extend, Array.getD_eq_getD_getElem?, Array.getElem?_append]
    split
    · rfl
    · rename_i hlt
      rw [Array.getElem?_eq_none (by omega : cells.size ≤ cellIndex a), Array.getElem?_replicate]
      split <;> rfl

/-- Covering more memory sets and clears nothing. -/
theorem isSet_ensureCovers {b c : StartBits} {bytes : Nat} (h : b.ensureCovers bytes = .ok c)
    (a : Address) : c.isSet a = b.isSet a := by
  unfold ensureCovers at h
  cases hs : cellCount bytes with
  | error f =>
    rw [hs] at h
    nomatch h
  | ok n =>
    rw [hs] at h
    injection h with h
    exact h ▸ isSet_extend b n a

theorem isSet_set {b c : StartBits} {a : Address} (h : b.set a = .ok c) (x : Address) :
    c.isSet x = (b.isSet x || decide (x = a)) := by
  unfold set at h
  cases ha : checkAligned a with
  | error f =>
    rw [ha] at h
    nomatch h
  | ok u =>
    rw [ha] at h
    replace ha := checkAligned_eq_ok_iff.mp ha
    rw [isSet, isSet, cell_updateCell h]
    by_cases hx : x.WordAligned
    · by_cases hc : cellIndex x = cellIndex a
      · have hxa : x = a ↔ bitIndex x = bitIndex a :=
          ⟨fun he => he ▸ rfl, fun hb => eq_of_indices hx ha hc hb⟩
        rw [if_pos hc, getLsbD_or_twoPow _ (bitIndex_lt a), decide_eq_true hx,
          decide_eq_decide.mpr hxa, Bool.true_and, Bool.true_and]
      · have hxa : x ≠ a := fun he => hc (he ▸ rfl)
        rw [if_neg hc, decide_eq_false hxa, Bool.or_false]
    · have hxa : x ≠ a := fun he => hx (he ▸ ha)
      simp [hx, hxa]

theorem isSet_clear {b c : StartBits} {a : Address} (h : b.clear a = .ok c) (x : Address) :
    c.isSet x = (b.isSet x && decide (x ≠ a)) := by
  unfold clear at h
  cases ha : checkAligned a with
  | error f =>
    rw [ha] at h
    nomatch h
  | ok u =>
    rw [ha] at h
    replace ha := checkAligned_eq_ok_iff.mp ha
    rw [isSet, isSet, cell_updateCell h]
    by_cases hx : x.WordAligned
    · by_cases hc : cellIndex x = cellIndex a
      · have hxa : x ≠ a ↔ bitIndex x ≠ bitIndex a :=
          ⟨fun hne hb => hne (eq_of_indices hx ha hc hb), fun hb he => hb (he ▸ rfl)⟩
        rw [if_pos hc, getLsbD_and_not_twoPow _ (bitIndex_lt x) (bitIndex_lt a),
          decide_eq_true hx, decide_eq_decide.mpr hxa, Bool.true_and, Bool.true_and]
      · have hxa : x ≠ a := fun he => hc (he ▸ rfl)
        rw [if_neg hc, decide_eq_true hxa, Bool.and_true]
    · simp [hx]

end StartBits

end CopyingHeap
