import CopyingHeap.Size

/-!
Address arithmetic. An offset counts modulo `2 ^ 32`, and a sum or difference that leaves the 32-bit
range is an overflow. The laws state each operation through `Address.toNat`.
-/

namespace CopyingHeap

namespace Address

def add (a : Address) (bytes : Nat) : Except Fault Address :=
  if a.toNat + bytes % 0x100000000 < 0x100000000 then .ok (ofNat (a.toNat + bytes % 0x100000000))
  else .error .overflow

def sub (a : Address) (bytes : Nat) : Except Fault Address :=
  if bytes % 0x100000000 ≤ a.toNat then .ok (ofNat (a.toNat - bytes % 0x100000000))
  else .error .overflow

/-- The address `bytes` above, if there is one; the offset counts in full. -/
def add? (a : Address) (bytes : Nat) : Option Address :=
  if a.toNat + bytes < 0x100000000 then some (ofNat (a.toNat + bytes)) else none

/-- The address `bytes` below, or address zero. -/
def saturatingSub (a : Address) (bytes : Nat) : Address :=
  ofNat (a.toNat - bytes % 0x100000000)

/-- The number of bytes from `low` up to `high`. -/
def diff (high low : Address) : Except Fault Nat :=
  if low ≤ high then .ok (high.toNat - low.toNat) else .error (.addressOrder high low)

def alignUp (a : Address) (align : Nat) : Address :=
  ofNat (Size.alignUp a.toNat align)

def alignDown (a : Address) (align : Nat) : Address :=
  ofNat (Size.alignDown a.toNat align)

def isAlignedTo (a : Address) (align : Nat) : Bool :=
  Size.isAligned a.toNat align

/-- Does a word start here? -/
def WordAligned (a : Address) : Prop :=
  a.toNat % 4 = 0

instance (a : Address) : Decidable a.WordAligned :=
  inferInstanceAs (Decidable (a.toNat % 4 = 0))

/-- The number of words that start in the range from `start` to `stop`, the first one at `start`. -/
def wordsBetween (start stop : Address) : Nat :=
  (stop.toNat - start.toNat + 3) / 4

theorem add_eq_ok_iff {a b : Address} {n : Nat} :
    a.add n = .ok b ↔ b.toNat = a.toNat + n % 0x100000000 := by
  have hb := b.toNat_lt
  unfold add
  split
  · rename_i h
    rw [Except.ok.injEq, ← toNat_inj, toNat_ofNat_of_lt h]
    exact eq_comm
  · simp only [reduceCtorEq, false_iff]
    omega

/-- An offset that stays below the end of the address space can be added. -/
theorem exists_add {a : Address} {n : Nat} (h : a.toNat + n < 0x100000000) :
    ∃ b, a.add n = .ok b ∧ b.toNat = a.toNat + n := by
  have hb := toNat_ofNat_of_lt h
  exact ⟨_, add_eq_ok_iff.mpr (by omega), hb⟩

theorem lt_of_add {a b : Address} {n : Nat} (h : a.add n = .ok b) (hn : 0 < n % 0x100000000) :
    a.toNat < b.toNat := by
  rw [add_eq_ok_iff.mp h]
  omega

theorem add_eq_error_iff {a : Address} {n : Nat} {f : Fault} :
    a.add n = .error f ↔ 0x100000000 ≤ a.toNat + n % 0x100000000 ∧ f = .overflow := by
  unfold add
  split
  · rename_i h
    exact ⟨fun he => (nomatch he), fun he => absurd h (Nat.not_lt.mpr he.1)⟩
  · rename_i h
    rw [Except.error.injEq]
    exact ⟨fun he => ⟨Nat.not_lt.mp h, he.symm⟩, fun he => he.2.symm⟩

theorem sub_eq_ok_iff {a b : Address} {n : Nat} :
    a.sub n = .ok b ↔ a.toNat = b.toNat + n % 0x100000000 := by
  have ha := a.toNat_lt
  unfold sub
  split
  · rw [Except.ok.injEq, ← toNat_inj, toNat_ofNat_of_lt (by omega)]
    omega
  · simp only [reduceCtorEq, false_iff]
    omega

theorem exists_sub {a : Address} {n : Nat} (h : n ≤ a.toNat) :
    ∃ b, a.sub n = .ok b ∧ b.toNat = a.toNat - n := by
  have ha := a.toNat_lt
  have hb := toNat_ofNat_of_lt (n := a.toNat - n) (by omega)
  exact ⟨_, sub_eq_ok_iff.mpr (by omega), hb⟩

theorem add?_eq_some_iff {a b : Address} {n : Nat} :
    a.add? n = some b ↔ b.toNat = a.toNat + n := by
  have hb := b.toNat_lt
  unfold add?
  split
  · rename_i h
    rw [Option.some.injEq, ← toNat_inj, toNat_ofNat_of_lt h]
    exact eq_comm
  · simp only [reduceCtorEq, false_iff]
    omega

theorem add?_eq_none_iff {a : Address} {n : Nat} :
    a.add? n = none ↔ 0x100000000 ≤ a.toNat + n := by
  unfold add?
  split <;> simp_all

theorem toNat_saturatingSub (a : Address) (n : Nat) :
    (a.saturatingSub n).toNat = a.toNat - n % 0x100000000 := by
  have ha := a.toNat_lt
  rw [saturatingSub, toNat_ofNat_of_lt (by omega)]

theorem diff_eq_ok_iff {a b : Address} {n : Nat} :
    a.diff b = .ok n ↔ a.toNat = b.toNat + n := by
  unfold diff
  split <;> rename_i h <;> rw [le_iff] at h <;> simp <;> omega

theorem toNat_alignDown_four (a : Address) : (a.alignDown 4).toNat = a.toNat / 4 * 4 := by
  have ha := a.toNat_lt
  rw [alignDown, toNat_ofNat, Size.alignDown_four (by omega)]
  omega

theorem toNat_alignUp_four (a : Address) :
    (a.alignUp 4).toNat = (a.toNat + 3) / 4 * 4 % 0x100000000 := by
  have ha := a.toNat_lt
  rw [alignUp, toNat_ofNat, Size.alignUp_four (by omega)]

theorem isAlignedTo_four_iff {a : Address} : a.isAlignedTo 4 = true ↔ a.WordAligned :=
  Size.isAligned_four

end Address

end CopyingHeap
