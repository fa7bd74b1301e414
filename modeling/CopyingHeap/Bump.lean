import CopyingHeap.Address.Arithmetic

/-!
Bump allocation in one region: a cursor that moves up to a limit. The program allocates through one
bump, a collection copies through another; neither knows about the other.
-/

namespace CopyingHeap

/-- The free part of a region. -/
structure Bump where
  cursor : Address
  limit : Address
  deriving DecidableEq

namespace Bump

def empty : Bump :=
  ⟨Address.zero, Address.zero⟩

def spanning (cursor limit : Address) : Except Fault Bump :=
  if cursor ≤ limit then .ok ⟨cursor, limit⟩ else .error (.cursorPastLimit cursor limit)

/-- Moves the limit and keeps the cursor. -/
def moveLimit (b : Bump) (limit : Address) : Except Fault Bump :=
  spanning b.cursor limit

def remaining (b : Bump) : Except Fault Nat :=
  b.limit.diff b.cursor

/-- Takes `bytes` bytes at the cursor, if they fit below the limit. -/
def alloc (b : Bump) (bytes : Nat) : Option (Address × Bump) :=
  match b.cursor.add? bytes with
  | some past => if past ≤ b.limit then some (b.cursor, { b with cursor := past }) else none
  | none => none

theorem spanning_eq_ok_iff {cursor limit : Address} {b : Bump} :
    spanning cursor limit = .ok b ↔ cursor ≤ limit ∧ b = ⟨cursor, limit⟩ := by
  unfold spanning
  split <;> simp_all [eq_comm]

theorem alloc_eq_some_iff {b c : Bump} {bytes : Nat} {a : Address} :
    b.alloc bytes = some (a, c) ↔ a = b.cursor ∧ c.limit = b.limit ∧
      c.cursor.toNat = b.cursor.toNat + bytes ∧ c.cursor ≤ b.limit := by
  unfold alloc
  cases h : b.cursor.add? bytes with
  | none =>
    rw [Address.add?_eq_none_iff] at h
    have hc := c.cursor.toNat_lt
    simp only [reduceCtorEq, false_iff]
    omega
  | some past =>
    rw [Address.add?_eq_some_iff] at h
    by_cases hp : past ≤ b.limit
    · simp only [hp, if_true, Option.some.injEq, Prod.mk.injEq]
      constructor
      · rintro ⟨rfl, rfl⟩
        exact ⟨rfl, rfl, h, hp⟩
      · rintro ⟨rfl, hl, hc, -⟩
        have he : past = c.cursor := Address.ext_toNat (by omega)
        cases c
        cases hl
        cases he
        exact ⟨rfl, rfl⟩
    · simp only [hp, if_false, reduceCtorEq, false_iff]
      rintro ⟨-, -, hc, hl⟩
      have he : past = c.cursor := Address.ext_toNat (by omega)
      exact hp (he ▸ hl)

/-- Allocation fails exactly when the request does not fit below the limit. -/
theorem alloc_eq_none_iff {b : Bump} {bytes : Nat} :
    b.alloc bytes = none ↔ b.limit.toNat < b.cursor.toNat + bytes := by
  unfold alloc
  have hl := b.limit.toNat_lt
  cases h : b.cursor.add? bytes with
  | none =>
    rw [Address.add?_eq_none_iff] at h
    simp only [true_iff]
    omega
  | some past =>
    rw [Address.add?_eq_some_iff] at h
    by_cases hp : past ≤ b.limit
    · simp only [hp, if_true, reduceCtorEq, false_iff]
      rw [Address.le_iff] at hp
      omega
    · simp only [hp, if_false, true_iff]
      rw [Address.le_iff] at hp
      omega

end Bump

end CopyingHeap
