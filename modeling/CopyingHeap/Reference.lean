import CopyingHeap.Address.Arithmetic

/-!
References to objects. A reference is the address of an object's header. Objects start at words, so
the two low bits of a reference are clear; zero is the null reference.
-/

namespace CopyingHeap

/-- The address of an object's header, or null. -/
structure Reference where
  address : Address
  aligned : address.WordAligned
  deriving DecidableEq

namespace Reference

def null : Reference :=
  ⟨Address.zero, rfl⟩

def ofAddress (a : Address) : Except Fault Reference :=
  if h : a.WordAligned then .ok ⟨a, h⟩ else .error (.unalignedReference a)

def isNull (r : Reference) : Bool :=
  r.address.word == 0

/-- The word that stands for the reference in memory. -/
def word (r : Reference) : Word :=
  r.address.word

theorem ext_address {r s : Reference} (h : r.address = s.address) : r = s := by
  cases r
  cases s
  cases h
  rfl

theorem ofAddress_eq_ok_iff {a : Address} {r : Reference} :
    ofAddress a = .ok r ↔ r.address = a := by
  unfold ofAddress
  split
  · rw [Except.ok.injEq]
    exact ⟨fun h => h ▸ rfl, fun h => ext_address h.symm⟩
  · rename_i h
    simp only [reduceCtorEq, false_iff]
    exact fun ha => h (ha ▸ r.aligned)

theorem ofAddress_address (r : Reference) : ofAddress r.address = .ok r :=
  ofAddress_eq_ok_iff.mpr rfl

theorem isNull_iff {r : Reference} : r.isNull = true ↔ r = null := by
  rw [isNull, beq_iff_eq]
  exact ⟨fun h => ext_address (congrArg Address.mk h), fun h => h ▸ rfl⟩

end Reference

end CopyingHeap
