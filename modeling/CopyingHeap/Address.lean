/-!
Addresses of a 32-bit linear memory. An address is a byte offset; memory starts at address zero.
This module holds the type, its order and its text. Arithmetic, which can overflow, is in
`CopyingHeap.Address.Arithmetic`.
-/

namespace CopyingHeap

/-- The unit of memory. Tagged values, headers and stack slots are all words. -/
abbrev Word := UInt32

/-- A byte offset into linear memory. -/
structure Address where
  word : Word
  deriving DecidableEq

/-- The digits of a number in base sixteen, in lower case. -/
def hexDigits (n : Nat) : String :=
  String.ofList (Nat.toDigits 16 n)

def hexText (n : Nat) : String :=
  "0x" ++ hexDigits n

namespace Address

def toNat (a : Address) : Nat :=
  a.word.toNat

/-- The address of the low 32 bits of `n`. -/
def ofNat (n : Nat) : Address :=
  ⟨UInt32.ofNat n⟩

def zero : Address :=
  ⟨0⟩

def highest : Address :=
  ⟨0xFFFFFFFF⟩

instance : LT Address :=
  ⟨fun a b => a.toNat < b.toNat⟩

instance : LE Address :=
  ⟨fun a b => a.toNat ≤ b.toNat⟩

instance (a b : Address) : Decidable (a < b) :=
  inferInstanceAs (Decidable (a.toNat < b.toNat))

instance (a b : Address) : Decidable (a ≤ b) :=
  inferInstanceAs (Decidable (a.toNat ≤ b.toNat))

instance : Max Address :=
  ⟨fun a b => if a ≤ b then b else a⟩

instance : ToString Address :=
  ⟨fun a => hexText a.toNat⟩

theorem toNat_lt (a : Address) : a.toNat < 0x100000000 :=
  UInt32.toNat_lt a.word

@[simp] theorem toNat_ofNat (n : Nat) : (ofNat n).toNat = n % 0x100000000 := by
  simp [ofNat, toNat]

theorem toNat_ofNat_of_lt {n : Nat} (h : n < 0x100000000) : (ofNat n).toNat = n := by
  rw [toNat_ofNat, Nat.mod_eq_of_lt h]

@[ext] theorem ext_toNat {a b : Address} (h : a.toNat = b.toNat) : a = b := by
  cases a
  cases b
  exact congrArg mk (UInt32.toNat_inj.mp h)

theorem toNat_inj {a b : Address} : a.toNat = b.toNat ↔ a = b :=
  ⟨ext_toNat, fun h => h ▸ rfl⟩

@[simp] theorem ofNat_toNat (a : Address) : ofNat a.toNat = a := by
  apply ext_toNat
  rw [toNat_ofNat, Nat.mod_eq_of_lt a.toNat_lt]

theorem lt_iff {a b : Address} : a < b ↔ a.toNat < b.toNat :=
  Iff.rfl

theorem le_iff {a b : Address} : a ≤ b ↔ a.toNat ≤ b.toNat :=
  Iff.rfl

theorem toNat_max (a b : Address) : (max a b).toNat = max a.toNat b.toNat := by
  show (if a ≤ b then b else a).toNat = _
  split <;> rename_i h <;> rw [le_iff] at h <;> omega

end Address

/-- The addresses from `start` up to, and not including, `stop`. -/
structure AddressRange where
  start : Address
  stop : Address
  deriving DecidableEq

namespace AddressRange

def Contains (r : AddressRange) (a : Address) : Prop :=
  r.start ≤ a ∧ a < r.stop

instance (r : AddressRange) (a : Address) : Decidable (r.Contains a) :=
  inferInstanceAs (Decidable (_ ∧ _))

end AddressRange

end CopyingHeap
