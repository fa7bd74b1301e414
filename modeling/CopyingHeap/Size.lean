import CopyingHeap.Fault

/-!
Counts of bytes, words and pages. A count has 64 bits: sums are checked, shifts drop the bits that
leave, and rounding wraps. The laws at the end give the plain arithmetic of rounding to words.
-/

namespace CopyingHeap

namespace Size

def bound : Nat :=
  0x10000000000000000

/-- The highest count, which stands for "never" in the options. -/
def highest : Nat :=
  bound - 1

def wordBytes : Nat :=
  4

def pageBytes : Nat :=
  0x10000

/-- The most pages whose end is still an address. -/
def maxPages : Nat :=
  0xFFFF

/-- The smallest object: a header and room for one word more. -/
def minObjectBytes : Nat :=
  8

/-- The bytes at the bottom of memory that never hold an object, so that zero can be null. -/
def reservedBytes : Nat :=
  8

def add (a b : Nat) : Except Fault Nat :=
  if a + b < bound then .ok (a + b) else .error .overflow

def double (a : Nat) : Except Fault Nat :=
  add a a

/-- The complement, within 64 bits, of the mask of an alignment. -/
def alignmentMask (align : Nat) : Nat :=
  highest - (align + highest) % bound

/-- Rounds up to a multiple of `align`, a power of two. -/
def alignUp (n align : Nat) : Nat :=
  (n + align + highest) % bound &&& alignmentMask align

/-- Rounds down to a multiple of `align`, a power of two. -/
def alignDown (n align : Nat) : Nat :=
  n &&& alignmentMask align

def isAligned (n align : Nat) : Bool :=
  n &&& (align + highest) % bound == 0

/-- The bytes that a request takes: whole words, and at least those of the smallest object. -/
def objectBytes (bytes : Nat) : Nat :=
  max (alignUp bytes wordBytes) minObjectBytes

def ofPages (pages : Nat) : Nat :=
  pages * pageBytes % bound

/-- The number of pages that hold `bytes` bytes. -/
def pagesUp (bytes : Nat) : Except Fault Nat :=
  return ((← add bytes pageBytes) - 1) / pageBytes

def ofWords (words : Nat) : Nat :=
  words * wordBytes % bound

/-- The number of words in `bytes`, which must be a whole number of them. -/
def toWords (bytes : Nat) : Except Fault Nat :=
  if bytes % wordBytes = 0 then .ok (bytes / wordBytes) else .error (.partialWord bytes)

theorem add_eq_ok {a b : Nat} (h : a + b < 0x10000000000000000) : add a b = .ok (a + b) :=
  if_pos h

theorem add_eq_error {a b : Nat} (h : 0x10000000000000000 ≤ a + b) : add a b = .error .overflow :=
  if_neg (Nat.not_lt.mpr h)

theorem add_eq_ok_iff {a b c : Nat} : add a b = .ok c ↔ a + b < 0x10000000000000000 ∧ c = a + b := by
  rcases Nat.lt_or_ge (a + b) 0x10000000000000000 with h | h
  · rw [add_eq_ok h, Except.ok.injEq]
    exact ⟨fun he => ⟨h, he.symm⟩, fun he => he.2.symm⟩
  · rw [add_eq_error h]
    exact ⟨fun he => (nomatch he), fun he => absurd he.1 (Nat.not_lt.mpr h)⟩

theorem add_eq_error_iff {a b : Nat} {f : Fault} :
    add a b = .error f ↔ 0x10000000000000000 ≤ a + b ∧ f = .overflow := by
  rcases Nat.lt_or_ge (a + b) 0x10000000000000000 with h | h
  · rw [add_eq_ok h]
    exact ⟨fun he => (nomatch he), fun he => absurd h (Nat.not_lt.mpr he.1)⟩
  · rw [add_eq_error h, Except.error.injEq]
    exact ⟨fun he => ⟨h, he.symm⟩, fun he => he.2.symm⟩

theorem alignmentMask_four : alignmentMask 4 = 0xFFFFFFFFFFFFFFFC :=
  rfl

/-- Clearing the two low bits of a count rounds it down to a multiple of four. -/
theorem and_alignmentMask_four {n : Nat} (h : n < 0x10000000000000000) :
    n &&& alignmentMask 4 = n / 4 * 4 := by
  have hmask : 0xFFFFFFFFFFFFFFFC = 2 ^ 2 * (2 ^ 62 - 1) := by decide
  have hdiv : n / 4 * 4 = 2 ^ 2 * (n / 2 ^ 2) := by omega
  rw [alignmentMask_four, hmask, hdiv]
  apply Nat.eq_of_testBit_eq
  intro i
  rw [Nat.testBit_and, Nat.testBit_two_pow_mul, Nat.testBit_two_pow_mul,
    Nat.testBit_two_pow_sub_one, Nat.testBit_div_two_pow]
  by_cases hi : 2 ≤ i
  · have hback : i - 2 + 2 = i := by omega
    by_cases hsmall : i - 2 < 62
    · simp [hi, hsmall, hback]
    · have hbig : n < 2 ^ i :=
        Nat.lt_of_lt_of_le (m := 2 ^ 64) h (Nat.pow_le_pow_right (by decide) (by omega))
      simp [hi, hback, Nat.testBit_lt_two_pow hbig]
  · simp [hi]

theorem alignDown_four {n : Nat} (h : n < 0x10000000000000000) : alignDown n 4 = n / 4 * 4 :=
  and_alignmentMask_four h

theorem alignDown_le (n align : Nat) : alignDown n align ≤ n :=
  Nat.and_le_left

theorem alignDown_mod_four (n : Nat) : alignDown n 4 % 4 = 0 := by
  have hmod : alignDown n 4 % 4 = alignDown n 4 &&& 3 := (Nat.and_two_pow_sub_one_eq_mod _ 2).symm
  have hlow : alignmentMask 4 &&& 3 = 0 := by decide
  rw [hmod, alignDown, Nat.and_assoc, hlow, Nat.and_zero]

theorem alignUp_four {n : Nat} (h : n + 3 < 0x10000000000000000) : alignUp n 4 = (n + 3) / 4 * 4 := by
  have hsum : (n + 4 + highest) % bound = n + 3 := by
    unfold highest bound
    omega
  rw [alignUp, hsum, and_alignmentMask_four (by omega)]

theorem isAligned_four {n : Nat} : isAligned n 4 = true ↔ n % 4 = 0 := by
  have hmask : (4 + highest) % bound = 2 ^ 2 - 1 := by decide
  rw [isAligned, hmask, Nat.and_two_pow_sub_one_eq_mod, beq_iff_eq]

theorem objectBytes_eq {n : Nat} (h : n + 3 < 0x10000000000000000) :
    objectBytes n = max ((n + 3) / 4 * 4) 8 := by
  rw [objectBytes, wordBytes, alignUp_four h, minObjectBytes]

theorem ofWords_eq {n : Nat} (h : 4 * n < 0x10000000000000000) : ofWords n = 4 * n := by
  unfold ofWords wordBytes bound
  omega

theorem toWords_eq_ok_iff {bytes words : Nat} :
    toWords bytes = .ok words ↔ bytes = 4 * words := by
  unfold toWords wordBytes
  split <;> simp <;> omega

end Size

end CopyingHeap
