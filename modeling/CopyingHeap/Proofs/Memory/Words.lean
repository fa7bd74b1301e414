import CopyingHeap.Memory.Block
import CopyingHeap.Memory.Growth
import CopyingHeap.Proofs.Outcome
import CopyingHeap.Value

/-!
Memory as a function from word numbers to words. Accesses at addresses turn into reads and updates of
that function, and objects are named by the number of their first word.
-/

namespace CopyingHeap

namespace Reference

/-- The number of the word at which the object starts. -/
def index (r : Reference) : Nat :=
  r.address.toNat / 4

theorem toNat_address (r : Reference) : r.address.toNat = 4 * r.index := by
  have h := r.aligned
  unfold Address.WordAligned at h
  unfold index
  omega

theorem index_inj {r s : Reference} : r.index = s.index ↔ r = s := by
  refine ⟨fun h => ext_address (Address.ext_toNat ?_), fun h => h ▸ rfl⟩
  rw [toNat_address, toNat_address, h]

/-- The object that starts at word `i`. -/
def ofIndex (i : Nat) : Reference :=
  ⟨Address.ofNat (4 * i), by rw [Address.WordAligned, Address.toNat_ofNat]; omega⟩

theorem toNat_word (r : Reference) : r.word.toNat = 4 * r.index :=
  r.toNat_address

theorem word_inj {r s : Reference} : r.word = s.word ↔ r = s := by
  refine ⟨fun h => index_inj.mp ?_, fun h => h ▸ rfl⟩
  have hn := congrArg UInt32.toNat h
  rw [toNat_word, toNat_word] at hn
  omega

theorem ne_null_iff {r : Reference} : r ≠ null ↔ 0 < r.index := by
  have h : r = null ↔ r.index = 0 := index_inj.symm
  rw [Ne, h]
  omega

theorem add_eq (r : Reference) {j : Nat} (h : r.index + j < 0x40000000) :
    r.address.add (4 * j) = .ok (Address.ofNat (4 * (r.index + j))) := by
  rw [Address.add_eq_ok_iff, Address.toNat_ofNat, toNat_address]
  omega

end Reference

theorem wordAligned_ofNat (i : Nat) : (Address.ofNat (4 * i)).WordAligned := by
  rw [Address.WordAligned, Address.toNat_ofNat]
  omega

theorem toNat_ofNat_div {i : Nat} (h : i < 0x40000000) : (Address.ofNat (4 * i)).toNat / 4 = i := by
  rw [Address.toNat_ofNat]
  omega

/-- The word after word `i` starts four bytes on. -/
theorem ofNat_next {i : Nat} (h : i < 0x40000000) :
    Address.ofNat ((Address.ofNat (4 * i)).toNat + 4) = Address.ofNat (4 * (i + 1)) := by
  rw [Address.toNat_ofNat_of_lt (by omega)]
  rfl

/-- The object that a word refers to, unless it is null or no reference. -/
def Word.target? (w : Word) : Option Reference :=
  (Value.decode w).object?

theorem target?_eq_some_iff {w : Word} {r : Reference} :
    Word.target? w = some r ↔ w = r.word ∧ r ≠ Reference.null := by
  rw [Word.target?, Value.object?_eq_some_iff]
  refine and_congr_left fun _ => ⟨fun h => ?_, fun h => h ▸ Value.decode_word r⟩
  unfold Value.decode at h
  split at h
  · injection h with h
    exact h ▸ rfl
  · split at h
    · cases h
    · split at h <;> cases h

namespace Memory

def word (m : Memory) (i : Nat) : Word :=
  m.words.getD i 0

/-- Whole pages, no more of them than the maximum, and no more than addresses can name. -/
structure Paged (m : Memory) : Prop where
  pages : ∃ pages, m.words.size = 0x4000 * pages ∧ pages ≤ m.maxPages
  maximum : m.maxPages ≤ 0xFFFF

theorem Paged.size_le {m : Memory} (h : m.Paged) : m.words.size ≤ 0x3FFFC000 := by
  obtain ⟨p, hp, hle⟩ := h.pages
  have := h.maximum
  omega

theorem getElem?_eq_word {m : Memory} {i : Nat} (h : i < m.words.size) :
    m.words[i]? = some (m.word i) := by
  simp [word, h]

theorem word_eq_of_getElem? {m : Memory} {i : Nat} {w : Word} (h : m.words[i]? = some w) :
    m.word i = w := by
  simp [word, h]

theorem load_eq_ok {m : Memory} {a : Address} (ha : a.WordAligned)
    (hs : a.toNat / 4 < m.words.size) : m.load a = .ok (m.word (a.toNat / 4)) :=
  load_eq_ok_iff.mpr ⟨ha, getElem?_eq_word hs⟩

theorem load_word {m : Memory} {i : Nat} (hi : i < 0x40000000) (hs : i < m.words.size) :
    m.load (Address.ofNat (4 * i)) = .ok (m.word i) := by
  have h := load_eq_ok (m := m) (wordAligned_ofNat i) (by rwa [toNat_ofNat_div hi])
  rwa [toNat_ofNat_div hi] at h

theorem load_address {m : Memory} {r : Reference} (hs : r.index < m.words.size) :
    m.load r.address = .ok (m.word r.index) :=
  load_eq_ok r.aligned hs

theorem load_eq_ok_word {m : Memory} {a : Address} {w : Word} (h : m.load a = .ok w) :
    a.WordAligned ∧ a.toNat / 4 < m.words.size ∧ w = m.word (a.toNat / 4) := by
  obtain ⟨ha, hw⟩ := load_eq_ok_iff.mp h
  obtain ⟨hs, -⟩ := Array.getElem?_eq_some_iff.mp hw
  exact ⟨ha, hs, (word_eq_of_getElem? hw).symm⟩

theorem ext_word {m n : Memory} (hsize : m.words.size = n.words.size) (hmax : m.maxPages = n.maxPages)
    (hword : ∀ i, m.word i = n.word i) : m = n := by
  obtain ⟨words, maxPages⟩ := m
  obtain ⟨words', maxPages'⟩ := n
  obtain rfl : maxPages = maxPages' := hmax
  congr 1
  refine Array.ext hsize fun i hi hi' => ?_
  have hsame := hword i
  simpa only [word, Array.getD_eq_getD_getElem?, Array.getElem?_eq_getElem hi,
    Array.getElem?_eq_getElem hi', Option.getD_some] using hsame

/-- The memory with another word at `i`. -/
def withWord (m : Memory) (i : Nat) (w : Word) : Memory :=
  ⟨m.words.setIfInBounds i w, m.maxPages⟩

@[simp] theorem size_withWord (m : Memory) (i : Nat) (w : Word) :
    (m.withWord i w).words.size = m.words.size := by
  simp [withWord]

@[simp] theorem maxPages_withWord (m : Memory) (i : Nat) (w : Word) :
    (m.withWord i w).maxPages = m.maxPages :=
  rfl

theorem word_withWord {m : Memory} {i : Nat} (h : i < m.words.size) (w : Word) (k : Nat) :
    (m.withWord i w).word k = if k = i then w else m.word k := by
  by_cases hk : k = i
  · subst hk
    simp [word, withWord, h]
  · rw [if_neg hk, word, word, withWord, Array.getD_eq_getD_getElem?, Array.getD_eq_getD_getElem?,
      Array.getElem?_setIfInBounds_ne (fun he => hk he.symm)]

theorem word_withWord_ne (m : Memory) {i k : Nat} (h : k ≠ i) (w : Word) :
    (m.withWord i w).word k = m.word k := by
  rw [word, word, withWord, Array.getD_eq_getD_getElem?, Array.getD_eq_getD_getElem?,
    Array.getElem?_setIfInBounds_ne (fun he => h he.symm)]

theorem store_eq_ok {m : Memory} {a : Address} (ha : a.WordAligned)
    (hs : a.toNat / 4 < m.words.size) (w : Word) :
    m.store a w = .ok (m.withWord (a.toNat / 4) w) :=
  store_eq_ok_iff.mpr ⟨ha, hs, rfl⟩

theorem store_word {m : Memory} {i : Nat} (hi : i < 0x40000000) (hs : i < m.words.size)
    (w : Word) : m.store (Address.ofNat (4 * i)) w = .ok (m.withWord i w) := by
  have h := store_eq_ok (m := m) (wordAligned_ofNat i) (by rwa [toNat_ofNat_div hi]) w
  rwa [toNat_ofNat_div hi] at h

theorem store_address {m : Memory} {r : Reference} (hs : r.index < m.words.size) (w : Word) :
    m.store r.address w = .ok (m.withWord r.index w) :=
  store_eq_ok r.aligned hs w

/-- What is read at an address is the word there. -/
theorem load_congr {m n : Memory} {a : Address}
    (h : a.WordAligned → n.words[a.toNat / 4]? = m.words[a.toNat / 4]?) : n.load a = m.load a := by
  by_cases ha : a.WordAligned
  · rw [load_eq n ha, load_eq m ha, h ha]
  · simp only [load, wordIndex, if_neg ha]
    rfl

/-- A store changes what is read at its address and nowhere else. -/
theorem load_store {m n : Memory} {a : Address} {w : Word} (h : m.store a w = .ok n) (b : Address) :
    n.load b = if b = a then .ok w else m.load b := by
  obtain ⟨ha, -, -⟩ := store_eq_ok_iff.mp h
  split
  · rename_i hba
    rw [hba, load_eq_ok_iff, getElem?_store h, if_pos rfl]
    exact ⟨ha, rfl⟩
  · rename_i hba
    refine load_congr fun hb => ?_
    rw [getElem?_store h, if_neg fun hi => hba (Address.ext_toNat ?_)]
    unfold Address.WordAligned at ha hb
    omega

/-- What can be read can be written. -/
theorem exists_store {m : Memory} {a : Address} {v : Word} (h : m.load a = .ok v) (w : Word) :
    ∃ n, m.store a w = .ok n := by
  obtain ⟨ha, hlt, -⟩ := load_eq_ok_word h
  exact ⟨_, store_eq_ok ha hlt w⟩

/-- The memory with `count` words from `i` on copied to `j` and the words behind it. -/
def withCopy (m : Memory) (i j count : Nat) : Memory :=
  ⟨overwrite m.words j (block m.words i count), m.maxPages⟩

@[simp] theorem size_withCopy (m : Memory) (i j count : Nat) :
    (m.withCopy i j count).words.size = m.words.size := by
  simp [withCopy]

@[simp] theorem maxPages_withCopy (m : Memory) (i j count : Nat) :
    (m.withCopy i j count).maxPages = m.maxPages :=
  rfl

theorem copy_eq_ok {m : Memory} {a b : Address} {n : Nat} (ha : a.WordAligned)
    (hb : b.WordAligned) (hs : a.toNat / 4 + n ≤ m.words.size)
    (ht : b.toNat / 4 + n ≤ m.words.size) :
    m.copy a b (4 * n) = .ok (m.withCopy (a.toNat / 4) (b.toNat / 4) n) := by
  have hc : 4 * n / 4 = n := by omega
  refine copy_eq_ok_iff.mpr ⟨by omega, ha, hb, ?_, ?_, ?_⟩
  · rwa [hc]
  · rwa [hc]
  · rw [hc]
    rfl

theorem word_withCopy {m : Memory} {i j n : Nat} (hi : i + n ≤ m.words.size)
    (hj : j + n ≤ m.words.size) (k : Nat) :
    (m.withCopy i j n).word k =
      if j ≤ k ∧ k < j + n then m.word (i + (k - j)) else m.word k := by
  unfold word withCopy
  rw [Array.getD_eq_getD_getElem?, Array.getD_eq_getD_getElem?, Array.getD_eq_getD_getElem?,
    getElem?_overwrite _ _ _ (by rw [length_block hi]; exact hj), length_block hi]
  split
  · rw [getElem?_block (by omega)]
  · rfl

/-- The memory with `count` words from `i` on set to `w`. -/
def withFill (m : Memory) (i count : Nat) (w : Word) : Memory :=
  ⟨fillWords m.words w i count, m.maxPages⟩

@[simp] theorem size_withFill (m : Memory) (i count : Nat) (w : Word) :
    (m.withFill i count w).words.size = m.words.size := by
  simp [withFill]

@[simp] theorem maxPages_withFill (m : Memory) (i count : Nat) (w : Word) :
    (m.withFill i count w).maxPages = m.maxPages :=
  rfl

theorem fill_eq_ok {m : Memory} {a : Address} {n : Nat} (ha : a.WordAligned)
    (hs : a.toNat / 4 + n ≤ m.words.size) (w : Word) :
    m.fill a (4 * n) w = .ok (m.withFill (a.toNat / 4) n w) := by
  have hc : 4 * n / 4 = n := by omega
  refine fill_eq_ok_iff.mpr ⟨by omega, ha, ?_, ?_⟩
  · rwa [hc]
  · rw [hc]
    rfl

theorem word_withFill {m : Memory} {i n : Nat} (hi : i + n ≤ m.words.size) (w : Word)
    (k : Nat) :
    (m.withFill i n w).word k = if i ≤ k ∧ k < i + n then w else m.word k := by
  unfold word withFill
  rw [Array.getD_eq_getD_getElem?, Array.getD_eq_getD_getElem?, getElem?_fillWords _ _ _ _ hi]
  split <;> rfl

theorem Paged.withFill {m : Memory} (h : m.Paged) (i n : Nat) (w : Word) :
    (m.withFill i n w).Paged := by
  obtain ⟨pages, hp, hle⟩ := h.pages
  exact ⟨⟨pages, (size_withFill m i n w).trans hp, hle⟩, h.maximum⟩

theorem toNat_stop {m : Memory} (h : m.Paged) : m.stop.toNat = 4 * m.words.size := by
  have hs := h.size_le
  rw [stop, Address.toNat_ofNat, bytes, Size.ofWords_eq (by omega)]
  omega

end Memory

end CopyingHeap
