import CopyingHeap.Object.Array
import CopyingHeap.Object.Text
import CopyingHeap.Object.Scalar
import CopyingHeap.Object.ListNode
import CopyingHeap.Proofs.Object.Shape

/-!
Objects that lie in memory as a whole. Whatever the memory is, reading a part of such an object
succeeds, and gives what the words of the object say.
-/

namespace CopyingHeap

namespace Memory

/-- There is an object at `r`, and all its bytes lie in memory. -/
def Whole (m : Memory) (r : Reference) : Prop :=
  ∃ bytes, m.objectSize r = .ok bytes ∧ m.containsRange r.address bytes = true

/-- An object of kind `k` lies at `r`, in words. -/
structure Lies (m : Memory) (r : Reference) (k : Kind) : Prop where
  header : m.word r.index = k.header
  below : r.index + m.wordCount r.index < 0x40000000
  bytes_le : 4 * (r.index + m.wordCount r.index) ≤ m.bytes

variable {m : Memory} {r : Reference} {k : Kind}

theorem bytes_le (m : Memory) : m.bytes ≤ 4 * m.words.size := by
  have hmod := Nat.mod_le (m.words.size * 4) Size.bound
  unfold bytes Size.ofWords Size.wordBytes
  omega

theorem Whole.lies (h : m.Whole r) : ∃ k, m.Lies r k := by
  obtain ⟨bytes, hsize, hrange⟩ := h
  obtain ⟨k, hk, hbytes⟩ := bind_eq_ok_iff.mp hsize
  obtain ⟨-, hheader⟩ := kind_eq_ok_word hk
  have height := eight_le_of_sizeAs hbytes
  have hindex := r.toNat_address
  have hle := m.bytes_le
  have hend : r.address.toNat + bytes < 0x100000000 ∧ r.address.toNat + bytes ≤ m.bytes := by
    unfold containsRange at hrange
    cases hpast : r.address.add? bytes with
    | none =>
      rw [hpast] at hrange
      nomatch hrange
    | some past =>
      rw [hpast] at hrange
      have hstop := Address.le_iff.mp (of_decide_eq_true hrange)
      have hmod := Nat.mod_le m.bytes 0x100000000
      have hlt := past.toNat_lt
      rw [Address.add?_eq_some_iff] at hpast
      rw [stop, Address.toNat_ofNat] at hstop
      omega
  rw [sizeAs_eq_ok (by omega) (by omega), Except.ok.injEq, ← wordCount_eq hheader] at hbytes
  exact ⟨k, hheader, by omega, by omega⟩

/-- The array at `r` has these elements. -/
structure ArrayOf (m : Memory) (r : Reference) (xs : List Value) : Prop where
  size : m.arraySize r = .ok xs.length
  get : ∀ i (hi : i < xs.length), m.arrayGet r i = .ok xs[i]

theorem ArrayOf.unique {xs ys : List Value} (hx : m.ArrayOf r xs) (hy : m.ArrayOf r ys) : xs = ys := by
  have hsize := hx.size.symm.trans hy.size
  rw [Except.ok.injEq] at hsize
  apply List.ext_getElem hsize
  intro i hi hj
  have hget := (hx.get i hi).symm.trans (hy.get i hj)
  rwa [Except.ok.injEq] at hget

namespace Lies

theorem two_le (h : m.Lies r k) : 2 ≤ m.wordCount r.index :=
  two_le_wordCount h.header

theorem inside (h : m.Lies r k) : r.index + m.wordCount r.index ≤ m.words.size := by
  have hbytes := h.bytes_le
  have hle := m.bytes_le
  omega

/-- The words in the object are there to be read. -/
theorem load_word (h : m.Lies r k) {j : Nat} (hj : j < m.wordCount r.index) :
    m.load (Address.ofNat (4 * (r.index + j))) = .ok (m.word (r.index + j)) := by
  have hbelow := h.below
  have hinside := h.inside
  exact Memory.load_word (by omega) (by omega)

theorem add_eq (h : m.Lies r k) {j : Nat} (hj : j ≤ m.wordCount r.index) :
    r.address.add (4 * j) = .ok (Address.ofNat (4 * (r.index + j))) := by
  have hbelow := h.below
  exact r.add_eq (by omega)

theorem index_lt (h : m.Lies r k) : r.index < m.words.size := by
  have htwo := h.two_le
  have hinside := h.inside
  omega

theorem kind_eq (h : m.Lies r k) : m.kind r = .ok k :=
  kind_eq_ok h.index_lt h.header

theorem kind?_eq (h : m.Lies r k) : m.kind? r = .ok (some k) := by
  rw [kind?_eq_ok h.index_lt, h.header, Kind.ofHeader?_header]

theorem length_eq (h : m.Lies r k) : m.length r = .ok (m.word (r.index + 1)).toNat := by
  have htwo := h.two_le
  have hbelow := h.below
  have hinside := h.inside
  exact length_eq_ok (by omega) (by omega)

theorem hasSlot_iff (h : m.Lies r k) {a : Address} :
    m.HasSlot r a ↔ ∃ j, m.IsSlot r.index j ∧ a = Address.ofNat (4 * (r.index + j)) :=
  hasSlot_iff_isSlot h.header h.below h.inside

/-- A scalar is the word behind its header. -/
theorem scalar_eq (h : m.Lies r k) : m.scalar r k = .ok (m.word (r.index + 1)) := by
  have htwo := h.two_le
  have hadd : r.address.add scalarOffset = .ok (Address.ofNat (4 * (r.index + 1))) :=
    h.add_eq (j := 1) (by omega)
  unfold scalar
  rw [h.kind?_eq, ok_bind, if_pos rfl, hadd, ok_bind, h.load_word (by omega)]

theorem arraySize_eq (h : m.Lies r .array) :
    m.arraySize r = .ok (m.word (r.index + 1)).toNat := by
  rw [arraySize, h.kind?_eq, ok_bind, if_pos rfl, h.length_eq]

theorem arrayGet_eq (h : m.Lies r .array) {i : Nat} (hi : i < (m.word (r.index + 1)).toNat) :
    m.arrayGet r i = .ok (Value.decode (m.word (r.index + (2 + i)))) := by
  have hcount : m.wordCount r.index = 2 + (m.word (r.index + 1)).toNat := wordCount_eq h.header
  have hbelow := h.below
  have hcheck : m.checkIndex r i = .ok () := by
    rw [checkIndex, h.arraySize_eq, ok_bind, if_pos hi]
    rfl
  rw [arrayGet, hcheck, ok_bind, elementAddress_eq (by omega), ok_bind, Nat.add_assoc,
    h.load_word (by omega)]
  rfl

theorem arrayOf (h : m.Lies r .array) :
    m.ArrayOf r ((List.range' 0 (m.word (r.index + 1)).toNat).map fun i =>
      Value.decode (m.word (r.index + (2 + i)))) where
  size := by rw [List.length_map, List.length_range', h.arraySize_eq]
  get := by
    intro i hi
    rw [List.length_map, List.length_range'] at hi
    rw [h.arrayGet_eq hi, List.getElem_map, List.getElem_range', Nat.zero_add, Nat.one_mul]

/-- An array of the same length that holds, word for word, what `g` makes of the elements. -/
theorem arrayOf_map (h : m.Lies r .array) {n : Memory} {s : Reference} (hs : n.Lies s .array)
    {g : Value → Value} (hlength : n.word (s.index + 1) = m.word (r.index + 1))
    (hwords : ∀ i < (m.word (r.index + 1)).toNat,
      Value.decode (n.word (s.index + (2 + i))) = g (Value.decode (m.word (r.index + (2 + i)))))
    {xs : List Value} (hx : m.ArrayOf r xs) : n.ArrayOf s (xs.map g) := by
  have hsize := hx.size
  rw [h.arraySize_eq, Except.ok.injEq] at hsize
  refine ⟨?_, fun i hi => ?_⟩
  · rw [hs.arraySize_eq, hlength, hsize, List.length_map]
  · rw [List.length_map] at hi
    have hget := hx.get i hi
    rw [h.arrayGet_eq (by omega), Except.ok.injEq] at hget
    rw [hs.arrayGet_eq (by rw [hlength]; omega), hwords i (by omega), hget, List.getElem_map]

theorem node_eq (h : m.Lies r .listNode) : m.checkListNode r = .ok () := by
  rw [checkListNode, h.kind?_eq, ok_bind, if_pos rfl]
  rfl

theorem listHead_eq (h : m.Lies r .listNode) :
    m.listHead r = .ok (Value.decode (m.word (r.index + 1))) := by
  have hcount : m.wordCount r.index = 3 := wordCount_eq h.header
  have hadd : r.address.add headOffset = .ok (Address.ofNat (4 * (r.index + 1))) :=
    h.add_eq (j := 1) (by omega)
  rw [listHead, h.node_eq, ok_bind, hadd, ok_bind, h.load_word (by omega)]
  rfl

theorem listTail_eq (h : m.Lies r .listNode) :
    m.listTail r = .ok (Value.decode (m.word (r.index + 2))) := by
  have hcount : m.wordCount r.index = 3 := wordCount_eq h.header
  have hadd : r.address.add tailOffset = .ok (Address.ofNat (4 * (r.index + 2))) :=
    h.add_eq (j := 2) (by omega)
  rw [listTail, h.node_eq, ok_bind, hadd, ok_bind, h.load_word (by omega)]
  rfl

theorem textLength_eq (hk : k = .string ∨ k = .symbol) (h : m.Lies r k) :
    m.textLength r = .ok (m.word (r.index + 1)).toNat := by
  rw [textLength, h.kind?_eq, ok_bind]
  rcases hk with rfl | rfl <;> exact h.length_eq

theorem textBytes_eq (hk : k = .string ∨ k = .symbol) (h : m.Lies r k) :
    m.textBytes r = .ok ((List.range' (4 * (r.index + 2)) (m.word (r.index + 1)).toNat).map
      (byteAt m.words)) := by
  have hcount : m.wordCount r.index = 2 + ((m.word (r.index + 1)).toNat + 3) / 4 :=
    (wordCount_eq h.header).trans (by rcases hk with rfl | rfl <;> rfl)
  have hbelow := h.below
  have hbytes := h.bytes_le
  have hadd : r.address.add contentOffset = .ok (Address.ofNat (4 * (r.index + 2))) :=
    h.add_eq (j := 2) (by omega)
  have hstart := Address.toNat_ofNat_of_lt (n := 4 * (r.index + 2)) (by omega)
  have hcheck : m.checkBytes (Address.ofNat (4 * (r.index + 2))) (m.word (r.index + 1)).toNat =
      .ok () := by
    rw [checkBytes, hstart, Size.add_eq_ok (by omega), ok_bind, if_pos (by omega)]
    rfl
  rw [textBytes, h.textLength_eq hk, ok_bind, hadd, ok_bind, readBytes, hcheck, ok_bind, hstart]
  rfl

end Lies

/-- In a memory of whole pages an object whose words are all there lies as a whole. -/
theorem Lies.whole (h : m.Lies r k) (hm : m.Paged) : m.Whole r := by
  have hsmall := hm.size_le
  have hinside := h.inside
  have htwo := h.two_le
  have hindex := r.toNat_address
  have hend := Address.toNat_ofNat_of_lt (n := 4 * (r.index + m.wordCount r.index)) (by omega)
  have hpast : r.address.add? (4 * m.wordCount r.index) =
      some (Address.ofNat (4 * (r.index + m.wordCount r.index))) := by
    rw [Address.add?_eq_some_iff]
    omega
  refine ⟨_, objectSize_eq hsmall (by omega) h.header, ?_⟩
  rw [containsRange, hpast]
  dsimp only
  rw [decide_eq_true_iff, Address.le_iff, hend, toNat_stop hm]
  omega

theorem Paged.lies (hm : m.Paged) (h : m.word r.index = k.header)
    (hi : r.index + m.wordCount r.index ≤ m.words.size) : m.Lies r k where
  header := h
  below := by
    have hsmall := hm.size_le
    omega
  bytes_le := by
    have hsmall := hm.size_le
    rw [bytes, Size.ofWords_eq (by omega)]
    omega

end Memory

end CopyingHeap
