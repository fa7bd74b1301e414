import CopyingHeap.Heap.Construct
import CopyingHeap.Proofs.Heap.Allocation
import CopyingHeap.Proofs.Heap.Reads
import CopyingHeap.Proofs.Heap.Stack
import CopyingHeap.Proofs.Heap.Update

/-!
Making objects in twins. Both heaps hand out a zeroed block of one size, the same words are written
there, and the new objects correspond. What the objects refer to waits on the stack meanwhile.
-/

namespace CopyingHeap

/-- An object of the kind holds one word, which is no reference. -/
def Kind.IsScalar (k : Kind) : Prop :=
  k = .integer ∨ k = .float ∨ k = .char

theorem Kind.IsScalar.shape {k : Kind} (hk : k.IsScalar) :
    k ≠ .symbol ∧ (∀ n, k.wordCount n = 2) ∧ ∀ n j, ¬ k.IsSlot n j := by
  rcases hk with rfl | rfl | rfl <;> exact ⟨by decide, fun _ => rfl, fun _ _ => id⟩

namespace Memory

/-- The memory with the first two words of an object at `i`. -/
def withHeader (m : Memory) (i : Nat) (k : Kind) (second : Word) : Memory :=
  (m.withWord i k.header).withWord (i + 1) second

variable {m : Memory} {i : Nat} (k : Kind) (second : Word)

@[simp] theorem size_withHeader : (m.withHeader i k second).words.size = m.words.size := by
  simp [withHeader]

@[simp] theorem maxPages_withHeader : (m.withHeader i k second).maxPages = m.maxPages :=
  rfl

theorem word_withHeader_ne {j : Nat} (h0 : j ≠ i) (h1 : j ≠ i + 1) :
    (m.withHeader i k second).word j = m.word j := by
  rw [withHeader, word_withWord_ne _ h1, word_withWord_ne _ h0]

theorem word_withHeader (hi : i + 1 < m.words.size) :
    (m.withHeader i k second).word i = k.header ∧
      (m.withHeader i k second).word (i + 1) = second := by
  rw [withHeader, word_withWord_ne _ (by omega), word_withWord (by omega), if_pos rfl,
    word_withWord (by rwa [size_withWord]), if_pos rfl]
  exact ⟨rfl, rfl⟩

variable {r : Reference} (hs : m.words.size ≤ 0x3FFFC000) (hi : r.index + 1 < m.words.size)

include hs hi

theorem writeScalar_eq :
    m.writeScalar r.address k second = .ok (m.withHeader r.index k second) := by
  have ha := r.add_eq (j := 1) (by omega)
  rw [writeScalar, writeHeader, store_address (by omega), ok_bind, scalarOffset, ha, ok_bind,
    store_word (by omega) (by rwa [size_withWord])]
  rfl

theorem writeListNode_eq (hi2 : r.index + 2 < m.words.size) (head tail : Value) :
    m.writeListNode r.address head tail =
      head.encode >>= fun w => tail.encode >>= fun w' =>
        .ok ((m.withHeader r.index .listNode w).withWord (r.index + 2) w') := by
  have h1 := r.add_eq (j := 1) (by omega)
  have h2 := r.add_eq (j := 2) (by omega)
  rw [writeListNode, writeHeader, store_address (by omega), ok_bind, headOffset, h1, ok_bind]
  cases head.encode with
  | error f => rfl
  | ok w =>
    rw [ok_bind, store_word (by omega) (by rwa [size_withWord]), ok_bind, tailOffset, h2, ok_bind,
      ok_bind]
    cases tail.encode with
    | error f => rfl
    | ok w' =>
      rw [ok_bind, store_word (by omega) (by rwa [size_withWord, size_withWord])]
      rfl

end Memory

namespace Heap

theorem changeMemory_eq (h : Heap) (f : Memory → Except Fault Memory) :
    h.changeMemory f = f h.memory >>= fun m => .ok { h with memory := m } :=
  rfl

theorem Fresh.inside {h : Heap} (hl : h.Layout) {r : Reference} {n : Nat} (hf : h.Fresh r n) :
    r.index + n ≤ h.memory.words.size := by
  obtain ⟨xs, hxs, hr⟩ := hf.block
  have hb := (hxs.bounds hl hr).2
  have hc := hl.cursor_inside
  dsimp only at hb
  omega

theorem Written.withHeader (h : Heap) (r : Reference) {n : Nat} (hn : 2 ≤ n) (k : Kind)
    (second : Word) : h.Written r n (h.memory.withHeader r.index k second) :=
  ((Written.refl h r n).withWord (j := 0) (by omega) k.header).withWord (j := 1) (by omega) second

/-- What two allocations of `size` bytes leave behind: twins with a block each, one at `r` and one at
`s`. -/
structure Handed (h : Heap) (size : Nat) (q : Reference → Reference → Prop) (r s : Reference)
    (n : Nat) (k k' : Heap) : Prop where
  twin : Twin q k k'
  before : h.Renews k
  fresh : k.Fresh r n
  fresh' : k'.Fresh s n
  size_lt : size < 0x100000000
  bytes : 4 * n = Size.objectBytes size

namespace Handed

variable {h k k' : Heap} {size : Nat} {q : Reference → Reference → Prop} {r s : Reference} {n : Nat}
  (hx : Handed h size q r s n k k')

include hx

theorem words_eq {c : Nat} (hsize : size = 4 * c) (hc : 2 ≤ c) : n = c := by
  have hbytes := hx.bytes
  have hlt := hx.size_lt
  rw [Size.objectBytes_eq (by omega)] at hbytes
  omega

theorem inside : k.memory.words.size ≤ 0x3FFFC000 ∧ k'.memory.words.size ≤ 0x3FFFC000 ∧
    r.index + n ≤ k.memory.words.size ∧ s.index + n ≤ k'.memory.words.size :=
  ⟨hx.twin.left.size_le, hx.twin.right.size_le, hx.fresh.inside hx.twin.left.toLayout,
    hx.fresh'.inside hx.twin.right.toLayout⟩

end Handed

/-- The references that two constructors return are those of corresponding objects. -/
def Made (h : Heap) (x x' : Reference × Heap) : Prop :=
  (∃ q, Twin q x.2 x'.2 ∧ q x.1 x'.1) ∧ h.Keeps x.2

theorem Made.after {h k : Heap} {x x' : Reference × Heap} (hm : k.Made x x') (hk : h.Keeps k) :
    h.Made x x' :=
  hm.imp_right hk.trans

namespace Twin

variable {p : Reference → Reference → Prop} {h h' : Heap} (ht : Twin p h h')

include ht

theorem alloc (size : Nat) :
    Alike (fun x x' => ∃ q r s n k k', x = (r.address, k) ∧ x' = (s.address, k') ∧
      Handed h size q r s n k k') (h.alloc size) (h'.alloc size) := by
  refine .of_ends (ht.left.alloc size) (ht.right.alloc size) ?_
  rintro ⟨a, k⟩ ⟨a', k'⟩ ⟨r, n, hk, hr, hf, hlt, hn⟩ ⟨s, l, ⟨⟨q', hq'⟩, -⟩, hs, hf', -, hl⟩
  dsimp only at hk hr hf hq' hs hf'
  obtain ⟨⟨q, hq⟩, hkeep⟩ := hk
  obtain rfl : l = n := by omega
  exact ⟨_, r, s, l, k, k', by rw [hr], by rw [hs],
    (hq.symm.trans ht).trans hq', ⟨⟨q, hq⟩, hkeep⟩, hf, hf', hlt, hn⟩

/-- Two objects of one kind, made in blocks that have just been handed out. -/
theorem made {r s : Reference} {n : Nat} (hf : h.Fresh r n) (hf' : h'.Fresh s n) {m m' : Memory}
    (hw : h.Written r n m) (hw' : h'.Written s n m') {k : Kind} (hk : k ≠ .symbol)
    (hheader : m.word r.index = k.header) (hfit : m.wordCount r.index ≤ n)
    (hslots : ∀ j, m.IsSlot r.index j →
      h.Linked p (m.word (r.index + j)) (m'.word (s.index + j)))
    (hpayload : ∀ j < m.wordCount r.index, ¬ m.IsSlot r.index j →
      m'.word (s.index + j) = m.word (r.index + j)) :
    h.Made (r, { h with memory := m }) (s, { h' with memory := m' }) := by
  obtain ⟨xs, hxs, hr⟩ := hf.block
  have htwin := ht.install hf hf' hw hw' hk hheader hfit hfit hslots hpayload
  exact ⟨⟨_, htwin, .inr ⟨rfl, rfl⟩⟩,
    .of_same rfl rfl rfl rfl (fun i => hw.static ht.left hxs hr) htwin.left.tiled⟩

theorem newScalar {k : Kind} (hk : k.IsScalar) (w : Word) :
    Alike h.Made (h.newScalar k w) (h'.newScalar k w) := by
  obtain ⟨hsymbol, hcount, hno⟩ := hk.shape
  unfold Heap.newScalar
  rw [Kind.size_eq k (n := 0) (by decide), hcount, ok_bind]
  refine (ht.alloc _).bind ?_
  rintro _ _ ⟨q, r, s, n, l, l', rfl, rfl, hx⟩
  obtain rfl : n = 2 := hx.words_eq rfl (by decide)
  obtain ⟨hsize, hsize', hin, hin'⟩ := hx.inside
  dsimp only
  rw [changeMemory_eq, changeMemory_eq, Memory.writeScalar_eq k w hsize (by omega),
    Memory.writeScalar_eq k w hsize' (by omega), ok_bind, ok_bind,
    Reference.ofAddress_address, Reference.ofAddress_address, ok_bind, ok_bind]
  obtain ⟨h0, h1⟩ := Memory.word_withHeader (m := l.memory) (i := r.index) k w (by omega)
  obtain ⟨h0', h1'⟩ := Memory.word_withHeader (m := l'.memory) (i := s.index) k w (by omega)
  have hwords : (l.memory.withHeader r.index k w).wordCount r.index = 2 :=
    (Memory.wordCount_eq h0).trans (hcount _)
  refine Made.after (k := l) ?_ hx.before.2
  refine hx.twin.made hx.fresh hx.fresh' (Written.withHeader l r (by decide) k w)
    (Written.withHeader l' s (by decide) k w) hsymbol h0 hwords.le
    (fun j hj => absurd ((Memory.isSlot_iff h0).mp hj) (hno _ _)) fun j hj _ => ?_
  rw [hwords] at hj
  obtain rfl | rfl : j = 0 ∨ j = 1 := by omega
  · exact h0'.trans h0.symm
  · exact h1'.trans h1.symm

end Twin

end Heap

end CopyingHeap
