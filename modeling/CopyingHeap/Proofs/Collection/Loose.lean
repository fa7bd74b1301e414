import CopyingHeap.Proofs.Collection.Frame
import CopyingHeap.Proofs.Collection.Veil
import CopyingHeap.Proofs.Heap.Update

/-!
Heaps with raw blocks of any contents. The words behind the header of a raw block never matter, but its
header and its address on the stack may deceive a collection. With null in the place of both the heap is
regular, and what it does then is known.
-/

namespace CopyingHeap

namespace Heap

/-- A block starts here that holds no object. -/
def Vacant (h : Heap) (r : Reference) : Prop :=
  h.spaces.bits.isSet r.address = true ∧ ¬ h.Initialised r

/-- The start bits are those of disjoint blocks of at least two words in the used part of the active
space. A block that holds no object may hold any words, as long as the first is no header. -/
structure Parcelled (h : Heap) (blocks : List AddressRange) : Prop where
  within : ∀ b ∈ blocks, h.spaces.active.start ≤ b.start ∧ b.start.toNat + 8 ≤ b.stop.toNat ∧
    b.stop ≤ h.bump.cursor
  disjoint : blocks.Pairwise AddressRange.Apart
  starts : ∀ a, h.spaces.bits.isSet a = true ↔ ∃ b ∈ blocks, b.start = a
  filled : ∀ b ∈ blocks, ∀ r : Reference, r.address = b.start →
    (∃ w, h.memory.load r.address = .ok w ∧ Kind.ofHeader? w = none) ∨ h.Holds r b

/-- A regular heap, but for raw blocks that may look forwarded. -/
structure Loose (h : Heap) : Prop extends h.Layout where
  blocks : ∃ blocks, h.Parcelled blocks

/-- The first words of the raw blocks, and the words of the stack that are addresses of raw blocks. -/
def Masked (h : Heap) (i : Nat) : Prop :=
  (∃ r, h.Vacant r ∧ r.index = i) ∨
    h.OnStack i ∧ ∃ r, Word.target? (h.memory.word i) = some r ∧ h.Vacant r

open Classical in
/-- The heap with null in every masked word. -/
noncomputable def cleared (h : Heap) : Heap :=
  { h with memory :=
    { h.memory with words := h.memory.words.mapIdx fun i w => if h.Masked i then 0 else w } }

@[simp] theorem size_cleared (h : Heap) : h.cleared.memory.words.size = h.memory.words.size := by
  simp [cleared]

open Classical in
theorem word_cleared (h : Heap) (i : Nat) :
    h.cleared.memory.word i = if h.Masked i then 0 else h.memory.word i := by
  unfold cleared Memory.word
  dsimp only
  rw [Array.getD_eq_getD_getElem?, Array.getD_eq_getD_getElem?, Array.getElem?_mapIdx]
  cases h.memory.words[i]? with
  | none => exact (ite_self 0).symm
  | some w => rfl

theorem word_cleared_of_masked {h : Heap} {i : Nat} (hi : h.Masked i) :
    h.cleared.memory.word i = 0 := by
  rw [word_cleared, if_pos hi]

theorem word_cleared_of_not_masked {h : Heap} {i : Nat} (hi : ¬ h.Masked i) :
    h.cleared.memory.word i = h.memory.word i := by
  rw [word_cleared, if_neg hi]

theorem veiled_cleared (h : Heap) : h.memory.Veiled h.Masked h.memory.word h.cleared.memory where
  size := h.size_cleared.symm
  maxPages := rfl
  off := fun _ hi => (word_cleared_of_not_masked hi).symm
  on := fun _ _ => rfl

namespace Parcelled

variable {h : Heap} {blocks : List AddressRange} (hl : h.Layout) (hb : h.Parcelled blocks)
  {r s : Reference}

include hb

theorem exists_block (hs : h.spaces.bits.isSet r.address = true) :
    ∃ b ∈ blocks, b.start = r.address ∧ b.start.toNat = 4 * r.index := by
  obtain ⟨b, hmem, hstart⟩ := (hb.starts _).mp hs
  exact ⟨b, hmem, hstart, by rw [hstart, Reference.toNat_address]⟩

theorem bounds (hs : h.spaces.bits.isSet r.address = true) :
    h.spaces.active.start.toNat ≤ 4 * r.index ∧ 4 * (r.index + 2) ≤ h.bump.cursor.toNat := by
  obtain ⟨b, hmem, -, hstart⟩ := hb.exists_block hs
  obtain ⟨h1, h2, h3⟩ := hb.within b hmem
  rw [Address.le_iff] at h1 h3
  omega

theorem apart {b c : AddressRange} (hbmem : b ∈ blocks) (hcmem : c ∈ blocks)
    (hbr : b.start = r.address) (hcs : c.start = s.address) (hne : r ≠ s) :
    b.stop.toNat ≤ 4 * s.index ∨ c.stop.toNat ≤ 4 * r.index := by
  have hbc : b ≠ c := by
    rintro rfl
    exact hne (Reference.ext_address (hbr.symm.trans hcs))
  have hr := congrArg Address.toNat hbr
  have hs := congrArg Address.toNat hcs
  rw [Reference.toNat_address] at hr hs
  rcases hb.disjoint.forall hbmem hcmem hbc with hd | hd <;> rw [Address.le_iff] at hd <;> omega

include hl

theorem initialised_iff : h.Initialised r ↔
    h.spaces.bits.isSet r.address = true ∧ ∃ k : Kind, h.memory.word r.index = k.header := by
  refine hl.initialised_iff_isSet fun hs => ?_
  have hbounds := hb.bounds hs
  omega

theorem ofHeader?_eq_none (hv : h.Vacant r) : Kind.ofHeader? (h.memory.word r.index) = none := by
  cases hk : Kind.ofHeader? (h.memory.word r.index) with
  | none => rfl
  | some k =>
    have hheader := (Kind.ofHeader?_eq_some_iff.mp hk).symm
    exact absurd ((hb.initialised_iff hl).mpr ⟨hv.1, k, hheader⟩) hv.2

theorem off_stack (hs : h.spaces.bits.isSet r.address = true) (j : Nat) :
    ¬ h.OnStack (r.index + j) := by
  have hbounds := hb.bounds hs
  have hstack := hl.stack_bounds
  unfold OnStack
  omega

theorem stop_inside {b : AddressRange} (hmem : b ∈ blocks) :
    b.stop.toNat ≤ 4 * h.memory.words.size := by
  have hcursor := hl.cursor_inside
  have hle := Address.le_iff.mp (hb.within b hmem).2.2
  omega

theorem holds (hi : h.Initialised r) : ∃ b ∈ blocks, b.start = r.address ∧ h.Holds r b := by
  obtain ⟨hs, k, hk⟩ := (hb.initialised_iff hl).mp hi
  obtain ⟨b, hmem, hstart, hindex⟩ := hb.exists_block hs
  refine ⟨b, hmem, hstart, (hb.filled b hmem r hstart.symm).resolve_left ?_⟩
  rintro ⟨w, hw, hnone⟩
  have hbounds := hb.bounds hs
  have hcursor := hl.cursor_inside
  rw [Memory.load_address (by omega), Except.ok.injEq, hk] at hw
  rw [← hw, Kind.ofHeader?_header] at hnone
  nomatch hnone

/-- The words of an object are not masked. -/
theorem not_masked {b : AddressRange} (hmem : b ∈ blocks) (hstart : b.start = r.address)
    (hi : h.Initialised r) {j : Nat} (hj : 4 * (r.index + j) < b.stop.toNat) :
    ¬ h.Masked (r.index + j) := by
  have hs := ((hb.initialised_iff hl).mp hi).1
  rintro (⟨v, hv, hindex⟩ | ⟨hstack, -⟩)
  · obtain ⟨c, hcmem, hcstart, -⟩ := hb.exists_block hv.1
    have hc := (hb.within c hcmem).2.1
    have hcindex := congrArg Address.toNat hcstart
    rw [Reference.toNat_address] at hcindex
    have hne : r ≠ v := fun heq => hv.2 (heq ▸ hi)
    rcases hb.apart hmem hcmem hstart hcstart hne with hd | hd <;> omega
  · exact hb.off_stack hl hs j hstack

/-- A block that holds no object has no header. -/
theorem vacant_of_ofHeader?_eq_none {b : AddressRange} (hmem : b ∈ blocks) (hstart : b.start = r.address)
    (hnone : Kind.ofHeader? (h.memory.word r.index) = none) : h.Vacant r := by
  refine ⟨(hb.starts _).mpr ⟨b, hmem, hstart⟩, fun hi => ?_⟩
  obtain ⟨-, k, hk⟩ := (hb.initialised_iff hl).mp hi
  rw [hk, Kind.ofHeader?_header] at hnone
  nomatch hnone

/-- If no raw block looks forwarded, the blocks are as in a regular heap. -/
theorem blocked (hne : ∀ r, h.Vacant r → h.memory.word r.index ≠ forwardedHeader) :
    h.Blocked blocks where
  within := fun b hmem => by
    obtain ⟨h1, h2, h3⟩ := hb.within b hmem
    exact ⟨h1, by rw [Address.lt_iff]; omega, h3⟩
  disjoint := hb.disjoint
  starts := hb.starts
  filled := fun b hmem r hstart => by
    rcases hb.filled b hmem r hstart with ⟨w, hw, hnone⟩ | hholds
    · obtain rfl : w = h.memory.word r.index := (Memory.load_eq_ok_word hw).2.2
      exact .inl ⟨_, hw, hnone, hne r (hb.vacant_of_ofHeader?_eq_none hl hmem hstart.symm hnone)⟩
    · exact .inr hholds

section Rewritten

-- Another memory, with the same words in the objects and no headers in the raw blocks.
variable {m : Memory} (hsize : m.words.size = h.memory.words.size)
  (hobject : ∀ r, h.Initialised r → ∀ b ∈ blocks, b.start = r.address →
    ∀ j, 4 * (r.index + j) < b.stop.toNat → m.word (r.index + j) = h.memory.word (r.index + j))
  (hraw : ∀ r, h.Vacant r → Kind.ofHeader? (m.word r.index) = none)

include hsize hobject hraw

theorem initialised_rewritten : Initialised { h with memory := m } r ↔ h.Initialised r := by
  constructor
  · rintro ⟨hlive, hk⟩
    obtain ⟨k, hk⟩ := Memory.exists_header_of_isOk hk
    have hlive' : h.isLive r = true := hlive
    simp only [isLive, Semispaces.isLive, Bool.and_eq_true] at hlive'
    by_contra hi
    have hnone : Kind.ofHeader? (m.word r.index) = none := hraw r ⟨hlive'.2, hi⟩
    dsimp only at hk
    rw [hk, Kind.ofHeader?_header] at hnone
    cases hnone
  · intro hi
    obtain ⟨hs, k, hk⟩ := (hb.initialised_iff hl).mp hi
    obtain ⟨b, hmem, hstart, hindex⟩ := hb.exists_block hs
    have hlength := (hb.within b hmem).2.1
    have hbounds := hb.bounds hs
    have hcursor := hl.cursor_inside
    have hw : m.word r.index = k.header :=
      (hobject r hi b hmem hstart 0 (by omega)).trans hk
    refine ⟨hi.1, ?_⟩
    rw [Memory.kind_eq_ok (by omega) hw]
    rfl

theorem holds_rewritten {b : AddressRange} (hmem : b ∈ blocks) (hstart : b.start = r.address)
    (hi : h.Initialised r) (hholds : h.Holds r b) : Holds { h with memory := m } r b := by
  have hstop := hb.stop_inside hl hmem
  have hwords := hl.size_le
  obtain ⟨k, hsymbol, hw, hend, hslots⟩ := (holds_iff hwords hstop).mp hholds
  have htwo : 2 ≤ h.size r := Memory.two_le_wordCount hw
  have hsame (j : Nat) (hj : j < h.size r) : m.word (r.index + j) = h.memory.word (r.index + j) :=
    hobject r hi b hmem hstart j (by omega)
  have h0 := hsame 0 (by omega)
  have h1 := hsame 1 (by omega)
  have hcount : m.wordCount r.index = h.size r := Memory.wordCount_congr h0 fun _ _ _ => h1
  refine (holds_iff (by rwa [hsize]) (by rwa [hsize])).mpr
    ⟨k, hsymbol, h0.trans hw, ?_, fun j hj t ht => ?_⟩
  · rw [size, hcount]
    exact hend
  · have hj' : h.memory.IsSlot r.index j := (Memory.isSlot_congr h0 fun _ _ _ => h1).mp hj
    dsimp only at ht
    rw [hsame j hj'.lt] at ht
    exact (hslots j hj' t ht).imp id (hb.initialised_rewritten hl hsize hobject hraw).mpr

theorem parcelled_rewritten : Parcelled { h with memory := m } blocks where
  within := hb.within
  disjoint := hb.disjoint
  starts := hb.starts
  filled := fun b hmem r hstart => by
    by_cases hi : h.Initialised r
    · rcases hb.filled b hmem r hstart with ⟨w, hw, hnone⟩ | hholds
      · obtain rfl : w = h.memory.word r.index := (Memory.load_eq_ok_word hw).2.2
        exact absurd hi (hb.vacant_of_ofHeader?_eq_none hl hmem hstart.symm hnone).2
      · exact .inr (hb.holds_rewritten hl hsize hobject hraw hmem hstart.symm hi hholds)
    · have hset : h.spaces.bits.isSet r.address = true := (hb.starts _).mpr ⟨b, hmem, hstart.symm⟩
      have hbounds := hb.bounds hset
      have hcursor := hl.cursor_inside
      exact .inl ⟨_, Memory.load_address (by dsimp only; omega), hraw r ⟨hset, hi⟩⟩

end Rewritten

end Parcelled

namespace Parcelled

variable {h : Heap} {blocks : List AddressRange} (hl : h.Layout) (hb : h.Parcelled blocks)
  {r : Reference}

include hl hb

theorem object_cleared (r : Reference) (hi : h.Initialised r) (b : AddressRange) (hmem : b ∈ blocks)
    (hstart : b.start = r.address) (j : Nat) (hj : 4 * (r.index + j) < b.stop.toNat) :
    h.cleared.memory.word (r.index + j) = h.memory.word (r.index + j) :=
  word_cleared_of_not_masked (hb.not_masked hl hmem hstart hi hj)

omit hl hb in
theorem raw_cleared (r : Reference) (hv : h.Vacant r) :
    Kind.ofHeader? (h.cleared.memory.word r.index) = none := by
  rw [word_cleared_of_masked (.inl ⟨r, hv, rfl⟩)]
  rfl

theorem initialised_cleared : h.cleared.Initialised r ↔ h.Initialised r :=
  hb.initialised_rewritten hl h.size_cleared (hb.object_cleared hl) raw_cleared

theorem parcelled_cleared : h.cleared.Parcelled blocks :=
  hb.parcelled_rewritten hl h.size_cleared (hb.object_cleared hl) raw_cleared

end Parcelled

namespace Loose

variable {h : Heap} (hl : h.Loose) {r b : Reference} {i : Nat}

include hl

theorem initialised_cleared : h.cleared.Initialised r ↔ h.Initialised r := by
  obtain ⟨blocks, hb⟩ := hl.blocks
  exact hb.initialised_cleared hl.toLayout

/-- Without what might deceive, the heap is regular. -/
theorem regular_cleared : h.cleared.Regular := by
  obtain ⟨blocks, hb⟩ := hl.blocks
  have hlayout : h.cleared.Layout := hl.withMemory h.size_cleared rfl
  refine { hlayout with blocks := ⟨blocks, (hb.parcelled_cleared hl.toLayout).blocked hlayout ?_⟩ }
  intro r hv
  have hv' : h.Vacant r := ⟨hv.1, fun hi => hv.2 (hl.initialised_cleared.mpr hi)⟩
  rw [word_cleared_of_masked (.inl ⟨r, hv', rfl⟩)]
  decide

theorem ofHeader?_eq_none (hv : h.Vacant b) : Kind.ofHeader? (h.memory.word b.index) = none := by
  obtain ⟨blocks, hb⟩ := hl.blocks
  exact hb.ofHeader?_eq_none hl.toLayout hv

theorem bounds (hs : h.spaces.bits.isSet r.address = true) :
    h.spaces.active.start.toNat ≤ 4 * r.index ∧ 4 * (r.index + 2) ≤ h.bump.cursor.toNat := by
  obtain ⟨blocks, hb⟩ := hl.blocks
  exact hb.bounds hs

theorem off_stack (hs : h.spaces.bits.isSet r.address = true) (j : Nat) :
    ¬ h.OnStack (r.index + j) := by
  obtain ⟨blocks, hb⟩ := hl.blocks
  exact hb.off_stack hl.toLayout hs j

/-- The second word of a raw block lies in no other block. -/
theorem apart (hv : h.Vacant b) (hs : h.spaces.bits.isSet r.address = true) (hne : b ≠ r) :
    b.index + 1 < r.index ∨ r.index + 1 < b.index := by
  obtain ⟨blocks, hb⟩ := hl.blocks
  obtain ⟨c, hcmem, hcstart, hcindex⟩ := hb.exists_block hv.1
  obtain ⟨d, hdmem, hdstart, hdindex⟩ := hb.exists_block hs
  have hc := (hb.within c hcmem).2.1
  have hd := (hb.within d hdmem).2.1
  rcases hb.apart hcmem hdmem hcstart hdstart hne with h' | h' <;> omega

theorem second_not_masked (hv : h.Vacant b) : ¬ h.Masked (b.index + 1) := by
  rintro (⟨v, hv', hindex⟩ | ⟨hstack, -⟩)
  · have hne : b ≠ v := by
      rintro rfl
      omega
    rcases hl.apart hv hv'.1 hne with hlt | hlt <;> omega
  · exact hl.off_stack hv.1 1 hstack

/-- On the stack, only the addresses of raw blocks are masked. -/
theorem exists_vacant (hi : h.OnStack i) (hmasked : h.Masked i) :
    ∃ b, Word.target? (h.memory.word i) = some b ∧ h.Vacant b := by
  rcases hmasked with ⟨r, hv, rfl⟩ | ⟨-, hb⟩
  · exact absurd hi (hl.off_stack hv.1 0)
  · exact hb

theorem spares : h.cleared.Spares h.Masked where
  object := fun r hi j hj => by
    obtain ⟨blocks, hb⟩ := hl.blocks
    have hlayout := hl.regular_cleared.toLayout
    have hb' := hb.parcelled_cleared hl.toLayout
    obtain ⟨b, hmem, hstart, hholds⟩ := hb'.holds hlayout hi
    obtain ⟨k, -, -, hend, -⟩ := (holds_iff hlayout.size_le (hb'.stop_inside hlayout hmem)).mp hholds
    exact hb.not_masked hl.toLayout hmem hstart (hl.initialised_cleared.mp hi) (by omega)
  target := fun i hlow hhigh => by
    have hscratch := hl.scratch_start
    have hstack := hl.stack_bounds
    have hcursor := Address.le_iff.mp hl.cursor_le
    have hlimit := hl.limit
    have hlow' : h.target ≤ i := hlow
    have hhigh' : 4 * i < h.spaces.scratch.start.toNat + h.spaces.active.extent := hhigh
    rintro (⟨r, hv, rfl⟩ | ⟨hon, -⟩)
    · have hbounds := hl.bounds hv.1
      rcases hl.spaces.disjoint with hd | hd <;> omega
    · unfold OnStack at hon
      omega

end Loose

end Heap

end CopyingHeap
