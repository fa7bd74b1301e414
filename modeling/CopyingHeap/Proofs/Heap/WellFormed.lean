import CopyingHeap.Heap.Basic
import CopyingHeap.Proofs.Object.Shape
import CopyingHeap.Proofs.StartBits
import Mathlib.Data.List.Pairwise

/-!
The states of a heap that its operations meet: where the spaces, the stack and the start bits are, and
what the blocks of the active space hold. The facts at the end name objects and slots by words; the
proofs about collections and allocation use those.
-/

namespace CopyingHeap

/-- The ranges have no address in common, and neither lies inside the other. -/
def AddressRange.Apart (b c : AddressRange) : Prop :=
  b.stop ≤ c.start ∨ c.stop ≤ b.start

instance : Std.Symm AddressRange.Apart :=
  ⟨fun _ _ h => h.symm⟩

/-- Two spaces of one size lie in memory, from the base of the heap upwards, and do not overlap. -/
structure Semispaces.Placed (s : Semispaces) (m : Memory) : Prop where
  active_aligned : s.active.start.WordAligned
  scratch_aligned : s.scratch.start.WordAligned
  extent_words : s.active.extent % 4 = 0
  extent_eq : s.scratch.extent = s.active.extent
  reserved : Size.reservedBytes ≤ s.base.toNat
  base_le_active : s.base ≤ s.active.start
  base_le_scratch : s.base ≤ s.scratch.start
  active_inside : s.active.start.toNat + s.active.extent ≤ 4 * m.words.size
  scratch_inside : s.scratch.start.toNat + s.active.extent ≤ 4 * m.words.size
  active_covered : s.bits.Covers (s.active.start.toNat + s.active.extent)
  scratch_covered : s.bits.Covers (s.scratch.start.toNat + s.active.extent)
  disjoint : s.active.start.toNat + s.active.extent ≤ s.scratch.start.toNat ∨
    s.scratch.start.toNat + s.active.extent ≤ s.active.start.toNat

/-- The words on the stack lie below `top`, and above the limit if there are any. -/
structure ShadowStack.Placed (s : ShadowStack) (top : Address) : Prop where
  base_aligned : s.base.WordAligned
  sp_aligned : s.sp.WordAligned
  sp_le : s.sp ≤ s.base
  base_le : s.base ≤ top
  limit_le : s.limit ≤ s.sp ∨ s.sp = s.base

/-- An aligned slot of the stack is a whole word of it. -/
theorem ShadowStack.Holds.index {s : ShadowStack} {slot : RootSlot} (h : s.Holds slot)
    (ha : slot.address.WordAligned) :
    s.sp.toNat ≤ 4 * (slot.address.toNat / 4) ∧ 4 * (slot.address.toNat / 4) < s.base.toNat := by
  have hsp : s.sp.toNat ≤ slot.address.toNat := Address.le_iff.mp h.1
  have hbase : slot.address.toNat < s.base.toNat := Address.lt_iff.mp h.2
  unfold Address.WordAligned at ha
  omega

namespace Heap

/-- An object starts here: a start bit is set in the used part of the active space, and the header is
that of a kind. -/
def Initialised (h : Heap) (r : Reference) : Prop :=
  h.isLive r = true ∧ (h.memory.kind r).isOk = true

instance (h : Heap) (r : Reference) : Decidable (h.Initialised r) :=
  inferInstanceAs (Decidable (_ ∧ _))

/-- What a word behind a reference slot may be: no reference, one to an object below the heap, or one
to an initialised object. -/
def Allows (h : Heap) (w : Word) : Prop :=
  ∀ r, Word.target? w = some r → r.address < h.spaces.base ∨ h.Initialised r

/-- A block that holds no object, and does not look forwarded. -/
def Raw (h : Heap) (r : Reference) : Prop :=
  ∃ w, h.memory.load r.address = .ok w ∧ Kind.ofHeader? w = none ∧ w ≠ forwardedHeader

/-- An object of the heap lies in the block, and its reference slots hold what they may. -/
def Holds (h : Heap) (r : Reference) (block : AddressRange) : Prop :=
  ∃ k bytes, h.memory.kind r = .ok k ∧ k ≠ .symbol ∧ h.memory.objectSize r = .ok bytes ∧
    r.address.toNat + bytes ≤ block.stop.toNat ∧
    ∀ slot w, h.memory.HasSlot r slot → h.memory.load slot = .ok w → h.Allows w

/-- The start bits are those of disjoint blocks in the used part of the active space, each of them raw
or an object. -/
structure Blocked (h : Heap) (blocks : List AddressRange) : Prop where
  within : ∀ b ∈ blocks, h.spaces.active.start ≤ b.start ∧ b.start < b.stop ∧ b.stop ≤ h.bump.cursor
  disjoint : blocks.Pairwise AddressRange.Apart
  starts : ∀ a, h.spaces.bits.isSet a = true ↔ ∃ b ∈ blocks, b.start = a
  filled : ∀ b ∈ blocks, ∀ r : Reference, r.address = b.start → h.Raw r ∨ h.Holds r b

/-- The layout of memory: the spaces, the stack below them, and the cursor in the active space. -/
structure Layout (h : Heap) : Prop where
  paged : h.memory.Paged
  spaces : h.spaces.Placed h.memory
  stack : h.stack.Placed h.spaces.base
  limit : h.bump.limit.toNat = h.spaces.active.start.toNat + h.spaces.active.extent
  cursor_aligned : h.bump.cursor.WordAligned
  start_le : h.spaces.active.start ≤ h.bump.cursor
  cursor_le : h.bump.cursor ≤ h.bump.limit

/-- A heap whose memory is laid out so, with blocks in the active space. -/
structure Regular (h : Heap) : Prop extends h.Layout where
  blocks : ∃ blocks, h.Blocked blocks

/-- A regular heap whose stack keeps off the reserved low bytes and above its limit. -/
structure WellFormed (h : Heap) : Prop extends h.Regular where
  reserved : Size.reservedBytes ≤ h.stack.limit.toNat
  limit_le : h.stack.limit ≤ h.stack.sp

/-- The words that the object at `r` takes. -/
def size (h : Heap) (r : Reference) : Nat :=
  h.memory.wordCount r.index

/-- What it says that a block holds an object, in terms of words. -/
theorem holds_iff {h : Heap} (hsize : h.memory.words.size ≤ 0x3FFFC000) {r : Reference}
    {b : AddressRange} (hstop : b.stop.toNat ≤ 4 * h.memory.words.size) :
    h.Holds r b ↔ ∃ k : Kind, k ≠ .symbol ∧ h.memory.word r.index = k.header ∧
      4 * (r.index + h.size r) ≤ b.stop.toNat ∧
      ∀ j, h.memory.IsSlot r.index j → h.Allows (h.memory.word (r.index + j)) := by
  constructor
  · rintro ⟨k, bytes, hk, hsymbol, hbytes, hle, hslots⟩
    obtain ⟨hlt, hw⟩ := Memory.kind_eq_ok_word hk
    have hindex := r.toNat_address
    have height := hbytes
    rw [Memory.objectSize, hk, ok_bind] at height
    have htwo := Memory.eight_le_of_sizeAs height
    rw [Memory.objectSize_eq hsize (by omega) hw, Except.ok.injEq] at hbytes
    have hend : 4 * (r.index + h.size r) ≤ b.stop.toNat := by
      unfold size
      omega
    refine ⟨k, hsymbol, hw, hend, fun j hj => ?_⟩
    have hlt : j < h.size r := hj.lt
    exact hslots _ _ ((Memory.hasSlot_iff hsize hw (by unfold size at hend; omega)).mpr ⟨j, hj, rfl⟩)
      (Memory.load_word (by omega) (by omega))
  · rintro ⟨k, hsymbol, hw, hend, hslots⟩
    have htwo : 2 ≤ h.size r := Memory.two_le_wordCount hw
    have hindex := r.toNat_address
    refine ⟨k, _, Memory.kind_eq_ok (by omega) hw, hsymbol,
      Memory.objectSize_eq hsize (by omega) hw, ?_, fun slot w hslot hload => ?_⟩
    · unfold size at hend
      omega
    · obtain ⟨j, hj, rfl⟩ := (Memory.hasSlot_iff hsize hw (by unfold size at hend; omega)).mp hslot
      have hlt : j < h.size r := hj.lt
      rw [Memory.load_word (by omega) (by omega), Except.ok.injEq] at hload
      exact hload ▸ hslots j hj

namespace Layout

variable {h : Heap} (hl : h.Layout) {r : Reference}

include hl

theorem size_le : h.memory.words.size ≤ 0x3FFFC000 :=
  hl.paged.size_le

theorem cursor_inside : h.bump.cursor.toNat ≤ 4 * h.memory.words.size := by
  have h1 := Address.le_iff.mp hl.cursor_le
  have h2 := hl.limit
  have h3 := hl.spaces.active_inside
  omega

theorem stack_bounds : h.stack.sp.toNat % 4 = 0 ∧ h.stack.base.toNat % 4 = 0 ∧
    h.stack.sp.toNat ≤ h.stack.base.toNat ∧
    h.stack.base.toNat ≤ h.spaces.active.start.toNat ∧
    h.stack.base.toNat ≤ h.spaces.scratch.start.toNat := by
  have h1 := Address.le_iff.mp hl.stack.sp_le
  have h2 := Address.le_iff.mp hl.stack.base_le
  have h3 := Address.le_iff.mp hl.spaces.base_le_active
  have h4 := Address.le_iff.mp hl.spaces.base_le_scratch
  exact ⟨hl.stack.sp_aligned, hl.stack.base_aligned, h1, by omega, by omega⟩

theorem stack_inside {i : Nat} (hi : 4 * i < h.stack.base.toNat) : i < h.memory.words.size := by
  have h1 := hl.stack_bounds
  have h2 := hl.spaces.active_inside
  omega

omit hl in
theorem index_live (hlive : h.isLive r = true) :
    h.spaces.active.start.toNat ≤ 4 * r.index ∧ 4 * r.index < h.bump.cursor.toNat := by
  simp only [isLive, Semispaces.isLive, Bool.and_eq_true, decide_eq_true_eq, Address.le_iff,
    Address.lt_iff, Reference.toNat_address] at hlive
  exact hlive.1

theorem initialised_iff : h.Initialised r ↔
    h.isLive r = true ∧ ∃ k : Kind, h.memory.word r.index = k.header := by
  refine and_congr_right fun hlive => ⟨Memory.exists_header_of_isOk, ?_⟩
  rintro ⟨k, hk⟩
  have hindex := index_live hlive
  have hcursor := hl.cursor_inside
  rw [Memory.kind_eq_ok (by omega) hk]
  rfl

theorem initialised_iff_isSet (hin : h.spaces.bits.isSet r.address = true →
      h.spaces.active.start.toNat ≤ 4 * r.index ∧ 4 * r.index < h.bump.cursor.toNat) :
    h.Initialised r ↔
      h.spaces.bits.isSet r.address = true ∧ ∃ k : Kind, h.memory.word r.index = k.header := by
  rw [hl.initialised_iff]
  refine and_congr_left fun _ => ?_
  simp only [isLive, Semispaces.isLive, Bool.and_eq_true, decide_eq_true_eq, Address.le_iff,
    Address.lt_iff, Reference.toNat_address]
  exact ⟨And.right, fun hs => ⟨hin hs, hs⟩⟩

end Layout

/-- The blocks of `h` hold in `k` what they held in `h`, if their words are the same. -/
theorem Blocked.filled_congr {h k : Heap} {blocks : List AddressRange} (hb : h.Blocked blocks)
    (hl : h.Layout) (hsmall : k.memory.words.size ≤ 0x3FFFC000)
    (hsize : h.memory.words.size ≤ k.memory.words.size)
    (hword : ∀ i, h.spaces.active.start.toNat ≤ 4 * i → 4 * i < h.bump.cursor.toNat →
      k.memory.word i = h.memory.word i)
    (hallows : ∀ w, h.Allows w → k.Allows w) {b : AddressRange} (hmem : b ∈ blocks) {r : Reference}
    (hr : r.address = b.start) : k.Raw r ∨ k.Holds r b := by
  have hcursor := hl.cursor_inside
  obtain ⟨hstart, hlt, hstop⟩ := hb.within b hmem
  have hindex := r.toNat_address
  rw [Address.le_iff] at hstart hstop
  rw [Address.lt_iff] at hlt
  rw [hr] at hindex
  have hsame (j : Nat) (hj : 4 * (r.index + j) < b.stop.toNat) :
      k.memory.word (r.index + j) = h.memory.word (r.index + j) :=
    hword _ (by omega) (by omega)
  have hheader : k.memory.word r.index = h.memory.word r.index := hsame 0 (by omega)
  rcases hb.filled b hmem r hr with ⟨w, hw, hnone, hne⟩ | hholds
  · left
    rw [Memory.load_address (by omega), Except.ok.injEq] at hw
    refine ⟨w, ?_, hnone, hne⟩
    rw [Memory.load_address (by omega), hheader, hw]
  · right
    obtain ⟨c, hsymbol, hc, hend, hslots⟩ := (holds_iff hl.size_le (by omega)).mp hholds
    have htwo : 2 ≤ h.size r := Memory.two_le_wordCount hc
    have hlength := hsame 1 (by omega)
    have hcount : k.size r = h.size r := Memory.wordCount_congr hheader fun _ _ _ => hlength
    refine (holds_iff hsmall (by omega)).mpr ⟨c, hsymbol, hheader.trans hc, by omega, fun j hj => ?_⟩
    have hj' := (Memory.isSlot_congr hheader fun _ _ _ => hlength).mp hj
    have hlast : j < h.size r := hj'.lt
    rw [hsame j (by omega)]
    exact hallows _ (hslots j hj')

namespace Regular

variable {h : Heap} (hr : h.Regular) {r s : Reference}

include hr

theorem isSet_within {a : Address} (ha : h.spaces.bits.isSet a = true) :
    h.spaces.active.start ≤ a ∧ a < h.bump.cursor := by
  obtain ⟨blocks, hb⟩ := hr.blocks
  obtain ⟨b, hmem, rfl⟩ := (hb.starts a).mp ha
  obtain ⟨h1, h2, h3⟩ := hb.within b hmem
  rw [Address.le_iff] at h3
  rw [Address.lt_iff] at h2 ⊢
  exact ⟨h1, by omega⟩

theorem isLive_iff : h.isLive r = true ↔ h.spaces.bits.isSet r.address = true := by
  simp only [isLive, Semispaces.isLive, Bool.and_eq_true, decide_eq_true_eq]
  exact ⟨And.right, fun hs => ⟨hr.isSet_within hs, hs⟩⟩

theorem isSet_of_initialised (hi : h.Initialised r) : h.spaces.bits.isSet r.address = true :=
  hr.isLive_iff.mp hi.1

theorem index_within (hs : h.spaces.bits.isSet r.address = true) :
    h.spaces.active.start.toNat ≤ 4 * r.index ∧ 4 * r.index < h.bump.cursor.toNat := by
  have hw := hr.isSet_within hs
  rwa [Address.le_iff, Address.lt_iff, Reference.toNat_address] at hw

theorem index_lt_size (hs : h.spaces.bits.isSet r.address = true) :
    r.index < h.memory.words.size := by
  have h1 := hr.index_within hs
  have h2 := hr.cursor_inside
  omega

theorem initialised_iff : h.Initialised r ↔
    h.spaces.bits.isSet r.address = true ∧ ∃ k : Kind, h.memory.word r.index = k.header := by
  rw [hr.toLayout.initialised_iff, hr.isLive_iff]

theorem ne_null (hi : h.Initialised r) : r ≠ Reference.null := by
  have h1 := hr.index_within (hr.isSet_of_initialised hi)
  have h2 := Address.le_iff.mp hr.spaces.base_le_active
  have h3 := hr.spaces.reserved
  rw [Reference.ne_null_iff]
  unfold Size.reservedBytes at h3
  omega

theorem not_below (hi : h.Initialised r) : ¬ r.address < h.spaces.base := by
  have h1 := hr.index_within (hr.isSet_of_initialised hi)
  have h2 := Address.le_iff.mp hr.spaces.base_le_active
  rw [Address.lt_iff, Reference.toNat_address]
  omega

theorem raw (hs : h.spaces.bits.isSet r.address = true) (hi : ¬ h.Initialised r) :
    Kind.ofHeader? (h.memory.word r.index) = none ∧ h.memory.word r.index ≠ forwardedHeader := by
  obtain ⟨blocks, hb⟩ := hr.blocks
  obtain ⟨b, hmem, hstart⟩ := (hb.starts _).mp hs
  rcases hb.filled b hmem r hstart.symm with ⟨w, hw, hkind, hne⟩ | ⟨k, bytes, hk, -⟩
  · rw [Memory.load_address (hr.index_lt_size hs), Except.ok.injEq] at hw
    exact hw ▸ ⟨hkind, hne⟩
  · exact absurd (hr.initialised_iff.mpr ⟨hs, k, (Memory.kind_eq_ok_word hk).2⟩) hi

theorem exists_block (hi : h.Initialised r) {blocks : List AddressRange} (hb : h.Blocked blocks) :
    ∃ b ∈ blocks, b.start = r.address ∧ h.Holds r b := by
  obtain ⟨hs, k, hk⟩ := hr.initialised_iff.mp hi
  obtain ⟨b, hmem, hstart⟩ := (hb.starts _).mp hs
  refine ⟨b, hmem, hstart, (hb.filled b hmem r hstart.symm).resolve_left ?_⟩
  rintro ⟨w, hw, hkind, -⟩
  rw [Memory.load_address (hr.index_lt_size hs), Except.ok.injEq, hk] at hw
  rw [← hw, Kind.ofHeader?_header] at hkind
  nomatch hkind

theorem objectSize_eq {blocks : List AddressRange} (hb : h.Blocked blocks) {b : AddressRange}
    (hmem : b ∈ blocks) (hh : h.Holds r b) :
    h.memory.objectSize r = .ok (4 * h.size r) ∧ 4 * (r.index + h.size r) ≤ b.stop.toNat := by
  have hcursor := hr.cursor_inside
  have hstop := Address.le_iff.mp (hb.within b hmem).2.2
  obtain ⟨k, -, hw, hend, -⟩ := (holds_iff hr.size_le (by omega)).mp hh
  have htwo : 2 ≤ h.size r := Memory.two_le_wordCount hw
  exact ⟨Memory.objectSize_eq hr.size_le (by omega) hw, hend⟩

/-- An object ends in the used part of the active space, and no block starts inside it. -/
theorem object_end (hi : h.Initialised r) :
    4 * (r.index + h.size r) ≤ h.bump.cursor.toNat ∧
      ∀ s : Reference, h.spaces.bits.isSet s.address = true → r.index < s.index →
        r.index + h.size r ≤ s.index := by
  obtain ⟨blocks, hb⟩ := hr.blocks
  obtain ⟨b, hmem, hstart, hh⟩ := hr.exists_block hi hb
  have hend := (hr.objectSize_eq hb hmem hh).2
  have hle := Address.le_iff.mp (hb.within b hmem).2.2
  refine ⟨by omega, fun s hs hlt => ?_⟩
  obtain ⟨c, hc, hcs⟩ := (hb.starts _).mp hs
  have hne : b ≠ c := by
    rintro rfl
    rw [hstart, ← Address.toNat_inj, Reference.toNat_address, Reference.toNat_address] at hcs
    omega
  have hcstop := Address.lt_iff.mp (hb.within c hc).2.1
  have hcstart := congrArg Address.toNat hcs
  have hbstart := congrArg Address.toNat hstart
  rw [Reference.toNat_address] at hcstart hbstart
  rcases hb.disjoint.forall hmem hc hne with h' | h' <;> rw [Address.le_iff] at h' <;> omega

theorem two_le_size (hi : h.Initialised r) : 2 ≤ h.size r := by
  obtain ⟨-, k, hk⟩ := hr.initialised_iff.mp hi
  exact Memory.two_le_wordCount hk

theorem end_le_size (hi : h.Initialised r) : r.index + h.size r ≤ h.memory.words.size := by
  have h1 := (hr.object_end hi).1
  have h2 := hr.cursor_inside
  omega

theorem separate (hi : h.Initialised r) (hj : h.Initialised s) (hne : r ≠ s) :
    r.index + h.size r ≤ s.index ∨ s.index + h.size s ≤ r.index := by
  rcases Nat.lt_trichotomy r.index s.index with hlt | heq | hlt
  · exact .inl ((hr.object_end hi).2 s (hr.isSet_of_initialised hj) hlt)
  · exact absurd (Reference.index_inj.mp heq) hne
  · exact .inr ((hr.object_end hj).2 r (hr.isSet_of_initialised hi) hlt)

theorem kind_eq (hi : h.Initialised r) :
    ∃ k : Kind, k ≠ .symbol ∧ h.memory.kind r = .ok k ∧ h.memory.word r.index = k.header := by
  obtain ⟨blocks, hb⟩ := hr.blocks
  obtain ⟨b, hmem, -, k, bytes, hk, hne, -⟩ := hr.exists_block hi hb
  exact ⟨k, hne, hk, (Memory.kind_eq_ok_word hk).2⟩

theorem objectSize (hi : h.Initialised r) : h.memory.objectSize r = .ok (4 * h.size r) := by
  obtain ⟨blocks, hb⟩ := hr.blocks
  obtain ⟨b, hmem, -, hh⟩ := hr.exists_block hi hb
  exact (hr.objectSize_eq hb hmem hh).1

theorem hasSlot_iff (hi : h.Initialised r) {a : Address} :
    h.memory.HasSlot r a ↔
      ∃ j, h.memory.IsSlot r.index j ∧ a = Address.ofNat (4 * (r.index + j)) := by
  obtain ⟨k, -, -, hk⟩ := hr.kind_eq hi
  exact Memory.hasSlot_iff hr.size_le hk (hr.end_le_size hi)

theorem load_slot (hi : h.Initialised r) {j : Nat} (hj : j < h.size r) :
    h.memory.load (Address.ofNat (4 * (r.index + j))) = .ok (h.memory.word (r.index + j)) := by
  have h1 := hr.end_le_size hi
  have h2 := hr.size_le
  exact Memory.load_word (by omega) (by omega)

theorem allows (hi : h.Initialised r) {j : Nat} (hj : h.memory.IsSlot r.index j) :
    h.Allows (h.memory.word (r.index + j)) := by
  obtain ⟨blocks, hb⟩ := hr.blocks
  obtain ⟨b, hmem, -, k, bytes, -, -, -, -, hslots⟩ := hr.exists_block hi hb
  exact hslots _ _ ((hr.hasSlot_iff hi).mpr ⟨j, hj, rfl⟩) (hr.load_slot hi hj.lt)

end Regular

theorem WellFormed.limit_le_base {h : Heap} (hw : h.WellFormed) :
    h.stack.limit ≤ h.spaces.base := by
  have h1 := Address.le_iff.mp hw.limit_le
  have h2 := Address.le_iff.mp hw.stack.sp_le
  have h3 := Address.le_iff.mp hw.stack.base_le
  rw [Address.le_iff]
  omega

end Heap

end CopyingHeap
