import CopyingHeap.Proofs.Heap.Allocation
import CopyingHeap.Proofs.Heap.Isomorphism

/-!
A new block at the cursor of a regular heap. It holds no object yet, so the objects and their graph stay
as they are, and its start bit is the only one to come. None of this depends on where the scratch space
is, which a growth may just have moved.
-/

namespace CopyingHeap

namespace Heap

/-- A zeroed block of `n` words at the cursor of `h` has been handed out; the layout may have become
wider. -/
structure Added (h : Heap) (r : Reference) (n : Nat) (k : Heap) : Prop where
  place : r.address = h.bump.cursor
  stack : k.stack = h.stack
  base : k.spaces.base = h.spaces.base
  start : k.spaces.active.start = h.spaces.active.start
  cursor : k.bump.cursor.toNat = h.bump.cursor.toNat + 4 * n
  limit : k.bump.limit.toNat = k.spaces.active.start.toNat + k.spaces.active.extent
  cursor_le : k.bump.cursor ≤ k.bump.limit
  paged : k.memory.Paged
  inside : k.spaces.active.start.toNat + k.spaces.active.extent ≤ 4 * k.memory.words.size
  size_le : h.memory.words.size ≤ k.memory.words.size
  isSet : ∀ a, k.spaces.bits.isSet a = true ↔ h.spaces.bits.isSet a = true ∨ a = h.bump.cursor
  word : ∀ i, k.memory.word i = if r.index ≤ i ∧ i < r.index + n then 0 else h.memory.word i
  placed : h.spaces.base.WordAligned → k.spaces.Placed k.memory

theorem recordAllocation_spec (s : Statistics) (bytes : Nat) :
    Ends (s.recordAllocation bytes) (fun t => t = { s with allocated := s.allocated + bytes })
      (fun f => f = .overflow ∧ Size.bound ≤ s.allocated + bytes) := by
  unfold Statistics.recordAllocation
  rcases Nat.lt_or_ge (s.allocated + bytes) Size.bound with h | h
  · rw [Size.add_eq_ok h]
    rfl
  · rw [Size.add_eq_error h]
    exact ⟨rfl, h⟩

theorem Widened.takeBlock {h k : Heap} (hw : h.Widened k) (hl : h.Layout) {n : Nat} (hn : 0 < n)
    {a : Address} {bump : Bump} (hb : k.bump.alloc (4 * n) = some (a, bump)) :
    Ends (k.takeBlock a bump (4 * n))
      (fun l => (∃ r, a = r.address ∧ h.Added r n l) ∧
        l.memory.words.size = k.memory.words.size ∧ l.recent = k.recent ∧
        l.statistics = { k.statistics with allocated := k.statistics.allocated + 4 * n })
      (fun f => f = .overflow ∧ Size.bound ≤ k.statistics.allocated + 4 * n) := by
  obtain ⟨rfl, hlimit, hcursor, hle⟩ := Bump.alloc_eq_some_iff.mp hb
  have hlim := hw.limit
  have hinside := hw.inside
  have hcursorLe := Address.le_iff.mp hle
  have haligned : k.bump.cursor.WordAligned := hw.cursor ▸ hl.cursor_aligned
  have hcovers : k.spaces.bits.Covers (k.bump.cursor.toNat + 4 * n) :=
    Nat.le_trans (by omega) hw.covered
  obtain ⟨bits, hcells, hset, htake⟩ := takeBlock_spec hn haligned (by omega) hcovers
  rw [htake]
  apply (recordAllocation_spec k.statistics (4 * n)).bind
  rintro statistics rfl
  refine ⟨⟨⟨k.bump.cursor, haligned⟩, rfl, ?_⟩, Memory.size_withFill .., rfl, rfl⟩
  unfold Address.WordAligned at haligned
  refine
    { place := hw.cursor
      stack := hw.stack
      base := hw.base
      start := hw.start
      cursor := by rw [hcursor, hw.cursor]
      limit := (congrArg Address.toNat hlimit).trans hlim
      cursor_le := hlimit ▸ hle
      paged := hw.paged.withFill _ _ _
      inside := ?_
      size_le := ?_
      isSet := ?_
      word := ?_
      placed := ?_ }
  · rw [Memory.size_withFill]
    exact hinside
  · rw [Memory.size_withFill]
    exact hw.size_le
  · intro b
    dsimp only
    rw [hset, hw.isSet, hw.cursor]
  · intro i
    rw [← hw.word i]
    exact Memory.word_withFill (by omega) 0 i
  · intro hbase
    exact (hw.placed hbase).congr (Memory.size_withFill ..) hcells

namespace Added

variable {h k : Heap} {r s : Reference} {n : Nat} (ha : h.Added r n k)

include ha

theorem index_eq : 4 * r.index = h.bump.cursor.toNat := by
  rw [← ha.place, Reference.toNat_address]

theorem word_below {i : Nat} (hi : 4 * i < h.bump.cursor.toNat) :
    k.memory.word i = h.memory.word i := by
  have hindex := ha.index_eq
  rw [ha.word, if_neg (by omega)]

theorem word_block {j : Nat} (hj : j < n) : k.memory.word (r.index + j) = 0 := by
  rw [ha.word, if_pos (by omega)]

theorem cursor_inside : k.bump.cursor.toNat ≤ 4 * k.memory.words.size := by
  have h1 := Address.le_iff.mp ha.cursor_le
  have h2 := ha.limit
  have h3 := ha.inside
  omega

variable (hn : 0 < n) (hr : h.Regular)

include hn hr

theorem isLive_iff : k.isLive s = true ↔ h.isLive s = true ∨ s = r := by
  have hcursor := ha.cursor
  rw [hr.isLive_iff]
  simp only [isLive, Semispaces.isLive, Bool.and_eq_true, decide_eq_true_eq, ha.isSet, ha.start]
  constructor
  · rintro ⟨-, hset | hplace⟩
    · exact .inl hset
    · exact .inr (Reference.ext_address (hplace.trans ha.place.symm))
  · rintro (hset | rfl)
    · obtain ⟨hstart, hlt⟩ := hr.isSet_within hset
      rw [Address.lt_iff] at hlt ⊢
      exact ⟨⟨hstart, by omega⟩, .inl hset⟩
    · rw [Address.lt_iff, ha.place]
      exact ⟨⟨hr.start_le, by omega⟩, .inr rfl⟩

/-- The new block holds no object yet, so the objects are those from before. -/
theorem initialised_iff : k.Initialised s ↔ h.Initialised s := by
  have hsize := ha.size_le
  unfold Initialised
  rw [ha.isLive_iff hn hr]
  constructor
  · rintro ⟨hlive | rfl, hkind⟩
    · obtain ⟨c, hc⟩ := Memory.exists_header_of_isOk hkind
      have hset := hr.isLive_iff.mp hlive
      rw [ha.word_below (hr.index_within hset).2] at hc
      exact hr.initialised_iff.mpr ⟨hset, c, hc⟩
    · obtain ⟨c, hc⟩ := Memory.exists_header_of_isOk hkind
      have hzero := ha.word_block (j := 0) hn
      rw [Nat.add_zero, hc] at hzero
      cases c <;> nomatch hzero
  · intro hi
    have hset := hr.isSet_of_initialised hi
    have hbelow := (hr.index_within hset).2
    have hin := hr.index_lt_size hset
    obtain ⟨c, -, -, hc⟩ := hr.kind_eq hi
    refine ⟨.inl hi.1, ?_⟩
    rw [Memory.kind_eq_ok (by omega) ((ha.word_below hbelow).trans hc)]
    rfl

theorem preserves : h.Preserves k where
  stack := ha.stack
  base := ha.base
  small := ha.paged.size_le
  size_le := ha.size_le
  initialised_iff := fun _ => ha.initialised_iff hn hr
  word := fun _ => ha.word_below

theorem allows {w : Word} (hw : h.Allows w) : k.Allows w := by
  intro s htarget
  rw [ha.base, ha.initialised_iff hn hr]
  exact hw s htarget

/-- The new block comes after all the others. -/
theorem blocked {blocks : List AddressRange} (hb : h.Blocked blocks) :
    k.Blocked (⟨r.address, k.bump.cursor⟩ :: blocks) := by
  have hcursor := ha.cursor
  refine
    { within := ?_
      disjoint := ?_
      starts := ?_
      filled := ?_ }
  · intro b hmem
    rcases List.mem_cons.mp hmem with rfl | hmem
    · rw [ha.start, ha.place]
      exact ⟨hr.start_le, Address.lt_iff.mpr (by dsimp only; omega), Nat.le_refl _⟩
    · obtain ⟨h1, h2, h3⟩ := hb.within b hmem
      rw [Address.le_iff] at h3
      rw [ha.start]
      exact ⟨h1, h2, Address.le_iff.mpr (by omega)⟩
  · refine List.Pairwise.cons (fun b hmem => .inr ?_) hb.disjoint
    rw [ha.place]
    exact (hb.within b hmem).2.2
  · intro a
    rw [ha.isSet, hb.starts, List.exists_mem_cons_iff, ha.place, or_comm, eq_comm (a := a)]
  · intro b hmem s hs
    rcases List.mem_cons.mp hmem with rfl | hmem
    · left
      obtain rfl : s = r := Reference.ext_address hs
      have hinside := ha.cursor_inside
      have hindex := ha.index_eq
      have hzero := ha.word_block (j := 0) hn
      exact ⟨0, hzero ▸ Memory.load_address (by omega), by decide, by decide⟩
    · exact hb.filled_congr hr.toLayout ha.paged.size_le ha.size_le (fun _ _ => ha.word_below)
        (fun _ => ha.allows hn hr) hmem hs

theorem layout (hbase : h.spaces.base.WordAligned) : k.Layout where
  paged := ha.paged
  spaces := ha.placed hbase
  stack := ha.stack ▸ ha.base ▸ hr.stack
  limit := ha.limit
  cursor_aligned := by
    have haligned := hr.cursor_aligned
    have hcursor := ha.cursor
    unfold Address.WordAligned at haligned ⊢
    omega
  start_le := by
    have hstart := Address.le_iff.mp hr.start_le
    have hcursor := ha.cursor
    rw [ha.start, Address.le_iff]
    omega
  cursor_le := ha.cursor_le

end Added

theorem Added.wellFormed {h k : Heap} {r : Reference} {n : Nat} (ha : h.Added r n k) (hn : 0 < n)
    (hw : h.WellFormed) (hbase : h.spaces.base.WordAligned) : k.WellFormed := by
  obtain ⟨blocks, hb⟩ := hw.blocks
  exact
    { ha.layout hn hw.toRegular hbase with
      blocks := ⟨_, ha.blocked hn hw.toRegular hb⟩
      reserved := ha.stack ▸ hw.reserved
      limit_le := ha.stack ▸ hw.limit_le }

end Heap

end CopyingHeap
