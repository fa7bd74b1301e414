import CopyingHeap.Proofs.Heap.WellFormed
import CopyingHeap.Proofs.Tiling

/-!
Blocks that fill the used part of the active space without gaps. Allocation and collection leave it so;
the list of the blocks and of their sizes in words shows that the heap is regular.
-/

namespace CopyingHeap

namespace Heap

/-- The block of `n` words at `r`. -/
def blockAt (x : Reference × Nat) : AddressRange :=
  ⟨x.1.address, Address.ofNat (4 * (x.1.index + x.2))⟩

/-- The blocks lie end to end in the active space, up to the cursor; the start bits are theirs, and
each of them is raw or has room for the object in it. -/
structure Tiled (h : Heap) (xs : List (Reference × Nat)) : Prop where
  tiles : Tiles (fun x => x.1.index) Prod.snd (h.spaces.active.start.toNat / 4) xs
    (h.bump.cursor.toNat / 4)
  nonempty : ∀ x ∈ xs, 0 < x.2
  starts : ∀ a, h.spaces.bits.isSet a = true ↔ ∃ x ∈ xs, x.1.address = a
  filled : ∀ x ∈ xs,
    (Kind.ofHeader? (h.memory.word x.1.index) = none ∧
      h.memory.word x.1.index ≠ forwardedHeader) ∨
    ∃ k : Kind, k ≠ .symbol ∧ h.memory.word x.1.index = k.header ∧ h.size x.1 ≤ x.2

/-- A zeroed block of `n` words, in which no object has been made yet. -/
structure Fresh (h : Heap) (r : Reference) (n : Nat) : Prop where
  block : ∃ xs, h.Tiled xs ∧ (r, n) ∈ xs
  zero : ∀ j < n, h.memory.word (r.index + j) = 0

namespace Tiled

variable {h : Heap} (hl : h.Layout) {xs : List (Reference × Nat)} (ht : h.Tiled xs)
  {x : Reference × Nat} {r : Reference}

include ht

theorem isSet_iff : h.spaces.bits.isSet r.address = true ↔ ∃ x ∈ xs, x.1 = r := by
  rw [ht.starts]
  exact exists_congr fun x => and_congr_right fun _ =>
    ⟨Reference.ext_address, fun hx => hx ▸ rfl⟩

include hl

theorem bounds (hx : x ∈ xs) :
    h.spaces.active.start.toNat ≤ 4 * x.1.index ∧ 4 * (x.1.index + x.2) ≤ h.bump.cursor.toNat := by
  have hmem := ht.tiles.mem hx
  have h1 := hl.cursor_aligned
  have h2 := hl.spaces.active_aligned
  unfold Address.WordAligned at h1 h2
  omega

theorem toNat_stop (hx : x ∈ xs) : (blockAt x).stop.toNat = 4 * (x.1.index + x.2) := by
  have hb := ht.bounds hl hx
  have hc := h.bump.cursor.toNat_lt
  rw [blockAt, Address.toNat_ofNat]
  omega

theorem initialised_iff :
    h.Initialised r ↔
      h.spaces.bits.isSet r.address = true ∧ ∃ k : Kind, h.memory.word r.index = k.header := by
  refine hl.initialised_iff_isSet fun hs => ?_
  obtain ⟨x, hx, rfl⟩ := ht.isSet_iff.mp hs
  have hb := ht.bounds hl hx
  have hpos := ht.nonempty x hx
  omega

/-- Tiled blocks are disjoint blocks, if the slots of their objects hold what they may. -/
theorem blocked (hslots : ∀ r, h.Initialised r → ∀ j, h.memory.IsSlot r.index j →
    h.Allows (h.memory.word (r.index + j))) : h.Blocked (xs.map blockAt) := by
  have hsize := hl.size_le
  refine
    { within := fun b hb => ?_
      disjoint := ?_
      starts := fun a => ?_
      filled := fun b hb r hr => ?_ }
  · obtain ⟨x, hx, rfl⟩ := List.mem_map.mp hb
    have hbounds := ht.bounds hl hx
    have hpos := ht.nonempty x hx
    rw [Address.le_iff, Address.lt_iff, Address.le_iff, ht.toNat_stop hl hx]
    simp only [blockAt, Reference.toNat_address]
    omega
  · refine List.pairwise_map.mpr (List.Pairwise.imp_of_mem (fun {x y} hx _ hxy => .inl ?_)
      ht.tiles.pairwise)
    rw [Address.le_iff, ht.toNat_stop hl hx]
    simp only [blockAt, Reference.toNat_address]
    omega
  · rw [ht.starts]
    simp [blockAt]
  · obtain ⟨x, hx, rfl⟩ := List.mem_map.mp hb
    have hrx : r = x.1 := Reference.ext_address hr
    subst hrx
    have hbounds := ht.bounds hl hx
    have hpos := ht.nonempty x hx
    have hcursor := hl.cursor_inside
    rcases ht.filled x hx with ⟨hkind, hne⟩ | ⟨k, hsymbol, hk, hle⟩
    · exact .inl ⟨_, Memory.load_address (by omega), hkind, hne⟩
    · have htwo : 2 ≤ h.size x.1 := Memory.two_le_wordCount hk
      have hi : h.Initialised x.1 := (ht.initialised_iff hl).mpr ⟨ht.isSet_iff.mpr ⟨x, hx, rfl⟩, k, hk⟩
      refine .inr ⟨k, _, Memory.kind_eq_ok (by omega) hk, hsymbol,
        Memory.objectSize_eq hsize (by omega) hk, ?_, fun slot w hslot hw => ?_⟩
      · rw [ht.toNat_stop hl hx, Reference.toNat_address]
        unfold size at hle
        omega
      · obtain ⟨j, hj, rfl⟩ := (Memory.hasSlot_iff hsize hk (by unfold size at hle; omega)).mp hslot
        have hlt : j < h.size x.1 := hj.lt
        rw [Memory.load_word (by omega) (by omega), Except.ok.injEq] at hw
        exact hw ▸ hslots x.1 hi j hj

theorem regular (hslots : ∀ r, h.Initialised r → ∀ j, h.memory.IsSlot r.index j →
    h.Allows (h.memory.word (r.index + j))) : h.Regular :=
  { hl with blocks := ⟨_, ht.blocked hl hslots⟩ }

end Tiled

theorem Fresh.not_initialised {h : Heap} (hl : h.Layout) {r : Reference} {n : Nat}
    (hf : h.Fresh r n) : ¬ h.Initialised r := by
  obtain ⟨xs, hxs, hr⟩ := hf.block
  have hzero := hf.zero 0 (hxs.nonempty _ hr)
  rw [hxs.initialised_iff hl]
  rintro ⟨-, k, hk⟩
  rw [Nat.add_zero, hk] at hzero
  cases k <;> nomatch hzero

end Heap

end CopyingHeap
