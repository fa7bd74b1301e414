import CopyingHeap.Proofs.Heap.Blocks
import CopyingHeap.Proofs.Heap.Reachable

/-!
The history of the blocks. Allocation adds one at the cursor, a collection leaves one for each object
that the roots reach, and nothing else changes them. The start bits determine the blocks, so that a bit
that is set or cleared by mistake is a block that nobody handed out.
-/

namespace CopyingHeap

namespace Heap

/-- The blocks `xs` of the active space of `h` become the blocks `ys` of that of `k`. -/
inductive Ledger :
    Heap → List (Reference × Nat) → Heap → List (Reference × Nat) → Prop where
  | same {h k : Heap} {xs : List (Reference × Nat)} :
      k.spaces = h.spaces → k.bump = h.bump → Ledger h xs k xs
  | grown {h k : Heap} {xs : List (Reference × Nat)} {bytes : Nat} :
      h.growFor bytes = .ok k → Ledger h xs k xs
  | handed {h k : Heap} {xs : List (Reference × Nat)} {r : Reference} {n : Nat} {bump : Bump} :
      h.bump.alloc (4 * n) = some (r.address, bump) →
      h.takeBlock r.address bump (4 * n) = .ok k → Ledger h xs k (xs ++ [(r, n)])
  | collected {h k : Heap} {xs : List (Reference × Nat)} {moves : List (Reference × Reference)} :
      h.collect = .ok k → (moves.map Prod.fst).Nodup →
      (∀ r, r ∈ moves.map Prod.fst ↔ h.Reachable r) →
      Ledger h xs k (moves.map fun p => (p.2, h.size p.1))
  | trans {h k l : Heap} {xs ys zs : List (Reference × Nat)} :
      Ledger h xs k ys → Ledger k ys l zs → Ledger h xs l zs

/-- The start bits and the cursor determine the blocks. -/
theorem Tiled.unique {h k : Heap} {xs ys : List (Reference × Nat)} (hx : h.Tiled xs)
    (hy : k.Tiled ys) (hspaces : k.spaces = h.spaces) (hbump : k.bump = h.bump) : xs = ys := by
  have htiles := hy.tiles
  rw [hspaces, hbump] at htiles
  refine hx.tiles.unique htiles hx.nonempty hy.nonempty (fun i => ?_) fun x y hplace hsize => ?_
  · have hstarts (r : Reference) : (∃ x ∈ xs, x.1 = r) ↔ ∃ y ∈ ys, y.1 = r := by
      rw [← hx.isSet_iff, ← hy.isSet_iff, hspaces]
    constructor
    · rintro ⟨x, hx, rfl⟩
      obtain ⟨y, hy, hyx⟩ := (hstarts x.1).mp ⟨x, hx, rfl⟩
      exact ⟨y, hy, congrArg Reference.index hyx⟩
    · rintro ⟨y, hy, rfl⟩
      obtain ⟨x, hx, hxy⟩ := (hstarts y.1).mpr ⟨y, hy, rfl⟩
      exact ⟨x, hx, congrArg Reference.index hxy⟩
  · exact Prod.ext (Reference.index_inj.mp hplace) hsize

/-- Between the heaps nothing has changed below the limit of the stack, nor where the stack and the
spaces begin, and the blocks are those that have been handed out or evacuated. -/
structure Keeps (h k : Heap) : Prop where
  spaces : k.spaces.base = h.spaces.base
  stack : k.stack.base = h.stack.base
  limit : k.stack.limit = h.stack.limit
  static : ∀ i, 4 * i < h.stack.limit.toNat → k.memory.word i = h.memory.word i
  blocks : ∀ xs, h.Tiled xs → ∃ ys, k.Tiled ys ∧ Ledger h xs k ys

theorem Keeps.refl (h : Heap) : h.Keeps h :=
  ⟨rfl, rfl, rfl, fun _ _ => rfl, fun xs hx => ⟨xs, hx, .same rfl rfl⟩⟩

theorem Keeps.trans {h k l : Heap} (hk : h.Keeps k) (hl : k.Keeps l) : h.Keeps l where
  spaces := hl.spaces.trans hk.spaces
  stack := hl.stack.trans hk.stack
  limit := hl.limit.trans hk.limit
  static := fun i hi => (hl.static i (hk.limit ▸ hi)).trans (hk.static i hi)
  blocks := fun xs hx => by
    obtain ⟨ys, hy, hxy⟩ := hk.blocks xs hx
    obtain ⟨zs, hz, hyz⟩ := hl.blocks ys hy
    exact ⟨zs, hz, hxy.trans hyz⟩

/-- A change of memory and of the top of the stack leaves the blocks where they are. -/
theorem Keeps.of_same {h k : Heap} (hspaces : k.spaces = h.spaces) (hbump : k.bump = h.bump)
    (hstack : k.stack.base = h.stack.base) (hlimit : k.stack.limit = h.stack.limit)
    (hstatic : ∀ i, 4 * i < h.stack.limit.toNat → k.memory.word i = h.memory.word i)
    (htiled : ∃ ys, k.Tiled ys) : h.Keeps k := by
  refine ⟨by rw [hspaces], hstack, hlimit, hstatic, fun xs hx => ?_⟩
  obtain ⟨ys, hy⟩ := htiled
  obtain rfl := hx.unique hy hspaces hbump
  exact ⟨xs, hy, .same hspaces hbump⟩

end Heap

end CopyingHeap
