import CopyingHeap.Proofs.Heap.Blocks
import CopyingHeap.Proofs.StartBits.Listing
import Mathlib.Data.List.Sort

/-!
Two ways to list the objects of a heap. The start bits give the addresses at which the blocks of the
active space start; the objects themselves give them too, if each of them fills its block, since then the
next one starts where it ends.
-/

namespace CopyingHeap

theorem mapM_ofAddress (rs : List Reference) :
    (rs.map Reference.address).mapM Reference.ofAddress = .ok rs := by
  induction rs with
  | nil => rfl
  | cons r rs ih =>
    rw [List.map_cons, List.mapM_cons, Reference.ofAddress_address, ok_bind, ih]
    rfl

namespace Memory

/-- The objects from `position` on, if each of them starts where the one before it ends, and the last
one ends at `stop`. -/
def walk (m : Memory) (position stop : Address) : Except Fault (List Reference) :=
  if position < stop then do
    let r ← Reference.ofAddress position
    let bytes ← m.objectSize r
    let next ← position.add bytes
    if _h : position < next then return r :: (← walk m next stop)
    else throw (.scanStalled position)
  else if position = stop then .ok []
  else .error (.scanMissedCursor position stop)
termination_by 0x100000000 - position.toNat
decreasing_by
  have hn := next.toNat_lt
  rw [Address.lt_iff] at _h
  omega

theorem walk_self (m : Memory) (stop : Address) : m.walk stop stop = .ok [] := by
  have hstop : ¬ stop < stop := Nat.lt_irrefl stop.toNat
  rw [walk, if_neg hstop, if_pos rfl]

/-- A walk stops at an object that reaches beyond the end. -/
theorem walk_beyond {m : Memory} {r : Reference} {bytes : Nat} {next stop : Address}
    (hsize : m.objectSize r = .ok bytes) (hnext : r.address.add bytes = .ok next)
    (hlt : r.address < stop) (hbeyond : stop < next) :
    m.walk r.address stop = .error (.scanMissedCursor next stop) := by
  rw [Address.lt_iff] at hlt hbeyond
  have hstep : r.address < next := Address.lt_iff.mpr (by omega)
  have hpast : ¬ next < stop := by
    rw [Address.lt_iff]
    omega
  have hne : next ≠ stop := by
    rintro rfl
    omega
  rw [walk, if_pos (Address.lt_iff.mpr hlt), Reference.ofAddress_address, ok_bind, hsize, ok_bind,
    hnext, ok_bind, dif_pos hstep, walk, if_neg hpast, if_neg hne]
  rfl

/-- An object of `n` words comes before those that start behind it. -/
theorem walk_cons {m : Memory} {r : Reference} {n : Nat} {stop : Address} {rs : List Reference}
    (hsize : m.objectSize r = .ok (4 * n)) (hn : 0 < n) (hend : 4 * (r.index + n) ≤ stop.toNat)
    (hrest : m.walk (.ofNat (4 * (r.index + n))) stop = .ok rs) :
    m.walk r.address stop = .ok (r :: rs) := by
  have hstop := stop.toNat_lt
  have hnext := Address.toNat_ofNat_of_lt (n := 4 * (r.index + n)) (by omega)
  have hlt : r.address < stop := by
    rw [Address.lt_iff, Reference.toNat_address]
    omega
  have hstep : r.address < Address.ofNat (4 * (r.index + n)) := by
    rw [Address.lt_iff, Reference.toNat_address, hnext]
    omega
  rw [walk, if_pos hlt, Reference.ofAddress_address, ok_bind, hsize, ok_bind, r.add_eq (by omega),
    ok_bind, dif_pos hstep, hrest]
  rfl

end Memory

namespace Heap

/-- The block of `x` is one object, and no longer than the object. -/
def Filled (h : Heap) (x : Reference × Nat) : Prop :=
  ∃ k : Kind, k ≠ .symbol ∧ h.memory.word x.1.index = k.header ∧ h.size x.1 = x.2

theorem Filled.objectSize_eq {h : Heap} (hl : h.Layout) {x : Reference × Nat} (hx : h.Filled x)
    (hend : 4 * (x.1.index + x.2) ≤ h.bump.cursor.toNat) :
    0 < x.2 ∧ h.memory.objectSize x.1 = .ok (4 * x.2) := by
  obtain ⟨k, -, hheader, hwords⟩ := hx
  have htwo : 2 ≤ h.size x.1 := Memory.two_le_wordCount hheader
  have hinside := hl.cursor_inside
  refine ⟨by omega, ?_⟩
  rw [Memory.objectSize_eq hl.size_le (by omega) hheader, ← hwords]
  rfl

/-- The blocks ahead of the walk, the first of which starts at `position`. -/
theorem walk_eq_of_tiles {h : Heap} (hl : h.Layout) {xs : List (Reference × Nat)}
    {position : Address} (ha : position.WordAligned) (hfilled : ∀ x ∈ xs, h.Filled x)
    (ht : Tiles (fun x => x.1.index) Prod.snd (position.toNat / 4) xs (h.bump.cursor.toNat / 4)) :
    h.memory.walk position h.bump.cursor = .ok (xs.map Prod.fst) := by
  have hcursor := hl.cursor_aligned
  unfold Address.WordAligned at hcursor
  induction xs generalizing position with
  | nil =>
    unfold Address.WordAligned at ha
    unfold Tiles at ht
    have hend : position = h.bump.cursor := Address.ext_toNat (by omega)
    rw [hend]
    exact h.memory.walk_self h.bump.cursor
  | cons x xs ih =>
    obtain ⟨hplace, hrest⟩ := ht
    rw [← hplace] at hrest
    dsimp only at hplace hrest
    have hle := hrest.le
    have hend : 4 * (x.1.index + x.2) ≤ h.bump.cursor.toNat := by omega
    have hlt := h.bump.cursor.toNat_lt
    obtain ⟨hpos, hsize⟩ := (hfilled x List.mem_cons_self).objectSize_eq hl hend
    have hposition : x.1.address = position := by
      apply Address.ext_toNat
      unfold Address.WordAligned at ha
      rw [Reference.toNat_address]
      omega
    rw [← hposition]
    apply Memory.walk_cons hsize hpos hend
    apply ih
    · exact wordAligned_ofNat _
    · exact fun y hy => hfilled y (List.mem_cons_of_mem x hy)
    · rw [toNat_ofNat_div (by omega)]
      exact hrest

namespace Tiled

variable {h : Heap} (hl : h.Layout) {xs : List (Reference × Nat)} (ht : h.Tiled xs) {r : Reference}

include ht

/-- The blocks are in the order of their addresses. -/
theorem increasing : (xs.map Prod.fst).Pairwise fun r s => r.index < s.index := by
  rw [List.pairwise_map]
  apply List.Pairwise.imp_of_mem _ ht.tiles.pairwise
  intro x y hx hy hle
  have hpos := ht.nonempty x hx
  omega

include hl

theorem isLive_iff : h.isLive r = true ↔ r ∈ xs.map Prod.fst := by
  have hmem : r ∈ xs.map Prod.fst ↔ h.spaces.bits.isSet r.address = true := by
    rw [ht.isSet_iff, List.mem_map]
  rw [hmem]
  simp only [isLive, Semispaces.isLive, Bool.and_eq_true, decide_eq_true_eq]
  constructor
  · exact And.right
  · intro hs
    obtain ⟨x, hx, rfl⟩ := ht.isSet_iff.mp hs
    have hb := ht.bounds hl hx
    have hpos := ht.nonempty x hx
    rw [Address.le_iff, Address.lt_iff, Reference.toNat_address]
    exact ⟨⟨by omega, by omega⟩, hs⟩

/-- The set start bits are those of the blocks, in the same order. -/
theorem setBetween_eq : h.spaces.bits.setBetween h.spaces.active.start h.bump.cursor =
    (xs.map Prod.fst).map Reference.address := by
  have : Std.Antisymm fun a c : Address => a.toNat < c.toNat := ⟨fun a c h1 h2 => by omega⟩
  have : Std.Irrefl fun a c : Address => a.toNat < c.toNat := ⟨fun a => Nat.lt_irrefl _⟩
  apply StartBits.pairwise_setBetween.eq_of_mem_iff
  · rw [List.pairwise_map]
    apply ht.increasing.imp
    intro r s hlt
    rw [Reference.toNat_address, Reference.toNat_address]
    omega
  · intro a
    rw [StartBits.mem_setBetween hl.spaces.active_aligned hl.cursor_aligned, List.map_map,
      List.mem_map, ht.starts]
    constructor
    · exact And.left
    · rintro ⟨x, hx, rfl⟩
      have hb := ht.bounds hl hx
      have hpos := ht.nonempty x hx
      refine ⟨⟨x, hx, rfl⟩, ?_⟩
      rw [Address.le_iff, Address.lt_iff, Function.comp_apply, Reference.toNat_address]
      omega

/-- The start bits list the blocks. -/
theorem objects_eq : h.objects = .ok (xs.map Prod.fst) := by
  rw [objects, ht.setBetween_eq hl, mapM_ofAddress]

/-- Where every block is one object, a walk from object to object lists the blocks too. -/
theorem walk_eq (hfilled : ∀ x ∈ xs, h.Filled x) :
    h.memory.walk h.spaces.active.start h.bump.cursor = .ok (xs.map Prod.fst) :=
  walk_eq_of_tiles hl hl.spaces.active_aligned hfilled ht.tiles

end Tiled

end Heap

end CopyingHeap
