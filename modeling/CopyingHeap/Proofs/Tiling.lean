import Mathlib.Algebra.BigOperators.Group.Finset.Basic
import Mathlib.Algebra.Ring.Nat
import Mathlib.Order.Interval.Finset.Nat

/-!
Blocks that lie end to end, and blocks that do not overlap. The first add up to the stretch they
cover; the second add up to no more than the stretch they lie in.
-/

namespace CopyingHeap

variable {α : Type}

/-- The blocks of `xs`, each at its place and of its size, lie end to end from `start` to `stop`. -/
def Tiles (place size : α → Nat) (start : Nat) : List α → Nat → Prop
  | [], stop => start = stop
  | x :: xs, stop => place x = start ∧ Tiles place size (start + size x) xs stop

section Tiles

variable {place size : α → Nat} {start stop : Nat} {xs ys : List α}

theorem tiles_append :
    Tiles place size start (xs ++ ys) stop ↔
      ∃ middle, Tiles place size start xs middle ∧ Tiles place size middle ys stop := by
  induction xs generalizing start with
  | nil => simp [Tiles]
  | cons x xs ih => simp only [List.cons_append, Tiles, ih, and_assoc, exists_and_left]

theorem tiles_map {β : Type} {f : β → α} {xs : List β} :
    Tiles place size start (xs.map f) stop ↔
      Tiles (fun x => place (f x)) (fun x => size (f x)) start xs stop := by
  induction xs generalizing start with
  | nil => rfl
  | cons x xs ih => exact and_congr_right fun _ => ih

theorem Tiles.congr {place' size' : α → Nat} (h : Tiles place size start xs stop)
    (heq : ∀ x ∈ xs, place' x = place x ∧ size' x = size x) :
    Tiles place' size' start xs stop := by
  induction xs generalizing start with
  | nil => exact h
  | cons x xs ih =>
    obtain ⟨hplace, hsize⟩ := heq x List.mem_cons_self
    refine ⟨hplace.trans h.1, ?_⟩
    rw [hsize]
    exact ih h.2 fun y hy => heq y (List.mem_cons_of_mem x hy)

theorem Tiles.scale (h : Tiles place size start xs stop) (n : Nat) :
    Tiles (fun x => n * place x) (fun x => n * size x) (n * start) xs (n * stop) := by
  induction xs generalizing start with
  | nil => exact congrArg (n * ·) h
  | cons x xs ih =>
    refine ⟨congrArg (n * ·) h.1, ?_⟩
    rw [← Nat.mul_add]
    exact ih h.2

theorem Tiles.snoc {x : α} (h : Tiles place size start xs stop) (hx : place x = stop) :
    Tiles place size start (xs ++ [x]) (stop + size x) :=
  tiles_append.mpr ⟨stop, h, hx, rfl⟩

theorem Tiles.sum_eq (h : Tiles place size start xs stop) :
    stop = start + (xs.map size).sum := by
  induction xs generalizing start with
  | nil => simpa [Tiles] using h.symm
  | cons x xs ih =>
    rw [ih h.2, List.map_cons, List.sum_cons]
    omega

theorem Tiles.le (h : Tiles place size start xs stop) : start ≤ stop := by
  have := h.sum_eq
  omega

theorem Tiles.mem (h : Tiles place size start xs stop) {x : α} (hx : x ∈ xs) :
    start ≤ place x ∧ place x + size x ≤ stop := by
  obtain ⟨before, after, rfl⟩ := List.append_of_mem hx
  obtain ⟨middle, hbefore, hplace, hafter⟩ := tiles_append.mp h
  have := hbefore.le
  have := hafter.le
  omega

/-- Every number in the stretch lies in a block. -/
theorem Tiles.exists_mem (h : Tiles place size start xs stop) {i : Nat} (hlow : start ≤ i)
    (hhigh : i < stop) : ∃ x ∈ xs, place x ≤ i ∧ i < place x + size x := by
  induction xs generalizing start with
  | nil =>
    unfold Tiles at h
    omega
  | cons x xs ih =>
    obtain ⟨hplace, hrest⟩ := h
    rcases Nat.lt_or_ge i (start + size x) with hi | hi
    · exact ⟨x, List.mem_cons_self, by omega⟩
    · obtain ⟨y, hy, hin⟩ := ih hrest hi
      exact ⟨y, List.mem_cons_of_mem x hy, hin⟩

/-- Blocks of the same sizes lie at the same distances from the start. -/
theorem Tiles.shift {β : Type} {place' size' : β → Nat} {start' stop' : Nat} {ys : List β}
    {R : α → β → Prop} (hxy : List.Forall₂ R xs ys) (hx : Tiles place size start xs stop)
    (hy : Tiles place' size' start' ys stop') (hsize : ∀ x ∈ xs, ∀ y, R x y → size x = size' y) :
    stop + start' = stop' + start ∧
      ∀ x ∈ xs, ∃ y ∈ ys, R x y ∧ place x + start' = place' y + start := by
  induction hxy generalizing start start' with
  | nil =>
    unfold Tiles at hx hy
    exact ⟨by omega, fun x hx => absurd hx List.not_mem_nil⟩
  | @cons x y xs ys hhead _ ih =>
    have hsame := hsize x List.mem_cons_self y hhead
    obtain ⟨hplace, hx⟩ := hx
    obtain ⟨hplace', hy⟩ := hy
    obtain ⟨hstop, hrest⟩ := ih hx hy fun z hz => hsize z (List.mem_cons_of_mem x hz)
    refine ⟨by omega, fun z hz => ?_⟩
    rcases List.mem_cons.mp hz with rfl | hz
    · exact ⟨y, List.mem_cons_self, hhead, by omega⟩
    · obtain ⟨t, ht, hzt, heq⟩ := hrest z hz
      exact ⟨t, List.mem_cons_of_mem y ht, hzt, by omega⟩

theorem Tiles.separate (h : Tiles place size start xs stop) {x y : α} (hx : x ∈ xs) (hy : y ∈ xs) :
    x = y ∨ place x + size x ≤ place y ∨ place y + size y ≤ place x := by
  obtain ⟨before, after, rfl⟩ := List.append_of_mem hx
  obtain ⟨middle, hbefore, hplace, hafter⟩ := tiles_append.mp h
  rcases List.mem_append.mp hy with hy | hy
  · have := hbefore.mem hy
    omega
  · rcases List.mem_cons.mp hy with rfl | hy
    · exact .inl rfl
    · have := hafter.mem hy
      omega

theorem Tiles.pairwise (h : Tiles place size start xs stop) :
    xs.Pairwise fun x y => place x + size x ≤ place y := by
  induction xs generalizing start with
  | nil => exact List.Pairwise.nil
  | cons x xs ih =>
    refine List.Pairwise.cons (fun y hy => ?_) (ih h.2)
    rw [h.1]
    exact (h.2.mem hy).1

/-- The first block ends where the second one starts, if that is also a place in the other tiling. -/
theorem Tiles.head_size_le {x y : α} (hx : Tiles place size start (x :: xs) stop)
    (hy : Tiles place size start (y :: ys) stop) (hpos : ∀ z ∈ x :: xs, 0 < size z)
    (hplaces : ∀ z ∈ xs, ∃ t ∈ y :: ys, place t = place z) : size y ≤ size x := by
  obtain ⟨-, hxs⟩ := hx
  obtain ⟨hplace, hys⟩ := hy
  have hx := hpos x List.mem_cons_self
  have hle := hys.le
  cases xs with
  | nil =>
    unfold Tiles at hxs
    omega
  | cons z xs =>
    have hz := hxs.1
    obtain ⟨t, ht, htz⟩ := hplaces z List.mem_cons_self
    rcases List.mem_cons.mp ht with rfl | ht
    · omega
    · have hafter := (hys.mem ht).1
      omega

/-- The places of blocks that lie end to end determine the blocks. -/
theorem Tiles.unique (hx : Tiles place size start xs stop) (hy : Tiles place size start ys stop)
    (hposx : ∀ x ∈ xs, 0 < size x) (hposy : ∀ y ∈ ys, 0 < size y)
    (hplaces : ∀ i, (∃ x ∈ xs, place x = i) ↔ ∃ y ∈ ys, place y = i)
    (hinjective : ∀ x y, place x = place y → size x = size y → x = y) : xs = ys := by
  induction xs generalizing start ys with
  | nil =>
    cases ys with
    | nil => rfl
    | cons y ys =>
      obtain ⟨x, hx, -⟩ := (hplaces (place y)).mpr ⟨y, List.mem_cons_self, rfl⟩
      nomatch hx
  | cons x xs ih =>
    cases ys with
    | nil =>
      obtain ⟨y, hy, -⟩ := (hplaces (place x)).mp ⟨x, List.mem_cons_self, rfl⟩
      nomatch hy
    | cons y ys =>
      -- Each of the two heads ends at the next place, which is one of both tilings.
      have hyx := hx.head_size_le hy hposx fun z hz =>
        (hplaces (place z)).mp ⟨z, List.mem_cons_of_mem x hz, rfl⟩
      have hxy := hy.head_size_le hx hposy fun z hz =>
        (hplaces (place z)).mpr ⟨z, List.mem_cons_of_mem y hz, rfl⟩
      have hsize : size x = size y := Nat.le_antisymm hxy hyx
      obtain rfl := hinjective x y (hx.1.trans hy.1.symm) hsize
      have hpos := hposx x List.mem_cons_self
      have hrest (i : Nat) : (∃ z ∈ xs, place z = i) ↔ ∃ z ∈ ys, place z = i := by
        have hi := hplaces i
        simp only [List.exists_mem_cons_iff] at hi
        constructor
        · rintro ⟨z, hz, rfl⟩
          refine (hi.mp (.inr ⟨z, hz, rfl⟩)).resolve_left fun heq => ?_
          have hafter := (hx.2.mem hz).1
          have hplace := hx.1
          omega
        · rintro ⟨z, hz, rfl⟩
          refine (hi.mpr (.inr ⟨z, hz, rfl⟩)).resolve_left fun heq => ?_
          have hafter := (hy.2.mem hz).1
          have hplace := hy.1
          omega
      rw [ih hx.2 hy.2 (fun z hz => hposx z (List.mem_cons_of_mem x hz))
        (fun z hz => hposy z (List.mem_cons_of_mem x hz)) hrest]

end Tiles

/-- Blocks in `[a, b)` that do not overlap have at most its size together. -/
theorem sum_le_of_separate {place size : α → Nat} {a b : Nat} {xs : List α}
    (hxs : xs.Nodup) (hmem : ∀ x ∈ xs, a ≤ place x ∧ place x + size x ≤ b)
    (hsep : ∀ x ∈ xs, ∀ y ∈ xs, x ≠ y → place x + size x ≤ place y ∨ place y + size y ≤ place x) :
    (xs.map size).sum ≤ b - a := by
  classical
  -- The numbers in `[a, b)` are counted by the block that they lie in.
  have hdisjoint : (xs.toFinset : Set α).PairwiseDisjoint
      fun x => Finset.Ico (place x) (place x + size x) := by
    intro x hx y hy hxy
    have h := hsep x (List.mem_toFinset.mp hx) y (List.mem_toFinset.mp hy) hxy
    refine Finset.disjoint_left.mpr fun i hi hj => ?_
    rw [Finset.mem_Ico] at hi hj
    omega
  have hcard : (xs.map size).sum =
      (xs.toFinset.biUnion fun x => Finset.Ico (place x) (place x + size x)).card := by
    rw [Finset.card_biUnion hdisjoint, ← List.sum_toFinset size hxs]
    exact Finset.sum_congr rfl fun x _ => by rw [Nat.card_Ico, Nat.add_sub_cancel_left]
  have hsubset : (xs.toFinset.biUnion fun x => Finset.Ico (place x) (place x + size x)) ⊆
      Finset.Ico a b := by
    intro i hi
    obtain ⟨x, hx, hi⟩ := Finset.mem_biUnion.mp hi
    have := hmem x (List.mem_toFinset.mp hx)
    rw [Finset.mem_Ico] at hi ⊢
    omega
  rw [hcard, ← Nat.card_Ico]
  exact Finset.card_le_card hsubset

end CopyingHeap
