import CopyingHeap.Proofs.Heap.Reachable
import Mathlib.Data.List.Nodup

/-!
Breadth-first order. What has been found is a list, and following its elements one after another appends
what has not been found yet. The order in which things are found depends on nothing but where the search
starts and what each thing leads to, so a renaming of the things renames the order.
-/

namespace CopyingHeap

section Search

variable {α β : Type} [DecidableEq α] [DecidableEq β]

def visitOne (seen : List α) (x : α) : List α :=
  if x ∈ seen then seen else seen ++ [x]

/-- Appends those that have not been seen yet, in their order. -/
def visit (seen xs : List α) : List α :=
  xs.foldl visitOne seen

/-- Following the elements of `seen`, all but the first `n` of which are still to be followed, ends with
the list `found`. -/
inductive Breadth (next : α → List α) : List α → Nat → List α → Prop where
  | done {seen : List α} : Breadth next seen seen.length seen
  | step {seen found : List α} {n : Nat} {x : α} : seen[n]? = some x →
      Breadth next (visit seen (next x)) (n + 1) found → Breadth next seen n found

theorem visit_append (seen xs ys : List α) : visit seen (xs ++ ys) = visit (visit seen xs) ys :=
  List.foldl_append

theorem mem_visitOne {seen : List α} {x y : α} : y ∈ visitOne seen x ↔ y ∈ seen ∨ y = x := by
  unfold visitOne
  split
  · rename_i hx
    exact ⟨.inl, fun h => h.elim id fun heq => heq ▸ hx⟩
  · rw [List.mem_append, List.mem_singleton]

/-- A list without duplicates that adds nothing but `x` to what has been seen, and has `x`. -/
theorem append_eq_visitOne {seen xs : List α} {x : α} (hnodup : (seen ++ xs).Nodup)
    (hall : ∀ y ∈ xs, y = x) (hmem : x ∈ seen ++ xs) : seen ++ xs = visitOne seen x := by
  obtain ⟨-, hxs, hapart⟩ := List.nodup_append.mp hnodup
  unfold visitOne
  by_cases hold : x ∈ seen
  · have hnil : xs = [] := List.eq_nil_iff_forall_not_mem.mpr fun y hy =>
      hapart x hold y hy (hall y hy).symm
    rw [if_pos hold, hnil, List.append_nil]
  · have hnew := (List.mem_append.mp hmem).resolve_left hold
    have hone : xs.Perm [x] := by
      refine (List.perm_ext_iff_of_nodup hxs (List.nodup_singleton x)).mpr fun y => ?_
      rw [List.mem_singleton]
      exact ⟨hall y, fun hy => hy ▸ hnew⟩
    rw [if_neg hold, List.perm_singleton.mp hone]

theorem mem_visit {seen xs : List α} {y : α} : y ∈ visit seen xs ↔ y ∈ seen ∨ y ∈ xs := by
  induction xs generalizing seen with
  | nil => simp [visit]
  | cons x xs ih =>
    rw [visit, List.foldl_cons, ← visit, ih, mem_visitOne, List.mem_cons, or_assoc]

variable {next : α → List α} {seen found : List α} {n : Nat}

theorem Breadth.unique {other : List α} (h : Breadth next seen n found)
    (h' : Breadth next seen n other) : found = other := by
  induction h with
  | done =>
    cases h' with
    | done => rfl
    | step hx _ =>
      rw [List.getElem?_eq_none (Nat.le_refl _)] at hx
      cases hx
  | @step seen found n x hx _ ih =>
    cases h' with
    | done =>
      rw [List.getElem?_eq_none (Nat.le_refl _)] at hx
      cases hx
    | @step _ _ _ y hy hrest =>
      rw [hx, Option.some.injEq] at hy
      subst hy
      exact ih hrest

section Map

variable {f : α → β} {s : Set α} (hf : Set.InjOn f s)

include hf

theorem map_visit {xs : List α} (hseen : ∀ x ∈ seen, x ∈ s) (hxs : ∀ x ∈ xs, x ∈ s) :
    visit (seen.map f) (xs.map f) = (visit seen xs).map f := by
  induction xs generalizing seen with
  | nil => rfl
  | cons x xs ih =>
    have hx := hxs x List.mem_cons_self
    have hmem : f x ∈ seen.map f ↔ x ∈ seen := by
      rw [List.mem_map]
      constructor
      · rintro ⟨y, hy, heq⟩
        exact hf (hseen y hy) hx heq ▸ hy
      · intro hmem
        exact ⟨x, hmem, rfl⟩
    have hone : visitOne (seen.map f) (f x) = (visitOne seen x).map f := by
      unfold visitOne
      by_cases h : x ∈ seen
      · rw [if_pos h, if_pos (hmem.mpr h)]
      · rw [if_neg h, if_neg (mt hmem.mp h), List.map_append, List.map_singleton]
    rw [visit, visit, List.map_cons, List.foldl_cons, List.foldl_cons, hone, ← visit, ← visit]
    refine ih (fun y hy => ?_) fun y hy => hxs y (List.mem_cons_of_mem x hy)
    rcases mem_visitOne.mp hy with hy | rfl
    · exact hseen y hy
    · exact hx

/-- Renaming what is searched renames what is found. -/
theorem Breadth.map {follow : β → List β} (hclosed : ∀ x ∈ s, ∀ y ∈ next x, y ∈ s)
    (hnext : ∀ x ∈ s, follow (f x) = (next x).map f) (hseen : ∀ x ∈ seen, x ∈ s)
    (h : Breadth next seen n found) : Breadth follow (seen.map f) n (found.map f) := by
  induction h with
  | @done seen =>
    have hdone : Breadth follow (seen.map f) (seen.map f).length (seen.map f) := .done
    rwa [List.length_map] at hdone
  | @step seen found n x hx _ ih =>
    have hxs := hseen x (List.mem_of_getElem? hx)
    have hchildren := hclosed x hxs
    refine .step (x := f x) (by rw [List.getElem?_map, hx]; rfl) ?_
    rw [hnext x hxs, map_visit hf hseen hchildren]
    refine ih fun y hy => ?_
    rcases mem_visit.mp hy with hy | hy
    · exact hseen y hy
    · exact hchildren y hy

end Map

end Search

instance (m : Memory) (i j : Nat) : Decidable (m.IsSlot i j) :=
  match h : Kind.ofHeader? (m.word i) with
  | some k => decidable_of_iff (k.IsSlot (m.word (i + 1)).toNat j)
      (Memory.isSlot_iff (Kind.ofHeader?_eq_some_iff.mp h).symm).symm
  | none => isFalse (by
      rintro ⟨k, hk, -⟩
      rw [hk, Kind.ofHeader?_header] at h
      cases h)

namespace Heap

/-- The object that a word names, if it names one. -/
def named? (h : Heap) (w : Word) : Option Reference :=
  (Word.target? w).filter fun r => decide (h.Initialised r)

/-- The objects that the words at these places name, in the order of the places. -/
def objectsAt (h : Heap) (places : List Nat) : List Reference :=
  places.filterMap fun i => h.named? (h.memory.word i)

/-- The objects that the words of the stack from `i` on name. -/
def rootsFrom (h : Heap) (i : Nat) : List Reference :=
  h.objectsAt (List.range' i (h.stack.base.toNat / 4 - i))

/-- The objects that the reference slots of an object from word `j` on name. -/
def childrenFrom (h : Heap) (r : Reference) (j : Nat) : List Reference :=
  h.objectsAt
    (((List.range' j (h.size r - j)).filter fun i => h.memory.IsSlot r.index i).map (r.index + ·))

def children (h : Heap) (r : Reference) : List Reference :=
  h.childrenFrom r 0

/-- The list of all objects that a collection keeps, in the order in which it finds them. -/
def Order (h : Heap) (rs : List Reference) : Prop :=
  Breadth h.children (visit [] (h.rootsFrom (h.stack.sp.toNat / 4))) 0 rs

variable {h : Heap} {w : Word} {r : Reference} {i j k : Nat}

theorem named?_eq_some_iff : h.named? w = some r ↔ Word.target? w = some r ∧ h.Initialised r := by
  rw [named?, Option.filter_eq_some_iff, decide_eq_true_iff]

theorem objectsAt_cons (i : Nat) (places : List Nat) :
    h.objectsAt (i :: places) = (h.named? (h.memory.word i)).toList ++ h.objectsAt places := by
  unfold objectsAt
  rw [List.filterMap_cons]
  cases h.named? (h.memory.word i) <;> rfl

theorem rootsFrom_of_lt (hi : 4 * i < h.stack.base.toNat) (hbase : h.stack.base.toNat % 4 = 0) :
    h.rootsFrom i = (h.named? (h.memory.word i)).toList ++ h.rootsFrom (i + 1) := by
  have hcount : h.stack.base.toNat / 4 - i = h.stack.base.toNat / 4 - (i + 1) + 1 := by omega
  rw [rootsFrom, hcount, List.range'_succ, objectsAt_cons]
  rfl

theorem isSome_named? (w : Word) : (h.named? w).isSome = h.namesObject w := by
  rw [Bool.eq_iff_iff, namesObject_iff, Option.isSome_iff_exists]
  simp only [named?_eq_some_iff]

theorem length_toList_named? (w : Word) :
    (h.named? w).toList.length = if h.namesObject w = true then 1 else 0 := by
  rw [← isSome_named?]
  cases h.named? w <;> rfl

theorem length_rootsFrom : (h.rootsFrom (h.stack.sp.toNat / 4)).length = h.rootCount := by
  rw [rootsFrom, objectsAt, List.length_filterMap_eq_countP, rootCount]
  simp only [isSome_named?]

theorem rootsFrom_of_le (hi : h.stack.base.toNat ≤ 4 * i) : h.rootsFrom i = [] := by
  have hcount : h.stack.base.toNat / 4 - i = 0 := by omega
  rw [rootsFrom, hcount]
  rfl

theorem childrenFrom_of_isSlot (hj : h.memory.IsSlot r.index j) : h.childrenFrom r j =
    (h.named? (h.memory.word (r.index + j))).toList ++ h.childrenFrom r (j + 1) := by
  have hlt : j < h.size r := hj.lt
  have hcount : h.size r - j = h.size r - (j + 1) + 1 := by omega
  rw [childrenFrom, hcount, List.range'_succ, List.filter_cons, if_pos (decide_eq_true hj),
    List.map_cons, objectsAt_cons]
  rfl

theorem childrenFrom_of_not_isSlot (hj : ¬ h.memory.IsSlot r.index j) :
    h.childrenFrom r j = h.childrenFrom r (j + 1) := by
  rcases Nat.lt_or_ge j (h.size r) with hlt | hle
  · have hcount : h.size r - j = h.size r - (j + 1) + 1 := by omega
    rw [childrenFrom, hcount, List.range'_succ, List.filter_cons, if_neg (mt of_decide_eq_true hj)]
    rfl
  · rw [childrenFrom, childrenFrom, show h.size r - j = 0 from by omega,
      show h.size r - (j + 1) = 0 from by omega]
    rfl

theorem childrenFrom_skip (hjk : j ≤ k) (hno : ∀ i, j ≤ i → i < k → ¬ h.memory.IsSlot r.index i) :
    h.childrenFrom r j = h.childrenFrom r k := by
  induction hjk with
  | refl => rfl
  | @step k hjk ih =>
    rw [ih fun i h1 h2 => hno i h1 (by omega),
      childrenFrom_of_not_isSlot (hno k hjk (Nat.lt_succ_self k))]

theorem childrenFrom_eq_nil (hno : ∀ i, j ≤ i → ¬ h.memory.IsSlot r.index i) :
    h.childrenFrom r j = [] := by
  have hnone : (List.range' j (h.size r - j)).filter (fun i => h.memory.IsSlot r.index i) = [] := by
    rw [List.filter_eq_nil_iff]
    intro i hi
    rw [decide_eq_true_iff]
    exact hno i (List.mem_range'_1.mp hi).1
  rw [childrenFrom, hnone]
  rfl

end Heap

end CopyingHeap
