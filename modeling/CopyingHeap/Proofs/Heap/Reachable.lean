import CopyingHeap.Proofs.Heap.WellFormed
import Mathlib.Algebra.Ring.Nat
import Mathlib.Data.Set.Function

/-!
The object graph of a heap: its roots are the words of the stack that are addresses of objects, and its
edges the reference slots that hold addresses of objects.
-/

namespace CopyingHeap

namespace Heap

/-- The word in a slot of the stack is the address of an object. -/
def RootAt (h : Heap) (slot : Address) (r : Reference) : Prop :=
  h.stack.slots.Contains slot ∧ h.memory.load slot = .ok r.word ∧ h.Initialised r

/-- A reference slot of the object at `r` holds the address of the object at `s`. -/
def PointsTo (h : Heap) (r s : Reference) : Prop :=
  (∃ slot, h.memory.HasSlot r slot ∧ h.memory.load slot = .ok s.word) ∧ h.Initialised s

inductive Reachable (h : Heap) : Reference → Prop where
  | root {slot : Address} {r : Reference} : h.RootAt slot r → Reachable h r
  | step {r s : Reference} : Reachable h r → h.PointsTo r s → Reachable h s

theorem Reachable.initialised {h : Heap} {r : Reference} (hr : h.Reachable r) : h.Initialised r := by
  cases hr with
  | root hroot => exact hroot.2.2
  | step _ hedge => exact hedge.2

/-- Is the word the address of an object? -/
def namesObject (h : Heap) (w : Word) : Bool :=
  match Word.target? w with
  | some r => decide (h.Initialised r)
  | none => false

/-- What a word becomes when objects move: the address of an object turns into that of the object it
moved to, and all else stays. -/
def Carried (h : Heap) (moved : Reference → Reference → Prop) (w w' : Word) : Prop :=
  (∃ r s, moved r s ∧ w = r.word ∧ w' = s.word) ∨ (h.namesObject w = false ∧ w' = w)

/-- The number of words on the stack that are addresses of objects. -/
def rootCount (h : Heap) : Nat :=
  (List.range' (h.stack.sp.toNat / 4) (h.stack.base.toNat / 4 - h.stack.sp.toNat / 4)).countP
    fun i => h.namesObject (h.memory.word i)

def isOfKind (h : Heap) (k : Kind) (r : Reference) : Bool :=
  decide ((h.memory.kind r).toOption = some k)

/-- The objects of one kind among those given. -/
def countOf (h : Heap) (k : Kind) (rs : List Reference) : Nat :=
  rs.countP (h.isOfKind k)

/-- The bytes that the objects of one kind among those given take. -/
def bytesOf (h : Heap) (k : Kind) (rs : List Reference) : Nat :=
  ((rs.filter (h.isOfKind k)).map fun r => 4 * h.size r).sum

/-- A collection that copies reachable objects, each at most once, keeps every counter in its range. -/
structure CountersFit (h : Heap) : Prop where
  copies : ∀ rs : List Reference, rs.Nodup → (∀ r ∈ rs, h.Reachable r) → ∀ k,
    h.statistics.objectsCopied.get k + h.countOf k rs < Size.bound ∧
      h.statistics.bytesCopied.get k + h.bytesOf k rs < Size.bound
  collections : h.statistics.collections + 1 < Size.bound
  roots : h.statistics.rootsTraced + h.rootCount < Size.bound

theorem namesObject_iff {h : Heap} {w : Word} :
    h.namesObject w = true ↔ ∃ r, Word.target? w = some r ∧ h.Initialised r := by
  unfold namesObject
  cases Word.target? w <;> simp

theorem Carried.mono {h : Heap} {moved more : Reference → Reference → Prop} {w w' : Word}
    (hc : h.Carried moved w w') (hm : ∀ r s, moved r s → more r s) : h.Carried more w w' := by
  rcases hc with ⟨r, s, hrs, hw⟩ | hc
  · exact .inl ⟨r, s, hm r s hrs, hw⟩
  · exact .inr hc

theorem isOfKind_iff {h : Heap} {k : Kind} {r : Reference} :
    h.isOfKind k r = true ↔ h.memory.kind r = .ok k := by
  rw [isOfKind, decide_eq_true_iff]
  cases h.memory.kind r <;> simp [Except.toOption]

theorem countOf_snoc (h : Heap) (k : Kind) (rs : List Reference) (r : Reference) :
    h.countOf k (rs ++ [r]) = h.countOf k rs + if h.isOfKind k r = true then 1 else 0 := by
  rw [countOf, List.countP_append, List.countP_singleton]
  rfl

theorem bytesOf_snoc (h : Heap) (k : Kind) (rs : List Reference) (r : Reference) :
    h.bytesOf k (rs ++ [r]) = h.bytesOf k rs + if h.isOfKind k r = true then 4 * h.size r else 0 := by
  rw [bytesOf, List.filter_append, List.map_append, List.sum_append]
  cases hk : h.isOfKind k r <;> simp [bytesOf, hk]

theorem RootAt.index {h : Heap} {r : Reference} {slot : Address} (hroot : h.RootAt slot r) :
    ∃ i, h.stack.sp.toNat ≤ 4 * i ∧ 4 * i < h.stack.base.toNat ∧ h.memory.word i = r.word := by
  obtain ⟨hslot, hload, -⟩ := hroot
  obtain ⟨ha, -, hw⟩ := Memory.load_eq_ok_word hload
  have hholds : h.stack.Holds ⟨slot⟩ := hslot
  obtain ⟨hsp, hbase⟩ := hholds.index ha
  exact ⟨slot.toNat / 4, hsp, hbase, hw.symm⟩

namespace Regular

variable {h : Heap} (hr : h.Regular) {r s : Reference}

include hr

theorem target?_word (hi : h.Initialised r) : Word.target? r.word = some r :=
  target?_eq_some_iff.mpr ⟨rfl, hr.ne_null hi⟩

theorem namesObject_word (hi : h.Initialised r) : h.namesObject r.word = true :=
  namesObject_iff.mpr ⟨r, hr.target?_word hi, hi⟩

theorem rootAt {i : Nat} (hsp : h.stack.sp.toNat ≤ 4 * i) (hbase : 4 * i < h.stack.base.toNat)
    (hw : h.memory.word i = r.word) (hi : h.Initialised r) :
    h.RootAt (Address.ofNat (4 * i)) r := by
  have hin := hr.stack_inside hbase
  have hsize := hr.size_le
  refine ⟨⟨?_, ?_⟩, ?_, hi⟩
  · rw [Address.le_iff, Address.toNat_ofNat]
    exact Nat.le_trans hsp (by omega)
  · rw [Address.lt_iff, Address.toNat_ofNat]
    exact Nat.lt_of_le_of_lt (Nat.mod_le _ _) hbase
  · rw [Memory.load_word (by omega) hin, hw]

theorem pointsTo_iff (hi : h.Initialised r) :
    h.PointsTo r s ↔
      (∃ j, h.memory.IsSlot r.index j ∧ h.memory.word (r.index + j) = s.word) ∧
        h.Initialised s := by
  refine and_congr_left fun _ => ⟨?_, ?_⟩
  · rintro ⟨slot, hslot, hload⟩
    obtain ⟨j, hj, rfl⟩ := (hr.hasSlot_iff hi).mp hslot
    rw [hr.load_slot hi hj.lt, Except.ok.injEq] at hload
    exact ⟨j, hj, hload⟩
  · rintro ⟨j, hj, hw⟩
    exact ⟨_, (hr.hasSlot_iff hi).mpr ⟨j, hj, rfl⟩, by rw [hr.load_slot hi hj.lt, hw]⟩

end Regular

/-- The word after objects have moved: the address of an object becomes that of its image. -/
def renamed (h : Heap) (f : Reference → Reference) (w : Word) : Word :=
  match Word.target? w with
  | some r => if h.Initialised r then (f r).word else w
  | none => w

/-- The object graphs of two heaps are the same up to the places of the objects, which `f` maps to
each other: objects that correspond have one kind, one size and the same words, but for the addresses
of objects in their reference slots and on the stack. -/
structure SameGraph (h h' : Heap) (f : Reference → Reference) : Prop where
  stack : h'.stack = h.stack
  bijective : Set.BijOn f {r | h.Reachable r} {s | h'.Reachable s}
  kind : ∀ r, h.Reachable r → h'.memory.kind (f r) = h.memory.kind r
  objectSize : ∀ r, h.Reachable r → h'.memory.objectSize (f r) = h.memory.objectSize r
  slots : ∀ r, h.Reachable r → ∀ j, h.memory.IsSlot r.index j →
    h'.memory.word ((f r).index + j) = h.renamed f (h.memory.word (r.index + j))
  payload : ∀ r, h.Reachable r → ∀ j < h.size r, ¬ h.memory.IsSlot r.index j →
    h'.memory.word ((f r).index + j) = h.memory.word (r.index + j)
  roots : ∀ i, h.stack.sp.toNat ≤ 4 * i → 4 * i < h.stack.base.toNat →
    h'.memory.word i = h.renamed f (h.memory.word i)

theorem renamed_of_namesObject_eq_false {h : Heap} {w : Word} (f : Reference → Reference)
    (hw : h.namesObject w = false) : h.renamed f w = w := by
  unfold namesObject at hw
  unfold renamed
  cases htarget : Word.target? w with
  | none => rfl
  | some r =>
    rw [htarget] at hw
    exact if_neg (of_decide_eq_false hw)

theorem renamed_word {h : Heap} {r : Reference} (hne : r ≠ Reference.null) (hi : h.Initialised r)
    (f : Reference → Reference) : h.renamed f r.word = (f r).word := by
  rw [renamed, target?_eq_some_iff.mpr ⟨rfl, hne⟩]
  exact if_pos hi

theorem Regular.renamed_word {h : Heap} (hr : h.Regular) {r : Reference} (hi : h.Initialised r)
    (f : Reference → Reference) : h.renamed f r.word = (f r).word :=
  Heap.renamed_word (hr.ne_null hi) hi f

theorem Regular.carried_word {h : Heap} (hr : h.Regular) {moved : Reference → Reference → Prop}
    {r : Reference} (hi : h.Initialised r) {w w' : Word} (hw : w = r.word)
    (hc : h.Carried moved w w') : ∃ s, moved r s ∧ w' = s.word := by
  subst hw
  rcases hc with ⟨x, s, hxs, hx, hs⟩ | ⟨hnames, -⟩
  · exact ⟨s, Reference.word_inj.mp hx ▸ hxs, hs⟩
  · rw [hr.namesObject_word hi] at hnames
    nomatch hnames

theorem Regular.carried_renamed {h : Heap} (hr : h.Regular) {moved : Reference → Reference → Prop}
    {f : Reference → Reference} (hi : ∀ r s, moved r s → h.Initialised r)
    (hf : ∀ r s, moved r s → f r = s) {w w' : Word} (hc : h.Carried moved w w') :
    w' = h.renamed f w := by
  rcases hc with ⟨r, s, hrs, rfl, rfl⟩ | ⟨hnames, rfl⟩
  · rw [hr.renamed_word (hi r s hrs), hf r s hrs]
  · rw [renamed_of_namesObject_eq_false f hnames]

end Heap

end CopyingHeap
