import CopyingHeap.Proofs.Heap.Reachable

/-!
Heaps that hold the same objects in other places. If the words of corresponding objects and of the
stacks correspond, so do the objects that the roots reach.
-/

namespace CopyingHeap

namespace Heap

/-- The objects that `p` relates have the same words, and so have the stacks, but for the addresses of
objects in reference slots and on the stack. -/
structure Mirrors (h : Heap) (p : Reference → Reference → Prop) (h' : Heap) : Prop where
  stack : h'.stack = h.stack
  initialised : ∀ r s, p r s → h.Initialised r
  functional : ∀ r s t, p r s → p r t → s = t
  slots : ∀ r s, p r s → ∀ j, h.memory.IsSlot r.index j →
    h.Carried p (h.memory.word (r.index + j)) (h'.memory.word (s.index + j))
  payload : ∀ r s, p r s → ∀ j < h.size r, ¬ h.memory.IsSlot r.index j →
    h'.memory.word (s.index + j) = h.memory.word (r.index + j)
  roots : ∀ i, h.stack.sp.toNat ≤ 4 * i → 4 * i < h.stack.base.toNat →
    h.Carried p (h.memory.word i) (h'.memory.word i)

namespace Mirrors

variable {h h' : Heap} {p : Reference → Reference → Prop} (hm : h.Mirrors p h') (hr : h.Regular)
  {r s : Reference}

include hm hr

theorem header_eq (hp : p r s) : h'.memory.word s.index = h.memory.word r.index :=
  Memory.header_of_payload (hr.two_le_size (hm.initialised r s hp)) (hm.payload r s hp)

theorem length_eq (hp : p r s) {k : Kind} (hk : h.memory.word r.index = k.header)
    (hl : k.hasLength = true) : h'.memory.word (s.index + 1) = h.memory.word (r.index + 1) :=
  Memory.length_of_payload (hr.two_le_size (hm.initialised r s hp)) (hm.payload r s hp) hk hl

theorem size_eq (hp : p r s) : h'.size s = h.size r :=
  Memory.wordCount_of_payload (hr.two_le_size (hm.initialised r s hp)) (hm.payload r s hp)

theorem isSlot_iff (hp : p r s) {j : Nat} :
    h'.memory.IsSlot s.index j ↔ h.memory.IsSlot r.index j :=
  Memory.isSlot_of_payload (hr.two_le_size (hm.initialised r s hp)) (hm.payload r s hp)

variable (hr' : h'.Regular) (hi : ∀ r s, p r s → h'.Initialised s)

include hr' hi

/-- What the roots reach in one heap they reach in the other, at the corresponding place. -/
theorem reachable (hreach : h.Reachable r) : ∃ s, p r s ∧ h'.Reachable s := by
  induction hreach with
  | @root slot r hroot =>
    obtain ⟨i, hsp, hbase, hw⟩ := hroot.index
    obtain ⟨s, hs, hw'⟩ := hr.carried_word hroot.2.2 hw (hm.roots i hsp hbase)
    rw [← hm.stack] at hsp hbase
    exact ⟨s, hs, .root (hr'.rootAt hsp hbase hw' (hi r s hs))⟩
  | @step r x hreach hedge ih =>
    obtain ⟨y, hy, hreach'⟩ := ih
    obtain ⟨⟨j, hj, hw⟩, hx⟩ := (hr.pointsTo_iff hreach.initialised).mp hedge
    obtain ⟨s, hs, hw'⟩ := hr.carried_word hx hw (hm.slots r y hy j hj)
    exact ⟨s, hs, .step hreach' ((hr'.pointsTo_iff (hi r y hy)).mpr
      ⟨⟨j, (hm.isSlot_iff hr hy).mpr hj, hw'⟩, hi x s hs⟩)⟩

/-- The object graphs are the same, if what is reached in the second heap has been reached in the
first. -/
theorem sameGraph {f : Reference → Reference} (hf : ∀ r s, p r s → f r = s)
    (hinjective : ∀ r s t, p r t → p s t → r = s)
    (honto : ∀ s, h'.Reachable s → ∃ r, h.Reachable r ∧ p r s) : h.SameGraph h' f := by
  have hpair {r : Reference} (hreach : h.Reachable r) : p r (f r) ∧ h'.Reachable (f r) := by
    obtain ⟨s, hs, hreach'⟩ := hm.reachable hr hr' hi hreach
    exact (hf r s hs).symm ▸ ⟨hs, hreach'⟩
  have hrenamed {w w' : Word} (hw : h.Carried p w w') : w' = h.renamed f w :=
    hr.carried_renamed hm.initialised hf hw
  refine
    { stack := hm.stack
      bijective := ⟨fun r hreach => (hpair hreach).2, fun r hreach s hs heq => ?_, fun s hs => ?_⟩
      kind := fun r hreach => ?_
      objectSize := fun r hreach => ?_
      slots := fun r hreach j hj => hrenamed (hm.slots r (f r) (hpair hreach).1 j hj)
      payload := fun r hreach => hm.payload r (f r) (hpair hreach).1
      roots := fun i hsp hbase => hrenamed (hm.roots i hsp hbase) }
  · exact hinjective r s (f s) (heq ▸ (hpair hreach).1) (hpair hs).1
  · obtain ⟨r, hreach, hrs⟩ := honto s hs
    exact ⟨r, hreach, hf r s hrs⟩
  · obtain ⟨k, -, hkind, hk⟩ := hr.kind_eq hreach.initialised
    have hset := hr'.isSet_of_initialised (hpair hreach).2.initialised
    rw [hkind, Memory.kind_eq_ok (hr'.index_lt_size hset)
      ((hm.header_eq hr (hpair hreach).1).trans hk)]
  · rw [hr'.objectSize (hpair hreach).2.initialised, hr.objectSize hreach.initialised,
      hm.size_eq hr (hpair hreach).1]

end Mirrors

end Heap

end CopyingHeap
