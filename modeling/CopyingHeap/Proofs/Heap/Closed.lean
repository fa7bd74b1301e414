import CopyingHeap.Proofs.Heap.Roots
import CopyingHeap.Proofs.Object.Equality

/-!
Heaps in which a program that follows references meets only symbols and objects. Whatever it meets lies
in memory as a whole, so that values without cycles can be compared.
-/

namespace CopyingHeap

namespace Heap

/-- A well-formed heap whose reference slots hold immediates, null, symbols and addresses of objects.
What else there may be below the heap is referred to from nowhere. -/
structure Closed (h : Heap) : Prop extends h.WellFormed where
  slots : ∀ r, h.Initialised r → ∀ j, h.memory.IsSlot r.index j →
    h.Admits (h.memory.word (r.index + j))

theorem Regular.lies {h : Heap} (hr : h.Regular) {r : Reference} (hi : h.Initialised r) {k : Kind}
    (hk : h.memory.word r.index = k.header) : h.memory.Lies r k :=
  hr.paged.lies hk (hr.end_le_size hi)

theorem WellFormed.lies_symbol {h : Heap} (hw : h.WellFormed) {r : Reference}
    (hs : h.IsSymbol r) : h.memory.Lies r .symbol :=
  hw.paged.lies hs.1 (hs.inside hw.toLayout hw.limit_le_base)

theorem WellFormed.not_isSymbol {h : Heap} (hw : h.WellFormed) {r : Reference}
    (hi : h.Initialised r) : ¬ h.IsSymbol r := by
  intro hs
  exact hw.not_below hi (hs.below hw.limit_le_base)

namespace Closed

variable {h : Heap} (hh : h.Closed) {r s : Reference} {v : Value}

include hh

theorem whole (hr : h.IsSymbol r ∨ h.Initialised r) : h.memory.Whole r := by
  rcases hr with hr | hr
  · exact (hh.lies_symbol hr).whole hh.paged
  · obtain ⟨k, -, -, hk⟩ := hh.kind_eq hr
    exact (hh.lies hr hk).whole hh.paged

/-- A symbol leads nowhere, and an object leads to symbols and objects. -/
theorem leads (hr : h.IsSymbol r ∨ h.Initialised r) (hrs : h.memory.Leads r s) :
    h.IsSymbol s ∨ h.Initialised s := by
  rcases hr with hr | hr
  · have hk := hh.lies_symbol hr
    obtain ⟨j, hj, -⟩ := (Memory.leads_iff hk).mp hrs
    exact absurd ((Memory.isSlot_iff hk.header).mp hj) id
  · obtain ⟨k, -, -, hk⟩ := hh.kind_eq hr
    obtain ⟨j, hj, htarget⟩ := (Memory.leads_iff (hh.lies hr hk)).mp hrs
    exact hh.slots r hr j hj s htarget

theorem leads_path (hr : h.IsSymbol r ∨ h.Initialised r)
    (hrs : Relation.ReflTransGen h.memory.Leads r s) : h.IsSymbol s ∨ h.Initialised s := by
  induction hrs with
  | refl => exact hr
  | tail _ hlast ih => exact hh.leads ih hlast

theorem acyclic (hv : h.Knows v) (hno : h.memory.NoCycle v) : h.memory.Acyclic v where
  whole := by
    intro r s hr hrs
    exact hh.whole (hh.leads_path (hv r hr) hrs)
  noCycle := hno

end Closed

end Heap

end CopyingHeap
