import CopyingHeap.Proofs.Heap.Contract
import CopyingHeap.Proofs.Heap.History
import CopyingHeap.Proofs.Heap.Upkeep

/-!
What is charged and what is handed out. A request is charged before the first attempt to serve it, and once
more after a collection; whichever attempt succeeds, the bytes charged in the end are those handed out since
the last collection.
-/

namespace CopyingHeap

namespace Heap

/-- Between the heaps, the bytes charged are those that have been handed out since the last collection. -/
def Balances (h k : Heap) : Prop :=
  ∃ es, h.History es k ∧ k.recent = Event.outstanding h.recent es

/-- A request for `bytes` bytes has been charged, and is still to be served. -/
def Charges (h : Heap) (bytes : Nat) (k : Heap) : Prop :=
  ∃ es, h.History es k ∧ Event.handedOut es = 0 ∧ k.recent = Event.outstanding h.recent es + bytes

/-- One block has been handed out, for a request of `size` bytes. -/
def Serves (h : Heap) (size : Nat) (k : Heap) : Prop :=
  ∃ es, h.History (.handed size :: es) k ∧ Event.handedOut es = 0 ∧
    k.recent = Event.outstanding h.recent (.handed size :: es)

theorem Balances.refl (h : Heap) : h.Balances h :=
  ⟨[], .start, rfl⟩

theorem Balances.trans {h k l : Heap} (hk : h.Balances k) (hl : k.Balances l) : h.Balances l := by
  obtain ⟨es, hes, hrecent⟩ := hk
  obtain ⟨fs, hfs, hrecent'⟩ := hl
  refine ⟨fs ++ es, hes.trans hfs, ?_⟩
  rw [Event.outstanding_append, ← hrecent, hrecent']

theorem Serves.balances {h k : Heap} {size : Nat} (hk : h.Serves size k) : h.Balances k := by
  obtain ⟨es, hes, -, hrecent⟩ := hk
  exact ⟨_, hes, hrecent⟩

section Alloc

variable {h k : Heap} {size bytes : Nat}

theorem charges_charge (h : Heap) (bytes : Nat) :
    Ends (h.charge bytes) (h.Charges bytes) fun _ => True := by
  apply Ends.bind_eq
  intro recent hadd
  obtain ⟨-, rfl⟩ := Size.add_eq_ok_iff.mp hadd
  split
  · apply Ends.bind_eq
    intro k hcollect
    exact ⟨_, (History.start.collected hcollect).quiet rfl rfl rfl, rfl, (Nat.zero_add bytes).symm⟩
  · exact ⟨[], History.start.quiet rfl rfl rfl, rfl, rfl⟩

/-- After a collection the request is charged again. -/
theorem Charges.collect (hk : h.Charges bytes k) :
    Ends k.collect (fun l => h.Charges bytes { l with recent := bytes }) fun _ => True := by
  obtain ⟨es, hes, hnone, -⟩ := hk
  apply k.collect_settles.with_eq.imp
  rintro l ⟨-, hcollect⟩
  have hnone' : Event.handedOut (.collected k.statistics l.statistics :: es) = 0 :=
    (Nat.zero_add _).trans hnone
  exact ⟨_, (hes.collected hcollect).quiet rfl rfl rfl, hnone', (Nat.zero_add bytes).symm⟩

theorem Charges.growFor (hk : h.Charges bytes k) (n : Nat) :
    Ends (k.growFor n) (h.Charges bytes) fun _ => True := by
  obtain ⟨es, hes, hnone, hrecent⟩ := hk
  cases hgrow : k.growFor n with
  | error f => trivial
  | ok l =>
    exact ⟨_, hes.grown hgrow, (Nat.zero_add _).trans hnone, (untouched_of_growFor hgrow).1.trans hrecent⟩

/-- An allocation that succeeds hands out one block, however often it has collected. -/
theorem serves_alloc (h : Heap) (size : Nat) :
    Ends (h.alloc size) (fun x => h.Serves size x.2) fun _ => True := by
  have hcharge : Ends (h.charge (Size.objectBytes size))
      (fun s => ∃ n ≤ 1, h.Charges (Size.objectBytes size) s) fun _ => True := by
    apply (h.charges_charge _).imp
    intro s hs
    exact ⟨0, Nat.zero_le 1, hs⟩
  apply (alloc_takes (P := fun _ => h.Charges (Size.objectBytes size)) rfl hcharge
    (fun _ s hs => hs.collect) (fun _ _ s hs => hs.growFor _) fun _ _ _ hs => hs).imp
  rintro x ⟨s, bump, ⟨es, hes, hnone, hrecent⟩, halloc, htake⟩
  refine ⟨es, hes.handed halloc htake, hnone, ?_⟩
  rw [(hands_of_takeBlock halloc htake).recent, hrecent, Event.outstanding_handed]

end Alloc

/-- Whatever is charged and handed out by an operation, the two agree. -/
theorem upheld_balances (h : Heap) : Upheld h.Balances where
  same := by
    rintro k l ⟨es, hes, hrecent⟩ hspaces hbump - hstatistics hsame
    exact ⟨es, hes.quiet hspaces hbump hstatistics, hsame.trans hrecent⟩
  collect := by
    rintro k ⟨es, hes, -⟩
    apply k.collect_settles.with_eq.imp
    rintro l ⟨hl, hcollect⟩
    exact ⟨_, hes.collected hcollect, hl.recent⟩
  alloc := by
    intro k hk size
    apply (k.serves_alloc size).imp
    intro x hx
    exact hk.trans hx.balances

end Heap

end CopyingHeap
