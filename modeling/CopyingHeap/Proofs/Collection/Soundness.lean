import CopyingHeap.Proofs.Collection.Graph
import CopyingHeap.Proofs.Heap.Twin

/-!
A collection of a sound heap leaves a twin of it: the stack holds the same values, in objects that have
moved.
-/

namespace CopyingHeap

namespace Heap

/-- No word of the static data, nor the one at null, is on the stack. -/
theorem Layout.off_stack {h : Heap} (hl : h.Layout) (hle : h.stack.limit ≤ h.spaces.base) {i : Nat}
    (hi : 4 * i < h.stack.limit.toNat) :
    4 * i < h.spaces.base.toNat ∧ ¬ (h.stack.sp.toNat ≤ 4 * i ∧ 4 * i < h.stack.base.toNat) := by
  rw [Address.le_iff] at hle
  refine ⟨by omega, ?_⟩
  rcases hl.stack.limit_le with h2 | h2
  · rw [Address.le_iff] at h2
    omega
  · rw [h2]
    omega

theorem Collected.static {h h' : Heap} {moves : List (Reference × Reference)}
    (hc : h.Collected moves h') (hl : h.Layout) (hle : h.stack.limit ≤ h.spaces.base) {i : Nat}
    (hi : 4 * i < h.stack.limit.toNat) : h'.memory.word i = h.memory.word i := by
  obtain ⟨hbelow, hoff⟩ := hl.off_stack hle hi
  exact hc.frame i hbelow hoff

namespace Collected

variable {h h' : Heap} (hs : h.Sound) {moves : List (Reference × Reference)}
  (hc : h.Collected moves h') {w w' : Word}

include hs hc

theorem admits_carried (ha : h.Admits w) (hw : h.Carried (CopiedTo moves) w w') :
    h'.Admits w' := by
  rcases hs.carried_linked ha hw with ⟨r, s, hrs, -, rfl⟩ | ⟨hf, rfl⟩
  · intro t htarget
    obtain ⟨hword, -⟩ := target?_eq_some_iff.mp htarget
    exact .inr (Reference.word_inj.mp hword ▸ hc.initialised_copy hs.regular hrs)
  · exact (hf.congr (by rw [hc.stack]) fun i hi => hc.static hs.toLayout hs.limit_le hi).admits

theorem sound : h'.Sound := by
  refine hs.rebuild (hc.layout hs.regular) hc.base (by rw [hc.stack])
    (fun _ => hc.static hs.toLayout hs.limit_le) ⟨_, hc.tiled hs.regular⟩
    (fun r hr j hj => ?_) fun i h1 h2 => ?_
  · obtain ⟨p, hp, rfl⟩ := (hc.initialised_iff hs.regular).mp hr
    have hslot := (hc.mirrors.isSlot_iff hs.regular hp).mp hj
    exact hc.admits_carried hs (hs.slots p.1 (hc.reachable hp).initialised j hslot)
      (hc.slots p hp j hslot)
  · rw [hc.stack] at h1 h2
    exact hc.admits_carried hs (hs.roots i h1 h2) (hc.roots i h1 h2)

theorem twin : Twin (CopiedTo moves) h h' where
  left := hs
  right := hc.sound hs
  stack := hc.stack
  static := fun _ => hc.static hs.toLayout hs.limit_le
  initialised := fun _ _ hrs =>
    ⟨(hc.reachable hrs).initialised, hc.initialised_copy hs.regular hrs⟩
  functional := fun _ _ _ => hc.functional
  injective := fun _ _ _ hrt hst => congrArg Prod.fst (hc.eq_of_snd_eq hs.regular hrt hst rfl)
  slots := fun r s hrs j hj => hs.carried_linked
    (hs.slots r (hc.reachable hrs).initialised j hj) (hc.slots (r, s) hrs j hj)
  payload := fun r s hrs => hc.verbatim (r, s) hrs
  roots := fun i h1 h2 => hs.carried_linked (hs.roots i h1 h2) (hc.roots i h1 h2)

end Collected

/-- A collection renews the heap, or a counter overflows. -/
theorem Sound.collect {h : Heap} (hs : h.Sound) :
    Ends h.collect h.Renews Fault.Exhausted := by
  refine hs.regular.collect.with_eq.mono (fun h' ⟨⟨moves, hc⟩, hcollect⟩ => ?_) fun f hf => ?_
  · refine (hc.twin hs).renews hc.base fun xs _ => ⟨_, hc.tiled hs.regular, ?_⟩
    exact .collected hcollect hc.nodup hc.mem_iff
  · rw [hf.1]
    trivial

end Heap

end CopyingHeap
