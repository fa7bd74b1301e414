import CopyingHeap.Proofs.Collection.Frame
import CopyingHeap.Proofs.Heap.Build
import CopyingHeap.Proofs.Heap.Contract
import CopyingHeap.Proofs.Heap.History

/-!
Heaps that zero what they release. A growth moves the scratch space, and it may leave ranges of memory to
neither space, which a later one takes in again. So the invariant is not about the two spaces, but about all
memory from the base of the heap on: outside the used part of the active space it is zero. A collection
has to find a regular heap for that, since it trusts the references that it follows.
-/

namespace CopyingHeap

namespace Heap

/-- What a program does to the memory by itself: it may write anything below the heap, and into blocks
that it has been handed, and it may enlarge the memory. -/
structure Writes (h k : Heap) : Prop where
  spaces : k.spaces = h.spaces
  bump : k.bump = h.bump
  options : k.options = h.options
  size_le : h.memory.words.size ≤ k.memory.words.size
  word : ∀ i, h.spaces.base.toNat ≤ 4 * i → ¬ h.InUse i → k.memory.word i = h.memory.word i

/-- The heaps that a program makes of `start`, if they are regular whenever it allocates or collects. -/
inductive Tended (start : Heap) : Heap → Prop where
  | start : Tended start start
  | write {h k : Heap} : Tended start h → h.Writes k → Tended start k
  | alloc {h k : Heap} {size : Nat} {a : Address} :
      Tended start h → h.Regular → h.alloc size = .ok (a, k) → Tended start k
  | collect {h k : Heap} : Tended start h → h.Regular → h.collect = .ok k → Tended start k

/-- The heap zeroes what it releases, and every word of it outside the used part of the active space is
zero. -/
structure Zeroed (h : Heap) : Prop where
  zeroes : h.options.zeroOnRelease = true
  base_aligned : h.spaces.base.WordAligned
  placed : h.spaces.Placed h.memory
  cursor_le : h.bump.cursor.toNat ≤ h.spaces.active.start.toNat + h.spaces.active.extent
  word : ∀ i, h.spaces.base.toNat ≤ 4 * i → ¬ h.InUse i → h.memory.word i = 0

theorem Built.zeroed {options : Options} {m : Memory} {stackBase heapBase : Address} {h : Heap}
    (hb : h.Built options m stackBase heapBase) (hoptions : h.options.zeroOnRelease = true)
    (hclear : ∀ i, heapBase.toNat ≤ 4 * i → m.word i = 0) : h.Zeroed where
  zeroes := hoptions
  base_aligned := hb.base ▸ hb.base_aligned
  placed := hb.layout.spaces
  cursor_le := by
    rw [← hb.empty]
    omega
  word := by
    intro i hi _
    rw [hb.base] at hi
    rw [hb.word, hclear i hi]

namespace Zeroed

variable {h k : Heap} (hz : h.Zeroed)

include hz

theorem writes (hw : h.Writes k) : k.Zeroed where
  zeroes := hw.options ▸ hz.zeroes
  base_aligned := hw.spaces ▸ hz.base_aligned
  placed := by
    have hactive := hz.placed.active_inside
    have hscratch := hz.placed.scratch_inside
    have hsize := hw.size_le
    rw [hw.spaces]
    exact { hz.placed with active_inside := by omega, scratch_inside := by omega }
  cursor_le := by
    rw [hw.bump, hw.spaces]
    exact hz.cursor_le
  word := by
    intro i hi hout
    unfold InUse at hout
    rw [hw.bump, hw.spaces] at hout
    rw [hw.spaces] at hi
    rw [hw.word i hi hout, hz.word i hi hout]

theorem withRecent (n : Nat) : Zeroed { h with recent := n } :=
  hz.writes ⟨rfl, rfl, rfl, Nat.le_refl _, fun _ _ _ => rfl⟩

/-- The copies take up the used part of the new active space, and what they have been copied from is
zeroed. Nothing else in the heap has been written. -/
theorem collect (hr : h.Regular) : Ends h.collect (fun k => k.Regular ∧ k.Zeroed) fun _ => True := by
  apply hr.collect_evacuated.with_eq.imp
  rintro k ⟨⟨moves, e, m, he, hcursor, hword, hc⟩, hk⟩
  have hconfined := he.confined hr hc hcursor hword
  have hregular := hc.regular hr
  have hsettles := h.collect_settles.of_ok hk
  refine ⟨hregular, ?_⟩
  refine
    { zeroes := hsettles.options ▸ hz.zeroes
      base_aligned := hc.base ▸ hz.base_aligned
      placed := hregular.spaces
      cursor_le := ?_
      word := ?_ }
  · rw [← hregular.limit]
    exact Address.le_iff.mp hregular.cursor_le
  · intro i hi hout
    rw [hc.base] at hi
    by_cases hsource : h.InSource i
    · exact hconfined.zeroed hz.zeroes i hsource
    · have huse : ¬ h.InUse i := by
        have hle := hz.cursor_le
        unfold InUse
        unfold InSource at hsource
        omega
      rw [← hz.word i hi huse]
      by_contra hne
      rcases hconfined.changed i hne with ⟨hstack, -⟩ | hcopy | hrelease
      · have hbase := Address.le_iff.mp hr.stack.base_le
        unfold OnStack at hstack
        omega
      · exact hout hcopy
      · exact hsource hrelease

/-- A new block is zeroed, and the cursor has passed it. -/
theorem added {r : Reference} {n : Nat} (ha : h.Added r n k) (hoptions : k.options = h.options) :
    k.Zeroed where
  zeroes := hoptions ▸ hz.zeroes
  base_aligned := ha.base ▸ hz.base_aligned
  placed := ha.placed hz.base_aligned
  cursor_le := by
    rw [← ha.limit]
    exact Address.le_iff.mp ha.cursor_le
  word := by
    intro i hi hout
    have hcursor := ha.cursor
    unfold InUse at hout
    rw [ha.base] at hi
    rw [ha.start] at hout
    rw [ha.word]
    split
    · rfl
    · apply hz.word i hi
      unfold InUse
      omega

theorem alloc (hr : h.Regular) (size : Nat) :
    Ends (h.alloc size) (fun x => x.2.Zeroed) fun _ => True := by
  apply (alloc_added (P := fun s => s.Regular ∧ s.Zeroed) ⟨hr, hz⟩ (fun s hs => hs.1.toLayout)
    (fun s hs => hs.2.collect hs.1) ?_ size).imp
  · rintro x ⟨s, r, n, ⟨-, hzs⟩, -, -, ha, hoptions⟩
    exact hzs.added ha hoptions
  · rintro s n ⟨hregular, hzs⟩
    exact ⟨hregular.withRecent n, hzs.withRecent n⟩

/-- The scratch space lies outside the used part of the active one. -/
theorem not_inUse_scratch {i : Nat} (hstart : h.spaces.scratch.start.toNat ≤ 4 * i)
    (hstop : 4 * i < h.spaces.scratch.start.toNat + h.spaces.scratch.extent) : ¬ h.InUse i := by
  have hle := hz.cursor_le
  have hextent := hz.placed.extent_eq
  have hdisjoint := hz.placed.disjoint
  unfold InUse
  omega

end Zeroed

theorem Tended.zeroed {start h : Heap} (hs : start.Zeroed) (ht : start.Tended h) : h.Zeroed := by
  induction ht with
  | start => exact hs
  | write _ hw ih => exact ih.writes hw
  | alloc _ hr hk ih => exact (ih.alloc hr _).of_ok hk
  | collect _ hr hk ih => exact ((ih.collect hr).of_ok hk).2

/-- Whatever a stale address reads is zero. -/
structure Swept (h : Heap) : Prop where
  /-- All memory from the base of the heap on but the used part of the active space: the rest of it, the
  scratch space, and what growths have left to neither. -/
  zero : ∀ a w, h.spaces.base ≤ a → ¬ (h.spaces.active.start ≤ a ∧ a < h.bump.cursor) →
    h.memory.load a = .ok w → w = 0
  /-- At no reference into the abandoned space there is an object, nor what a collection leaves of one. -/
  abandoned : ∀ r : Reference, h.spaces.scratch.start ≤ r.address →
    r.address.toNat < h.spaces.scratch.start.toNat + h.spaces.scratch.extent →
      h.memory.load r.address = .ok 0 ∧ h.memory.kind? r = .ok none ∧
        h.memory.isForwarded r = .ok false

theorem Zeroed.swept {h : Heap} (hz : h.Zeroed) : h.Swept where
  zero := by
    intro a w hbase hout hw
    obtain ⟨haligned, hsome⟩ := Memory.load_eq_ok_iff.mp hw
    unfold Address.WordAligned at haligned
    rw [Address.le_iff] at hbase
    rw [Address.le_iff, Address.lt_iff] at hout
    rw [← Memory.word_eq_of_getElem? hsome]
    apply hz.word
    · omega
    · unfold InUse
      omega
  abandoned := by
    intro r hstart hstop
    have hbase := Address.le_iff.mp hz.placed.base_le_scratch
    have hinside := hz.placed.scratch_inside
    have hextent := hz.placed.extent_eq
    rw [Address.le_iff, Reference.toNat_address] at hstart
    rw [Reference.toNat_address] at hstop
    have hzero : h.memory.word r.index = 0 :=
      hz.word r.index (by omega) (hz.not_inUse_scratch hstart hstop)
    have hin : r.index < h.memory.words.size := by omega
    have hload : h.memory.load r.address = .ok 0 := by rw [Memory.load_address hin, hzero]
    refine ⟨hload, ?_, ?_⟩
    · rw [Memory.kind?_eq_ok hin, hzero]
      rfl
    · rw [Memory.isForwarded, hload]
      rfl

end Heap

end CopyingHeap
