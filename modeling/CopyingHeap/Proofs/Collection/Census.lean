import CopyingHeap.Proofs.Collection.Preservation
import Mathlib.Algebra.BigOperators.Ring.List

/-!
What a collection leaves in the heap: one copy of each object that the roots reached, end to end from the
start of the active space to the cursor, and nothing else. The start bits, the bytes in use and all the
counters agree with that one set of objects.
-/

namespace CopyingHeap

namespace Heap

/-- The objects kept are those that the roots of `h` reach, each once. Their copies, which `f` gives,
fill the active space of `h'` up to the cursor and have its start bits. The counters have grown by what
those objects amount to. -/
structure Retains (h : Heap) (objects : List Reference) (f : Reference → Reference) (h' : Heap) :
    Prop where
  sameGraph : h.SameGraph h' f
  nodup : objects.Nodup
  mem_iff : ∀ r, r ∈ objects ↔ h.Reachable r
  objectSize : ∀ r ∈ objects, h.memory.objectSize r = .ok (4 * h.size r)
  active_start : h'.spaces.active.start = h.spaces.scratch.start
  scratch_start : h'.spaces.scratch.start = h.spaces.active.start
  extent : h'.spaces.active.extent = h.spaces.active.extent
  tiles : Tiles (fun r => (f r).address.toNat) (fun r => 4 * h.size r)
    h'.spaces.active.start.toNat objects h'.bump.cursor.toNat
  starts : ∀ a, h'.spaces.bits.isSet a = true ↔ ∃ r, h.Reachable r ∧ (f r).address = a
  abandoned : ∀ a, h.spaces.active.start ≤ a →
    a.toNat < h.spaces.active.start.toNat + h.spaces.active.extent →
      h'.spaces.bits.isSet a = false
  used : h'.used = .ok h'.statistics.liveBytes
  liveBytes : h'.statistics.liveBytes = (objects.map fun r => 4 * h.size r).sum
  objectsCopied : ∀ k, h'.statistics.objectsCopied.get k =
    h.statistics.objectsCopied.get k + h.countOf k objects
  bytesCopied : ∀ k, h'.statistics.bytesCopied.get k =
    h.statistics.bytesCopied.get k + h.bytesOf k objects
  collections : h'.statistics.collections = h.statistics.collections + 1
  rootsTraced : h'.statistics.rootsTraced = h.statistics.rootsTraced + h.rootCount
  growths : h'.statistics.growths = h.statistics.growths
  allocated : h'.statistics.allocated = h.statistics.allocated

namespace Collected

variable {h h' : Heap} (hr : h.Regular) {moves : List (Reference × Reference)}
  (hc : h.Collected moves h')

include hc

theorem isSet_iff {a : Address} :
    h'.spaces.bits.isSet a = true ↔ ∃ r, h.Reachable r ∧ (copyOf moves r).address = a := by
  rw [hc.starts]
  constructor
  · rintro ⟨p, hp, rfl⟩
    exact ⟨p.1, hc.reachable hp, congrArg Reference.address (hc.copyOf_eq hp)⟩
  · rintro ⟨r, hreach, rfl⟩
    obtain ⟨p, hp, rfl⟩ := List.mem_map.mp ((hc.mem_iff r).mpr hreach)
    exact ⟨p, hp, congrArg Reference.address (hc.copyOf_eq hp).symm⟩

include hr

theorem tiles_bytes : Tiles (fun r => (copyOf moves r).address.toNat) (fun r => 4 * h.size r)
    h'.spaces.active.start.toNat (moves.map Prod.fst) h'.bump.cursor.toNat := by
  have hwords : Tiles (fun p : Reference × Reference => (copyOf moves p.1).index)
      (fun p => h.size p.1) h.target moves (h'.bump.cursor.toNat / 4) := by
    apply hc.tiles.congr
    intro p hp
    exact ⟨congrArg Reference.index (hc.copyOf_eq hp), rfl⟩
  have hstart : h'.spaces.active.start.toNat = 4 * h.target := by
    rw [hc.active_start, hr.scratch_start]
  have hcursor : h'.bump.cursor.toNat = 4 * (h'.bump.cursor.toNat / 4) := by
    have haligned := hc.cursor_aligned
    unfold Address.WordAligned at haligned
    omega
  rw [hstart, hcursor]
  apply tiles_map.mpr
  simp only [Reference.toNat_address]
  exact hwords.scale 4

/-- The start bits all lie in the space that the copies are in, so none is left in the other. -/
theorem isSet_abandoned {a : Address} (hstart : h.spaces.active.start ≤ a)
    (hstop : a.toNat < h.spaces.active.start.toNat + h.spaces.active.extent) :
    h'.spaces.bits.isSet a = false := by
  by_contra hset
  rw [Bool.not_eq_false] at hset
  have hwithin := (hc.regular hr).isSet_within hset
  have hcursor := Address.le_iff.mp hc.cursor_le
  have hlimit := hc.limit
  rw [hc.active_start, Address.le_iff, Address.lt_iff] at hwithin
  rw [Address.le_iff] at hstart
  rcases hr.spaces.disjoint with hd | hd
  · omega
  · omega

/-- A collection keeps the objects that the roots reach, and counts them. -/
theorem retains : h.Retains (moves.map Prod.fst) (copyOf moves) h' := by
  have htiles := hc.tiles_bytes hr
  have hlive : h'.statistics.liveBytes = ((moves.map Prod.fst).map fun r => 4 * h.size r).sum := by
    rw [List.sum_map_mul_left, hc.statistics]
  refine
    { sameGraph := hc.sameGraph hr
      nodup := hc.nodup
      mem_iff := hc.mem_iff
      objectSize := fun r hmem => hr.objectSize ((hc.mem_iff r).mp hmem).initialised
      active_start := hc.active_start
      scratch_start := hc.scratch_start
      extent := hc.active_extent
      tiles := htiles
      starts := fun a => hc.isSet_iff
      abandoned := fun a => hc.isSet_abandoned hr
      used := ?_
      liveBytes := hlive
      objectsCopied := fun k => (hc.counts k).1
      bytesCopied := fun k => (hc.counts k).2
      collections := by rw [hc.statistics]
      rootsTraced := by rw [hc.statistics]
      growths := by rw [hc.statistics]
      allocated := by rw [hc.statistics] }
  have hsum := htiles.sum_eq
  rw [used, Address.diff_eq_ok_iff, hlive]
  omega

end Collected

/-- A collection of a well-formed heap ends with exactly the objects that the roots reached, each of
them once, unless a counter overflows. -/
theorem WellFormed.retains_of_collect {h : Heap} (hw : h.WellFormed) :
    (∃ h' objects f, h.collect = .ok h' ∧ h.Retains objects f h') ∨
      (h.collect = .error .overflow ∧ ¬ h.CountersFit) := by
  rcases hw.toRegular.collect.cases with ⟨h', hc, moves, hm⟩ | ⟨f, hc, rfl, hfit⟩
  · left
    exact ⟨h', moves.map Prod.fst, copyOf moves, hc, hm.retains hw.toRegular⟩
  · right
    exact ⟨hc, hfit⟩

theorem reachable_looped (r : Reference) : looped.Reachable r ↔ r = .ofIndex 16 := by
  have hr := wellFormed_looped.toRegular
  constructor
  · intro hreach
    have hset := hr.isSet_of_initialised hreach.initialised
    exact Reference.ext_address ((isSet_looped _).mp hset)
  · rintro rfl
    have hi : looped.Initialised (.ofIndex 16) :=
      hr.initialised_iff.mpr ⟨(isSet_looped _).mpr rfl, .listNode, word_looped 16⟩
    have hroot : looped.memory.word 15 = (Reference.ofIndex 16).word := word_looped 15
    exact .root (hr.rootAt (by decide) (by decide) hroot hi)

theorem retains_looped : looped.WellFormed ∧ ∃ h' f, looped.collect = .ok h' ∧
    looped.Retains [.ofIndex 16] f h' ∧ h'.statistics.liveBytes = 12 := by
  refine ⟨wellFormed_looped, ?_⟩
  obtain ⟨h', objects, f, hc, hk⟩ := (WellFormed.retains_of_collect wellFormed_looped).resolve_right
    fun hf => hf.2 countersFit_looped
  have hone : objects = [.ofIndex 16] := by
    apply List.perm_singleton.mp
    apply (List.perm_ext_iff_of_nodup hk.nodup (List.nodup_singleton _)).mpr
    intro r
    rw [hk.mem_iff, reachable_looped, List.mem_singleton]
  subst hone
  refine ⟨h', f, hc, hk, ?_⟩
  rw [hk.liveBytes, List.map_singleton, List.sum_singleton, size_node_looped]

end Heap

end CopyingHeap
