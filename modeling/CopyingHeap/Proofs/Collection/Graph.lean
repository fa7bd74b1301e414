import CopyingHeap.Proofs.Collection.Result
import CopyingHeap.Proofs.Heap.Blocks
import CopyingHeap.Proofs.Heap.Mirror

/-!
What a collection means for the program. The heap is well formed afterwards, its objects are the copies
of those that the roots reached, and the object graph is the one from before. A word of the stack that
is no root may happen to be the address of a copy, so that more words are roots afterwards; they do not
keep more objects alive.
-/

namespace CopyingHeap

namespace Heap

/-- The copy of an object, if the list has one. -/
def copyOf (moves : List (Reference × Reference)) (r : Reference) : Reference :=
  ((moves.find? fun p => p.1 = r).map Prod.snd).getD r

namespace Collected

variable {h h' : Heap} (hr : h.Regular) {moves : List (Reference × Reference)}
  (hc : h.Collected moves h') {p q : Reference × Reference} {r s : Reference} {j : Nat}

include hc

theorem reachable (hp : p ∈ moves) : h.Reachable p.1 :=
  (hc.mem_iff p.1).mp (List.mem_map_of_mem hp)

theorem eq_of_fst_eq (hp : p ∈ moves) (hq : q ∈ moves) (h1 : p.1 = q.1) : p = q :=
  List.inj_on_of_nodup_map hc.nodup hp hq h1

theorem functional {t : Reference} (hs : CopiedTo moves r s) (ht : CopiedTo moves r t) : s = t :=
  congrArg Prod.snd (hc.eq_of_fst_eq hs ht rfl)

theorem copyOf_eq (hp : CopiedTo moves r s) : copyOf moves r = s := by
  unfold copyOf
  cases hfind : moves.find? fun p => p.1 = r with
  | none => exact absurd (List.find?_eq_none.mp hfind _ hp) (by simp)
  | some q =>
    have hq := List.find?_some hfind
    rw [decide_eq_true_iff] at hq
    rw [← hc.eq_of_fst_eq hp (List.mem_of_find?_eq_some hfind) hq.symm]
    rfl

theorem mirrors : h.Mirrors (CopiedTo moves) h' where
  stack := hc.stack
  initialised := fun _ _ hrs => (hc.reachable hrs).initialised
  functional := fun _ _ _ => hc.functional
  slots := fun r s hrs => hc.slots (r, s) hrs
  payload := fun r s hrs => hc.verbatim (r, s) hrs
  roots := hc.roots

include hr

theorem eq_of_snd_eq (hp : p ∈ moves) (hq : q ∈ moves) (h2 : p.2 = q.2) : p = q := by
  have h3 := hr.two_le_size (hc.reachable hp).initialised
  have h4 := hr.two_le_size (hc.reachable hq).initialised
  have h5 := congrArg Reference.index h2
  rcases hc.tiles.separate hp hq with heq | hs | hs
  · exact heq
  · omega
  · omega

theorem layout : h'.Layout where
  paged := by
    obtain ⟨pages, hp, hle⟩ := hr.paged.pages
    exact ⟨⟨pages, hc.size.trans hp, hc.maxPages ▸ hle⟩, hc.maxPages ▸ hr.paged.maximum⟩
  spaces := by
    have hs := hr.spaces
    have hactive := hc.active_start
    have hextent := hc.active_extent
    have hscratch := hc.scratch_start
    have hscratch' := hc.scratch_extent
    have hbase := hc.base
    refine
      { active_aligned := hactive ▸ hs.scratch_aligned
        scratch_aligned := hscratch ▸ hs.active_aligned
        extent_words := hextent ▸ hs.extent_words
        extent_eq := hscratch'.trans hextent.symm
        reserved := hbase ▸ hs.reserved
        base_le_active := hbase ▸ hactive ▸ hs.base_le_scratch
        base_le_scratch := hbase ▸ hscratch ▸ hs.base_le_active
        active_inside := ?_
        scratch_inside := ?_
        active_covered := ?_
        scratch_covered := ?_
        disjoint := ?_ }
    · rw [hactive, hextent, hc.size]
      exact hs.scratch_inside
    · rw [hscratch, hextent, hc.size]
      exact hs.active_inside
    · rw [hactive, hextent, StartBits.Covers, hc.cells]
      exact hs.scratch_covered
    · rw [hscratch, hextent, StartBits.Covers, hc.cells]
      exact hs.active_covered
    · rw [hscratch, hextent, hactive]
      exact hs.disjoint.symm
  stack := hc.stack ▸ hc.base ▸ hr.stack
  limit := by rw [hc.limit, hc.active_start, hc.active_extent]
  cursor_aligned := hc.cursor_aligned
  start_le := by
    have htiles := hc.tiles.le
    have haligned := hc.cursor_aligned
    have hscratch := hr.scratch_start
    unfold Address.WordAligned at haligned
    rw [hc.active_start, Address.le_iff]
    omega
  cursor_le := hc.cursor_le

theorem tiled : h'.Tiled (moves.map fun p => (p.2, h.size p.1)) where
  tiles := by
    rw [hc.active_start]
    exact tiles_map.mpr hc.tiles
  nonempty := fun x hx => by
    obtain ⟨p, hp, rfl⟩ := List.mem_map.mp hx
    have htwo := hr.two_le_size (hc.reachable hp).initialised
    dsimp only
    omega
  starts := fun a => by
    rw [hc.starts]
    simp only [List.mem_map, exists_exists_and_eq_and]
  filled := fun x hx => by
    obtain ⟨p, hp, rfl⟩ := List.mem_map.mp hx
    obtain ⟨k, hsymbol, -, hk⟩ := hr.kind_eq (hc.reachable hp).initialised
    exact .inr ⟨k, hsymbol, (hc.mirrors.header_eq hr hp).trans hk, (hc.mirrors.size_eq hr hp).le⟩

theorem initialised_iff : h'.Initialised s ↔ ∃ p ∈ moves, p.2 = s := by
  have htiled := hc.tiled hr
  rw [htiled.initialised_iff (hc.layout hr), htiled.isSet_iff]
  simp only [List.mem_map, exists_exists_and_eq_and]
  refine ⟨And.left, fun hs => ⟨hs, ?_⟩⟩
  obtain ⟨p, hp, rfl⟩ := hs
  obtain ⟨k, -, -, hk⟩ := hr.kind_eq (hc.reachable hp).initialised
  exact ⟨k, (hc.mirrors.header_eq hr hp).trans hk⟩

theorem initialised_copy (hp : p ∈ moves) : h'.Initialised p.2 :=
  (hc.initialised_iff hr).mpr ⟨p, hp, rfl⟩

theorem allows_slot (hs : h'.Initialised s) (hj : h'.memory.IsSlot s.index j) :
    h'.Allows (h'.memory.word (s.index + j)) := by
  obtain ⟨p, hp, rfl⟩ := (hc.initialised_iff hr).mp hs
  have hi := (hc.reachable hp).initialised
  have hslot := (hc.mirrors.isSlot_iff hr hp).mp hj
  intro r htarget
  rcases hc.slots p hp j hslot with ⟨x, y, hxy, -, hw⟩ | ⟨hnames, hw⟩
  · rw [hw] at htarget
    obtain ⟨hword, -⟩ := target?_eq_some_iff.mp htarget
    exact .inr (Reference.word_inj.mp hword ▸ hc.initialised_copy hr hxy)
  · rw [hw] at htarget
    rcases hr.allows hi hslot r htarget with hlow | hinit
    · exact .inl (hc.base ▸ hlow)
    · rw [namesObject_iff.mpr ⟨r, htarget, hinit⟩] at hnames
      nomatch hnames

theorem regular : h'.Regular :=
  (hc.tiled hr).regular (hc.layout hr) fun _ hs _ hj => hc.allows_slot hr hs hj

theorem reachable_iff : h'.Reachable s ↔ ∃ r, CopiedTo moves r s := by
  constructor
  · intro hs
    obtain ⟨p, hp, rfl⟩ := (hc.initialised_iff hr).mp hs.initialised
    exact ⟨p.1, hp⟩
  · rintro ⟨r, hrs⟩
    obtain ⟨t, hrt, ht⟩ := hc.mirrors.reachable hr (hc.regular hr)
      (fun _ _ => hc.initialised_copy hr) (hc.reachable hrs)
    exact hc.functional hrs hrt ▸ ht

/-- The copies form the object graph that the roots reached before. -/
theorem sameGraph : h.SameGraph h' (copyOf moves) := by
  refine hc.mirrors.sameGraph hr (hc.regular hr) (fun _ _ => hc.initialised_copy hr)
    (fun _ _ => hc.copyOf_eq) (fun r s t hrt hst => ?_) fun s hs => ?_
  · exact congrArg Prod.fst (hc.eq_of_snd_eq hr hrt hst rfl)
  · obtain ⟨r, hrs⟩ := (hc.reachable_iff hr).mp hs
    exact ⟨r, hc.reachable hrs, hrs⟩

end Collected

end Heap

end CopyingHeap
