import CopyingHeap.Proofs.Collection.Repetition
import CopyingHeap.Proofs.Collection.Turns

/-!
A collection depends on the object graph only. Two heaps whose graphs are the same up to a renaming of
the objects are searched in orders that correspond, so that the copies of corresponding objects come to
lie at the same distance from the start of the new space, whatever else is in the heaps. The new spaces
then differ only in where they start.
-/

namespace CopyingHeap

/-- Objects at the same distance from two addresses. -/
theorem Reference.word_sub_eq {r s : Reference} {a b : Address}
    (h : r.address.toNat + b.toNat = s.address.toNat + a.toNat) : r.word - a.word = s.word - b.word := by
  have hr := r.toNat_address
  have hs := s.toNat_address
  have ha := a.toNat_lt
  have hb := b.toNat_lt
  rw [← UInt32.toNat_inj, UInt32.toNat_sub, UInt32.toNat_sub]
  change (2 ^ 32 - a.toNat + r.address.toNat) % 2 ^ 32 = (2 ^ 32 - b.toNat + s.address.toNat) % 2 ^ 32
  omega

namespace Heap

/-- The object graph of `k` is that of `h`, with the objects renamed by `f`. The roots, in the order of
their slots, and the reference slots of corresponding objects refer to corresponding objects. The other
words of corresponding objects are equal: the headers and lengths, the payload, and what else is in the
slots. -/
structure Renames (h : Heap) (f : Reference → Reference) (k : Heap) : Prop where
  bijective : Set.BijOn f {r | h.Reachable r} {s | k.Reachable s}
  roots : k.rootsFrom (k.stack.sp.toNat / 4) = (h.rootsFrom (h.stack.sp.toNat / 4)).map f
  references : ∀ r, h.Reachable r → ∀ j, h.memory.IsSlot r.index j →
    k.named? (k.memory.word ((f r).index + j)) = (h.named? (h.memory.word (r.index + j))).map f
  others : ∀ r, h.Reachable r → ∀ j, h.memory.IsSlot r.index j →
    h.named? (h.memory.word (r.index + j)) = none →
      k.memory.word ((f r).index + j) = h.memory.word (r.index + j)
  payload : ∀ r, h.Reachable r → ∀ j < h.size r, ¬ h.memory.IsSlot r.index j →
    k.memory.word ((f r).index + j) = h.memory.word (r.index + j)

/-- Is word `i` a reference slot of an object? -/
def InSlot (h : Heap) (i : Nat) : Prop :=
  ∃ b ≤ i, h.Initialised (.ofIndex b) ∧ h.memory.IsSlot b (i - b)

instance (h : Heap) (i : Nat) : Decidable (h.InSlot i) :=
  inferInstanceAs (Decidable (∃ b ≤ i, _))

/-- Word `i`, less the start of the active space if it is a reference into that space. -/
def relativeWord (h : Heap) (i : Nat) : Word :=
  match Word.target? (h.memory.word i) with
  | some r =>
    if h.InSlot i ∧ h.Inside r then r.word - h.spaces.active.start.word else h.memory.word i
  | none => h.memory.word i

/-- The active spaces of `h'` and `k'`, to which collections have moved the objects of `h` and `k`, are
laid out in the same way: objects that correspond by `f` are at the same place relative to the start of
the space, and so is the cursor, and the words up to the cursor are equal but for where the spaces are. -/
structure Coincide (h k : Heap) (f : Reference → Reference) (h' k' : Heap) : Prop where
  objects : ∃ g l, h.SameGraph h' g ∧ k.SameGraph k' l ∧ ∀ r, h.Reachable r → ∃ offset,
    (g r).address.diff h'.spaces.active.start = .ok offset ∧
      (l (f r)).address.diff k'.spaces.active.start = .ok offset
  words : ∃ bytes, h'.used = .ok bytes ∧ k'.used = .ok bytes ∧ ∀ i, 4 * i < bytes →
    h'.relativeWord (h'.spaces.active.start.toNat / 4 + i) =
      k'.relativeWord (k'.spaces.active.start.toNat / 4 + i)

section Search

variable {h : Heap} (hr : h.Regular) {r s : Reference}

include hr

theorem Regular.reachable_of_mem_rootsFrom (hs : s ∈ h.rootsFrom (h.stack.sp.toNat / 4)) :
    h.Reachable s := by
  obtain ⟨i, hi, hw⟩ := List.mem_filterMap.mp hs
  obtain ⟨htarget, hinit⟩ := named?_eq_some_iff.mp hw
  have hword := (target?_eq_some_iff.mp htarget).1
  have hrange := List.mem_range'_1.mp hi
  have hstack := hr.stack_bounds
  exact .root (hr.rootAt (by omega) (by omega) hword hinit)

theorem Regular.reachable_of_mem_children (hreach : h.Reachable r) (hs : s ∈ h.children r) :
    h.Reachable s := by
  obtain ⟨i, hi, hw⟩ := List.mem_filterMap.mp hs
  obtain ⟨j, hj, rfl⟩ := List.mem_map.mp hi
  obtain ⟨htarget, hinit⟩ := named?_eq_some_iff.mp hw
  have hslot := of_decide_eq_true (List.mem_filter.mp hj).2
  have hword := (target?_eq_some_iff.mp htarget).1
  exact hreach.step ((hr.pointsTo_iff hreach.initialised).mpr ⟨⟨j, hslot, hword⟩, hinit⟩)

end Search

namespace Renames

variable {h k : Heap} {f : Reference → Reference} (hf : h.Renames f k) (hr : h.Regular)
  {r : Reference}

include hf hr

theorem size_eq (hreach : h.Reachable r) : k.size (f r) = h.size r :=
  Memory.wordCount_of_payload (hr.two_le_size hreach.initialised) (hf.payload r hreach)

theorem isSlot_iff (hreach : h.Reachable r) {j : Nat} :
    k.memory.IsSlot (f r).index j ↔ h.memory.IsSlot r.index j :=
  Memory.isSlot_of_payload (hr.two_le_size hreach.initialised) (hf.payload r hreach)

theorem children_eq (hreach : h.Reachable r) : k.children (f r) = (h.children r).map f := by
  unfold children childrenFrom objectsAt
  rw [hf.size_eq hr hreach, List.filterMap_map, List.filterMap_map, List.map_filterMap]
  simp only [hf.isSlot_iff hr hreach]
  refine List.filterMap_congr fun j hj => ?_
  exact hf.references r hreach j (of_decide_eq_true (List.mem_filter.mp hj).2)

/-- The searches find corresponding objects in corresponding orders. -/
theorem order {rs : List Reference} (hrs : h.Order rs) : k.Order (rs.map f) := by
  have hroots : ∀ s ∈ h.rootsFrom (h.stack.sp.toNat / 4), h.Reachable s :=
    fun s => hr.reachable_of_mem_rootsFrom
  have hnone : ∀ s ∈ ([] : List Reference), h.Reachable s := fun s hs => absurd hs List.not_mem_nil
  unfold Order
  rw [hf.roots, ← List.map_nil (f := f), map_visit hf.bijective.injOn hnone hroots]
  refine hrs.map hf.bijective.injOn (fun r hreach s => hr.reachable_of_mem_children hreach)
    (fun r => hf.children_eq hr) fun s hs => ?_
  rcases mem_visit.mp hs with hs | hs
  · exact hnone s hs
  · exact hroots s hs

end Renames

namespace Collected

variable {h h' : Heap} (hr : h.Regular) {moves : List (Reference × Reference)}
  (hc : h.Collected moves h') {p : Reference × Reference} (hp : p ∈ moves) {r s : Reference} {j : Nat}

include hc hp

theorem target_le : h.target ≤ p.2.index ∧ 4 * (p.2.index + h.size p.1) ≤ h'.bump.cursor.toNat := by
  have hmem := hc.tiles.mem hp
  omega

include hr

theorem inSlot_iff (hj : j < h.size p.1) :
    h'.InSlot (p.2.index + j) ↔ h.memory.IsSlot p.1.index j := by
  have hend := hc.target_le hp
  have hlimit := h'.bump.cursor.toNat_lt
  constructor
  · rintro ⟨b, hb, hi, hslot⟩
    obtain ⟨q, hq, hplace⟩ := (hc.initialised_iff hr).mp hi
    have hindex : q.2.index = b := by
      rw [hplace]
      exact toNat_ofNat_div (by omega)
    rw [← hindex] at hslot
    have hslot' := (hc.mirrors.isSlot_iff hr hq).mp hslot
    have hlt : p.2.index + j - q.2.index < h.size q.1 := hslot'.lt
    -- The two copies have a word in common.
    rcases hc.tiles.separate hp hq with rfl | hs | hs
    · rwa [Nat.add_sub_cancel_left] at hslot'
    · omega
    · omega
  · intro hslot
    have hindex : Reference.ofIndex p.2.index = p.2 := by
      rw [← Reference.index_inj]
      exact toNat_ofNat_div (by omega)
    refine ⟨p.2.index, by omega, ?_, ?_⟩
    · rw [hindex]
      exact hc.initialised_copy hr hp
    · rw [Nat.add_sub_cancel_left]
      exact (hc.mirrors.isSlot_iff hr hp).mpr hslot

theorem relativeWord_of_not_isSlot (hj : j < h.size p.1) (hno : ¬ h.memory.IsSlot p.1.index j) :
    h'.relativeWord (p.2.index + j) = h.memory.word (p.1.index + j) := by
  have hslot : ¬ h'.InSlot (p.2.index + j) := mt (hc.inSlot_iff hr hp hj).mp hno
  have hword := hc.verbatim p hp j hj hno
  unfold relativeWord
  cases Word.target? (h'.memory.word (p.2.index + j)) with
  | none => exact hword
  | some t => exact (if_neg fun hboth => hslot hboth.1).trans hword

theorem relativeWord_of_named (hj : h.memory.IsSlot p.1.index j)
    (hnamed : h.named? (h.memory.word (p.1.index + j)) = some r) (hrs : CopiedTo moves r s) :
    h'.relativeWord (p.2.index + j) = s.word - h'.spaces.active.start.word := by
  obtain ⟨htarget, hi⟩ := named?_eq_some_iff.mp hnamed
  have hw := (target?_eq_some_iff.mp htarget).1
  obtain ⟨t, ht, hword⟩ := hr.carried_word hi hw (hc.slots p hp j hj)
  rw [hc.functional ht hrs] at hword
  have hk := hc.regular hr
  have hs := hc.initialised_copy hr hrs
  unfold relativeWord
  rw [hword, hk.target?_word hs]
  exact if_pos ⟨(hc.inSlot_iff hr hp hj.lt).mpr hj, hk.inside hs⟩

theorem outside_of_unnamed (hj : h.memory.IsSlot p.1.index j)
    (hnamed : h.named? (h.memory.word (p.1.index + j)) = none)
    (htarget : Word.target? (h.memory.word (p.1.index + j)) = some r) : ¬ h'.Inside r := by
  rcases hr.allows (hc.reachable hp).initialised hj r htarget with hbelow | hinit
  · intro hin
    have hbase := Address.le_iff.mp hr.spaces.base_le_scratch
    have hstart := hin.1
    rw [Address.lt_iff, Reference.toNat_address] at hbelow
    rw [hc.active_start] at hstart
    omega
  · rw [named?_eq_some_iff.mpr ⟨htarget, hinit⟩] at hnamed
    cases hnamed

theorem relativeWord_of_unnamed (hj : h.memory.IsSlot p.1.index j)
    (hnamed : h.named? (h.memory.word (p.1.index + j)) = none) :
    h'.relativeWord (p.2.index + j) = h.memory.word (p.1.index + j) := by
  have hnames : h.namesObject (h.memory.word (p.1.index + j)) = false := by
    rw [← isSome_named?, hnamed]
    rfl
  have hword : h'.memory.word (p.2.index + j) = h.memory.word (p.1.index + j) := by
    rcases hc.slots p hp j hj with ⟨x, y, hxy, hx, -⟩ | ⟨-, hsame⟩
    · rw [hx, hr.namesObject_word (hc.reachable hxy).initialised] at hnames
      cases hnames
    · exact hsame
  unfold relativeWord
  rw [hword]
  cases htarget : Word.target? (h.memory.word (p.1.index + j)) with
  | none => rfl
  | some t => exact if_neg fun hboth => hc.outside_of_unnamed hr hp hj hnamed htarget hboth.2

end Collected

namespace Renames

variable {h k h' k' : Heap} {f : Reference → Reference} (hf : h.Renames f k) (hr : h.Regular)
  (hk : k.Regular) {moves moves' : List (Reference × Reference)} (hc : h.Collected moves h')
  (hc' : k.Collected moves' k') (hsame : moves'.map Prod.fst = (moves.map Prod.fst).map f)

include hf hr hc hc' hsame

/-- The copies of corresponding objects, and the cursors, are at the same distance from the start. -/
theorem shifted : h'.bump.cursor.toNat / 4 + k.target = k'.bump.cursor.toNat / 4 + h.target ∧
    ∀ p ∈ moves, ∃ t, CopiedTo moves' (f p.1) t ∧ p.2.index + k.target = t.index + h.target := by
  have hpairs : List.Forall₂ (· = ·) ((moves.map Prod.fst).map f) (moves'.map Prod.fst) := by
    rw [List.forall₂_eq_eq_eq]
    exact hsame.symm
  rw [List.forall₂_map_left_iff, List.forall₂_map_left_iff, List.forall₂_map_right_iff] at hpairs
  obtain ⟨hcursor, hplaces⟩ := hc.tiles.shift hpairs hc'.tiles fun p hp q hq => by
    rw [← hq, hf.size_eq hr (hc.reachable hp)]
  refine ⟨hcursor, fun p hp => ?_⟩
  obtain ⟨q, hq, hfst, hplace⟩ := hplaces p hp
  exact ⟨q.2, show (f p.1, q.2) ∈ moves' from hfst ▸ hq, hplace⟩

include hk

theorem relativeWord_eq {p : Reference × Reference} (hp : p ∈ moves) {t : Reference}
    (ht : CopiedTo moves' (f p.1) t) {j : Nat} (hj : j < h.size p.1) :
    h'.relativeWord (p.2.index + j) = k'.relativeWord (t.index + j) := by
  have hreach := hc.reachable hp
  have hj' : j < k.size (f p.1) := by rwa [hf.size_eq hr hreach]
  by_cases hslot : h.memory.IsSlot p.1.index j
  · have hslot' : k.memory.IsSlot (f p.1).index j := (hf.isSlot_iff hr hreach).mpr hslot
    have hnamed' := hf.references p.1 hreach j hslot
    cases hnamed : h.named? (h.memory.word (p.1.index + j)) with
    | none =>
      rw [hnamed] at hnamed'
      rw [hc.relativeWord_of_unnamed hr hp hslot hnamed,
        hc'.relativeWord_of_unnamed hk ht hslot' hnamed', hf.others p.1 hreach j hslot hnamed]
    | some r =>
      rw [hnamed] at hnamed'
      -- The slots refer to corresponding objects, whose copies have been shifted alike.
      obtain ⟨htarget, hi⟩ := named?_eq_some_iff.mp hnamed
      have hedge : h.PointsTo p.1 r := (hr.pointsTo_iff hreach.initialised).mpr
        ⟨⟨j, hslot, (target?_eq_some_iff.mp htarget).1⟩, hi⟩
      obtain ⟨q, hq, rfl⟩ := List.mem_map.mp ((hc.mem_iff r).mpr (hreach.step hedge))
      obtain ⟨u, hu, hplace⟩ := (hf.shifted hr hc hc' hsame).2 q hq
      rw [hc.relativeWord_of_named hr hp hslot hnamed hq,
        hc'.relativeWord_of_named hk ht hslot' hnamed' hu, hc.active_start, hc'.active_start]
      have hscratch := hr.scratch_start
      have hscratch' := hk.scratch_start
      exact Reference.word_sub_eq (by rw [q.2.toNat_address, u.toNat_address]; omega)
  · rw [hc.relativeWord_of_not_isSlot hr hp hj hslot,
      hc'.relativeWord_of_not_isSlot hk ht hj' (mt (hf.isSlot_iff hr hreach).mp hslot),
      hf.payload p.1 hreach j hj hslot]

theorem coincide : h.Coincide k f h' k' := by
  obtain ⟨hcursor, hplaces⟩ := hf.shifted hr hc hc' hsame
  have hstart := hc.active_start
  have hstart' := hc'.active_start
  have hle := Address.le_iff.mp (hc.layout hr).start_le
  have hle' := Address.le_iff.mp (hc'.layout hk).start_le
  have haligned := hc.cursor_aligned
  have haligned' := hc'.cursor_aligned
  have hscratch := hr.scratch_start
  have hscratch' := hk.scratch_start
  unfold Address.WordAligned at haligned haligned'
  rw [hstart] at hle
  rw [hstart'] at hle'
  refine ⟨⟨copyOf moves, copyOf moves', hc.sameGraph hr, hc'.sameGraph hk, fun r hreach => ?_⟩,
    ⟨h'.bump.cursor.toNat - h.spaces.scratch.start.toNat, ?_, ?_, fun i hi => ?_⟩⟩
  · obtain ⟨p, hp, rfl⟩ := List.mem_map.mp ((hc.mem_iff r).mpr hreach)
    obtain ⟨t, ht, hplace⟩ := hplaces p hp
    have htarget := (hc.target_le hp).1
    rw [hc.copyOf_eq hp, hc'.copyOf_eq ht, hstart, hstart']
    refine ⟨4 * p.2.index - h.spaces.scratch.start.toNat, ?_, ?_⟩
    · rw [Address.diff_eq_ok_iff, Reference.toNat_address]
      omega
    · rw [Address.diff_eq_ok_iff, Reference.toNat_address]
      omega
  · rw [Heap.used, hstart, Address.diff_eq_ok_iff]
    omega
  · rw [Heap.used, hstart', Address.diff_eq_ok_iff]
    omega
  · have htiles := hc.tiles
    unfold target at htiles
    obtain ⟨p, hp, hlow, hhigh⟩ := htiles.exists_mem
      (i := h.spaces.scratch.start.toNat / 4 + i) (by omega) (by omega)
    obtain ⟨t, ht, hplace⟩ := hplaces p hp
    obtain ⟨j, hj⟩ := Nat.exists_eq_add_of_le hlow
    rw [hstart, hstart', hj, show k.spaces.scratch.start.toNat / 4 + i = t.index + j from by omega]
    exact hf.relativeWord_eq hr hk hc hc' hsame hp ht (by omega)

end Renames

/-- Collecting two heaps with the same object graph leaves the same layout in the new spaces, unless a
counter overflows in one of them. -/
theorem WellFormed.coincide_of_collect {h k : Heap} (hw : h.WellFormed) (hw' : k.WellFormed)
    {f : Reference → Reference} (hf : h.Renames f k) :
    (∃ h' k', h.collect = .ok h' ∧ k.collect = .ok k' ∧ h.Coincide k f h' k') ∨
      (h.collect = .error .overflow ∧ ¬ h.CountersFit) ∨
      (k.collect = .error .overflow ∧ ¬ k.CountersFit) := by
  have hr := hw.toRegular
  have hk := hw'.toRegular
  rcases hr.collect.cases with ⟨h', hcollect, -⟩ | ⟨e, he, rfl, hfit⟩
  · rcases hk.collect.cases with ⟨k', hcollect', -⟩ | ⟨e, he, rfl, hfit⟩
    · obtain ⟨moves, hc, horder⟩ := hr.ordered_of_collect hcollect
      obtain ⟨moves', hc', horder'⟩ := hk.ordered_of_collect hcollect'
      have hsame := Breadth.unique horder' (hf.order hr horder)
      exact .inl ⟨h', k', hcollect, hcollect', hf.coincide hr hk hc hc' hsame⟩
    · exact .inr (.inr ⟨he, hfit⟩)
  · exact .inr (.inl ⟨he, hfit⟩)

/-- A collection renames the objects, if no word of the stack becomes the address of a copy by chance. -/
theorem Collected.renames {h k : Heap} (hr : h.Regular) {moves : List (Reference × Reference)}
    (hc : h.Collected moves k)
    (hstray : ∀ i, h.stack.sp.toNat ≤ 4 * i → 4 * i < h.stack.base.toNat →
      h.named? (h.memory.word i) = none → k.named? (h.memory.word i) = none) :
    h.Renames (copyOf moves) k := by
  have hk := hc.regular hr
  have hg := hc.sameGraph hr
  have hnamed {w : Word} {r : Reference} (hw : h.named? w = some r) (hreach : h.Reachable r) :
      k.named? (h.renamed (copyOf moves) w) = some (copyOf moves r) := by
    have hi := (hg.bijective.mapsTo hreach).initialised
    obtain ⟨htarget, hinit⟩ := named?_eq_some_iff.mp hw
    rw [(target?_eq_some_iff.mp htarget).1, hr.renamed_word hinit]
    exact named?_eq_some_iff.mpr ⟨hk.target?_word hi, hi⟩
  have hunnamed {w : Word} (hw : h.named? w = none) : h.renamed (copyOf moves) w = w := by
    apply renamed_of_namesObject_eq_false
    rw [← isSome_named?, hw]
    rfl
  refine
    { bijective := hg.bijective
      roots := ?_
      references := fun r hreach j hj => ?_
      others := fun r hreach j hj hw => (hg.slots r hreach j hj).trans (hunnamed hw)
      payload := hg.payload }
  · unfold rootsFrom objectsAt
    rw [hc.stack, List.map_filterMap]
    refine List.filterMap_congr fun i hi => ?_
    have hrange := List.mem_range'_1.mp hi
    have hstack := hr.stack_bounds
    rw [hg.roots i (by omega) (by omega)]
    cases hw : h.named? (h.memory.word i) with
    | none =>
      rw [hunnamed hw]
      exact hstray i (by omega) (by omega) hw
    | some r => exact hnamed hw (hr.reachable_of_mem_rootsFrom (List.mem_filterMap.mpr ⟨i, hi, hw⟩))
  · rw [hg.slots r hreach j hj]
    cases hw : h.named? (h.memory.word (r.index + j)) with
    | none =>
      obtain ⟨p, hp, rfl⟩ := List.mem_map.mp ((hc.mem_iff r).mpr hreach)
      rw [hunnamed hw]
      refine Option.eq_none_iff_forall_not_mem.mpr fun t ht => ?_
      obtain ⟨htarget, hi⟩ := named?_eq_some_iff.mp ht
      exact hc.outside_of_unnamed hr hp hj hw htarget (hk.inside hi)
    | some s =>
      obtain ⟨htarget, hi⟩ := named?_eq_some_iff.mp hw
      have hedge : h.PointsTo r s := (hr.pointsTo_iff hreach.initialised).mpr
        ⟨⟨j, hj, (target?_eq_some_iff.mp htarget).1⟩, hi⟩
      exact hnamed hw (hreach.step hedge)

theorem coincide_looped : looped.WellFormed ∧ ∃ k f, looped.collect = .ok k ∧ k.WellFormed ∧
    looped.Renames f k ∧ ∃ h' k', looped.collect = .ok h' ∧ k.collect = .ok k' ∧
      looped.Coincide k f h' k' := by
  have hr := wellFormed_looped.toRegular
  obtain ⟨k, moves, hk, hc⟩ := wellFormed_looped.exists_collect countersFit_looped
  have hw := wellFormed_looped.collected hc
  have hample : looped.Ample 0 := ample_looped (by decide)
  have hfits := (hr.allocationFits hample).collected hr hc
  have hf : looped.Renames (copyOf moves) k := by
    refine hc.renames hr fun i hsp hbase hnone => ?_
    obtain rfl : i = 15 := by
      change 60 ≤ 4 * i at hsp
      change 4 * i < 64 at hbase
      omega
    -- The one word on the stack is a root.
    have hi := (initialised_looped _).mpr rfl
    have hroot : looped.memory.word 15 = (Reference.ofIndex 16).word := word_looped 15
    rw [hroot, named?_eq_some_iff.mpr ⟨hr.target?_word hi, hi⟩] at hnone
    cases hnone
  rcases WellFormed.coincide_of_collect wellFormed_looped hw hf with hsame | ⟨-, hfit⟩ | ⟨-, hfit⟩
  · exact ⟨wellFormed_looped, k, copyOf moves, hk, hw, hf, hsame⟩
  · exact absurd countersFit_looped hfit
  · exact absurd hfits hfit

end Heap

end CopyingHeap
