import CopyingHeap.Proofs.Collection.Frame
import CopyingHeap.Proofs.Heap.Contract
import CopyingHeap.Proofs.Heap.Enumeration

/-!
Two collections in a row. A word of the stack that is no root may be the address of a copy after the
first one, and the second one takes it for a root. The first has left nothing but copies of reachable
objects, though, so that the second finds the same objects again and does the same work.
-/

namespace CopyingHeap

namespace Heap

/-- A collection of `h` has left `k`, and one of `k` has left `l`: the second one kept as many bytes and
objects as the first one, and copied as many of each kind. -/
structure Repeats (h k l : Heap) : Prop where
  used : ∃ bytes, k.used = .ok bytes ∧ l.used = .ok bytes
  liveBytes : l.statistics.liveBytes = k.statistics.liveBytes
  objects : ∃ rs ss, k.objects = .ok rs ∧ l.objects = .ok ss ∧ ss.length = rs.length
  objectsCopied : ∀ c, ∃ n,
    k.statistics.objectsCopied.get c = h.statistics.objectsCopied.get c + n ∧
      l.statistics.objectsCopied.get c = k.statistics.objectsCopied.get c + n
  bytesCopied : ∀ c, ∃ n,
    k.statistics.bytesCopied.get c = h.statistics.bytesCopied.get c + n ∧
      l.statistics.bytesCopied.get c = k.statistics.bytesCopied.get c + n

namespace Collected

variable {h k l : Heap} (hr : h.Regular) {moves again : List (Reference × Reference)}
  (hc : h.Collected moves k)

include hr hc

theorem isomorphic : h.Isomorphic (copyOf moves) k :=
  (hc.sameGraph hr).isomorphic hr hc.base hc.frame

variable (hc' : k.Collected again l)

include hc'

/-- The second collection copies the copies that the first one made, in some order. -/
theorem perm : (again.map Prod.fst).Perm ((moves.map Prod.fst).map (copyOf moves)) := by
  have hi := hc.isomorphic hr
  have hnodup : ((moves.map Prod.fst).map (copyOf moves)).Nodup := by
    apply hc.nodup.map_on
    intro r hmem s hmem' heq
    exact hi.bijective.injOn ((hc.mem_iff r).mp hmem) ((hc.mem_iff s).mp hmem') heq
  apply (List.perm_ext_iff_of_nodup hc'.nodup hnodup).mpr
  intro s
  rw [hc'.mem_iff, List.mem_map]
  constructor
  · intro hs
    obtain ⟨r, hreach, hrs⟩ := hi.bijective.surjOn hs
    exact ⟨r, (hc.mem_iff r).mpr hreach, hrs⟩
  · rintro ⟨r, hmem, rfl⟩
    exact hi.reachable ((hc.mem_iff r).mp hmem)

theorem sum_size_eq :
    ((again.map Prod.fst).map k.size).sum = ((moves.map Prod.fst).map h.size).sum := by
  have hi := hc.isomorphic hr
  rw [((hc.perm hr hc').map k.size).sum_eq, List.map_map]
  congr 1
  apply List.map_congr_left
  intro r hmem
  exact hi.size_eq hr ((hc.mem_iff r).mp hmem)

theorem countOf_eq (c : Kind) :
    k.countOf c (again.map Prod.fst) = h.countOf c (moves.map Prod.fst) := by
  rw [countOf, (hc.perm hr hc').countP_eq]
  exact (hc.isomorphic hr).countOf_map (fun r hmem => (hc.mem_iff r).mp hmem) c

theorem bytesOf_eq (c : Kind) :
    k.bytesOf c (again.map Prod.fst) = h.bytesOf c (moves.map Prod.fst) := by
  rw [bytesOf, (((hc.perm hr hc').filter _).map _).sum_eq]
  exact (hc.isomorphic hr).bytesOf_map (fun r hmem => (hc.mem_iff r).mp hmem) hr c

theorem repeats : h.Repeats k l := by
  have hk := hc.regular hr
  have hlive : l.statistics.liveBytes = k.statistics.liveBytes := by
    rw [hc'.statistics, hc.statistics, hc.sum_size_eq hr hc']
  refine
    { used := ⟨k.statistics.liveBytes, (hc.retains hr).used, ?_⟩
      liveBytes := hlive
      objects := ?_
      objectsCopied := fun c => ⟨h.countOf c (moves.map Prod.fst), (hc.counts c).1, ?_⟩
      bytesCopied := fun c => ⟨h.bytesOf c (moves.map Prod.fst), (hc.counts c).2, ?_⟩ }
  · rw [(hc'.retains hk).used, hlive]
  · refine ⟨_, _, (hc.tiled hr).objects_eq (hc.layout hr), (hc'.tiled hk).objects_eq (hc'.layout hk),
      ?_⟩
    have hlength := (hc.perm hr hc').length_eq
    simpa using hlength
  · rw [(hc'.counts c).1, hc.countOf_eq hr hc']
  · rw [(hc'.counts c).2, hc.bytesOf_eq hr hc']

end Collected

/-- A second collection of a well-formed heap does the work of the first one again, unless a counter
overflows in one of them. -/
theorem WellFormed.repeats_of_collect {h : Heap} (hw : h.WellFormed) :
    (∃ k l, h.collect = .ok k ∧ k.collect = .ok l ∧ h.Repeats k l) ∨
      (h.collect = .error .overflow ∧ ¬ h.CountersFit) ∨
      ∃ k, h.collect = .ok k ∧ k.collect = .error .overflow ∧ ¬ k.CountersFit := by
  have hr := hw.toRegular
  rcases hr.collect.cases with ⟨k, hk, moves, hc⟩ | ⟨f, hf, rfl, hfit⟩
  · rcases (hc.regular hr).collect.cases with ⟨l, hl, again, hc'⟩ | ⟨f, hf, rfl, hfit⟩
    · left
      exact ⟨k, l, hk, hl, hc.repeats hr hc'⟩
    · right
      right
      exact ⟨k, hk, hf, hfit⟩
  · right
    left
    exact ⟨hf, hfit⟩

theorem initialised_strewn (r : Reference) : strewn.Initialised r ↔ r = .ofIndex 16 :=
  (restacks_looped.initialised_iff layout_looped).trans (initialised_looped r)

theorem reachable_strewn (r : Reference) : strewn.Reachable r ↔ r = .ofIndex 16 := by
  constructor
  · intro hreach
    exact (initialised_strewn r).mp hreach.initialised
  · rintro rfl
    have hroot : strewn.memory.word 15 = (Reference.ofIndex 16).word := word_strewn 15
    exact .root (wellFormed_strewn.toRegular.rootAt (by decide) (by decide) hroot
      ((initialised_strewn _).mpr rfl))

theorem slots_strewn : List.range' (strewn.stack.sp.toNat / 4)
    (strewn.stack.base.toNat / 4 - strewn.stack.sp.toNat / 4) = [14, 15] := by
  decide

theorem rootCount_strewn : strewn.rootCount = 1 := by
  have hr := wellFormed_strewn.toRegular
  have hstray : strewn.namesObject 128 = false := hr.stray_iff.mp stray_strewn
  have hroot : strewn.namesObject (Reference.ofIndex 16).word = true :=
    hr.namesObject_word ((initialised_strewn _).mpr rfl)
  have hgarbage : strewn.memory.word 14 = 128 := word_strewn 14
  have hword : strewn.memory.word 15 = (Reference.ofIndex 16).word := word_strewn 15
  rw [rootCount, slots_strewn, List.countP_cons, List.countP_singleton, hgarbage, hword, hstray,
    hroot]
  rfl

/-- The word that was no root is one after the collection. -/
theorem rootCount_of_collect_strewn {k : Heap} (hk : strewn.collect = .ok k) : k.rootCount = 2 := by
  have hr := wellFormed_strewn.toRegular
  obtain ⟨moves, hc⟩ := hr.of_collect hk
  have hone : moves.map Prod.fst = [.ofIndex 16] := by
    apply List.perm_singleton.mp
    apply (List.perm_ext_iff_of_nodup hc.nodup (List.nodup_singleton _)).mpr
    intro r
    rw [hc.mem_iff, reachable_strewn, List.mem_singleton]
  obtain ⟨⟨r, s⟩, rfl, rfl⟩ := List.map_eq_singleton_iff.mp hone
  have hplace : s = .ofIndex 32 := Reference.index_inj.mp hc.tiles.1
  subst hplace
  have hi := hc.initialised_copy hr (List.mem_singleton_self _)
  have hnames : k.namesObject (Reference.ofIndex 32).word = true :=
    (hc.regular hr).namesObject_word hi
  have hg := hc.sameGraph hr
  have hgarbage : k.memory.word 14 = (Reference.ofIndex 32).word := by
    rw [hg.roots 14 (by decide) (by decide), show strewn.memory.word 14 = 128 from word_strewn 14]
    exact renamed_of_namesObject_eq_false _ (hr.stray_iff.mp stray_strewn)
  have hroot : k.memory.word 15 = (Reference.ofIndex 32).word := by
    have hword : strewn.memory.word 15 = (Reference.ofIndex 16).word := word_strewn 15
    rw [hg.roots 15 (by decide) (by decide), hword,
      hr.renamed_word ((initialised_strewn _).mpr rfl), hc.copyOf_eq (List.mem_singleton_self _)]
  rw [rootCount, hc.stack, slots_strewn, List.countP_cons, List.countP_singleton, hgarbage, hroot,
    hnames]
  rfl

theorem allocationFits_strewn : strewn.AllocationFits 0 where
  recent := by decide
  allocated := by decide
  growths := by decide
  collections := by decide
  roots := by decide
  copies := by
    intro rs ss hrs hss hreach hreach' c
    have hr := wellFormed_strewn.toRegular
    have hfirst := hr.copies_le hrs hreach c
    have hsecond := hr.copies_le hss hreach' c
    have hcopied : strewn.statistics.objectsCopied.get c = 0 ∧
        strewn.statistics.bytesCopied.get c = 0 := by
      cases c <;> decide
    unfold Size.bound
    omega

theorem repeats_strewn : strewn.WellFormed ∧ ∃ k l, strewn.collect = .ok k ∧ k.collect = .ok l ∧
    strewn.Repeats k l ∧ strewn.rootCount = 1 ∧ k.rootCount = 2 := by
  have hw := wellFormed_strewn
  rcases WellFormed.repeats_of_collect hw with
    ⟨k, l, hk, hl, hrepeats⟩ | ⟨-, hfit⟩ | ⟨k, hk, -, hfit⟩
  · exact ⟨hw, k, l, hk, hl, hrepeats, rootCount_strewn, rootCount_of_collect_strewn hk⟩
  · exact absurd countersFit_strewn hfit
  · obtain ⟨moves, hc⟩ := hw.toRegular.of_collect hk
    exact absurd (allocationFits_strewn.collected hw.toRegular hc) hfit

end Heap

end CopyingHeap
