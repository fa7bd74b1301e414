import CopyingHeap.Proofs.Heap.Reachable

/-!
Heaps with the same object graph in other places, whatever else lies on the stack. A word of the stack
that is no root may become the address of a copy by chance, and then count as a root. So the graphs of
two heaps between which more than one collection lies are compared by their roots: a root stays a root
of the same object, and a slot without one holds its old word or a root of an object that was reached
anyway. Such comparisons compose.
-/

namespace CopyingHeap

namespace Heap

/-- The object graphs that the roots reach are the same up to the places of the objects, which `f` maps
to each other. Below the heap only the slots of the stack have changed. -/
structure Isomorphic (h : Heap) (f : Reference → Reference) (k : Heap) : Prop where
  stack : k.stack = h.stack
  base : k.spaces.base = h.spaces.base
  bijective : Set.BijOn f {r | h.Reachable r} {s | k.Reachable s}
  kind : ∀ r, h.Reachable r → k.memory.kind (f r) = h.memory.kind r
  objectSize : ∀ r, h.Reachable r → k.memory.objectSize (f r) = h.memory.objectSize r
  slots : ∀ r, h.Reachable r → ∀ j, h.memory.IsSlot r.index j →
    k.memory.word ((f r).index + j) = h.renamed f (h.memory.word (r.index + j))
  payload : ∀ r, h.Reachable r → ∀ j < h.size r, ¬ h.memory.IsSlot r.index j →
    k.memory.word ((f r).index + j) = h.memory.word (r.index + j)
  roots : ∀ i, h.stack.sp.toNat ≤ 4 * i → 4 * i < h.stack.base.toNat →
    ∀ r, h.memory.word i = r.word → h.Initialised r → k.memory.word i = (f r).word
  others : ∀ i, h.stack.sp.toNat ≤ 4 * i → 4 * i < h.stack.base.toNat →
    h.namesObject (h.memory.word i) = false →
      k.memory.word i = h.memory.word i ∨ ∃ s, k.Reachable s ∧ k.memory.word i = s.word
  frame : ∀ i, 4 * i < h.spaces.base.toNat →
    ¬ (h.stack.sp.toNat ≤ 4 * i ∧ 4 * i < h.stack.base.toNat) → k.memory.word i = h.memory.word i

theorem SameGraph.isomorphic {h k : Heap} {f : Reference → Reference} (hg : h.SameGraph k f)
    (hr : h.Regular) (hbase : k.spaces.base = h.spaces.base)
    (hframe : ∀ i, 4 * i < h.spaces.base.toNat →
      ¬ (h.stack.sp.toNat ≤ 4 * i ∧ 4 * i < h.stack.base.toNat) →
        k.memory.word i = h.memory.word i) : h.Isomorphic f k where
  stack := hg.stack
  base := hbase
  bijective := hg.bijective
  kind := hg.kind
  objectSize := hg.objectSize
  slots := hg.slots
  payload := hg.payload
  roots := by
    intro i hsp hstop r hw hi
    rw [hg.roots i hsp hstop, hw, hr.renamed_word hi]
  others := by
    intro i hsp hstop hnames
    left
    rw [hg.roots i hsp hstop, renamed_of_namesObject_eq_false f hnames]
  frame := hframe

/-- Renaming twice is renaming once. A word that is no stray address and names no object names none when
the objects have moved: it is an immediate, null or lies below the heap. -/
theorem Regular.renamed_renamed {h k : Heap} (hr : h.Regular) (hk : k.Regular)
    (hbase : k.spaces.base = h.spaces.base) {f g : Reference → Reference} {w : Word}
    (hw : h.Allows w) (himage : ∀ r, w = r.word → h.Initialised r → k.Initialised (f r)) :
    k.renamed g (h.renamed f w) = h.renamed (g ∘ f) w := by
  cases hnames : h.namesObject w with
  | true =>
    obtain ⟨s, htarget, hs⟩ := namesObject_iff.mp hnames
    obtain ⟨rfl, -⟩ := target?_eq_some_iff.mp htarget
    rw [hr.renamed_word hs, hr.renamed_word hs, hk.renamed_word (himage s rfl hs)]
    rfl
  | false =>
    have hnames' : k.namesObject w = false := by
      rw [Bool.eq_false_iff, Ne, namesObject_iff] at hnames ⊢
      rintro ⟨s, htarget, hs⟩
      rcases hw s htarget with hbelow | hinit
      · rw [← hbase] at hbelow
        exact hk.not_below hs hbelow
      · exact hnames ⟨s, htarget, hinit⟩
    rw [renamed_of_namesObject_eq_false f hnames, renamed_of_namesObject_eq_false _ hnames,
      renamed_of_namesObject_eq_false g hnames']

namespace Isomorphic

variable {h k l : Heap} {f g : Reference → Reference} {r s : Reference} (hi : h.Isomorphic f k)

include hi

theorem reachable (hreach : h.Reachable r) : k.Reachable (f r) :=
  hi.bijective.mapsTo hreach

variable (hr : h.Regular)

include hr

theorem size_eq (hreach : h.Reachable r) : k.size (f r) = h.size r :=
  Memory.wordCount_of_payload (hr.two_le_size hreach.initialised) (hi.payload r hreach)

theorem isSlot_iff (hreach : h.Reachable r) {j : Nat} :
    k.memory.IsSlot (f r).index j ↔ h.memory.IsSlot r.index j :=
  Memory.isSlot_of_payload (hr.two_le_size hreach.initialised) (hi.payload r hreach)

variable (hk : k.Regular)

include hk

theorem renamed_slot (hreach : h.Reachable r) {j : Nat} (hj : h.memory.IsSlot r.index j) :
    k.renamed g (h.renamed f (h.memory.word (r.index + j))) =
      h.renamed (g ∘ f) (h.memory.word (r.index + j)) := by
  apply hr.renamed_renamed hk hi.base (hr.allows hreach.initialised hj)
  intro s hw hs
  have hedge : h.PointsTo r s := (hr.pointsTo_iff hreach.initialised).mpr ⟨⟨j, hj, hw⟩, hs⟩
  exact (hi.reachable (hreach.step hedge)).initialised

omit hr hk in
/-- What has become a root keeps being one. -/
theorem root_word (hg : k.Isomorphic g l) {i : Nat} (hsp : h.stack.sp.toNat ≤ 4 * i)
    (hstop : 4 * i < h.stack.base.toNat) (hw : k.memory.word i = s.word) (hs : k.Reachable s) :
    ∃ t, l.Reachable t ∧ l.memory.word i = t.word := by
  rw [← hi.stack] at hsp hstop
  exact ⟨g s, hg.reachable hs, hg.roots i hsp hstop s hw hs.initialised⟩

theorem trans (hg : k.Isomorphic g l) : h.Isomorphic (g ∘ f) l where
  stack := hg.stack.trans hi.stack
  base := hg.base.trans hi.base
  bijective := hg.bijective.comp hi.bijective
  kind := fun r hreach => (hg.kind _ (hi.reachable hreach)).trans (hi.kind r hreach)
  objectSize := fun r hreach =>
    (hg.objectSize _ (hi.reachable hreach)).trans (hi.objectSize r hreach)
  slots := by
    intro r hreach j hj
    have hj' := (hi.isSlot_iff hr hreach).mpr hj
    rw [← hi.renamed_slot hr hk hreach hj, ← hi.slots r hreach j hj]
    exact hg.slots (f r) (hi.reachable hreach) j hj'
  payload := by
    intro r hreach j hj hno
    rw [← hi.payload r hreach j hj hno]
    apply hg.payload (f r) (hi.reachable hreach) j
    · rwa [hi.size_eq hr hreach]
    · rwa [hi.isSlot_iff hr hreach]
  roots := by
    intro i hsp hstop r hw hinit
    have hw' := hi.roots i hsp hstop r hw hinit
    have hreach : h.Reachable r := .root (hr.rootAt hsp hstop hw hinit)
    rw [← hi.stack] at hsp hstop
    exact hg.roots i hsp hstop (f r) hw' (hi.reachable hreach).initialised
  others := by
    intro i hsp hstop hnames
    rcases hi.others i hsp hstop hnames with hsame | ⟨s, hs, hw⟩
    · cases hnames' : k.namesObject (k.memory.word i) with
      | false =>
        rw [← hsame]
        rw [← hi.stack] at hsp hstop
        exact hg.others i hsp hstop hnames'
      | true =>
        -- The word has become the address of a copy by chance.
        obtain ⟨s, htarget, hs⟩ := namesObject_iff.mp hnames'
        obtain ⟨hw, -⟩ := target?_eq_some_iff.mp htarget
        have hroot : k.RootAt (Address.ofNat (4 * i)) s :=
          hk.rootAt (hi.stack ▸ hsp) (hi.stack ▸ hstop) hw hs
        exact .inr (hi.root_word hg hsp hstop hw (.root hroot))
    · exact .inr (hi.root_word hg hsp hstop hw hs)
  frame := by
    intro i hbelow hoff
    rw [← hi.frame i hbelow hoff]
    rw [← hi.base] at hbelow
    rw [← hi.stack] at hoff
    exact hg.frame i hbelow hoff

end Isomorphic

theorem renamed_id (h : Heap) (w : Word) : h.renamed id w = w := by
  unfold renamed
  cases htarget : Word.target? w with
  | none => rfl
  | some r =>
    obtain ⟨hw, -⟩ := target?_eq_some_iff.mp htarget
    dsimp only
    split
    · exact hw.symm
    · rfl

/-- The words of the objects of `h` are the same in `k`. -/
structure Intact (h k : Heap) : Prop where
  small : k.memory.words.size ≤ 0x3FFFC000
  size_le : h.memory.words.size ≤ k.memory.words.size
  word : ∀ r, h.Initialised r → ∀ j < h.size r,
    k.memory.word (r.index + j) = h.memory.word (r.index + j)

namespace Intact

variable {h k : Heap} (hp : h.Intact k) (hr : h.Regular) {r : Reference} (hi : h.Initialised r)

include hp hr hi

theorem header_eq : k.memory.word r.index = h.memory.word r.index := by
  have htwo := hr.two_le_size hi
  exact hp.word r hi 0 (by omega)

theorem length_eq : k.memory.word (r.index + 1) = h.memory.word (r.index + 1) := by
  have htwo := hr.two_le_size hi
  exact hp.word r hi 1 (by omega)

theorem size_eq : k.size r = h.size r :=
  Memory.wordCount_congr (hp.header_eq hr hi) fun _ _ _ => hp.length_eq hr hi

theorem isSlot_iff {j : Nat} : k.memory.IsSlot r.index j ↔ h.memory.IsSlot r.index j :=
  Memory.isSlot_congr (hp.header_eq hr hi) fun _ _ _ => hp.length_eq hr hi

theorem inside : r.index + h.size r ≤ k.memory.words.size := by
  have hend := hr.end_le_size hi
  have hsize := hp.size_le
  omega

theorem kind_eq : k.memory.kind r = h.memory.kind r := by
  obtain ⟨c, -, hkind, hc⟩ := hr.kind_eq hi
  have htwo := hr.two_le_size hi
  have hinside := hp.inside hr hi
  rw [hkind]
  apply Memory.kind_eq_ok
  · omega
  · rw [hp.header_eq hr hi, hc]

theorem objectSize_eq : k.memory.objectSize r = h.memory.objectSize r := by
  obtain ⟨c, -, -, hc⟩ := hr.kind_eq hi
  have htwo := hr.two_le_size hi
  have hinside := hp.inside hr hi
  have hc' := (hp.header_eq hr hi).trans hc
  have hbytes : k.memory.objectSize r = .ok (4 * k.size r) :=
    Memory.objectSize_eq hp.small (by omega) hc'
  rw [hbytes, hr.objectSize hi, hp.size_eq hr hi]

theorem hasSlot_iff {slot : Address} :
    k.memory.HasSlot r slot ↔
      ∃ j, h.memory.IsSlot r.index j ∧ slot = Address.ofNat (4 * (r.index + j)) := by
  obtain ⟨c, -, -, hc⟩ := hr.kind_eq hi
  have hinside := hp.inside hr hi
  have hc' := (hp.header_eq hr hi).trans hc
  have hsize : k.memory.wordCount r.index = h.size r := hp.size_eq hr hi
  rw [Memory.hasSlot_iff hp.small hc' (by omega)]
  simp only [hp.isSlot_iff hr hi]

theorem load_slot {j : Nat} (hj : j < h.size r) :
    k.memory.load (Address.ofNat (4 * (r.index + j))) = .ok (h.memory.word (r.index + j)) := by
  have hinside := hp.inside hr hi
  have hsmall := hp.small
  rw [Memory.load_word (by omega) (by omega), hp.word r hi j hj]

end Intact

/-- The objects of `h` stay where they are in `k`, and so does every word up to the cursor. -/
structure Preserves (h k : Heap) : Prop where
  stack : k.stack = h.stack
  base : k.spaces.base = h.spaces.base
  small : k.memory.words.size ≤ 0x3FFFC000
  size_le : h.memory.words.size ≤ k.memory.words.size
  initialised_iff : ∀ r, k.Initialised r ↔ h.Initialised r
  word : ∀ i, 4 * i < h.bump.cursor.toNat → k.memory.word i = h.memory.word i

namespace Preserves

variable {h k : Heap} (hp : h.Preserves k) (hr : h.Regular) {r s : Reference} (hi : h.Initialised r)

include hp hr

theorem intact : h.Intact k where
  small := hp.small
  size_le := hp.size_le
  word := by
    intro r hi j hj
    have hend := (hr.object_end hi).1
    apply hp.word
    omega

include hi

theorem pointsTo_iff : k.PointsTo r s ↔ h.PointsTo r s := by
  rw [hr.pointsTo_iff hi]
  unfold PointsTo
  rw [hp.initialised_iff]
  refine and_congr_left fun _ => ?_
  constructor
  · rintro ⟨slot, hslot, hload⟩
    obtain ⟨j, hj, rfl⟩ := ((hp.intact hr).hasSlot_iff hr hi).mp hslot
    rw [(hp.intact hr).load_slot hr hi hj.lt, Except.ok.injEq] at hload
    exact ⟨j, hj, hload⟩
  · rintro ⟨j, hj, hw⟩
    refine ⟨_, ((hp.intact hr).hasSlot_iff hr hi).mpr ⟨j, hj, rfl⟩, ?_⟩
    rw [(hp.intact hr).load_slot hr hi hj.lt, hw]

omit hi

theorem stack_word {i : Nat} (hi : 4 * i < h.stack.base.toNat) :
    k.memory.word i = h.memory.word i := by
  have hbounds := hr.stack_bounds
  have hstart := Address.le_iff.mp hr.start_le
  apply hp.word
  omega

theorem rootAt_iff {slot : Address} : k.RootAt slot r ↔ h.RootAt slot r := by
  unfold RootAt
  rw [hp.stack, hp.initialised_iff]
  refine and_congr_right fun hslot => and_congr_left fun _ => ?_
  have hstop : slot.toNat < h.stack.base.toNat := Address.lt_iff.mp hslot.2
  have hindex : 4 * (slot.toNat / 4) < h.stack.base.toNat := by omega
  have hin := hr.stack_inside hindex
  have hsize := hp.size_le
  rw [Memory.load_eq_ok_iff, Memory.load_eq_ok_iff, Memory.getElem?_eq_word hin,
    Memory.getElem?_eq_word (by omega), hp.stack_word hr hindex]

theorem reachable_iff : k.Reachable r ↔ h.Reachable r := by
  constructor
  · intro hreach
    induction hreach with
    | root hroot => exact .root ((hp.rootAt_iff hr).mp hroot)
    | step _ hedge ih => exact ih.step ((hp.pointsTo_iff hr ih.initialised).mp hedge)
  · intro hreach
    induction hreach with
    | root hroot => exact .root ((hp.rootAt_iff hr).mpr hroot)
    | step hreach hedge ih => exact ih.step ((hp.pointsTo_iff hr hreach.initialised).mpr hedge)

/-- Heaps that have the same objects in the same places have the same object graph. -/
theorem isomorphic : h.Isomorphic id k where
  stack := hp.stack
  base := hp.base
  bijective := by
    have hsame : {s | k.Reachable s} = {r | h.Reachable r} := by
      ext r
      exact hp.reachable_iff hr
    rw [hsame]
    exact Set.bijOn_id _
  kind := fun r hreach => (hp.intact hr).kind_eq hr hreach.initialised
  objectSize := fun r hreach => (hp.intact hr).objectSize_eq hr hreach.initialised
  slots := by
    intro r hreach j hj
    rw [renamed_id]
    exact (hp.intact hr).word r hreach.initialised j hj.lt
  payload := by
    intro r hreach j hj _
    exact (hp.intact hr).word r hreach.initialised j hj
  roots := by
    intro i _ hstop r hw _
    rw [hp.stack_word hr hstop, hw]
    rfl
  others := by
    intro i _ hstop _
    exact .inl (hp.stack_word hr hstop)
  frame := by
    intro i hbelow _
    have hbase := Address.le_iff.mp hr.spaces.base_le_active
    have hstart := Address.le_iff.mp hr.start_le
    apply hp.word
    omega

end Preserves

theorem Regular.preserves_self {h : Heap} (hr : h.Regular) : h.Preserves h :=
  ⟨rfl, rfl, hr.size_le, Nat.le_refl _, fun _ => Iff.rfl, fun _ _ => rfl⟩

end Heap

end CopyingHeap
