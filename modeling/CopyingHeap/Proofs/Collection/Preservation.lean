import CopyingHeap.Proofs.Collection.Graph
import CopyingHeap.Proofs.Heap.Sound

/-!
The main results about a collection. It cannot fail, unless a counter overflows, and it keeps the object
graph that the roots reach, whatever words lie on the stack.
-/

namespace CopyingHeap

namespace Heap

theorem countOf_le (h : Heap) (k : Kind) (rs : List Reference) : h.countOf k rs ≤ rs.length :=
  List.countP_le_length

theorem bytesOf_le (h : Heap) (k : Kind) (rs : List Reference) :
    h.bytesOf k rs ≤ 4 * (rs.map h.size).sum := by
  induction rs with
  | nil => exact Nat.zero_le _
  | cons r rs ih =>
    unfold bytesOf at ih ⊢
    rw [List.filter_cons, List.map_cons, List.sum_cons]
    split
    · rw [List.map_cons, List.sum_cons]
      omega
    · omega

theorem rootCount_le (h : Heap) :
    h.rootCount ≤ h.stack.base.toNat / 4 - h.stack.sp.toNat / 4 := by
  unfold rootCount
  exact List.countP_le_length.trans (List.length_range' ..).le

theorem Regular.length_le {h : Heap} (hr : h.Regular) {rs : List Reference}
    (hi : ∀ r ∈ rs, h.Initialised r) : rs.length ≤ (rs.map h.size).sum := by
  induction rs with
  | nil => exact Nat.le_refl _
  | cons r rs ih =>
    have htwo := hr.two_le_size (hi r List.mem_cons_self)
    have hrest := ih fun s hs => hi s (List.mem_cons_of_mem r hs)
    rw [List.map_cons, List.sum_cons, List.length_cons]
    omega

/-- Objects that are reached, each counted once, have no more bytes than a whole memory. -/
theorem Regular.copies_le {h : Heap} (hr : h.Regular) {rs : List Reference} (hrs : rs.Nodup)
    (hreach : ∀ r ∈ rs, h.Reachable r) (k : Kind) :
    h.countOf k rs ≤ 0x100000000 ∧ h.bytesOf k rs ≤ 0x100000000 := by
  have hi (r) (hr : r ∈ rs) := (hreach r hr).initialised
  have hsum := hr.sum_size_le hrs hi
  have hlength := hr.length_le hi
  have hinside := hr.spaces.active_inside
  have hsize := hr.size_le
  have hcount := h.countOf_le k rs
  have hbytes := h.bytesOf_le k rs
  omega

/-- The counters fit when there is room in each of them for the bytes of a whole memory. -/
theorem Regular.countersFit {h : Heap} (hr : h.Regular)
    (hcopies : ∀ k, h.statistics.objectsCopied.get k + 0x100000000 < Size.bound ∧
      h.statistics.bytesCopied.get k + 0x100000000 < Size.bound)
    (hcollections : h.statistics.collections + 1 < Size.bound)
    (hroots : h.statistics.rootsTraced + 0x100000000 < Size.bound) : h.CountersFit where
  copies := fun rs hrs hreach k => by
    have hle := hr.copies_le hrs hreach k
    have hroom := hcopies k
    omega
  collections := hcollections
  roots := by
    have h1 := h.rootCount_le
    have h2 := h.stack.base.toNat_lt
    omega

namespace WellFormed

variable {h h' : Heap}

theorem collected (hw : h.WellFormed) {moves : List (Reference × Reference)}
    (hc : h.Collected moves h') : h'.WellFormed :=
  { hc.regular hw.toRegular with
    reserved := hc.stack ▸ hw.reserved
    limit_le := hc.stack ▸ hw.limit_le }

theorem exists_collect (hw : h.WellFormed) (hfit : h.CountersFit) :
    ∃ h' moves, h.collect = .ok h' ∧ h.Collected moves h' := by
  obtain ⟨h', hc, moves, hm⟩ := hw.toRegular.collect.exists_ok fun f hf => hf.2 hfit
  exact ⟨h', moves, hc, hm⟩

/-- A collection of a well-formed heap ends, and leaves a well-formed heap. -/
theorem collect_eq_ok (hw : h.WellFormed) (hfit : h.CountersFit) :
    ∃ h', h.collect = .ok h' ∧ h'.WellFormed := by
  obtain ⟨h', moves, hc, hm⟩ := hw.exists_collect hfit
  exact ⟨h', hc, hw.collected hm⟩

/-- A collection keeps the object graph that the roots reach, and no other object. Below the heap it
changes only the roots. -/
theorem sameGraph_of_collect (hw : h.WellFormed) (hc : h.collect = .ok h') :
    ∃ f, h.SameGraph h' f ∧ (∀ s, h'.Initialised s ↔ h'.Reachable s) ∧
      ∀ i, 4 * i < h.spaces.base.toNat →
        ¬ (h.stack.sp.toNat ≤ 4 * i ∧ 4 * i < h.stack.base.toNat) →
          h'.memory.word i = h.memory.word i := by
  obtain ⟨moves, hm⟩ := hw.toRegular.collect.of_ok hc
  refine ⟨copyOf moves, hm.sameGraph hw.toRegular, fun s => ⟨fun hs => ?_, Reachable.initialised⟩,
    hm.frame⟩
  obtain ⟨p, hp, rfl⟩ := (hm.initialised_iff hw.toRegular).mp hs
  exact (hm.reachable_iff hw.toRegular).mpr ⟨p.1, hp⟩

end WellFormed

/-- A heap with one object, a list node that is its own head, and one root. -/
def looped : Heap where
  memory := (((Memory.mk (Array.replicate 0x4000 0) 1).withWord 15 64).withWord 16
    Kind.listNode.header).withWord 17 64
  stack := ⟨.ofNat 64, .ofNat 8, .ofNat 60⟩
  spaces := ⟨⟨"copyspace0", .ofNat 64, 64, false⟩, ⟨"copyspace1", .ofNat 128, 64, true⟩, .ofNat 64,
    ⟨#[0x10000]⟩⟩
  bump := ⟨.ofNat 76, .ofNat 128⟩
  options := .defaults
  statistics := .initial
  recent := 12

theorem word_looped (i : Nat) : looped.memory.word i =
    if i = 17 then 64 else if i = 16 then Kind.listNode.header else if i = 15 then 64 else 0 := by
  have hzero (j : Nat) : (Memory.mk (Array.replicate 0x4000 0) 1).word j = 0 := by
    unfold Memory.word
    rw [Array.getD_eq_getD_getElem?, Array.getElem?_replicate]
    split <;> rfl
  unfold looped
  rw [Memory.word_withWord (by simp), Memory.word_withWord (by simp),
    Memory.word_withWord (by simp), hzero]

theorem isSet_looped (a : Address) : looped.spaces.bits.isSet a = true ↔ a = .ofNat 64 := by
  have hset : (StartBits.mk #[0]).set (.ofNat 64) = .ok looped.spaces.bits := by decide
  have hclear : (StartBits.mk #[0]).isSet a = false :=
    (StartBits.isSet_extend ⟨#[]⟩ 1 a).trans (StartBits.isSet_empty a)
  rw [StartBits.isSet_set hset, hclear, Bool.false_or, decide_eq_true_iff]

theorem size_looped : looped.memory.words.size = 0x4000 := by
  simp [looped]

theorem layout_looped : looped.Layout where
  paged := ⟨⟨1, size_looped, by decide⟩, by decide⟩
  spaces :=
    { active_aligned := by decide
      scratch_aligned := by decide
      extent_words := by decide
      extent_eq := by decide
      reserved := by decide
      base_le_active := by decide
      base_le_scratch := by decide
      active_inside := by rw [size_looped]; decide
      scratch_inside := by rw [size_looped]; decide
      active_covered := (by decide : 64 + 64 ≤ 256 * 1)
      scratch_covered := (by decide : 128 + 64 ≤ 256 * 1)
      disjoint := .inl (by decide) }
  stack := ⟨by decide, by decide, by decide, by decide, by decide⟩
  limit := by decide
  cursor_aligned := by decide
  start_le := by decide
  cursor_le := by decide

theorem size_node_looped : looped.size (.ofIndex 16) = 3 := by
  have hheader : looped.memory.word 16 = Kind.listNode.header := word_looped 16
  exact Memory.wordCount_eq hheader

theorem tiled_looped : looped.Tiled [(.ofIndex 16, 3)] where
  tiles := ⟨by decide, (by decide : 16 + 3 = 76 / 4)⟩
  nonempty := by decide
  starts := fun a => by
    simp only [isSet_looped, List.mem_singleton, exists_eq_left]
    exact eq_comm
  filled := fun x hx => by
    rw [List.mem_singleton.mp hx]
    exact .inr ⟨.listNode, by decide, word_looped 16, size_node_looped.le⟩

theorem initialised_looped (r : Reference) : looped.Initialised r ↔ r = .ofIndex 16 := by
  rw [tiled_looped.initialised_iff layout_looped, isSet_looped]
  constructor
  · rintro ⟨hr, -⟩
    exact Reference.ext_address hr
  · rintro rfl
    exact ⟨rfl, .listNode, word_looped 16⟩

theorem admits_looped : looped.Admits 64 ∧ looped.Admits 0 := by
  constructor
  · intro r htarget
    obtain ⟨hword, -⟩ := target?_eq_some_iff.mp htarget
    have hself : r.word = (Reference.ofIndex 16).word := hword.symm
    exact .inr ((initialised_looped r).mpr (Reference.word_inj.mp hself))
  · intro r htarget
    obtain ⟨hword, hne⟩ := target?_eq_some_iff.mp htarget
    have hnull : r.word = Reference.null.word := hword.symm
    exact absurd (Reference.word_inj.mp hnull) hne

theorem sound_looped : looped.Sound := by
  refine { layout_looped with
    base_aligned := by decide
    reserved := by decide
    limit_le := by decide
    null_raw := by rw [word_looped]; decide
    tiled := ⟨_, tiled_looped⟩
    slots := fun r hi j hj => ?_
    roots := fun i h1 h2 => ?_ }
  · obtain rfl := (initialised_looped r).mp hi
    have hheader : looped.memory.word (Reference.ofIndex 16).index = Kind.listNode.header :=
      word_looped 16
    rcases (Memory.isSlot_iff hheader).mp hj with rfl | rfl
    · exact (word_looped 17) ▸ admits_looped.1
    · exact (word_looped 18) ▸ admits_looped.2
  · obtain rfl : i = 15 := by
      change 60 ≤ 4 * i at h1
      change 4 * i < 64 at h2
      omega
    exact (word_looped 15) ▸ admits_looped.1

theorem wellFormed_looped : looped.WellFormed :=
  { sound_looped.regular with reserved := by decide, limit_le := by decide }

theorem countersFit_looped : looped.CountersFit :=
  wellFormed_looped.toRegular.countersFit (fun k => by cases k <;> decide) (by decide) (by decide)

theorem collect_looped_eq_ok :
    looped.WellFormed ∧ looped.CountersFit ∧ ∃ h', looped.collect = .ok h' ∧ h'.WellFormed :=
  ⟨wellFormed_looped, countersFit_looped,
    WellFormed.collect_eq_ok wellFormed_looped countersFit_looped⟩

theorem sameGraph_looped :
    ∃ h', looped.collect = .ok h' ∧ ∃ f, looped.SameGraph h' f ∧
      (∀ s, h'.Initialised s ↔ h'.Reachable s) ∧
      ∀ i, 4 * i < looped.spaces.base.toNat →
        ¬ (looped.stack.sp.toNat ≤ 4 * i ∧ 4 * i < looped.stack.base.toNat) →
          h'.memory.word i = looped.memory.word i := by
  obtain ⟨h', -, hc, -⟩ := wellFormed_looped.exists_collect countersFit_looped
  exact ⟨h', hc, WellFormed.sameGraph_of_collect wellFormed_looped hc⟩

end Heap

end CopyingHeap
