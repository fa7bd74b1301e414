import CopyingHeap.Heap.Words
import CopyingHeap.Proofs.Construct.Elements
import CopyingHeap.Proofs.Heap.Closed
import CopyingHeap.Proofs.Object.Structural

/-!
Copies of arrays. The source waits on the stack while the block for the copy is handed out, and is then read
where it has gone. So the copy has the elements that the source has afterwards, word for word, even if nothing
but the frame has kept the source alive.
-/

namespace CopyingHeap

namespace Heap

/-- In `k` there is a new array at `c`, which shares the elements of the array `a` of `h`. The source had the
elements `vs`, and has gone to `f a` if there was a collection. -/
structure Copied (h : Heap) (a : Reference) (vs : List Value) (f : Reference → Reference)
    (c : Reference) (k : Heap) : Prop where
  last : k.Last c .array (8 + 4 * vs.length)
  apart : ∀ s bytes, k.Initialised s → s ≠ c → k.memory.objectSize s = .ok bytes →
    s.address.toNat + bytes ≤ c.address.toNat
  fresh : ∀ x, h.ReachableWith [.object a] x → f x ≠ c
  source : k.memory.ArrayOf (f a) (vs.map (h.relocated f))
  copy : k.memory.ArrayOf c (vs.map (h.relocated f))
  words : ∀ i < vs.length,
    k.memory.word (c.index + (2 + i)) = k.memory.word ((f a).index + (2 + i))
  equal : k.memory.equal (.object c) (.object (f a)) = .ok true
  restores : h.Restores [.object a] f k
  unmoved : k.statistics.collections = h.statistics.collections → f a = a

/-- The words of an array that is reached, where it has gone. -/
theorem Restores.array_words {h k : Heap} {vs : List Value} {f : Reference → Reference}
    (hi : h.Restores vs f k) (hr : h.Regular) {a : Reference} (hreach : h.ReachableWith vs a)
    (ha : h.memory.Lies a .array) :
    k.memory.word ((f a).index + 1) = h.memory.word (a.index + 1) ∧
      ∀ i < (h.memory.word (a.index + 1)).toNat,
        k.memory.word ((f a).index + (2 + i)) = h.renamed f (h.memory.word (a.index + (2 + i))) := by
  refine ⟨?_, fun i hlt => hi.slots a hreach (2 + i) ?_⟩
  · exact Memory.length_of_payload (hr.two_le_size hreach.initialised) (hi.payload a hreach) ha.header rfl
  · exact (Memory.isSlot_iff ha.header).mpr ⟨Nat.le_add_right 2 i, Nat.add_lt_add_left hlt 2⟩

/-- The elements of an array that is reached are the ones it had, where they have gone. -/
theorem Restores.arrayOf {h k : Heap} {us vs : List Value} {f : Reference → Reference}
    (hi : h.Restores us f k) (hr : h.Regular) {a : Reference} (hreach : h.ReachableWith us a)
    (ha : h.memory.Lies a .array) (hk : k.memory.Lies (f a) .array) (hvs : h.memory.ArrayOf a vs) :
    k.memory.ArrayOf (f a) (vs.map (h.relocated f)) := by
  obtain ⟨hlength, hwords⟩ := hi.array_words hr hreach ha
  refine ha.arrayOf_map hk hlength (fun i hlt => ?_) hvs
  rw [hwords i hlt, hr.decode_renamed]

/-- The words of the elements of an array. -/
def elementWords (h : Heap) (a : Reference) : List Word :=
  (List.range' 0 (h.memory.word (a.index + 1)).toNat).map fun i => h.memory.word (a.index + (2 + i))

theorem length_elementWords (h : Heap) (a : Reference) :
    (h.elementWords a).length = (h.memory.word (a.index + 1)).toNat := by
  rw [elementWords, List.length_map, List.length_range']

theorem getElem_elementWords {h : Heap} {a : Reference} {i : Nat} (hi : i < (h.elementWords a).length) :
    (h.elementWords a)[i] = h.memory.word (a.index + (2 + i)) := by
  simp only [elementWords, List.getElem_map, List.getElem_range', Nat.zero_add, Nat.one_mul]

theorem decode_elementWords {h : Heap} {a : Reference} (ha : h.memory.Lies a .array) {vs : List Value}
    (hvs : h.memory.ArrayOf a vs) : (h.elementWords a).map Value.decode = vs := by
  rw [elementWords, List.map_map]
  exact ha.arrayOf.unique hvs

/-- The elements of an array may be kept, and are reached if the array is. -/
theorem Regular.mem_elementWords {h : Heap} (hr : h.Regular) {vs : List Value} {a : Reference}
    (hreach : h.ReachableWith vs a) (ha : h.memory.Lies a .array) {w : Word}
    (hw : w ∈ h.elementWords a) : h.Allows w ∧ h.Reaches vs (Value.decode w) := by
  obtain ⟨i, hi, rfl⟩ := List.mem_map.mp hw
  obtain ⟨-, hlt⟩ := List.mem_range'_1.mp hi
  rw [Nat.zero_add] at hlt
  have hslot : h.memory.IsSlot a.index (2 + i) :=
    (Memory.isSlot_iff ha.header).mpr ⟨Nat.le_add_right 2 i, Nat.add_lt_add_left hlt 2⟩
  exact ⟨hr.allows hreach.initialised hslot, hr.reaches_slot hreach hslot⟩

section Granted

variable {h p s k : Heap} {bytes n : Nat} {f : Reference → Reference} {a c : Reference} {slot : RootSlot}
  {length : Word} (hw : h.WellFormed) (ha : h.Initialised a) (hlies : h.memory.Lies a .array)
  (hp : h.Stacked [.object a] [slot] p) (hg : p.Grant bytes f s c n k)
  (hn : n = 2 + length.toNat) (hlength : h.memory.word (a.index + 1) = length)

include hw ha hlies hp hg

/-- The source lies in its new place, whatever is written into the block, with the words that it had. -/
theorem Stacked.source {m : Memory} (hm : k.Written c n m) : m.Lies (f a) .array ∧
    m.word ((f a).index + 1) = h.memory.word (a.index + 1) ∧
    ∀ i < (h.memory.word (a.index + 1)).toNat,
      m.word ((f a).index + (2 + i)) = h.renamed f (h.memory.word (a.index + (2 + i))) := by
  have hr := hw.toRegular
  have hreach : h.ReachableWith [.object a] a := .value (List.mem_singleton_self _) ha
  have hreach' : p.ReachableWith [] a := hp.reachableWith hr (fun _ hv => hp.reaches hr hv) hreach
  obtain ⟨hrestores, -⟩ := hp.made hr hg hm
  exact ⟨hg.lies hm (hp.regular hr) hreach' (((hp.intact hr).header_eq hr ha).trans hlies.header),
    hrestores.array_words hr hreach hlies⟩

include hlength

/-- Copying the elements of the source writes the words that it had, each where its object has gone. -/
theorem Stacked.withCopy_eq {m : Memory} (hm : k.Written c n m) :
    m.withCopy ((f a).index + 2) (c.index + 2) length.toNat =
      m.withWords (c.index + 2) ((h.elementWords a).map (h.renamed f)) := by
  obtain ⟨hsource, hsame, hwords⟩ := hp.source hw ha hlies hg hm
  have hcount := Memory.wordCount_eq hsource.header
  have hinside := hsource.inside
  rw [hcount, hsame, hlength] at hinside
  have hblock : Memory.block m.words ((f a).index + 2) length.toNat =
      (h.elementWords a).map (h.renamed f) := by
    rw [Memory.block_eq (Nat.add_assoc _ 2 _ ▸ hinside), elementWords, List.map_map, hlength]
    apply List.map_congr_left
    intro i hi
    obtain ⟨j, hj, rfl⟩ := List.mem_range'.mp hi
    rw [Nat.zero_add, Nat.one_mul, Nat.add_assoc, hwords j (hlength.symm ▸ hj), Function.comp]
  rw [Memory.withCopy, hblock]
  rfl

include hn

/-- The steps that follow the allocation. -/
theorem Grant.copyArray_eq (hpush : h.pushRoot (.object a) = .ok (slot, p))
    (halloc : p.allocArray length.toNat =
      .ok (c, { k with memory := k.memory.withHeader c.index .array length })) :
    h.copyArray a = .ok (c, { k with
      memory := k.memory.withArray c.index length ((h.elementWords a).map (h.renamed f))
      stack := h.stack }) := by
  have hr := hw.toRegular
  have hheader := Written.withHeader k c (n := n) (by omega) .array length
  obtain ⟨hsource, hsame, -⟩ := hp.source hw ha hlies hg hheader
  obtain ⟨hrestores, -⟩ := hp.made hr hg hheader
  -- The source is read again from its slot, since the allocation may have moved it.
  have hroot := hp.granted_value hr hg hheader (accepts_object ha)
  have hobject : (Value.object (f a)).object? = some (f a) := Value.object?_eq_some_iff.mpr
    ⟨rfl, hrestores.ne_null hr (.value (List.mem_singleton_self _) ha)⟩
  have hframe := hp.leaveFrame_eq (l := { k with memory := k.memory.withHeader c.index .array length })
    hw hg.stack_eq
  have hinside := hsource.inside
  have hcount := Memory.wordCount_eq hsource.header
  rw [hsame, hlength] at hcount
  have hcount' : Kind.array.wordCount length.toNat = 2 + length.toNat := rfl
  have hin := hg.inside
  have hsmall := (hg.paged hheader).size_le
  have hsize := hheader.size
  have hbytes : Size.ofWords length.toNat = 4 * length.toNat := by
    rw [Size.ofWords_mod]
    omega
  have hcopy := copyElements_eq (r := c) (x := f a)
    (h := { k with memory := k.memory.withHeader c.index .array length, stack := h.stack })
    hsmall hbytes (by dsimp only; omega) (by dsimp only; omega)
  dsimp only at hcopy
  rw [hp.withCopy_eq hw ha hlies hg hlength hheader] at hcopy
  unfold Heap.copyArray
  rw [hlies.arraySize_eq, ok_bind, hpush, ok_bind, hlength]
  dsimp only
  rw [halloc, ok_bind]
  dsimp only
  rw [hroot, ok_bind, relocated_object ha, hobject]
  dsimp only
  rw [hframe, ok_bind, hsource.arraySize_eq, ok_bind, hsame, hlength, if_pos rfl,
    Memory.elementAddress_eq (by omega), ok_bind, Memory.elementAddress_eq (by omega), ok_bind,
    Nat.add_zero, Nat.add_zero, hcopy, ok_bind]
  rfl

/-- The array that has been written into the block is a copy of the source. -/
theorem Stacked.copied {l : Heap} (hl : l = { k with
      memory := k.memory.withArray c.index length ((h.elementWords a).map (h.renamed f))
      stack := h.stack }) {vs : List Value} (hvs : h.memory.ArrayOf a vs) :
    h.Copied a vs f c l ∧ (h.spaces.base.WordAligned → l.WellFormed) := by
  have hr := hw.toRegular
  have hreach : h.ReachableWith [.object a] a := .value (List.mem_singleton_self _) ha
  have hdecode := decode_elementWords hlies hvs
  have hwords : (h.elementWords a).length = length.toNat := by rw [h.length_elementWords, hlength]
  have hvalues : (h.elementWords a).length = vs.length := by rw [← hdecode, List.length_map]
  have hmapped : ((h.elementWords a).map (h.renamed f)).length = length.toNat := by
    rw [List.length_map, hwords]
  have hwritten : k.Written c n
      (k.memory.withArray c.index length ((h.elementWords a).map (h.renamed f))) :=
    hg.written_array (hn.trans (congrArg (2 + ·) hmapped.symm)) rfl
  obtain ⟨hsource, -, hmoved⟩ := hp.source hw ha hlies hg hwritten
  obtain ⟨hcopy, hlast, harray, hrestores, hfresh, hwell⟩ := hp.wroteArray hw hg
    (hn.trans (congrArg (2 + ·) hwords.symm)) hwords.symm rfl
    (fun w hmem => (hr.mem_elementWords hreach hlies hmem).1)
    fun w hmem => (hr.mem_elementWords hreach hlies hmem).2
  rw [hvalues] at hlast
  rw [hdecode] at harray
  subst hl
  have helements := hrestores.arrayOf hr hreach hlies hsource hvs
  refine ⟨?_, hwell⟩
  exact
    { last := hlast
      apart := fun s bytes hs hne hbytes => hg.apart hwritten hs hne hbytes
      fresh := hfresh
      source := helements
      copy := harray
      words := by
        intro i hi
        obtain ⟨-, -, hcopied⟩ := Memory.word_withArray (m := k.memory) (i := c.index) length
          ((h.elementWords a).map (h.renamed f)) (by rw [hmapped, ← hn]; exact hg.inside)
        rw [← hvalues] at hi
        rw [hmoved i (by rwa [← h.length_elementWords]), ← getElem_elementWords hi,
          hcopied i (by rwa [List.length_map]), List.getElem_map]
      equal := by
        have hne := hrestores.ne_null hr hreach
        exact Memory.equal_of_arrayOf (hg.paged hwritten) hcopy hsource hg.ne_null hne harray helements
      restores := hrestores
      unmoved := by
        intro hcollections
        rw [← hp.statistics_eq] at hcollections
        rw [(hg.unmoved hcollections).1]
        rfl }

end Granted

/-- Copying an array ends with the copy, even if nothing else keeps the array alive. Otherwise memory, the
stack or a counter gives out; that does not happen where there is room. A program that sees words gets the
word of the same copy. -/
theorem WellFormed.copyArray_contract {h : Heap} (hw : h.WellFormed) {a : Reference}
    (ha : h.Initialised a) (hkind : h.memory.kind a = .ok .array) :
    ∃ vs, h.memory.ArrayOf a vs ∧
      ((∃ c k f, h.copyArray a = .ok (c, k) ∧ h.Copied a vs f c k ∧
        (h.spaces.base.WordAligned → k.WellFormed)) ∨
      ∃ e, h.copyArray a = .error e ∧ h.RunsOut 1 1 (8 + 4 * vs.length) e) ∧
      ∀ w, Value.decode w = .object a →
        h.copyArrayWord w = h.copyArray a >>= fun x => .ok (x.1.word, x.2) := by
  have hr := hw.toRegular
  have hlies := hr.lies ha (Memory.kind_eq_ok_word hkind).2
  have hsize := hlies.arrayOf.size
  refine ⟨_, hlies.arrayOf, ?_, fun w hword => ?_⟩
  · have hlength := hsize.symm.trans hlies.arraySize_eq
    rw [Except.ok.injEq] at hlength
    have hinside := hlies.inside
    have hcount : h.memory.wordCount a.index = 2 + (h.memory.word (a.index + 1)).toNat :=
      Memory.wordCount_eq hlies.header
    have hsmall := hr.size_le
    have hlt : (h.memory.word (a.index + 1)).toNat < 0x40000000 := by omega
    rw [hlength]
    rcases (hw.pushRoot (v := .object a) trivial).cases with
      ⟨⟨slot, p⟩, hpush, hp, hsp⟩ | ⟨e, hpush, he⟩
    · rcases ((hp.wellFormed hw).allocArray_uncut hlt).cases with
        ⟨_, halloc, bytes, f, s, c, n, k, length, rfl, hg, hn, hsame⟩ | ⟨e, halloc, he⟩
      · left
        obtain rfl : length = h.memory.word (a.index + 1) := UInt32.toNat_inj.mp hsame
        exact ⟨c, _, f, hg.copyArray_eq hw ha hlies hp hn rfl hpush halloc,
          hp.copied hw ha hlies hg hn rfl rfl hlies.arrayOf⟩
      · right
        unfold Heap.copyArray
        rw [hlies.arraySize_eq, ok_bind, hpush, ok_bind]
        dsimp only
        rw [halloc]
        exact ⟨e, rfl, hp.runsOut 1 hsp he⟩
    · right
      unfold Heap.copyArray
      rw [hlies.arraySize_eq, ok_bind, hpush]
      exact ⟨e, rfl, he.runsOut _ _⟩
  · have hobject : (Value.object a).object? = some a :=
      Value.object?_eq_some_iff.mpr ⟨rfl, hr.ne_null ha⟩
    unfold Heap.copyArrayWord
    rw [hword, hobject]
    rfl

/-- A heap with one object, an array that is its own only element, and no roots. -/
def nested : Heap :=
  { looped with
    memory := ⟨#[0, 0, 0, 0, 0, 0, 0, 0, 0, 0, 0, 0, 0, 0, 0, 0, 1, 1, 64] ++
      Array.replicate (0x4000 - 19) 0, 1⟩
    stack := { looped.stack with sp := .ofNat 64 } }

theorem spaces_nested : nested.spaces = looped.spaces := by
  unfold nested
  rfl

theorem size_nested : nested.memory.words.size = 0x4000 := by
  simp [nested]

theorem words_nested : nested.memory.word 16 = Kind.array.header ∧ nested.memory.word 17 = 1 ∧
    nested.memory.word 18 = 64 := by
  have hword {i : Nat} (hi : i < 19) : nested.memory.word i =
      #[0, 0, 0, 0, 0, 0, 0, 0, 0, 0, 0, 0, 0, 0, 0, 0, 1, 1, 64].getD i 0 := by
    unfold nested Memory.word
    rw [Array.getD_eq_getD_getElem?, Array.getD_eq_getD_getElem?, Array.getElem?_append_left hi]
  exact ⟨hword (by decide), hword (by decide), hword (by decide)⟩

theorem layout_nested : nested.Layout where
  paged := ⟨⟨1, size_nested, by decide⟩, by decide⟩
  spaces := by
    have hlooped := layout_looped.withMemory (size_nested.trans size_looped.symm) rfl
    rw [spaces_nested]
    exact hlooped.spaces
  stack := ⟨by decide, by decide, by decide, by decide, by decide⟩
  limit := by decide
  cursor_aligned := by decide
  start_le := by decide
  cursor_le := by decide

theorem tiled_nested : nested.Tiled [(.ofIndex 16, 3)] where
  tiles := ⟨by decide, (by decide : 16 + 3 = 76 / 4)⟩
  nonempty := by decide
  starts := fun a => by
    rw [spaces_nested, isSet_looped]
    simp only [List.mem_singleton, exists_eq_left]
    exact eq_comm
  filled := by
    obtain ⟨hheader, hlength, -⟩ := words_nested
    intro x hx
    obtain rfl := List.mem_singleton.mp hx
    have hsize : nested.size (.ofIndex 16) = Kind.array.wordCount (nested.memory.word 17).toNat :=
      Memory.wordCount_eq hheader
    rw [hlength] at hsize
    exact .inr ⟨.array, by decide, hheader, hsize.le⟩

theorem kind_nested : nested.memory.kind (.ofIndex 16) = .ok .array :=
  Memory.kind_eq_ok (by rw [size_nested]; decide) words_nested.1

theorem initialised_nested {r : Reference} : nested.Initialised r ↔ r = .ofIndex 16 := by
  rw [tiled_nested.initialised_iff layout_nested, spaces_nested, isSet_looped]
  constructor
  · rintro ⟨hr, -⟩
    exact Reference.ext_address hr
  · rintro rfl
    exact ⟨rfl, .array, words_nested.1⟩

theorem wellFormed_nested : nested.WellFormed := by
  obtain ⟨hheader, hlength, helement⟩ := words_nested
  refine { tiled_nested.regular layout_nested fun r hr j hj s hs => .inr ?_ with
    reserved := by decide
    limit_le := by decide }
  obtain rfl := initialised_nested.mp hr
  have hslot := (Memory.isSlot_iff hheader).mp hj
  rw [hlength] at hslot
  have hbounds : 2 ≤ j ∧ j < 3 := hslot
  obtain rfl : j = 2 := by omega
  have htarget : Word.target? 64 = some s := helement ▸ hs
  exact initialised_nested.mpr (Option.some.inj htarget).symm

theorem arrayOf_nested : nested.memory.ArrayOf (.ofIndex 16) [.object (.ofIndex 16)] := by
  obtain ⟨hheader, hlength, helement⟩ := words_nested
  have hlies := wellFormed_nested.lies (initialised_nested.mpr rfl) hheader
  have hsize : nested.memory.arraySize (.ofIndex 16) = .ok (nested.memory.word 17).toNat :=
    hlies.arraySize_eq
  have hone : 0 < (nested.memory.word 17).toNat := hlength ▸ Nat.one_pos
  have hget : nested.memory.arrayGet (.ofIndex 16) 0 = .ok (Value.decode (nested.memory.word 18)) :=
    hlies.arrayGet_eq hone
  rw [hlength] at hsize
  rw [helement] at hget
  refine ⟨hsize, fun i hlt => ?_⟩
  obtain rfl : i = 0 := Nat.lt_one_iff.mp hlt
  exact hget

theorem runsOut_nested (e : Fault) : ¬ nested.RunsOut 1 1 12 e := by
  intro he
  refine he.short ⟨by decide, ⟨⟨52, by decide, by decide⟩, by decide⟩, ?_⟩
  exact ⟨by decide, by decide, by decide, by decide, by decide, fun c => by cases c <;> decide⟩

/-- Nothing but the copying itself keeps the array. -/
theorem copyArray_nested : nested.WellFormed ∧ nested.Initialised (.ofIndex 16) ∧
    nested.memory.kind (.ofIndex 16) = .ok .array ∧ ∃ c k s,
      nested.copyArray (.ofIndex 16) = .ok (c, k) ∧ nested.copyArrayWord 64 = .ok (c.word, k) ∧
      s ≠ c ∧ k.memory.ArrayOf s [.object s] ∧ k.memory.ArrayOf c [.object s] ∧
      k.memory.equal (.object c) (.object s) = .ok true ∧ k.WellFormed := by
  have hi := initialised_nested.mpr (Eq.refl (Reference.ofIndex 16))
  refine ⟨wellFormed_nested, hi, kind_nested, ?_⟩
  obtain ⟨vs, hvs, hcopy, hwords⟩ := WellFormed.copyArray_contract wellFormed_nested hi kind_nested
  obtain rfl := hvs.unique arrayOf_nested
  rcases hcopy with ⟨c, k, f, hk, hcopied, hwell⟩ | ⟨e, -, he⟩
  · have hmoved : [Value.object (.ofIndex 16)].map (nested.relocated f) = [.object (f (.ofIndex 16))] :=
      congrArg (fun v => [v]) (relocated_object hi f)
    refine ⟨c, k, f (.ofIndex 16), hk, ?_, hcopied.fresh _ (.value (List.mem_singleton_self _) hi),
      hmoved ▸ hcopied.source, hmoved ▸ hcopied.copy, hcopied.equal, hwell (by decide)⟩
    rw [hwords 64 rfl, hk]
    rfl
  · exact absurd he (runsOut_nested e)

end Heap

end CopyingHeap
