import CopyingHeap.Proofs.Collection.Census
import CopyingHeap.Proofs.Heap.Stack

/-!
What a collection leaves alone. It writes into the two spaces, and into those words of the stack that
are addresses of objects. Every other word of memory keeps its bits, and so does every other word of the
stack: what a program may keep there beside the addresses of objects is listed, case by case.
-/

namespace CopyingHeap

namespace Heap

/-- Is word `i` on the stack, pushed and not yet popped? -/
def OnStack (h : Heap) (i : Nat) : Prop :=
  h.stack.sp.toNat ≤ 4 * i ∧ 4 * i < h.stack.base.toNat

/-- Does word `i` lie in the used part of the active space? -/
def InUse (h : Heap) (i : Nat) : Prop :=
  h.spaces.active.start.toNat ≤ 4 * i ∧ 4 * i < h.bump.cursor.toNat

/-- The words that keep no object alive. -/
inductive Stray (h : Heap) : Word → Prop where
  /-- Integers, functions, and booleans in any encoding. -/
  | immediate {w : Word} : (Value.decode w).isImmediate = true → Stray h w
  | null : Stray h Reference.null.word
  | symbol {r : Reference} : h.memory.kind r = .ok .symbol → Stray h r.word
  /-- Static data, the scratch space, and addresses outside memory. -/
  | outside {r : Reference} : ¬ h.Inside r → Stray h r.word
  | pastCursor {r : Reference} : h.bump.cursor ≤ r.address → Stray h r.word
  /-- The inside of a block. -/
  | unmarked {r : Reference} : h.spaces.bits.isSet r.address = false → Stray h r.word
  /-- A block in which no object has been made yet. -/
  | raw {r : Reference} : (h.memory.kind r).isOk = false → Stray h r.word

theorem namesObject_eq_false {h : Heap} {r : Reference} (hr : ¬ h.Initialised r) :
    h.namesObject r.word = false := by
  rw [Bool.eq_false_iff, Ne, namesObject_iff]
  rintro ⟨s, hs, hi⟩
  obtain ⟨hword, -⟩ := target?_eq_some_iff.mp hs
  exact hr (Reference.word_inj.mp hword ▸ hi)

theorem isImmediate_decode {w : Word} (ha : ¬ (Address.mk w).WordAligned) :
    (Value.decode w).isImmediate = true := by
  rw [Value.decode, dif_neg ha]
  split
  · rfl
  · split
    · rfl
    · rfl

theorem target?_eq_none_of_isImmediate {w : Word} (hw : (Value.decode w).isImmediate = true) :
    Word.target? w = none := by
  unfold Word.target?
  cases hv : Value.decode w with
  | object r =>
    rw [hv] at hw
    nomatch hw
  | _ => rfl

namespace Regular

variable {h : Heap} (hr : h.Regular) {r s : Reference} {w : Word}

include hr

/-- Every word that is not the address of an object is one of those listed. -/
theorem stray_iff : h.Stray w ↔ h.namesObject w = false := by
  constructor
  · intro hw
    cases hw with
    | immediate hw =>
      unfold namesObject
      rw [target?_eq_none_of_isImmediate hw]
    | null =>
      apply namesObject_eq_false
      intro hi
      exact hr.ne_null hi rfl
    | symbol hk =>
      apply namesObject_eq_false
      intro hi
      obtain ⟨k, hne, hk', -⟩ := hr.kind_eq hi
      rw [hk, Except.ok.injEq] at hk'
      exact hne hk'.symm
    | outside hout =>
      apply namesObject_eq_false
      intro hi
      exact hout (hr.inside hi)
    | pastCursor hle =>
      apply namesObject_eq_false
      intro hi
      have hwithin := hr.index_within (hr.isSet_of_initialised hi)
      rw [Address.le_iff, Reference.toNat_address] at hle
      omega
    | unmarked hs =>
      apply namesObject_eq_false
      intro hi
      rw [hr.isSet_of_initialised hi] at hs
      nomatch hs
    | raw hk =>
      apply namesObject_eq_false
      intro hi
      rw [hi.2] at hk
      nomatch hk
  · intro hw
    by_cases ha : (Address.mk w).WordAligned
    · obtain ⟨r, rfl⟩ : ∃ r : Reference, w = r.word := ⟨⟨⟨w⟩, ha⟩, rfl⟩
      by_cases hnull : r = Reference.null
      · exact hnull ▸ .null
      · have hi : ¬ h.Initialised r := by
          intro hi
          rw [hr.namesObject_word hi] at hw
          nomatch hw
        by_cases hs : h.spaces.bits.isSet r.address = true
        · apply Stray.raw
          rw [Bool.eq_false_iff]
          intro hk
          exact hi ⟨hr.isLive_iff.mpr hs, hk⟩
        · exact .unmarked (Bool.eq_false_iff.mpr hs)
    · exact .immediate (isImmediate_decode ha)

theorem not_stray_iff : ¬ h.Stray w ↔ ∃ r, h.Initialised r ∧ w = r.word := by
  rw [hr.stray_iff, Bool.not_eq_false, namesObject_iff]
  constructor
  · rintro ⟨r, htarget, hi⟩
    exact ⟨r, hi, (target?_eq_some_iff.mp htarget).1⟩
  · rintro ⟨r, hi, rfl⟩
    exact ⟨r, hr.target?_word hi, hi⟩

end Regular

/-- A collection of `h` has left `h'`, and written no word that it need not; `f` gives the copies. -/
structure Confined (h : Heap) (f : Reference → Reference) (h' : Heap) : Prop where
  stack : h'.stack = h.stack
  size : h'.memory.words.size = h.memory.words.size
  maxPages : h'.memory.maxPages = h.memory.maxPages
  base : h'.spaces.base = h.spaces.base
  active_start : h'.spaces.active.start = h.spaces.scratch.start
  active_extent : h'.spaces.active.extent = h.spaces.scratch.extent
  scratch_start : h'.spaces.scratch.start = h.spaces.active.start
  scratch_extent : h'.spaces.scratch.extent = h.spaces.active.extent
  changed : ∀ i, h'.memory.word i ≠ h.memory.word i →
    (h.OnStack i ∧ ¬ h.Stray (h.memory.word i)) ∨ h'.InUse i ∨ h.InSource i
  /-- Static data, the popped words of the stack, and all else below the heap. -/
  below : ∀ i, 4 * i < h.spaces.base.toNat → ¬ h.OnStack i → h'.memory.word i = h.memory.word i
  strays : ∀ i, h.OnStack i → h.Stray (h.memory.word i) → h'.memory.word i = h.memory.word i
  roots : ∀ i, h.OnStack i → ¬ h.Stray (h.memory.word i) → ∃ r, h.Initialised r ∧
    h.memory.word i = r.word ∧ h'.memory.word i = (f r).word ∧ h'.InUse (f r).index
  forwarded : h.options.zeroOnRelease = false → ∀ r, h.Reachable r →
    h'.memory.word r.index = forwardedHeader ∧ h'.memory.word (r.index + 1) = (f r).word
  abandoned : h.options.zeroOnRelease = false → ∀ i, h.InSource i →
    (∀ r, h.Reachable r → i ≠ r.index ∧ i ≠ r.index + 1) → h'.memory.word i = h.memory.word i
  zeroed : h.options.zeroOnRelease = true → ∀ i, h.InSource i → h'.memory.word i = 0

namespace Collected

variable {h h' : Heap} (hr : h.Regular) {moves : List (Reference × Reference)}
  (hc : h.Collected moves h') {r s : Reference}

include hr hc

theorem inUse_copy (hrs : CopiedTo moves r s) : h'.InUse s.index := by
  have htwo : 2 ≤ h.size r := hr.two_le_size (hc.reachable hrs).initialised
  have hmem := hc.tiles.mem hrs
  have hscratch := hr.scratch_start
  unfold InUse
  rw [hc.active_start]
  dsimp only at hmem
  omega

theorem word_stray {i : Nat} (hi : h.OnStack i) (hs : h.Stray (h.memory.word i)) :
    h'.memory.word i = h.memory.word i := by
  rw [hr.stray_iff] at hs
  rcases hc.roots i hi.1 hi.2 with ⟨r, s, hrs, hroot, -⟩ | ⟨-, hsame⟩
  · rw [hroot, hr.namesObject_word (hc.reachable hrs).initialised] at hs
    nomatch hs
  · exact hsame

/-- A root becomes the address of the copy. -/
theorem word_root {i : Nat} (hi : h.OnStack i) (hs : ¬ h.Stray (h.memory.word i)) :
    ∃ r, h.Initialised r ∧ h.memory.word i = r.word ∧
      h'.memory.word i = (copyOf moves r).word ∧ h'.InUse (copyOf moves r).index := by
  obtain ⟨r, hobject, hroot⟩ := hr.not_stray_iff.mp hs
  obtain ⟨s, hrs, hnew⟩ := hr.carried_word hobject hroot (hc.roots i hi.1 hi.2)
  have hcopy : copyOf moves r = s := hc.copyOf_eq hrs
  refine ⟨r, hobject, hroot, ?_, ?_⟩
  · rw [hcopy, hnew]
  · rw [hcopy]
    exact hc.inUse_copy hr hrs

end Collected

namespace Evacuated

variable {h : Heap} (hr : h.Regular) {moves : List (Reference × Reference)} {e : Evacuation}
  {m : Memory} {slot scan : Nat} (he : h.Evacuated moves slot scan e m)

include hr he

/-- The first two words of an original lie in the space that is emptied. -/
theorem inSource {p : Reference × Reference} (hp : p ∈ moves) :
    h.InSource p.1.index ∧ h.InSource (p.1.index + 1) := by
  have hi := he.initialised hp
  have htwo := hr.two_le_size hi
  have hin := hr.inside hi
  have hend := (hr.object_end hi).1
  have hcursor := Address.le_iff.mp hr.cursor_le
  have hlimit := hr.limit
  unfold Inside at hin
  unfold InSource
  omega

/-- Outside the stack, the copies and the emptied space nothing is written. -/
theorem word_outside {i : Nat} (hstack : ¬ h.OnStack i)
    (hcopies : ¬ (h.target ≤ i ∧ 4 * i < e.bump.cursor.toNat)) (hsource : ¬ h.InSource i) :
    m.word i = h.memory.word i := by
  apply he.frame i hstack hcopies
  intro p hp
  obtain ⟨h0, h1⟩ := he.inSource hr hp
  constructor
  · rintro rfl
    exact hsource h0
  · rintro rfl
    exact hsource h1

/-- In the emptied space only the originals are written, and of them only the first two words. -/
theorem word_inSource {i : Nat} (hi : h.InSource i)
    (hfirst : ∀ p ∈ moves, i ≠ p.1.index ∧ i ≠ p.1.index + 1) : m.word i = h.memory.word i := by
  have hstack := hr.stack_bounds
  have hcursor := he.cursor_le hr
  have hlimit := he.limit
  have hscratch := hr.scratch_start
  unfold InSource at hi
  apply he.frame i
  · omega
  · rcases hr.spaces.disjoint with hd | hd
    · omega
    · omega
  · exact hfirst

variable {h' : Heap} (hc : h.Collected moves h') (hcursor : h'.bump.cursor = e.bump.cursor)
  (hword : ∀ i, h'.memory.word i =
    if h.options.zeroOnRelease = true ∧ h.InSource i then 0 else m.word i)

include hc hcursor hword

theorem changed {i : Nat} (hne : h'.memory.word i ≠ h.memory.word i) :
    (h.OnStack i ∧ ¬ h.Stray (h.memory.word i)) ∨ h'.InUse i ∨ h.InSource i := by
  by_contra hnone
  rw [not_or, not_or] at hnone
  obtain ⟨hroot, huse, hsource⟩ := hnone
  apply hne
  by_cases hstack : h.OnStack i
  · apply hc.word_stray hr hstack
    by_contra hs
    exact hroot ⟨hstack, hs⟩
  · rw [hword, if_neg fun hz => hsource hz.2]
    apply he.word_outside hr hstack _ hsource
    have hscratch := hr.scratch_start
    unfold InUse at huse
    rw [hc.active_start, hcursor] at huse
    omega

theorem confined : h.Confined (copyOf moves) h' := by
  refine
    { stack := hc.stack
      size := hc.size
      maxPages := hc.maxPages
      base := hc.base
      active_start := hc.active_start
      active_extent := hc.active_extent.trans hr.spaces.extent_eq.symm
      scratch_start := hc.scratch_start
      scratch_extent := hc.scratch_extent
      changed := fun i => he.changed hr hc hcursor hword
      below := hc.frame
      strays := fun i => hc.word_stray hr
      roots := fun i => hc.word_root hr
      forwarded := fun hz r hreach => ?_
      abandoned := fun hz i hi hfirst => ?_
      zeroed := fun hz i hi => ?_ }
  · obtain ⟨p, hp, rfl⟩ := List.mem_map.mp ((hc.mem_iff r).mpr hreach)
    have hcopy : copyOf moves p.1 = p.2 := hc.copyOf_eq hp
    rw [hword, hword, if_neg (by simp [hz]), if_neg (by simp [hz]), hcopy]
    exact he.forwarded p hp
  · rw [hword, if_neg (by simp [hz])]
    apply he.word_inSource hr hi
    intro p hp
    exact hfirst p.1 (hc.reachable hp)
  · rw [hword, if_pos ⟨hz, hi⟩]

end Evacuated

/-- A collection of a well-formed heap writes into the two spaces and into the roots, unless a counter
overflows. -/
theorem WellFormed.confined_of_collect {h : Heap} (hw : h.WellFormed) :
    (∃ h' f, h.collect = .ok h' ∧ h.Confined f h') ∨
      (h.collect = .error .overflow ∧ ¬ h.CountersFit) := by
  have hr := hw.toRegular
  rcases hr.collect_evacuated.cases with
    ⟨h', hcollect, moves, e, m, he, hcursor, hword, hc⟩ | ⟨f, hcollect, rfl, hfit⟩
  · left
    exact ⟨h', copyOf moves, hcollect, he.confined hr hc hcursor hword⟩
  · right
    exact ⟨hcollect, hfit⟩

/-- The heap `looped` with one more word on its stack: the address at which its object will lie after a
collection. -/
def strewn : Heap :=
  looped.restacked (.ofNat 56) (looped.memory.withWord 14 128)

theorem restacks_looped : looped.Restacks (.ofNat 56) (looped.memory.withWord 14 128) :=
  restacks_word (by decide) (by decide) (by decide) (by decide) (.inl (by decide)) 128

theorem wellFormed_strewn : strewn.WellFormed :=
  restacks_looped.wellFormed wellFormed_looped (by decide)

theorem word_strewn (i : Nat) : strewn.memory.word i =
    if i = 14 then 128 else if i = 17 then 64 else if i = 16 then Kind.listNode.header
      else if i = 15 then 64 else 0 := by
  rw [← word_looped]
  exact Memory.word_withWord (by rw [size_looped]; decide) 128 i

theorem countersFit_strewn : strewn.CountersFit :=
  wellFormed_strewn.toRegular.countersFit (fun k => by cases k <;> decide) (by decide) (by decide)

theorem stray_strewn : strewn.Stray 128 := by
  have hout : ¬ strewn.Inside (.ofIndex 32) := by decide
  exact .outside hout

theorem confined_strewn : strewn.WellFormed ∧ ∃ h' f, strewn.collect = .ok h' ∧
    strewn.Confined f h' ∧ h'.memory.word 14 = 128 := by
  obtain ⟨h', f, hc, hf⟩ := (WellFormed.confined_of_collect wellFormed_strewn).resolve_right
    fun hfail => hfail.2 countersFit_strewn
  have hword : strewn.memory.word 14 = 128 := word_strewn 14
  have hstack : strewn.OnStack 14 := ⟨by decide, by decide⟩
  refine ⟨wellFormed_strewn, h', f, hc, hf, ?_⟩
  rw [hf.strays 14 hstack (hword ▸ stray_strewn), hword]

end Heap

end CopyingHeap
