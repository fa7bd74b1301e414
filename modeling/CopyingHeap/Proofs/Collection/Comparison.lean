import CopyingHeap.Proofs.Collection.Preservation
import CopyingHeap.Proofs.Collection.Soundness
import CopyingHeap.Proofs.Heap.Closed
import CopyingHeap.Proofs.Object.Copies

/-!
A program cannot tell by comparing values that a collection has taken place. The roots, read back after
any number of collections, compare as they did before, even where the outcome depends on identity.
-/

namespace CopyingHeap

namespace Heap

/-- Where a program finds after a collection what it knew before: objects have been copied, and symbols
have stayed. -/
def Kept (h : Heap) (moves : List (Reference × Reference)) (r s : Reference) : Prop :=
  CopiedTo moves r s ∨ (s = r ∧ h.IsSymbol r ∧ r ≠ Reference.null)

/-- The heap after `n` collections. -/
def collectTimes (h : Heap) : Nat → Except Fault Heap
  | 0 => .ok h
  | n + 1 => h.collectTimes n >>= collect

/-- Fewer than `n` collections have been made when a counter overflows. -/
def StopsCollecting (h : Heap) (n : Nat) : Prop :=
  ∃ m < n, ∃ k, h.collectTimes m = .ok k ∧ k.collect = .error .overflow ∧ ¬ k.CountersFit

/-- What every collection keeps is kept by any number of them, which go on until a counter overflows. -/
theorem collectTimes_induction {h : Heap} {P : Heap → Prop} (hstart : P h)
    (hstep : ∀ k, P k → Ends k.collect P fun f => f = .overflow ∧ ¬ k.CountersFit) (n : Nat) :
    (∃ k, h.collectTimes n = .ok k ∧ P k) ∨ h.StopsCollecting n := by
  induction n with
  | zero => exact .inl ⟨h, rfl, hstart⟩
  | succ n ih =>
    rcases ih with ⟨k, hk, hp⟩ | ⟨m, hm, k, hk⟩
    · rcases (hstep k hp).cases with ⟨l, hcollect, hl⟩ | ⟨f, hcollect, rfl, hfit⟩
      · left
        refine ⟨l, ?_, hl⟩
        rw [collectTimes, hk, ok_bind, hcollect]
      · exact .inr ⟨n, Nat.lt_succ_self n, k, hk, hcollect, hfit⟩
    · exact .inr ⟨m, Nat.lt_succ_of_lt hm, k, hk⟩

namespace Closed

variable {h h' : Heap} (hh : h.Closed) {moves : List (Reference × Reference)}
  (hc : h.Collected moves h') {w w' : Word} {a b : Value}

include hh

/-- What a word stood for is kept, wherever the collection has taken the word. -/
theorem moved (ha : h.Admits w) (hw : h.Carried (CopiedTo moves) w w') :
    Word.Moved (h.Kept moves) w w' := by
  rcases hw with ⟨r, s, hrs, rfl, rfl⟩ | ⟨hno, rfl⟩
  · exact .reference (.inl hrs)
  · cases htarget : Word.target? w' with
    | none => exact .other htarget
    | some r =>
      obtain ⟨rfl, hne⟩ := target?_eq_some_iff.mp htarget
      rcases ha r htarget with hs | hi
      · exact .reference (.inr ⟨rfl, hs, hne⟩)
      · rw [hh.namesObject_word hi] at hno
        nomatch hno

include hc

theorem static {i : Nat} (hi : 4 * i < h.stack.limit.toNat) :
    h'.memory.word i = h.memory.word i :=
  hc.static hh.toLayout hh.limit_le_base hi

theorem isSymbol {r : Reference} (hr : h.IsSymbol r) : h'.IsSymbol r :=
  hr.congr (congrArg ShadowStack.limit hc.stack) fun _ => hh.static hc

theorem known {r s : Reference} (hrs : h.Kept moves r s) :
    (h.IsSymbol r ∨ h.Initialised r) ∧ (h'.IsSymbol s ∨ h'.Initialised s) := by
  rcases hrs with hrs | ⟨rfl, hr, -⟩
  · exact ⟨.inr (hc.reachable hrs).initialised, .inr (hc.initialised_copy hh.toRegular hrs)⟩
  · exact ⟨.inl hr, .inl (hh.isSymbol hc hr)⟩

theorem admits (hw : Word.Moved (h.Kept moves) w w') : h'.Admits w' := by
  intro t htarget
  cases hw with
  | @reference r s hrs =>
    obtain ⟨hword, -⟩ := target?_eq_some_iff.mp htarget
    exact Reference.word_inj.mp hword ▸ (hh.known hc hrs).2
  | other hnone =>
    rw [hnone] at htarget
    nomatch htarget

/-- A collection leaves a closed heap. -/
theorem collected : h'.Closed :=
  { hh.toWellFormed.collected hc with
    slots := by
      intro s hs j hj
      obtain ⟨p, hp, rfl⟩ := (hc.initialised_iff hh.toRegular).mp hs
      have hslot := (hc.mirrors.isSlot_iff hh.toRegular hp).mp hj
      have hadmits := hh.slots p.1 (hc.reachable hp).initialised j hslot
      exact hh.admits hc (hh.moved hadmits (hc.slots p hp j hslot)) }

theorem copies : h.memory.Copies (h.Kept moves) h'.memory where
  whole := by
    intro r s hrs
    obtain ⟨hr, hs⟩ := hh.known hc hrs
    exact ⟨hh.whole hr, (hh.collected hc).whole hs⟩
  ne_null := by
    rintro r s (hrs | ⟨rfl, -, hne⟩)
    · have hs := hc.initialised_copy hh.toRegular hrs
      exact ⟨hh.ne_null (hc.reachable hrs).initialised, (hh.collected hc).ne_null hs⟩
    · exact ⟨hne, hne⟩
  functional := by
    rintro r s t (hrs | ⟨rfl, hr, -⟩) (hrt | ⟨rfl, hr', -⟩)
    · exact hc.functional hrs hrt
    · exact absurd hr' (hh.not_isSymbol (hc.reachable hrs).initialised)
    · exact absurd hr (hh.not_isSymbol (hc.reachable hrt).initialised)
    · rfl
  injective := by
    rintro r s t (hrt | ⟨rfl, hr, -⟩) (hst | ⟨rfl, hs, -⟩)
    · exact congrArg Prod.fst (hc.eq_of_snd_eq hh.toRegular hrt hst rfl)
    · have hcopy := hc.initialised_copy hh.toRegular hrt
      exact absurd (hh.isSymbol hc hs) ((hh.collected hc).not_isSymbol hcopy)
    · have hcopy := hc.initialised_copy hh.toRegular hst
      exact absurd (hh.isSymbol hc hr) ((hh.collected hc).not_isSymbol hcopy)
    · rfl
  slots := by
    rintro r s (hrs | ⟨rfl, hr, -⟩) j hj
    · have hadmits := hh.slots r (hc.reachable hrs).initialised j hj
      exact hh.moved hadmits (hc.slots (r, s) hrs j hj)
    · exact absurd ((Memory.isSlot_iff hr.1).mp hj) id
  payload := by
    rintro r s (hrs | ⟨rfl, hr, -⟩) j hj hno
    · exact hc.verbatim (r, s) hrs j hj hno
    · have hend := hr.2
      unfold size at hend
      exact hh.static hc (by omega)

/-- A root that the program knows is kept in its slot. -/
theorem root {slot : RootSlot} (ha : h.root slot = .ok a) (hknows : h.Knows a) :
    ∃ a', h'.root slot = .ok a' ∧ h'.Knows a' ∧ a.Moved (h.Kept moves) a' := by
  obtain ⟨hholds, haligned, rfl⟩ := hh.root_eq_ok_iff.mp ha
  obtain ⟨hle, hlt⟩ := hholds.index haligned
  have hmoved := hh.moved hknows (hc.roots _ hle hlt)
  refine ⟨_, (hh.collected hc).root_eq_ok_iff.mpr ⟨?_, haligned, rfl⟩, ?_, hmoved.decode⟩
  · rw [hc.stack]
    exact hholds
  · exact hh.admits hc hmoved

end Closed

/-- The values in two root slots compare so. -/
def RootsCompare (h : Heap) (i j : RootSlot) (x y : Bool) : Prop :=
  ∃ a b, h.root i = .ok a ∧ h.root j = .ok b ∧ h.Knows a ∧ h.Knows b ∧ h.memory.Compares a b x y

namespace Closed

variable {h h' : Heap} (hh : h.Closed) {i j : RootSlot} {x y : Bool}

include hh

theorem rootsCompare {moves : List (Reference × Reference)} (hc : h.Collected moves h')
    (hx : h.RootsCompare i j x y) : h'.RootsCompare i j x y := by
  obtain ⟨a, b, ha, hb, hka, hkb, hcompares⟩ := hx
  obtain ⟨a', ha', hka', hmoved⟩ := hh.root hc ha hka
  obtain ⟨b', hb', hkb', hmoved'⟩ := hh.root hc hb hkb
  exact ⟨a', b', ha', hb', hka', hkb', (hh.copies hc).compares hc.size hmoved hmoved' hcompares⟩

/-- The outcomes stay the same through any number of collections, which go on until a counter
overflows. -/
theorem rootsCompare_collectTimes (hx : h.RootsCompare i j x y) (n : Nat) :
    (∃ k, h.collectTimes n = .ok k ∧ k.Closed ∧ k.RootsCompare i j x y) ∨ h.StopsCollecting n := by
  refine collectTimes_induction (P := fun k => k.Closed ∧ k.RootsCompare i j x y) ⟨hh, hx⟩ ?_ n
  rintro k ⟨hclosed, hcompare⟩
  refine hclosed.collect.mono ?_ fun f hf => hf
  rintro k' ⟨moves, hc⟩
  exact ⟨hclosed.collected hc, hclosed.rootsCompare hc hcompare⟩

/-- Two roots compare after every number of collections as they do before, unless a counter overflows. -/
theorem compares_collectTimes {a b : Value} (ha : h.root i = .ok a) (hb : h.root j = .ok b)
    (hka : h.Knows a) (hkb : h.Knows b) (hna : h.memory.NoCycle a) (hnb : h.memory.NoCycle b) :
    ∃ x y, h.memory.Compares a b x y ∧ ∀ n,
      (∃ k a' b', h.collectTimes n = .ok k ∧ k.root i = .ok a' ∧ k.root j = .ok b' ∧
        k.memory.Compares a' b' x y) ∨
      ∃ m < n, ∃ k, h.collectTimes m = .ok k ∧ k.collect = .error .overflow ∧ ¬ k.CountersFit := by
  have hacyclic := hh.acyclic hka hna
  have hacyclic' := hh.acyclic hkb hnb
  obtain ⟨x, y, hcompares⟩ := hacyclic.exists_compares hacyclic'
  refine ⟨x, y, hcompares, fun n => ?_⟩
  rcases hh.rootsCompare_collectTimes ⟨a, b, ha, hb, hka, hkb, hcompares⟩ n with
    ⟨k, hk, -, a', b', ha', hb', -, -, hcompares'⟩ | hover
  · exact .inl ⟨k, a', b', hk, ha', hb', hcompares'⟩
  · exact .inr hover

end Closed

/-- A NaN, and two list nodes that it is the head of. The nodes are the roots. -/
def sharing : Heap :=
  { looped with
    memory := ⟨#[0, 0, 0, 0, 0, 0, 0, 0, 0, 0, 0, 0, 0, 0, 72, 84, 5, 0x7FC00000, 7, 64, 0, 7, 64, 0] ++
      Array.replicate (0x4000 - 24) 0, 1⟩
    stack := { looped.stack with sp := .ofNat 56 }
    spaces := { looped.spaces with bits := ⟨#[0x250000]⟩ }
    bump := { looped.bump with cursor := .ofNat 96 }
    recent := 32 }

theorem word_sharing {i : Nat} (hi : i < 24) : sharing.memory.word i =
    #[0, 0, 0, 0, 0, 0, 0, 0, 0, 0, 0, 0, 0, 0, 72, 84, 5, 0x7FC00000, 7, 64, 0, 7, 64, 0].getD i 0 := by
  unfold sharing Memory.word
  rw [Array.getD_eq_getD_getElem?, Array.getD_eq_getD_getElem?, Array.getElem?_append_left hi]

theorem isSet_sharing (a : Address) : sharing.spaces.bits.isSet a = true ↔
    a = .ofNat 64 ∨ a = .ofNat 72 ∨ a = .ofNat 84 := by
  have hfirst : (StartBits.mk #[0]).set (.ofNat 64) = .ok ⟨#[0x10000]⟩ := by decide
  have hsecond : (StartBits.mk #[0x10000]).set (.ofNat 72) = .ok ⟨#[0x50000]⟩ := by decide
  have hthird : (StartBits.mk #[0x50000]).set (.ofNat 84) = .ok sharing.spaces.bits := by decide
  have hclear : (StartBits.mk #[0]).isSet a = false :=
    (StartBits.isSet_extend ⟨#[]⟩ 1 a).trans (StartBits.isSet_empty a)
  rw [StartBits.isSet_set hthird, StartBits.isSet_set hsecond, StartBits.isSet_set hfirst, hclear]
  simp only [Bool.false_or, Bool.or_eq_true, decide_eq_true_iff, or_assoc]

theorem size_sharing : sharing.memory.words.size = 0x4000 := by
  simp [sharing]

theorem layout_sharing : sharing.Layout :=
  { layout_looped with
    paged := ⟨⟨1, size_sharing, by decide⟩, by decide⟩
    spaces :=
      { layout_looped.spaces with
        active_inside := by rw [size_sharing]; decide
        scratch_inside := by rw [size_sharing]; decide }
    stack := ⟨by decide, by decide, by decide, by decide, by decide⟩
    cursor_aligned := by decide
    start_le := by decide
    cursor_le := by decide }

theorem header_sharing : sharing.memory.word 16 = Kind.float.header ∧
    sharing.memory.word 18 = Kind.listNode.header ∧
    sharing.memory.word 21 = Kind.listNode.header :=
  ⟨word_sharing (by decide), word_sharing (by decide), word_sharing (by decide)⟩

theorem slots_sharing : sharing.memory.word 19 = 64 ∧ sharing.memory.word 20 = 0 ∧
    sharing.memory.word 22 = 64 ∧ sharing.memory.word 23 = 0 :=
  ⟨word_sharing (by decide), word_sharing (by decide), word_sharing (by decide),
    word_sharing (by decide)⟩

theorem tiled_sharing : sharing.Tiled [(.ofIndex 16, 2), (.ofIndex 18, 3), (.ofIndex 21, 3)] where
  tiles := ⟨by decide, by decide, by decide, (by decide : 21 + 3 = 96 / 4)⟩
  nonempty := by decide
  starts := fun a => by
    rw [isSet_sharing]
    simp only [List.mem_cons, List.not_mem_nil, or_false, exists_eq_or_imp, exists_eq_left]
    exact or_congr eq_comm (or_congr eq_comm eq_comm)
  filled := by
    obtain ⟨hfloat, hnode, hnode'⟩ := header_sharing
    intro x hx
    simp only [List.mem_cons, List.not_mem_nil, or_false] at hx
    right
    rcases hx with rfl | rfl | rfl
    · exact ⟨.float, by decide, hfloat, (Memory.wordCount_eq hfloat).le⟩
    · exact ⟨.listNode, by decide, hnode, (Memory.wordCount_eq hnode).le⟩
    · exact ⟨.listNode, by decide, hnode', (Memory.wordCount_eq hnode').le⟩

theorem initialised_sharing {r : Reference} : sharing.Initialised r ↔
    r = .ofIndex 16 ∨ r = .ofIndex 18 ∨ r = .ofIndex 21 := by
  obtain ⟨hfloat, hnode, hnode'⟩ := header_sharing
  rw [tiled_sharing.initialised_iff layout_sharing, isSet_sharing]
  constructor
  · rintro ⟨hr | hr | hr, -⟩
    · exact .inl (Reference.ext_address hr)
    · exact .inr (.inl (Reference.ext_address hr))
    · exact .inr (.inr (Reference.ext_address hr))
  · rintro (rfl | rfl | rfl)
    · exact ⟨.inl rfl, .float, hfloat⟩
    · exact ⟨.inr (.inl rfl), .listNode, hnode⟩
    · exact ⟨.inr (.inr rfl), .listNode, hnode'⟩

/-- The only object that a reference slot refers to is the NaN, below the nodes. -/
theorem target_sharing {r s : Reference} {j : Nat} (hr : sharing.Initialised r)
    (hj : sharing.memory.IsSlot r.index j)
    (hs : Word.target? (sharing.memory.word (r.index + j)) = some s) :
    sharing.Initialised s ∧ s.index < r.index := by
  obtain ⟨hfloat, hnode, hnode'⟩ := header_sharing
  have hnan : sharing.Initialised (.ofIndex 16) := initialised_sharing.mpr (.inl rfl)
  obtain ⟨hhead, htail, hhead', htail'⟩ := slots_sharing
  rcases initialised_sharing.mp hr with rfl | rfl | rfl
  · exact absurd ((Memory.isSlot_iff hfloat).mp hj) id
  · rcases (Memory.isSlot_iff hnode).mp hj with rfl | rfl
    · have htarget : Word.target? 64 = some s := hhead ▸ hs
      exact Option.some.inj htarget ▸ ⟨hnan, by decide⟩
    · have htarget : Word.target? 0 = some s := htail ▸ hs
      nomatch htarget
  · rcases (Memory.isSlot_iff hnode').mp hj with rfl | rfl
    · have htarget : Word.target? 64 = some s := hhead' ▸ hs
      exact Option.some.inj htarget ▸ ⟨hnan, by decide⟩
    · have htarget : Word.target? 0 = some s := htail' ▸ hs
      nomatch htarget

theorem closed_sharing : sharing.Closed :=
  { tiled_sharing.regular layout_sharing fun r hr j hj s hs => .inr (target_sharing hr hj hs).1 with
    reserved := by decide
    limit_le := by decide
    slots := fun r hr j hj s hs => .inr (target_sharing hr hj hs).1 }

theorem noCycle_sharing {r : Reference} (hr : sharing.Initialised r) :
    sharing.memory.NoCycle (.object r) := by
  apply Memory.Acyclic.noCycle
  apply Memory.acyclic_of_descending sharing.Initialised
  · intro s hs
    exact closed_sharing.whole (.inr hs)
  · intro s t hs hst
    obtain ⟨k, -, -, hk⟩ := closed_sharing.kind_eq hs
    obtain ⟨j, hj, htarget⟩ := (Memory.leads_iff (closed_sharing.lies hs hk)).mp hst
    exact target_sharing hs hj htarget
  · intro s hs
    exact Value.eq_of_object?_object hs ▸ hr

theorem root_sharing : sharing.root ⟨.ofNat 56⟩ = .ok (.object (.ofIndex 18)) ∧
    sharing.root ⟨.ofNat 60⟩ = .ok (.object (.ofIndex 21)) := by
  have hfirst : sharing.memory.word 14 = (Reference.ofIndex 18).word := word_sharing (by decide)
  have hsecond : sharing.memory.word 15 = (Reference.ofIndex 21).word := word_sharing (by decide)
  constructor
  · refine layout_sharing.root_eq_ok_iff.mpr ⟨by decide, by decide, ?_⟩
    exact (hfirst ▸ Value.decode_word _).symm
  · refine layout_sharing.root_eq_ok_iff.mpr ⟨by decide, by decide, ?_⟩
    exact (hsecond ▸ Value.decode_word _).symm

theorem countersFit_sharing : sharing.CountersFit :=
  closed_sharing.countersFit (fun k => by cases k <;> decide) (by decide) (by decide)

/-- The nodes are different objects with the same parts. -/
theorem layer_sharing : ∃ head tail,
    sharing.memory.layer (.object (.ofIndex 18)) = .node head tail ∧
      sharing.memory.layer (.object (.ofIndex 21)) = .node head tail := by
  obtain ⟨-, hnode, hnode'⟩ := header_sharing
  obtain ⟨hhead, htail, hhead', htail'⟩ := slots_sharing
  have hlies : sharing.memory.Lies (.ofIndex 18) .listNode :=
    closed_sharing.lies (initialised_sharing.mpr (.inr (.inl rfl))) hnode
  have hlies' : sharing.memory.Lies (.ofIndex 21) .listNode :=
    closed_sharing.lies (initialised_sharing.mpr (.inr (.inr rfl))) hnode'
  have hword : sharing.memory.word 22 = sharing.memory.word 19 := hhead'.trans hhead.symm
  have hword' : sharing.memory.word 23 = sharing.memory.word 20 := htail'.trans htail.symm
  refine ⟨_, _, Memory.layer_eq rfl hlies, (Memory.layer_eq rfl hlies').trans ?_⟩
  exact congrArg₂ (fun w w' => Layer.node (Value.decode w) (Value.decode w')) hword hword'

/-- The nodes are equal, though only as long as the NaN is one object. -/
theorem compares_sharing : sharing.Closed ∧
    sharing.root ⟨.ofNat 56⟩ = .ok (.object (.ofIndex 18)) ∧
    sharing.root ⟨.ofNat 60⟩ = .ok (.object (.ofIndex 21)) ∧
    sharing.memory.Compares (.object (.ofIndex 18)) (.object (.ofIndex 21)) true false ∧
    ∃ k a b, sharing.collectTimes 1 = .ok k ∧ k.root ⟨.ofNat 56⟩ = .ok a ∧
      k.root ⟨.ofNat 60⟩ = .ok b ∧ k.memory.Compares a b true false := by
  obtain ⟨hroot, hroot'⟩ := root_sharing
  obtain ⟨head, tail, hlayer, hlayer'⟩ := layer_sharing
  have hfirst : sharing.Initialised (.ofIndex 18) := initialised_sharing.mpr (.inr (.inl rfl))
  have hsecond : sharing.Initialised (.ofIndex 21) := initialised_sharing.mpr (.inr (.inr rfl))
  have hknows : sharing.Knows (.object (.ofIndex 18)) := knows_object (.inr hfirst)
  have hknows' : sharing.Knows (.object (.ofIndex 21)) := knows_object (.inr hsecond)
  obtain ⟨x, y, hcompares, hall⟩ := Closed.compares_collectTimes closed_sharing hroot hroot'
    hknows hknows' (noCycle_sharing hfirst) (noCycle_sharing hsecond)
  have hsame := Memory.equal_nodes (closed_sharing.acyclic hknows (noCycle_sharing hfirst))
    (closed_sharing.acyclic hknows' (noCycle_sharing hsecond)) hlayer hlayer'
  have hsymbol : sharing.memory.sameSymbol (.object (.ofIndex 18)) (.object (.ofIndex 21)) =
      .ok false := Memory.sameSymbol_of_ne (by decide)
  rw [hcompares.equal, Except.ok.injEq] at hsame
  rw [hcompares.sameSymbol, Except.ok.injEq] at hsymbol
  subst hsame hsymbol
  refine ⟨closed_sharing, hroot, hroot', hcompares, ?_⟩
  rcases hall 1 with hk | ⟨m, hm, k, hk, -, hfit⟩
  · exact hk
  · obtain rfl : m = 0 := Nat.lt_one_iff.mp hm
    rw [collectTimes, Except.ok.injEq] at hk
    exact absurd countersFit_sharing (hk ▸ hfit)

end Heap

end CopyingHeap
