import CopyingHeap.Proofs.Construct.Objects

/-!
Making list nodes and lists in twins. A node takes its head and tail from the stack after its block has
been handed out. A list grows from its end, one node after the other, each kept in a slot of the stack.
-/

namespace CopyingHeap

namespace Heap

/-- The values that two constructors return stand for each other in the heaps they leave. -/
def MadeValue (h : Heap) (x x' : Value × Heap) : Prop :=
  (∃ q, Twin q x.2 x'.2 ∧ x.2.Paired q x.1 x'.1) ∧ h.Keeps x.2

namespace Twin

variable {p : Reference → Reference → Prop} {h h' : Heap} (ht : Twin p h h')

include ht

theorem madeListNode {r s : Reference} (hf : h.Fresh r 3) (hf' : h'.Fresh s 3)
    {w w' v v' : Word} (hw : h.Linked p w w') (hv : h.Linked p v v') :
    h.Made
      (r, { h with memory := (h.memory.withHeader r.index .listNode w).withWord (r.index + 2) v })
      (s, { h' with
        memory := (h'.memory.withHeader s.index .listNode w').withWord (s.index + 2) v' }) := by
  have hin := hf.inside ht.left.toLayout
  have hin' := hf'.inside ht.right.toLayout
  obtain ⟨h0, h1⟩ := Memory.word_withHeader (m := h.memory) (i := r.index) .listNode w (by omega)
  obtain ⟨h0', h1'⟩ := Memory.word_withHeader (m := h'.memory) (i := s.index) .listNode w' (by omega)
  have hlow {i : Nat} (hi : i ≠ r.index + 2) :=
    Memory.word_withWord_ne (h.memory.withHeader r.index .listNode w) hi v
  have hlow' {i : Nat} (hi : i ≠ s.index + 2) :=
    Memory.word_withWord_ne (h'.memory.withHeader s.index .listNode w') hi v'
  have hheader := (hlow (by omega)).trans h0
  refine ht.made hf hf' ((Written.withHeader h r (by decide) _ w).withWord (j := 2) (by decide) v)
    ((Written.withHeader h' s (by decide) _ w').withWord (j := 2) (by decide) v') (by decide)
    hheader (Memory.wordCount_eq hheader).le (fun j hj => ?_) fun j hj hno => ?_
  · rcases (Memory.isSlot_iff hheader).mp hj with rfl | rfl
    · rw [hlow (by omega), hlow' (by omega), h1, h1']
      exact hw
    · rw [Memory.word_withWord (by rw [Memory.size_withHeader]; omega), if_pos rfl,
        Memory.word_withWord (by rw [Memory.size_withHeader]; omega), if_pos rfl]
      exact hv
  · rw [Memory.isSlot_iff hheader] at hno
    rw [Memory.wordCount_eq hheader] at hj
    have hj3 : j < 3 := hj
    have hno12 : ¬ (j = 1 ∨ j = 2) := hno
    obtain rfl : j = 0 := by omega
    exact (hlow' (by omega)).trans (h0'.trans hheader.symm)

theorem newListNode {head head' tail tail' : Value} (hhead : h.Paired p head head')
    (htail : h.Paired p tail tail') :
    Alike h.Made (h.newListNode head tail) (h'.newListNode head' tail') := by
  obtain ⟨hframe, haligned⟩ := ht.enterFrame
  unfold Heap.newListNode
  rw [hframe]
  refine (ht.pushRoot hhead).bind ?_
  rintro _ _ ⟨headSlot, h₁, h₁', rfl, rfl, ht₁, hk₁⟩
  refine (ht₁.pushRoot (htail.keep hk₁)).bind ?_
  rintro _ _ ⟨tailSlot, h₂, h₂', rfl, rfl, ht₂, hk₂⟩
  dsimp only
  rw [Kind.size_eq .listNode (n := 0) (by decide), ok_bind, ok_bind]
  refine (ht₂.alloc _).bind ?_
  rintro _ _ ⟨q, r, s, n, h₃, h₃', rfl, rfl, hx⟩
  obtain rfl : n = 3 := hx.words_eq rfl (by decide)
  -- The allocation may have moved head and tail, and they are read again from their slots.
  refine (hx.twin.root headSlot).bind fun head head' hhead => ?_
  refine (hx.twin.root tailSlot).bind fun tail tail' htail => ?_
  refine (hx.twin.leaveFrame haligned).bind fun h₄ h₄' ⟨⟨ht₄, hk₄⟩, _, hf⟩ => ?_
  have hfresh := (hf r 3).1 hx.fresh
  have hfresh' := (hf s 3).2 hx.fresh'
  have hin := hfresh.inside ht₄.left.toLayout
  have hin' := hfresh'.inside ht₄.right.toLayout
  rw [changeMemory_eq, changeMemory_eq,
    Memory.writeListNode_eq ht₄.left.size_le (by omega) (by omega),
    Memory.writeListNode_eq ht₄.right.size_le (by omega) (by omega),
    Reference.ofAddress_address, Reference.ofAddress_address]
  simp only [bind_assoc, ok_bind]
  refine (hhead.keep hk₄).encode.bind fun w w' hw => ?_
  refine (htail.keep hk₄).encode.bind fun v v' hv => ?_
  exact (ht₄.madeListNode hfresh hfresh' hw hv).after
    (((hk₁.trans hk₂).trans hx.before.2).trans hk₄)

/-- Values go in front of a list one after the other, each taken from a slot of the stack. -/
theorem prepend {list list' : Value} (hlist : h.Paired p list list') (slots : List RootSlot) :
    Alike h.MadeValue (h.prepend list slots) (h'.prepend list' slots) := by
  induction slots generalizing h h' p list list' with
  | nil => exact ⟨⟨p, ht, hlist⟩, Keeps.refl h⟩
  | cons slot rest ih =>
    refine (ht.root slot).bind fun head head' hhead => ?_
    refine (ht.newListNode hhead hlist).bind fun ⟨node, k⟩ ⟨node', k'⟩ hmade => ?_
    obtain ⟨⟨q, htq, hnode⟩, hk⟩ := hmade
    have hpair : k.Paired q (.object node) (.object node') := .inl ⟨node, node', hnode, rfl, rfl⟩
    refine (htq.setRoot slot hpair).bind fun l l' ⟨hl, hkeep⟩ => ?_
    exact (ih hl (hpair.keep hkeep)).mono fun x x' hx => hx.imp_right (hk.trans hkeep).trans

theorem newList {vs vs' : List Value} (hvs : List.Forall₂ (h.Paired p) vs vs') :
    Alike h.MadeValue (h.newList vs) (h'.newList vs') := by
  obtain ⟨hframe, haligned⟩ := ht.enterFrame
  unfold Heap.newList
  rw [hframe]
  refine (ht.pushRoots hvs).bind ?_
  rintro _ _ ⟨slots, k, k', rfl, rfl, hk, hk₁⟩
  refine (hk.prepend (paired_null k p) slots.reverse).bind fun ⟨list, l⟩ ⟨list', l'⟩ hl => ?_
  obtain ⟨⟨q, htq, hlist⟩, hk₂⟩ := hl
  refine (htq.leaveFrame haligned).bind fun m m' ⟨⟨hm, hkeep⟩, _⟩ => ?_
  exact ⟨⟨q, hm, hlist.keep hkeep⟩, (hk₁.trans hk₂).trans hkeep⟩

theorem newList_nil :
    Alike (fun x x' => x.1 = .null ∧ x'.1 = .null ∧ h.Follow p x.2 x'.2) (h.newList [])
      (h'.newList []) := by
  obtain ⟨hframe, haligned⟩ := ht.enterFrame
  have hleave := ht.leaveFrame haligned
  unfold Heap.newList
  rw [hframe]
  exact hleave.bind fun k k' hk => ⟨rfl, rfl, hk.1⟩

end Twin

end Heap

end CopyingHeap
