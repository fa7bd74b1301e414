import CopyingHeap.Heap.Roots
import CopyingHeap.Proofs.Alike
import CopyingHeap.Proofs.Heap.Twin

/-!
Values and the stack in twins. Values that correspond are written as words that correspond, and read
back from them; pushing, popping and setting roots keeps twins, and does not touch the blocks.
-/

namespace CopyingHeap

theorem target?_eq_none {w : Word} (hw : w.toNat % 4 ≠ 0) : Word.target? w = none := by
  cases ht : Word.target? w with
  | none => rfl
  | some r =>
    obtain ⟨rfl, -⟩ := target?_eq_some_iff.mp ht
    rw [Reference.toNat_word] at hw
    omega

theorem Value.target?_of_encode {v : Value} {w : Word} (hv : v.encode = .ok w) :
    Word.target? w = v.object? := by
  cases v with
  | int n =>
    rw [encode] at hv
    split at hv
    · injection hv with hv
      refine target?_eq_none ?_
      rw [← hv, UInt32.toNat_add, UInt32.toNat_mul]
      change ((n.toUInt32.toNat * 4 % 0x100000000) + 1) % 0x100000000 % 4 ≠ 0
      omega
    · nomatch hv
  | bool b =>
    injection hv with hv
    subst hv
    exact target?_eq_none (by cases b <;> decide)
  | func i =>
    rw [encode] at hv
    split at hv
    · injection hv with hv
      refine target?_eq_none ?_
      rw [← hv, UInt32.toNat_add, UInt32.toNat_mul]
      change ((i.toNat * 4 % 0x100000000) + 3) % 0x100000000 % 4 ≠ 0
      omega
    · nomatch hv
  | object r =>
    injection hv with hv
    rw [← hv, Word.target?, decode_word]

namespace Heap

/-- Two values are the same, if the objects of `h` have the places that `p` gives them. -/
def Paired (h : Heap) (p : Reference → Reference → Prop) (v v' : Value) : Prop :=
  (∃ r s, p r s ∧ v = .object r ∧ v' = .object s) ∨
    (∀ r, v.object? = some r → h.IsSymbol r) ∧ v' = v

/-- An immediate, null, a symbol or an object. -/
def Knows (h : Heap) (v : Value) : Prop :=
  ∀ r, v.object? = some r → h.IsSymbol r ∨ h.Initialised r

theorem paired_null (h : Heap) (p : Reference → Reference → Prop) : h.Paired p .null .null :=
  .inr ⟨fun _ hr => (nomatch hr), rfl⟩

theorem knows_null (h : Heap) : h.Knows .null :=
  fun _ hr => nomatch hr

theorem knows_object {h : Heap} {r : Reference} (hr : h.IsSymbol r ∨ h.Initialised r) :
    h.Knows (.object r) := by
  intro s hs
  obtain rfl := Value.eq_of_object?_object hs
  exact hr

theorem Knows.paired {h : Heap} {v : Value} (hv : h.Knows v) : h.Paired h.Stays v v := by
  cases hr : v.object? with
  | none =>
    refine .inr ⟨fun r hr' => ?_, rfl⟩
    rw [hr] at hr'
    nomatch hr'
  | some r =>
    rcases hv r hr with hs | hi
    · refine .inr ⟨fun s hs' => ?_, rfl⟩
      rw [hr, Option.some.injEq] at hs'
      exact hs' ▸ hs
    · obtain ⟨rfl, -⟩ := Value.object?_eq_some_iff.mp hr
      exact .inl ⟨r, r, ⟨hi, rfl⟩, rfl, rfl⟩

section Paired

variable {h : Heap} {p q : Reference → Reference → Prop} {v v' : Value} {w w' : Word}

theorem Paired.mono (hv : h.Paired p v v') (hpq : ∀ r s, p r s → q r s) : h.Paired q v v' := by
  rcases hv with ⟨r, s, hrs, hv⟩ | hv
  · exact .inl ⟨r, s, hpq r s hrs, hv⟩
  · exact .inr hv

theorem Paired.congr {k : Heap} (hv : h.Paired p v v') (hlimit : k.stack.limit = h.stack.limit)
    (hw : ∀ i, 4 * i < h.stack.limit.toNat → k.memory.word i = h.memory.word i) :
    k.Paired p v v' :=
  hv.imp_right (And.imp_left fun hf r hr => (hf r hr).congr hlimit hw)

theorem Paired.object {r : Reference} (hv : h.Paired p (.object r) v) : ∃ s, v = .object s := by
  rcases hv with ⟨_, s, _, _, hs⟩ | ⟨_, hs⟩
  · exact ⟨s, hs⟩
  · exact ⟨r, hs⟩

theorem Paired.encode (hv : h.Paired p v v') : Alike (h.Linked p) v.encode v'.encode := by
  rcases hv with ⟨r, s, hrs, rfl, rfl⟩ | ⟨hv, rfl⟩
  · exact .inl ⟨r, s, hrs, rfl, rfl⟩
  · cases hw : v'.encode with
    | error f => exact alike_error rfl
    | ok w =>
      refine .inr ⟨fun r hr => hv r ?_, rfl⟩
      rw [← Value.target?_of_encode hw, hr]

theorem Linked.decode (hw : h.Linked p w w') : h.Paired p (Value.decode w) (Value.decode w') := by
  rcases hw with ⟨r, s, hrs, rfl, rfl⟩ | ⟨hw, rfl⟩
  · exact .inl ⟨r, s, hrs, Value.decode_word r, Value.decode_word s⟩
  · exact .inr ⟨hw, rfl⟩

end Paired

theorem Twin.object? {p : Reference → Reference → Prop} {h h' : Heap} (ht : Twin p h h')
    {v v' : Value} (hv : h.Paired p v v') :
    (v.object? = none ∧ v'.object? = none) ∨
      ∃ r s, v.object? = some r ∧ v'.object? = some s ∧ h.Paired p (.object r) (.object s) := by
  rcases hv with ⟨r, s, hp, rfl, rfl⟩ | ⟨hv, rfl⟩
  · obtain ⟨hi, hi'⟩ := ht.initialised r s hp
    exact .inr ⟨r, s, Value.object?_eq_some_iff.mpr ⟨rfl, ht.left.regular.ne_null hi⟩,
      Value.object?_eq_some_iff.mpr ⟨rfl, ht.right.regular.ne_null hi'⟩,
      .inl ⟨r, s, hp, rfl, rfl⟩⟩
  · cases hr : v'.object? with
    | none => exact .inl ⟨rfl, rfl⟩
    | some r =>
      obtain ⟨rfl, -⟩ := Value.object?_eq_some_iff.mp hr
      exact .inr ⟨r, r, rfl, rfl, .inr ⟨hv, rfl⟩⟩

/-- A slot on the stack holds a word of memory. -/
theorem root_eq_ok {h : Heap} {slot : RootSlot} (hholds : h.stack.Holds slot)
    (ha : slot.address.WordAligned) (hin : slot.address.toNat / 4 < h.memory.words.size) :
    h.root slot = .ok (Value.decode (h.memory.word (slot.address.toNat / 4))) := by
  unfold Heap.root ShadowStack.load
  rw [if_pos hholds, Memory.load_eq_ok ha hin]
  rfl

/-- A root is the value of an aligned word of the stack. -/
theorem Layout.root_eq_ok_iff {h : Heap} (hl : h.Layout) {slot : RootSlot} {v : Value} :
    h.root slot = .ok v ↔ h.stack.Holds slot ∧ slot.address.WordAligned ∧
      v = Value.decode (h.memory.word (slot.address.toNat / 4)) := by
  constructor
  · intro hroot
    obtain ⟨w, hload, hv⟩ := bind_eq_ok_iff.mp hroot
    unfold ShadowStack.load at hload
    split at hload
    · rename_i hholds
      obtain ⟨ha, -, hw⟩ := Memory.load_eq_ok_word hload
      injection hv with hv
      exact ⟨hholds, ha, hw ▸ hv.symm⟩
    · nomatch hload
  · rintro ⟨hholds, ha, rfl⟩
    exact root_eq_ok hholds ha (hl.stack_inside (hholds.index ha).2)

/-- The heap with another memory and another top of the stack. -/
def restacked (h : Heap) (sp : Address) (m : Memory) : Heap :=
  { h with memory := m, stack := { h.stack with sp } }

/-- The memory differs from that of the heap on the stack only, and the stack may end at `sp`. -/
structure Restacks (h : Heap) (sp : Address) (m : Memory) : Prop where
  sp_aligned : sp.WordAligned
  sp_le : sp ≤ h.stack.base
  limit_le : h.stack.limit ≤ sp ∨ sp = h.stack.base
  size : m.words.size = h.memory.words.size
  maxPages : m.maxPages = h.memory.maxPages
  outside : ∀ i, ¬ (h.stack.limit.toNat ≤ 4 * i ∧ 4 * i < h.stack.base.toNat) →
    m.word i = h.memory.word i

namespace Restacks

variable {h : Heap} {sp : Address} {m : Memory} (hr : h.Restacks sp m)

include hr

theorem layout (hl : h.Layout) : (h.restacked sp m).Layout where
  paged := by
    obtain ⟨pages, hp, hle⟩ := hl.paged.pages
    exact ⟨⟨pages, hr.size.trans hp, hr.maxPages ▸ hle⟩, hr.maxPages ▸ hl.paged.maximum⟩
  spaces :=
    { hl.spaces with
      active_inside := (hr.size ▸ hl.spaces.active_inside :)
      scratch_inside := (hr.size ▸ hl.spaces.scratch_inside :) }
  stack := ⟨hl.stack.base_aligned, hr.sp_aligned, hr.sp_le, hl.stack.base_le, hr.limit_le⟩
  limit := hl.limit
  cursor_aligned := hl.cursor_aligned
  start_le := hl.start_le
  cursor_le := hl.cursor_le

theorem static {i : Nat} (hi : 4 * i < h.stack.limit.toNat) : m.word i = h.memory.word i :=
  hr.outside i (by omega)

theorem word_active (hl : h.Layout) {i : Nat} (hi : h.spaces.active.start.toNat ≤ 4 * i) :
    m.word i = h.memory.word i := by
  have hb := hl.stack_bounds
  exact hr.outside i (by omega)

theorem tiled (hl : h.Layout) {xs : List (Reference × Nat)} (ht : h.Tiled xs) :
    (h.restacked sp m).Tiled xs where
  tiles := ht.tiles
  nonempty := ht.nonempty
  starts := ht.starts
  filled := fun x hx => by
    have hb := ht.bounds hl hx
    have hsize : m.wordCount x.1.index = h.size x.1 :=
      Memory.wordCount_congr (hr.word_active hl (by omega)) fun _ _ _ =>
        hr.word_active hl (by omega)
    have h0 : m.word x.1.index = h.memory.word x.1.index := hr.word_active hl (by omega)
    refine (ht.filled x hx).imp (fun hraw => ?_) fun ⟨k, hk, hheader, hle⟩ => ?_
    · exact h0 ▸ hraw
    · exact ⟨k, hk, h0.trans hheader, hsize.trans_le hle⟩

theorem fresh (hl : h.Layout) {r : Reference} {n : Nat} (hf : h.Fresh r n) :
    (h.restacked sp m).Fresh r n := by
  obtain ⟨xs, hxs, hx⟩ := hf.block
  have hb := hxs.bounds hl hx
  refine ⟨⟨xs, hr.tiled hl hxs, hx⟩, fun j hj => ?_⟩
  exact (hr.word_active hl (by dsimp only at hb; omega)).trans (hf.zero j hj)

theorem initialised_iff (hl : h.Layout) {r : Reference} :
    (h.restacked sp m).Initialised r ↔ h.Initialised r := by
  rw [(hr.layout hl).initialised_iff, hl.initialised_iff]
  refine and_congr_right fun hlive => exists_congr fun k => ?_
  exact (hr.word_active hl (Layout.index_live hlive).1).congr_left

theorem object (hl : h.Layout) {r : Reference} (hi : h.Initialised r) (j : Nat) :
    m.word (r.index + j) = h.memory.word (r.index + j) := by
  have hindex := Layout.index_live hi.1
  exact hr.word_active hl (by omega)

/-- Whatever words lie on the stack of a regular heap, the heap is regular. -/
theorem regular (hr' : h.Regular) : (h.restacked sp m).Regular := by
  have hl := hr'.toLayout
  obtain ⟨blocks, hb⟩ := hr'.blocks
  refine { hr.layout hl with blocks := ⟨blocks, hb.within, hb.disjoint, hb.starts, ?_⟩ }
  intro b hmem r hstart
  refine hb.filled_congr hl (hr.layout hl).size_le hr.size.ge
    (fun i hi _ => hr.word_active hl hi) (fun w hw s hs => ?_) hmem hstart
  exact (hw s hs).imp id (hr.initialised_iff hl).mpr

end Restacks

theorem Sound.restack {h : Heap} (hs : h.Sound) {sp : Address} {m : Memory} (hr : h.Restacks sp m)
    (hroots : ∀ i, sp.toNat ≤ 4 * i → 4 * i < h.stack.base.toNat → h.Admits (m.word i)) :
    (h.restacked sp m).Sound := by
  obtain ⟨xs, hxs⟩ := hs.tiled
  have hadmits {w : Word} (ha : h.Admits w) : (h.restacked sp m).Admits w :=
    ha.congr rfl (fun _ => hr.static) fun _ => (hr.initialised_iff hs.toLayout).mpr
  refine hs.rebuild (hr.layout hs.toLayout) rfl rfl (fun _ => hr.static)
    ⟨xs, hr.tiled hs.toLayout hxs⟩ (fun r hi j hj => ?_) fun i h1 h2 => hadmits (hroots i h1 h2)
  rw [hr.initialised_iff hs.toLayout] at hi
  have hj' := (Memory.isSlot_congr (hr.object hs.toLayout hi 0) fun _ _ _ => hr.object hs.toLayout hi 1).mp hj
  exact (hr.object hs.toLayout hi j).symm ▸ hadmits (hs.slots r hi j hj')

theorem Twin.restack {p : Reference → Reference → Prop} {h h' : Heap} (ht : Twin p h h')
    {sp : Address} {m m' : Memory} (hr : h.Restacks sp m) (hr' : h'.Restacks sp m')
    (hroots : ∀ i, sp.toNat ≤ 4 * i → 4 * i < h.stack.base.toNat →
      h.Linked p (m.word i) (m'.word i)) :
    Twin p (h.restacked sp m) (h'.restacked sp m') := by
  have hlinked {w w' : Word} (hl : h.Linked p w w') : (h.restacked sp m).Linked p w w' :=
    hl.congr rfl fun _ => hr.static
  refine
    { left := ht.left.restack hr fun i h1 h2 => (ht.admits (hroots i h1 h2)).1
      right := ht.right.restack hr' fun i h1 h2 => (ht.admits (hroots i h1 (ht.stack ▸ h2))).2
      stack := congrArg (fun s : ShadowStack => { s with sp }) ht.stack
      static := fun i hi => ?_
      initialised := fun r s hp => ⟨(hr.initialised_iff ht.left.toLayout).mpr (ht.initialised r s hp).1,
        (hr'.initialised_iff ht.right.toLayout).mpr (ht.initialised r s hp).2⟩
      functional := ht.functional
      injective := ht.injective
      slots := fun r s hp j hj => ?_
      payload := fun r s hp j hj hno => ?_
      roots := fun i h1 h2 => hlinked (hroots i h1 h2) }
  · exact (hr'.static (ht.stack ▸ hi)).trans ((ht.static i hi).trans (hr.static hi).symm)
  all_goals
    obtain ⟨hi, hi'⟩ := ht.initialised r s hp
    have hobject := hr.object ht.left.toLayout hi
    have hobject' := hr'.object ht.right.toLayout hi'
    have hslot : m.IsSlot r.index j ↔ h.memory.IsSlot r.index j :=
      Memory.isSlot_congr (hobject 0) fun _ _ _ => hobject 1
  · exact (hobject j).symm ▸ (hobject' j).symm ▸ hlinked (ht.slots r s hp j (hslot.mp hj))
  · have hsize : m.wordCount r.index = h.size r :=
      Memory.wordCount_congr (hobject 0) fun _ _ _ => hobject 1
    exact (hobject' j).trans ((ht.payload r s hp j (hsize ▸ hj) fun hs => hno (hslot.mpr hs)).trans
      (hobject j).symm)

end Heap

end CopyingHeap
