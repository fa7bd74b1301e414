import CopyingHeap.Proofs.Heap.Mirror
import CopyingHeap.Proofs.Heap.Sound

/-!
Two heaps that a program cannot tell apart. They have one stack, and the values on it are the same up
to the places of objects; objects that correspond have one kind, one size and corresponding contents.
What else lies in the heaps is garbage, and may differ. A heap is the twin of itself, and of what a
collection or a growth makes of it; twins of twins are twins.
-/

namespace CopyingHeap

namespace Heap

/-- Two words stand for the same value, if the objects of `h` have the places that `p` gives them. -/
def Linked (h : Heap) (p : Reference → Reference → Prop) (w w' : Word) : Prop :=
  (∃ r s, p r s ∧ w = r.word ∧ w' = s.word) ∨ (h.Fixed w ∧ w' = w)

/-- Two sound heaps hold the same values on their stacks; `p` relates the objects that correspond. -/
structure Twin (p : Reference → Reference → Prop) (h h' : Heap) : Prop where
  left : h.Sound
  right : h'.Sound
  stack : h'.stack = h.stack
  static : ∀ i, 4 * i < h.stack.limit.toNat → h'.memory.word i = h.memory.word i
  initialised : ∀ r s, p r s → h.Initialised r ∧ h'.Initialised s
  functional : ∀ r s t, p r s → p r t → s = t
  injective : ∀ r s t, p r t → p s t → r = s
  slots : ∀ r s, p r s → ∀ j, h.memory.IsSlot r.index j →
    h.Linked p (h.memory.word (r.index + j)) (h'.memory.word (s.index + j))
  payload : ∀ r s, p r s → ∀ j < h.size r, ¬ h.memory.IsSlot r.index j →
    h'.memory.word (s.index + j) = h.memory.word (r.index + j)
  roots : ∀ i, h.stack.sp.toNat ≤ 4 * i → 4 * i < h.stack.base.toNat →
    h.Linked p (h.memory.word i) (h'.memory.word i)

/-- The heap `k` holds what `h` held, though its objects may have moved. -/
def Renews (h k : Heap) : Prop :=
  (∃ p, Twin p h k) ∧ h.Keeps k

theorem Linked.mono {h : Heap} {p q : Reference → Reference → Prop} {w w' : Word}
    (hl : h.Linked p w w') (hpq : ∀ r s, p r s → q r s) : h.Linked q w w' := by
  rcases hl with ⟨r, s, hrs, hw⟩ | hl
  · exact .inl ⟨r, s, hpq r s hrs, hw⟩
  · exact .inr hl

theorem Linked.congr {h k : Heap} {p : Reference → Reference → Prop} {w w' : Word}
    (hl : h.Linked p w w') (hlimit : k.stack.limit = h.stack.limit)
    (hw : ∀ i, 4 * i < h.stack.limit.toNat → k.memory.word i = h.memory.word i) :
    k.Linked p w w' :=
  hl.imp_right (And.imp_left fun hf => hf.congr hlimit hw)

/-- Linked words are admitted on either side, if corresponding objects are initialised there. -/
theorem Linked.admits {h k k' : Heap} {p : Reference → Reference → Prop} {w w' : Word}
    (hl : h.Linked p w w') (hinit : ∀ r s, p r s → k.Initialised r ∧ k'.Initialised s)
    (hfixed : h.Fixed w → k.Fixed w ∧ k'.Fixed w) : k.Admits w ∧ k'.Admits w' := by
  rcases hl with ⟨r, s, hrs, rfl, rfl⟩ | ⟨hf, rfl⟩
  · obtain ⟨hr, hs⟩ := hinit r s hrs
    refine ⟨fun t ht => .inr ?_, fun t ht => .inr ?_⟩
    · exact Reference.word_inj.mp (target?_eq_some_iff.mp ht).1 ▸ hr
    · exact Reference.word_inj.mp (target?_eq_some_iff.mp ht).1 ▸ hs
  · exact (hfixed hf).imp Fixed.admits Fixed.admits

namespace Sound

variable {h : Heap} (hs : h.Sound) {p : Reference → Reference → Prop} {w w' : Word}

include hs

theorem carried_linked (ha : h.Admits w) (hc : h.Carried p w w') : h.Linked p w w' :=
  hc.imp_right (And.imp_left (hs.fixed_iff ha).mpr)

theorem linked_carried (hl : h.Linked p w w') : h.Carried p w w' :=
  hl.imp_right (And.imp_left fun hf => (hs.fixed_iff hf.admits).mp hf)

end Sound

namespace Twin

variable {p : Reference → Reference → Prop} {h h' : Heap} (ht : Twin p h h') {r s : Reference}
  {w w' : Word}

include ht

theorem mirrors : h.Mirrors p h' where
  stack := ht.stack
  initialised := fun r s hp => (ht.initialised r s hp).1
  functional := ht.functional
  slots := fun r s hp j hj => ht.left.linked_carried (ht.slots r s hp j hj)
  payload := ht.payload
  roots := fun i h1 h2 => ht.left.linked_carried (ht.roots i h1 h2)

theorem header_eq (hp : p r s) : h'.memory.word s.index = h.memory.word r.index :=
  ht.mirrors.header_eq ht.left.regular hp

theorem length_eq (hp : p r s) {k : Kind} (hk : h.memory.word r.index = k.header)
    (hl : k.hasLength = true) : h'.memory.word (s.index + 1) = h.memory.word (r.index + 1) :=
  ht.mirrors.length_eq ht.left.regular hp hk hl

theorem size_eq (hp : p r s) : h'.size s = h.size r :=
  ht.mirrors.size_eq ht.left.regular hp

/-- Corresponding objects lie in memory, each as far as the other reaches. -/
theorem inside (hp : p r s) : r.index + h.size r ≤ h.memory.words.size ∧
    s.index + h.size r ≤ h'.memory.words.size := by
  obtain ⟨hr, hs⟩ := ht.initialised r s hp
  exact ⟨ht.left.regular.end_le_size hr, ht.size_eq hp ▸ ht.right.regular.end_le_size hs⟩

theorem isSlot_iff (hp : p r s) {j : Nat} :
    h'.memory.IsSlot s.index j ↔ h.memory.IsSlot r.index j :=
  ht.mirrors.isSlot_iff ht.left.regular hp

theorem fixed_iff : h'.Fixed w ↔ h.Fixed w := by
  constructor
  · intro hf
    refine hf.congr (by rw [ht.stack]) fun i hi => ?_
    rw [ht.stack] at hi
    exact (ht.static i hi).symm
  · exact fun hf => hf.congr (by rw [ht.stack]) ht.static

theorem admits (hl : h.Linked p w w') : h.Admits w ∧ h'.Admits w' :=
  hl.admits ht.initialised fun hf => ⟨hf, ht.fixed_iff.mpr hf⟩

theorem symm : Twin (fun s r => p r s) h' h := by
  have hlinked {w w' : Word} (hl : h.Linked p w w') : h'.Linked (fun s r => p r s) w' w := by
    rcases hl with ⟨r, s, hrs, hw, hw'⟩ | ⟨hf, rfl⟩
    · exact .inl ⟨s, r, hrs, hw', hw⟩
    · exact .inr ⟨ht.fixed_iff.mpr hf, rfl⟩
  exact
    { left := ht.right
      right := ht.left
      stack := ht.stack.symm
      static := fun i hi => (ht.static i (ht.stack ▸ hi)).symm
      initialised := fun s r hp => (ht.initialised r s hp).symm
      functional := fun s r t hr ht' => ht.injective r t s hr ht'
      injective := fun s t r hs ht' => ht.functional r s t hs ht'
      slots := fun s r hp j hj => hlinked (ht.slots r s hp j ((ht.isSlot_iff hp).mp hj))
      payload := fun s r hp j hj hno =>
        (ht.payload r s hp j (ht.size_eq hp ▸ hj) fun hs => hno ((ht.isSlot_iff hp).mpr hs)).symm
      roots := fun i h1 h2 => hlinked (ht.roots i (ht.stack ▸ h1) (ht.stack ▸ h2)) }

theorem linked_trans {q : Reference → Reference → Prop} {h'' : Heap} (ht' : Twin q h' h'')
    {w'' : Word} (hl : h.Linked p w w') (hl' : h'.Linked q w' w'') :
    h.Linked (fun r t => ∃ s, p r s ∧ q s t) w w'' := by
  rcases hl with ⟨r, s, hrs, hw, rfl⟩ | ⟨hf, rfl⟩
  · rcases hl' with ⟨x, t, hxt, hx, ht⟩ | ⟨hf, -⟩
    · exact .inl ⟨r, t, ⟨s, hrs, Reference.word_inj.mp hx ▸ hxt⟩, hw, ht⟩
    · exact absurd hf (ht.right.not_fixed (ht.initialised r s hrs).2)
  · rcases hl' with ⟨x, t, hxt, rfl, -⟩ | ⟨-, hw⟩
    · exact absurd (ht.fixed_iff.mpr hf) (ht'.left.not_fixed (ht'.initialised x t hxt).1)
    · exact .inr ⟨hf, hw⟩

theorem trans {q : Reference → Reference → Prop} {h'' : Heap} (ht' : Twin q h' h'') :
    Twin (fun r t => ∃ s, p r s ∧ q s t) h h'' where
  left := ht.left
  right := ht'.right
  stack := ht'.stack.trans ht.stack
  static := fun i hi => (ht'.static i (ht.stack ▸ hi)).trans (ht.static i hi)
  initialised := fun r t ⟨s, hrs, hst⟩ => ⟨(ht.initialised r s hrs).1, (ht'.initialised s t hst).2⟩
  functional := fun r t u ⟨s, hrs, hst⟩ ⟨v, hrv, hvu⟩ => by
    obtain rfl := ht.functional r s v hrs hrv
    exact ht'.functional s t u hst hvu
  injective := fun r u t ⟨s, hrs, hst⟩ ⟨v, huv, hvt⟩ => by
    obtain rfl := ht'.injective s v t hst hvt
    exact ht.injective r u s hrs huv
  slots := fun r t ⟨s, hrs, hst⟩ j hj =>
    ht.linked_trans ht' (ht.slots r s hrs j hj) (ht'.slots s t hst j ((ht.isSlot_iff hrs).mpr hj))
  payload := fun r t ⟨s, hrs, hst⟩ j hj hno =>
    (ht'.payload s t hst j (ht.size_eq hrs ▸ hj) fun hs => hno ((ht.isSlot_iff hrs).mp hs)).trans
      (ht.payload r s hrs j hj hno)
  roots := fun i h1 h2 =>
    ht.linked_trans ht' (ht.roots i h1 h2) (ht'.roots i (ht.stack ▸ h1) (ht.stack ▸ h2))

/-- The stacks of twins reach the same object graph. -/
theorem sameGraph : ∃ f, h.SameGraph h' f := by
  classical
  have hf (r s : Reference) (hp : p r s) : (if hr : ∃ s, p r s then hr.choose else r) = s := by
    have hr : ∃ s, p r s := ⟨s, hp⟩
    rw [dif_pos hr]
    exact ht.functional r _ s hr.choose_spec hp
  refine ⟨_, ht.mirrors.sameGraph ht.left.regular ht.right.regular
    (fun r s hp => (ht.initialised r s hp).2) hf ht.injective fun s hs => ?_⟩
  obtain ⟨r, hp, hr⟩ := ht.symm.mirrors.reachable ht.right.regular ht.left.regular
    (fun s r hp => (ht.initialised r s hp).1) hs
  exact ⟨r, hr, hp⟩

end Twin

/-- The objects of a heap, each in its place. -/
def Stays (h : Heap) (r s : Reference) : Prop :=
  h.Initialised r ∧ s = r

theorem Admits.linked {h : Heap} {w : Word} (ha : h.Admits w) : h.Linked h.Stays w w := by
  cases htarget : Word.target? w with
  | none => exact .inr ⟨fixed_of_target?_eq_none htarget, rfl⟩
  | some r =>
    obtain ⟨hw, -⟩ := target?_eq_some_iff.mp htarget
    rcases ha r htarget with hs | hi
    · refine .inr ⟨fun t ht => ?_, rfl⟩
      rw [htarget, Option.some.injEq] at ht
      exact ht ▸ hs
    · exact .inl ⟨r, r, ⟨hi, rfl⟩, hw, hw⟩

/-- A heap that still has every word of the stack and of the objects is a twin of the old one. -/
theorem Sound.twin {h h' : Heap} (hs : h.Sound) (hs' : h'.Sound) (hstack : h'.stack = h.stack)
    (hinit : ∀ r, h.Initialised r → h'.Initialised r)
    (hstatic : ∀ i, 4 * i < h.stack.limit.toNat → h'.memory.word i = h.memory.word i)
    (hroots : ∀ i, h.stack.sp.toNat ≤ 4 * i → 4 * i < h.stack.base.toNat →
      h'.memory.word i = h.memory.word i)
    (hwords : ∀ r, h.Initialised r → ∀ j < h.size r,
      h'.memory.word (r.index + j) = h.memory.word (r.index + j)) : Twin h.Stays h h' where
  left := hs
  right := hs'
  stack := hstack
  static := hstatic
  initialised := fun r s ⟨hr, hrs⟩ => ⟨hr, hrs ▸ hinit r hr⟩
  functional := fun _ _ _ ⟨_, hrs⟩ ⟨_, hrt⟩ => hrs.trans hrt.symm
  injective := fun _ _ _ ⟨_, hrt⟩ ⟨_, hst⟩ => hrt.symm.trans hst
  slots := fun r s ⟨hr, hrs⟩ j hj => by
    subst hrs
    rw [hwords s hr j hj.lt]
    exact (hs.slots s hr j hj).linked
  payload := fun r s ⟨hr, hrs⟩ j hj _ => by
    subst hrs
    exact hwords s hr j hj
  roots := fun i h1 h2 => by
    rw [hroots i h1 h2]
    exact (hs.roots i h1 h2).linked

theorem Sound.twin_self {h : Heap} (hs : h.Sound) : Twin h.Stays h h :=
  hs.twin hs rfl (fun _ hr => hr) (fun _ _ => rfl) (fun _ _ _ => rfl) fun _ _ _ _ => rfl

theorem Twin.renews {p : Reference → Reference → Prop} {h k : Heap} (ht : Twin p h k)
    (hbase : k.spaces.base = h.spaces.base)
    (hblocks : ∀ xs, h.Tiled xs → ∃ ys, k.Tiled ys ∧ Ledger h xs k ys) : h.Renews k :=
  ⟨⟨p, ht⟩, hbase, by rw [ht.stack], by rw [ht.stack], ht.static, hblocks⟩

theorem Sound.renews {h : Heap} (hs : h.Sound) : h.Renews h :=
  ⟨⟨_, hs.twin_self⟩, Keeps.refl h⟩

theorem Renews.trans {h k l : Heap} (hk : h.Renews k) (hl : k.Renews l) : h.Renews l := by
  obtain ⟨⟨p, hp⟩, hk⟩ := hk
  obtain ⟨⟨q, hq⟩, hl⟩ := hl
  exact ⟨⟨_, hp.trans hq⟩, hk.trans hl⟩

theorem Renews.sound {h k : Heap} (hk : h.Renews k) : k.Sound :=
  let ⟨⟨_, hp⟩, _⟩ := hk
  hp.right

end Heap

end CopyingHeap
