import CopyingHeap.Proofs.Construct.Objects

/-!
Making, filling, copying and updating arrays in twins. A new array is all null; its elements are then
set from values that waited on the stack, or from another array.
-/

namespace CopyingHeap

/-- The sizes of an array whose block has been handed out leave no room for overflow. -/
theorem Kind.array_size {size bytes : Nat} (h : Kind.array.size size = .ok bytes)
    (hlt : bytes < 0x100000000) : bytes = 4 * (2 + (UInt32.ofNat size).toNat) ∧
      Size.ofWords size = 4 * (UInt32.ofNat size).toNat := by
  have hwords : Size.ofWords size = size * 4 % 0x10000000000000000 := rfl
  rw [UInt32.toNat_ofNat']
  unfold Kind.size contentOffset at h
  dsimp only at h
  rcases Nat.lt_or_ge (8 + Size.ofWords size) 0x10000000000000000 with hfit | hfit
  · rw [Size.add_eq_ok hfit, ok_bind] at h
    injection h with h
    rw [Size.objectBytes_eq (by omega)] at h
    omega
  · rw [Size.add_eq_error hfit] at h
    nomatch h

namespace Heap

theorem Sound.limit_le_object {h : Heap} (hs : h.Sound) {r : Reference} (hi : h.Initialised r) :
    h.stack.limit.toNat ≤ 4 * r.index := by
  have h1 := hs.regular.index_within (hs.regular.isSet_of_initialised hi)
  have h2 := Address.le_iff.mp hs.spaces.base_le_active
  have h3 := Address.le_iff.mp hs.limit_le
  omega

/-- An array whose elements take `Size.ofWords size` bytes. -/
def IsArray (h : Heap) (r : Reference) (size : Nat) : Prop :=
  h.memory.word r.index = Kind.array.header ∧
    Size.ofWords size = 4 * (h.memory.word (r.index + 1)).toNat

theorem IsArray.shape {h : Heap} {r : Reference} {size : Nat} (ha : h.IsArray r size) :
    h.size r = 2 + (h.memory.word (r.index + 1)).toNat ∧
      ∀ j, h.memory.IsSlot r.index j ↔ 2 ≤ j ∧ j < 2 + (h.memory.word (r.index + 1)).toNat :=
  ⟨Memory.wordCount_eq ha.1, fun _ => Memory.isSlot_iff ha.1⟩

/-- Both constructors return arrays of `size` elements, which correspond. -/
def MadeArray (h : Heap) (size : Nat) (x x' : Reference × Heap) : Prop :=
  ∃ q r s k k', x = (r, k) ∧ x' = (s, k') ∧ Twin q k k' ∧ q r s ∧ k.IsArray r size ∧ h.Keeps k

theorem writeArray_eq {h : Heap} (hsize : h.memory.words.size ≤ 0x3FFFC000) {r : Reference}
    (hr : r.index + 2 ≤ h.memory.words.size) (length : Word) : (do
      let h ← h.changeMemory (·.writeHeader r.address .array)
      let lengthAt ← r.address.add lengthOffset
      let h ← h.changeMemory (·.store lengthAt length)
      return (← Reference.ofAddress r.address, h)) =
    .ok (r, { h with memory := h.memory.withHeader r.index .array length }) := by
  have h1 := r.add_eq (j := 1) (by omega)
  rw [changeMemory_eq, Memory.writeHeader, Memory.store_address (by omega), ok_bind, ok_bind,
    lengthOffset, h1, ok_bind, changeMemory_eq,
    Memory.store_word (by omega) (by rw [Memory.size_withWord]; omega), ok_bind, ok_bind,
    Reference.ofAddress_address, ok_bind]
  rfl

theorem fillElements_eq {h : Heap} (hsize : h.memory.words.size ≤ 0x3FFFC000) {r : Reference}
    {n bytes : Nat} (hbytes : bytes = 4 * n) (hr : r.index + (2 + n) ≤ h.memory.words.size)
    (w : Word) :
    h.changeMemory (·.fill (Address.ofNat (4 * (r.index + 2))) bytes w) =
      .ok { h with memory := h.memory.withFill (r.index + 2) n w } := by
  have hplace := toNat_ofNat_div (i := r.index + 2) (by omega)
  have hfill := Memory.fill_eq_ok (m := h.memory) (n := n) (wordAligned_ofNat (r.index + 2))
    (by rw [hplace]; omega) w
  rw [hplace] at hfill
  rw [changeMemory_eq, hbytes, hfill, ok_bind]

theorem copyElements_eq {h : Heap} (hsize : h.memory.words.size ≤ 0x3FFFC000) {x r : Reference}
    {n bytes : Nat} (hbytes : bytes = 4 * n) (hx : x.index + (2 + n) ≤ h.memory.words.size)
    (hr : r.index + (2 + n) ≤ h.memory.words.size) :
    h.changeMemory (·.copy (Address.ofNat (4 * (x.index + 2)))
        (Address.ofNat (4 * (r.index + 2))) bytes) =
      .ok { h with memory := h.memory.withCopy (x.index + 2) (r.index + 2) n } := by
  have hfrom := toNat_ofNat_div (i := x.index + 2) (by omega)
  have hto := toNat_ofNat_div (i := r.index + 2) (by omega)
  have hcopy := Memory.copy_eq_ok (m := h.memory) (n := n) (wordAligned_ofNat (x.index + 2))
    (wordAligned_ofNat (r.index + 2)) (by rw [hfrom]; omega) (by rw [hto]; omega)
  rw [hfrom, hto] at hcopy
  rw [changeMemory_eq, hbytes, hcopy, ok_bind]

theorem linked_zero (h : Heap) (p : Reference → Reference → Prop) : h.Linked p 0 0 :=
  .inr ⟨fixed_of_target?_eq_none (by decide), rfl⟩

namespace Twin

variable {p : Reference → Reference → Prop} {h h' : Heap} (ht : Twin p h h') {r s : Reference}
  {v v' : Value}

include ht

theorem allocArray (size : Nat) :
    Alike (h.MadeArray size) (h.allocArray size) (h'.allocArray size) := by
  unfold Heap.allocArray
  refine (Alike.of_eq (x := Kind.array.size size) rfl).with_eq.bind ?_
  rintro bytes _ ⟨rfl, hbytes, -⟩
  refine (ht.alloc _).bind ?_
  rintro _ _ ⟨q, r, s, n, k, k', rfl, rfl, hx⟩
  obtain ⟨hbytes, hwords⟩ := Kind.array_size hbytes hx.size_lt
  obtain rfl := hx.words_eq hbytes (by omega)
  obtain ⟨hmax, hmax', hin, hin'⟩ := hx.inside
  dsimp only
  rw [writeArray_eq hmax (by omega), writeArray_eq hmax' (by omega)]
  generalize UInt32.ofNat size = length at *
  obtain ⟨h0, h1⟩ := Memory.word_withHeader (m := k.memory) (i := r.index) .array length (by omega)
  obtain ⟨h0', h1'⟩ := Memory.word_withHeader (m := k'.memory) (i := s.index) .array length (by omega)
  have hslot (j : Nat) : (k.memory.withHeader r.index .array length).IsSlot r.index j ↔
      2 ≤ j ∧ j < 2 + length.toNat := by
    rw [Memory.isSlot_iff h0, h1]
    rfl
  have hcount : (k.memory.withHeader r.index .array length).wordCount r.index =
      2 + length.toNat := by
    rw [Memory.wordCount_eq h0, h1]
    rfl
  have hmade : k.Made (r, { k with memory := k.memory.withHeader r.index .array length })
      (s, { k' with memory := k'.memory.withHeader s.index .array length }) := by
    refine hx.twin.made hx.fresh hx.fresh' (Written.withHeader k r (by omega) .array length)
      (Written.withHeader k' s (by omega) .array length) (by decide) h0 hcount.le (fun j hj => ?_)
      fun j hj hno => ?_
    · rw [hslot] at hj
      rw [Memory.word_withHeader_ne _ _ (by omega) (by omega),
        Memory.word_withHeader_ne _ _ (by omega) (by omega), hx.fresh.zero j hj.2,
        hx.fresh'.zero j hj.2]
      exact linked_zero k q
    · rw [hslot] at hno
      rcases (by omega : j = 0 ∨ j = 1) with rfl | rfl
      · exact h0'.trans h0.symm
      · exact h1'.trans h1.symm
  obtain ⟨⟨q', hq', hrs⟩, hkeep⟩ := hmade
  refine ⟨q', r, s, _, _, rfl, rfl, hq', hrs, ⟨h0, ?_⟩, hx.before.2.trans hkeep⟩
  dsimp only
  rw [h1, hwords]

theorem fillArray (hp : p r s) {m m' : Memory} (hsize : m.words.size = h.memory.words.size)
    (hmax : m.maxPages = h.memory.maxPages) (hsize' : m'.words.size = h'.memory.words.size)
    (hmax' : m'.maxPages = h'.memory.maxPages)
    (hout : ∀ i, (∀ j, h.memory.IsSlot r.index j → i ≠ r.index + j) →
      m.word i = h.memory.word i)
    (hout' : ∀ i, (∀ j, h.memory.IsSlot r.index j → i ≠ s.index + j) →
      m'.word i = h'.memory.word i)
    (hslots : ∀ j, h.memory.IsSlot r.index j →
      h.Linked p (m.word (r.index + j)) (m'.word (s.index + j))) :
    h.Follow p { h with memory := m } { h' with memory := m' } := by
  have htwin := ht.setSlots hp hsize hmax hsize' hmax' hout hout' hslots
  refine ⟨htwin, .of_same rfl rfl rfl rfl (fun i hi => ?_) htwin.left.tiled⟩
  have hle := ht.left.limit_le_object (ht.initialised r s hp).1
  exact hout i fun j hj => by omega

theorem fillElements (hp : p r s) {size : Nat} (ha : h.IsArray r size) {w w' : Word}
    (hw : h.Linked p w w') :
    h.Follow p
      { h with
        memory := h.memory.withFill (r.index + 2) (h.memory.word (r.index + 1)).toNat w }
      { h' with
        memory := h'.memory.withFill (s.index + 2) (h.memory.word (r.index + 1)).toNat w' } := by
  obtain ⟨hcount, hslot⟩ := ha.shape
  obtain ⟨hin, hin'⟩ := ht.inside hp
  have hfill := Memory.word_withFill (m := h.memory) (i := r.index + 2)
    (n := (h.memory.word (r.index + 1)).toNat) (by omega) w
  have hfill' := Memory.word_withFill (m := h'.memory) (i := s.index + 2)
    (n := (h.memory.word (r.index + 1)).toNat) (by omega) w'
  refine ht.fillArray hp (Memory.size_withFill ..) rfl (Memory.size_withFill ..) rfl
    (fun i hi => ?_) (fun i hi => ?_) fun j hj => ?_
  · rw [hfill, if_neg fun hin => hi (i - r.index) ((hslot _).mpr (by omega)) (by omega)]
  · rw [hfill', if_neg fun hin => hi (i - s.index) ((hslot _).mpr (by omega)) (by omega)]
  · rw [hslot] at hj
    rw [hfill, if_pos (by omega), hfill', if_pos (by omega)]
    exact hw

/-- The elements of corresponding arrays become those of two others that correspond. -/
theorem copyElements (hp : p r s) {x y : Reference} (hxy : p x y) {size : Nat}
    (ha : h.IsArray r size) (hx : h.IsArray x size) :
    h.Follow p
      { h with
        memory := h.memory.withCopy (x.index + 2) (r.index + 2) (h.memory.word (r.index + 1)).toNat }
      { h' with
        memory := h'.memory.withCopy (y.index + 2) (s.index + 2)
          (h.memory.word (r.index + 1)).toNat } := by
  obtain ⟨hcount, hslot⟩ := ha.shape
  obtain ⟨hcountx, hslotx⟩ := hx.shape
  have hlen : (h.memory.word (x.index + 1)).toNat = (h.memory.word (r.index + 1)).toNat := by
    have h1 := ha.2
    have h2 := hx.2
    omega
  rw [hlen] at hcountx hslotx
  obtain ⟨hin, hin'⟩ := ht.inside hp
  obtain ⟨hinx, hiny⟩ := ht.inside hxy
  have hcopy := Memory.word_withCopy (m := h.memory) (i := x.index + 2) (j := r.index + 2)
    (n := (h.memory.word (r.index + 1)).toNat) (by omega) (by omega)
  have hcopy' := Memory.word_withCopy (m := h'.memory) (i := y.index + 2) (j := s.index + 2)
    (n := (h.memory.word (r.index + 1)).toNat) (by omega) (by omega)
  refine ht.fillArray hp (Memory.size_withCopy ..) rfl (Memory.size_withCopy ..) rfl
    (fun i hi => ?_) (fun i hi => ?_) fun j hj => ?_
  · rw [hcopy, if_neg fun hin => hi (i - r.index) ((hslot _).mpr (by omega)) (by omega)]
  · rw [hcopy', if_neg fun hin => hi (i - s.index) ((hslot _).mpr (by omega)) (by omega)]
  · rw [hslot] at hj
    have hat : x.index + 2 + (r.index + j - (r.index + 2)) = x.index + j := by omega
    have hat' : y.index + 2 + (s.index + j - (s.index + 2)) = y.index + j := by omega
    rw [hcopy, if_pos (by omega), hcopy', if_pos (by omega), hat, hat']
    exact ht.slots x y hxy j ((hslotx j).mpr hj)

theorem arraySet (hr : h.Paired p (.object r) (.object s)) (i : Nat) (hv : h.Paired p v v') :
    Alike (h.Follow p) (h.changeMemory (·.arraySet r i v)) (h'.changeMemory (·.arraySet s i v')) := by
  rw [changeMemory_eq, changeMemory_eq]
  unfold Memory.arraySet
  simp only [bind_assoc]
  refine (ht.checkIndex hr i).bind fun _ _ ⟨hp, hheader, hi⟩ => ?_
  have hslot := (Memory.isSlot_iff hheader (j := 2 + i)).mpr ⟨by omega, by omega⟩
  have hlt : 2 + i < h.size r := hslot.lt
  obtain ⟨ha, ha'⟩ := ht.elementAddress hp (n := i) (by omega)
  rw [ha, ha', ok_bind, ok_bind]
  refine hv.encode.bind fun w w' hw => ?_
  obtain ⟨hin, hin'⟩ := ht.inside hp
  have hsize := ht.left.size_le
  have hsize' := ht.right.size_le
  rw [Nat.add_assoc, Nat.add_assoc, Memory.store_word (by omega) (by omega),
    Memory.store_word (by omega) (by omega)]
  refine ht.fillArray hp (Memory.size_withWord ..) rfl (Memory.size_withWord ..) rfl
    (fun l hl => Memory.word_withWord_ne _ (hl _ hslot) w)
    (fun l hl => Memory.word_withWord_ne _ (hl _ hslot) w') fun j hj => ?_
  by_cases hji : j = 2 + i
  · subst hji
    rw [Memory.word_withWord (by omega), if_pos rfl, Memory.word_withWord (by omega), if_pos rfl]
    exact hw
  · rw [Memory.word_withWord_ne _ (by omega), Memory.word_withWord_ne _ (by omega)]
    exact ht.slots r s hp j hj

theorem setElements (hp : p r s) (i : Nat) (slots : List RootSlot) :
    Alike (h.Follow p) (h.setElements r i slots) (h'.setElements s i slots) := by
  induction slots generalizing h h' i with
  | nil => exact ⟨ht, Keeps.refl h⟩
  | cons slot rest ih =>
    refine (ht.root slot).bind fun v v' hv => ?_
    have hr : h.Paired p (.object r) (.object s) := .inl ⟨r, s, hp, rfl, rfl⟩
    refine (ht.arraySet hr i hv).bind fun k k' ⟨hk, hkeep⟩ => ?_
    exact (ih hk (i + 1)).mono fun l l' ⟨hl, hkeep'⟩ => ⟨hl, hkeep.trans hkeep'⟩

theorem newArray {vs vs' : List Value} (hvs : List.Forall₂ (h.Paired p) vs vs') :
    Alike h.Made (h.newArray vs) (h'.newArray vs') := by
  obtain ⟨hframe, haligned⟩ := ht.enterFrame
  unfold Heap.newArray
  rw [hframe, ← hvs.length_eq]
  refine (ht.pushRoots hvs).bind ?_
  rintro _ _ ⟨slots, k, k', rfl, rfl, hk, hk₁⟩
  refine (hk.allocArray _).bind ?_
  rintro _ _ ⟨q, r, s, l, l', rfl, rfl, hl, hp, -, hk₂⟩
  refine (hl.setElements hp 0 slots).bind fun m m' ⟨hm, hk₃⟩ => ?_
  refine (hm.leaveFrame haligned).bind fun n n' ⟨⟨hn, hk₄⟩, _⟩ => ?_
  exact ⟨⟨q, hn, hp⟩, ((hk₁.trans hk₂).trans hk₃).trans hk₄⟩

theorem newFilledArray (size : Nat) (hv : h.Paired p v v') :
    Alike h.Made (h.newFilledArray size v) (h'.newFilledArray size v') := by
  obtain ⟨hframe, haligned⟩ := ht.enterFrame
  unfold Heap.newFilledArray
  rw [hframe]
  refine (ht.pushRoot hv).bind ?_
  rintro _ _ ⟨slot, k, k', rfl, rfl, hk, hk₁⟩
  refine (hk.allocArray _).bind ?_
  rintro _ _ ⟨q, r, s, l, l', rfl, rfl, hl, hp, harray, hk₂⟩
  refine (hl.root slot).bind fun v v' hv => ?_
  refine (hl.leaveFrame haligned).bind fun m m' ⟨⟨hm, hkeep⟩, ⟨hmem, _⟩, _⟩ => ?_
  have harray : m.IsArray r size := by
    unfold IsArray
    rw [hmem]
    exact harray
  obtain ⟨hcount, hslot⟩ := harray.shape
  obtain ⟨ha, ha'⟩ := hm.elementAddress hp (n := 0) (by omega)
  rw [ha, ha', ok_bind, ok_bind]
  refine (hv.keep hkeep).encode.bind fun w w' hw => ?_
  obtain ⟨hin, hin'⟩ := hm.inside hp
  rw [fillElements_eq hm.left.size_le harray.2 (by omega) w,
    fillElements_eq hm.right.size_le harray.2 (by omega) w', ok_bind, ok_bind]
  obtain ⟨hfilled, hk₃⟩ := hm.fillElements hp harray hw
  exact ⟨⟨q, hfilled, hp⟩, ((hk₁.trans hk₂).trans hkeep).trans hk₃⟩

theorem copyArray (hr : h.Paired p (.object r) (.object s)) :
    Alike h.Made (h.copyArray r) (h'.copyArray s) := by
  obtain ⟨hframe, haligned⟩ := ht.enterFrame
  unfold Heap.copyArray
  rw [hframe]
  refine (ht.arraySize hr).bind ?_
  rintro _ size ⟨rfl, -, -, hlen⟩
  have hsize : Size.ofWords size = 4 * size := Size.ofWords_eq (by
    have := (h.memory.word (r.index + 1)).toNat_lt
    omega)
  refine (ht.pushRoot hr).bind ?_
  rintro _ _ ⟨slot, k, k', rfl, rfl, hk, hk₁⟩
  refine (hk.allocArray _).bind ?_
  rintro _ _ ⟨q, c, d, l, l', rfl, rfl, hl, hp, harray, hk₂⟩
  -- The source may have moved, and is read again from its slot.
  refine (hl.root slot).bind fun v v' hv => ?_
  rcases hl.object? hv with ⟨hno, hno'⟩ | ⟨x, y, hx, hy, hxy⟩
  · rw [hno, hno']
    exact alike_error rfl
  rw [hx, hy]
  refine (hl.leaveFrame haligned).bind fun m m' ⟨⟨hm, hkeep⟩, ⟨hmem, _⟩, _⟩ => ?_
  refine (hm.arraySize (hxy.keep hkeep)).bind ?_
  rintro _ len ⟨rfl, hq, hheader, hlenx⟩
  by_cases heq : len = size
  · rw [if_pos heq, if_pos heq]
    subst heq
    have harray : m.IsArray c len := by
      unfold IsArray
      rw [hmem]
      exact harray
    have hsource : m.IsArray x len := ⟨hheader, by rw [hsize, ← hlenx]⟩
    obtain ⟨hcount, -⟩ := harray.shape
    obtain ⟨hcountx, -⟩ := hsource.shape
    obtain ⟨ha, ha'⟩ := hm.elementAddress hp (n := 0) (by omega)
    obtain ⟨hb, hb'⟩ := hm.elementAddress hq (n := 0) (by omega)
    obtain ⟨hin, hin'⟩ := hm.inside hp
    obtain ⟨hinx, hiny⟩ := hm.inside hq
    have hwords := harray.2
    rw [hb, hb', ok_bind, ok_bind, ha, ha', ok_bind, ok_bind,
      copyElements_eq hm.left.size_le hwords (by omega) (by omega),
      copyElements_eq hm.right.size_le hwords (by omega) (by omega), ok_bind, ok_bind]
    obtain ⟨hcopied, hk₃⟩ := hm.copyElements hp hq harray hsource
    exact ⟨⟨q, hcopied, hp⟩, ((hk₁.trans hk₂).trans hkeep).trans hk₃⟩
  · rw [if_neg heq, if_neg heq]
    exact alike_error rfl

end Twin

end Heap

end CopyingHeap
