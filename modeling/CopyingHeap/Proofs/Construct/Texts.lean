import CopyingHeap.Proofs.Construct.Objects
import CopyingHeap.Proofs.Memory.Bytes

/-!
Making strings in twins, from bytes or from another text. Both strings get the same words; the padding
behind the last byte is zero in both.
-/

namespace CopyingHeap

namespace Memory

/-- The memory with a text at word `i`. -/
def withText (m : Memory) (i : Nat) (k : Kind) (bs : List UInt8) : Memory :=
  (m.withHeader i k (UInt32.ofNat bs.length)).withBytes (4 * (i + 2)) bs

variable {m m' : Memory} {i i' : Nat} {r : Reference} {k : Kind} {bs : List UInt8}

@[simp] theorem size_withText : (m.withText i k bs).words.size = m.words.size := by
  rw [withText, size_withBytes, size_withHeader]

@[simp] theorem maxPages_withText : (m.withText i k bs).maxPages = m.maxPages :=
  rfl

theorem word_withText_ne {n : Nat} (hn : 2 + (bs.length + 3) / 4 ≤ n) (hs : i + n ≤ m.words.size)
    {j : Nat} (hj : ¬ (i ≤ j ∧ j < i + n)) : (m.withText i k bs).word j = m.word j := by
  rw [withText, word_withBytes_outside (by rw [size_withHeader]; omega) (by omega),
    word_withHeader_ne _ _ (by omega) (by omega)]

theorem word_withText (hs : i + (2 + (bs.length + 3) / 4) ≤ m.words.size) :
    (m.withText i k bs).word i = k.header ∧
      (m.withText i k bs).word (i + 1) = UInt32.ofNat bs.length := by
  obtain ⟨h0, h1⟩ := word_withHeader (m := m) (i := i) k (UInt32.ofNat bs.length) (by omega)
  have hlow {j : Nat} (hj : j < i + 2) : (m.withText i k bs).word j =
      (m.withHeader i k (UInt32.ofNat bs.length)).word j :=
    word_withBytes_outside (by rw [size_withHeader]; omega) (by omega)
  exact ⟨(hlow (by omega)).trans h0, (hlow (by omega)).trans h1⟩

theorem word_withText_congr (hs : i + (2 + (bs.length + 3) / 4) ≤ m.words.size)
    (hs' : i' + (2 + (bs.length + 3) / 4) ≤ m'.words.size)
    (hword : ∀ j < 2 + (bs.length + 3) / 4, m'.word (i' + j) = m.word (i + j)) {j : Nat}
    (hj : j < 2 + (bs.length + 3) / 4) :
    (m'.withText i' k bs).word (i' + j) = (m.withText i k bs).word (i + j) := by
  obtain ⟨h0, h1⟩ := word_withText (k := k) hs
  obtain ⟨h0', h1'⟩ := word_withText (k := k) hs'
  rcases (by omega : j = 0 ∨ j = 1 ∨ 2 ≤ j) with rfl | rfl | hj2
  · exact h0'.trans h0.symm
  · exact h1'.trans h1.symm
  · obtain ⟨l, rfl⟩ := Nat.exists_eq_add_of_le hj2
    rw [← Nat.add_assoc, ← Nat.add_assoc]
    refine word_withBytes_congr (a := i + 2) (c := i' + 2) (d := 0) (w := (bs.length + 3) / 4)
      (by rw [size_withHeader]; omega) (by rw [size_withHeader]; omega) (by omega)
      (fun l hl => ?_) (by omega)
    rw [word_withHeader_ne _ _ (by omega) (by omega), word_withHeader_ne _ _ (by omega) (by omega),
      Nat.add_assoc, Nat.add_assoc]
    exact hword _ (by omega)

section WriteText

variable (hs : m.words.size ≤ 0x3FFFC000) (hi : r.index + 1 < m.words.size)

include hs hi

theorem writeText_eq : m.writeText r.address k bs =
    (m.withHeader r.index k (UInt32.ofNat bs.length)).writeBytes
      (Address.ofNat (4 * (r.index + 2))) bs := by
  have h1 := r.add_eq (j := 1) (by omega)
  have h2 := r.add_eq (j := 2) (by omega)
  rw [writeText, writeHeader, store_address (by omega), ok_bind, lengthOffset, h1, ok_bind,
    store_word (by omega) (by rwa [size_withWord]), ok_bind, contentOffset, h2, ok_bind]
  rfl

theorem writeText_eq_ok (hfit : r.index + (2 + (bs.length + 3) / 4) ≤ m.words.size) :
    m.writeText r.address k bs = .ok (m.withText r.index k bs) := by
  have htop := Address.toNat_ofNat_of_lt (n := 4 * (r.index + 2)) (by omega)
  rw [writeText_eq hs hi, writeBytes_eq_ok (by rwa [size_withHeader]) (by
    rw [size_withHeader]
    omega), htop]
  rfl

/-- More bytes than memory has are not written. -/
theorem writeText_eq_error (hlen : 4 * m.words.size < bs.length) :
    m.writeText r.address k bs = .error .overflow ∨
      m.writeText r.address k bs = .error .outOfBounds := by
  rw [writeText_eq hs hi]
  exact writeBytes_eq_error (by rwa [size_withHeader]) (by
    rw [size_withHeader]
    omega)

end WriteText

end Memory

namespace Heap

theorem Written.text {h : Heap} (hs : h.Sound) {r x : Reference} {n c : Nat} {m : Memory}
    (hw : h.Written r n m) (hf : h.Fresh r n) (hk : h.Knows (.object x)) (hx : h.IsText x c) {j : Nat}
    (hj : j < 2 + (c + 3) / 4) : m.word (x.index + j) = h.memory.word (x.index + j) := by
  obtain ⟨xs, hxs, hr⟩ := hf.block
  obtain ⟨hcount, -⟩ := hx.shape
  rcases hk x (Value.object?_eq_some_iff.mpr ⟨rfl, hx.ne_null hs⟩) with hsymbol | hi
  · have hle := hsymbol.2
    exact hw.static hs hxs hr (by omega)
  · have hne : x ≠ r := by
      rintro rfl
      exact hf.not_initialised hs.toLayout hi
    exact hw.object hs hxs hr hi hne (by omega)

theorem copyText_eq {h : Heap} (hsize : h.memory.words.size ≤ 0x3FFFC000) {r s : Reference} {c : Nat}
    (hr : r.index + (2 + c) ≤ h.memory.words.size) (hs : s.index + (2 + c) ≤ h.memory.words.size)
    (length : Word) : (do
      let h ← h.changeMemory (·.writeHeader s.address .string)
      let lengthAt ← s.address.add lengthOffset
      let h ← h.changeMemory (·.store lengthAt length)
      let fromAddress ← r.address.add contentOffset
      let toAddress ← s.address.add contentOffset
      let h ← h.changeMemory (·.copy fromAddress toAddress (4 * (2 + c) - contentOffset))
      return (← Reference.ofAddress s.address, h)) =
    .ok (s, { h with
      memory := (h.memory.withHeader s.index .string length).withCopy (r.index + 2)
        (s.index + 2) c }) := by
  have h1 := s.add_eq (j := 1) (by omega)
  have h2 := s.add_eq (j := 2) (by omega)
  have hr2 := r.add_eq (j := 2) (by omega)
  have hbytes : 4 * (2 + c) - contentOffset = 4 * c := by
    unfold contentOffset
    omega
  rw [changeMemory_eq, Memory.writeHeader, Memory.store_address (by omega), ok_bind, ok_bind,
    lengthOffset, h1, ok_bind, changeMemory_eq,
    Memory.store_word (by omega) (by rw [Memory.size_withWord]; omega), ok_bind, ok_bind, hbytes,
    contentOffset, hr2, ok_bind, h2, ok_bind, changeMemory_eq,
    Memory.copy_eq_ok (wordAligned_ofNat _) (wordAligned_ofNat _), toNat_ofNat_div (by omega),
    toNat_ofNat_div (by omega), ok_bind, ok_bind, Reference.ofAddress_address, ok_bind]
  · rfl
  · rw [toNat_ofNat_div (by omega), Memory.size_withWord, Memory.size_withWord]
    omega
  · rw [toNat_ofNat_div (by omega), Memory.size_withWord, Memory.size_withWord]
    omega

namespace Twin

variable {p : Reference → Reference → Prop} {h h' : Heap} (ht : Twin p h h')

include ht

/-- Two strings of equal words, made in blocks that have just been handed out. -/
theorem madeText {r s : Reference} {c : Nat} (hf : h.Fresh r (2 + (c + 3) / 4))
    (hf' : h'.Fresh s (2 + (c + 3) / 4)) {m m' : Memory} (hw : h.Written r (2 + (c + 3) / 4) m)
    (hw' : h'.Written s (2 + (c + 3) / 4) m') (hheader : m.word r.index = Kind.string.header)
    (hlength : (m.word (r.index + 1)).toNat = c)
    (hword : ∀ j < 2 + (c + 3) / 4, m'.word (s.index + j) = m.word (r.index + j)) :
    h.Made (r, { h with memory := m }) (s, { h' with memory := m' }) := by
  have hcount : m.wordCount r.index = 2 + (c + 3) / 4 := by
    rw [Memory.wordCount_eq hheader, hlength]
    rfl
  refine ht.made hf hf' hw hw' (by decide) hheader hcount.le (fun j hj => ?_) fun j hj _ => ?_
  · exact absurd ((Memory.isSlot_iff hheader).mp hj) id
  · exact hword j (hcount ▸ hj)

theorem newString (bs : List UInt8) : Alike h.Made (h.newString bs) (h'.newString bs) := by
  unfold Heap.newString
  refine (Alike.of_eq (x := Kind.string.size bs.length) rfl).with_eq.bind ?_
  rintro size _ ⟨rfl, hsize, -⟩
  refine (ht.alloc _).bind ?_
  rintro _ _ ⟨q, r, s, n, k, k', rfl, rfl, hx⟩
  obtain ⟨hmax, hmax', hin, hin'⟩ := hx.inside
  have hn : 2 ≤ n := by
    have hbytes := hx.bytes
    unfold Size.objectBytes Size.minObjectBytes at hbytes
    omega
  dsimp only
  rw [changeMemory_eq, changeMemory_eq]
  rcases Nat.lt_or_ge bs.length 0x100000000 with hlen | hlen
  · rw [Kind.size_eq .string hlen, Except.ok.injEq] at hsize
    obtain rfl : n = 2 + (bs.length + 3) / 4 := hx.words_eq hsize.symm (by omega)
    obtain ⟨h0, h1⟩ := Memory.word_withText (k := .string) hin
    rw [Memory.writeText_eq_ok hmax (by omega) hin, Memory.writeText_eq_ok hmax' (by omega) hin',
      ok_bind, ok_bind, Reference.ofAddress_address, Reference.ofAddress_address, ok_bind, ok_bind]
    refine Made.after (k := k) ?_ hx.before.2
    refine hx.twin.madeText hx.fresh hx.fresh'
      ⟨Memory.size_withText, rfl, fun i => Memory.word_withText_ne (Nat.le_refl _) hin⟩
      ⟨Memory.size_withText, rfl, fun i => Memory.word_withText_ne (Nat.le_refl _) hin'⟩ h0 ?_
      fun j hj => Memory.word_withText_congr hin hin' (fun i hi => ?_) hj
    · rw [h1, UInt32.toNat_ofNat', Nat.mod_eq_of_lt hlen]
    · rw [hx.fresh.zero i hi, hx.fresh'.zero i hi]
  · have herror : k.memory.writeText r.address .string bs = .error .overflow ∨
        k.memory.writeText r.address .string bs = .error .outOfBounds :=
      Memory.writeText_eq_error hmax (by omega) (by omega)
    have herror' : k'.memory.writeText s.address .string bs = .error .overflow ∨
        k'.memory.writeText s.address .string bs = .error .outOfBounds :=
      Memory.writeText_eq_error hmax' (by omega) (by omega)
    rcases herror with he | he
    · rw [he]
      exact Alike.of_exhausted (f := .overflow) trivial _
    · rcases herror' with he' | he'
      · rw [he']
        exact Alike.of_exhausted_right (g := .overflow) trivial _
      · rw [he, he']
        exact alike_error rfl

theorem madeCopy {r s x y : Reference} {c : Nat} (hf : h.Fresh r (2 + (c + 3) / 4))
    (hf' : h'.Fresh s (2 + (c + 3) / 4)) (hv : h.Paired p (.object x) (.object y))
    (hx : h.IsText x c) (hc : c < 0x100000000) :
    h.Made
      (r, { h with
        memory := (h.memory.withHeader r.index .string (UInt32.ofNat c)).withCopy (x.index + 2)
          (r.index + 2) ((c + 3) / 4) })
      (s, { h' with
        memory := (h'.memory.withHeader s.index .string (UInt32.ofNat c)).withCopy (y.index + 2)
          (s.index + 2) ((c + 3) / 4) }) := by
  obtain ⟨hknows, hknows'⟩ := ht.knows hv
  obtain ⟨hy, hword, hin, hin'⟩ := ht.text hv hx
  have hr := hf.inside ht.left.toLayout
  have hs := hf'.inside ht.right.toLayout
  have hw := Written.withHeader h r (n := 2 + (c + 3) / 4) (by omega) .string (UInt32.ofNat c)
  have hw' := Written.withHeader h' s (n := 2 + (c + 3) / 4) (by omega) .string (UInt32.ofNat c)
  obtain ⟨h0, h1⟩ := Memory.word_withHeader (m := h.memory) (i := r.index) .string
    (UInt32.ofNat c) (by omega)
  obtain ⟨h0', h1'⟩ := Memory.word_withHeader (m := h'.memory) (i := s.index) .string
    (UInt32.ofNat c) (by omega)
  have hcopy := Memory.word_withCopy (m := h.memory.withHeader r.index .string (UInt32.ofNat c))
    (i := x.index + 2) (j := r.index + 2) (n := (c + 3) / 4)
    (by rw [Memory.size_withHeader]; omega) (by rw [Memory.size_withHeader]; omega)
  have hcopy' := Memory.word_withCopy (m := h'.memory.withHeader s.index .string (UInt32.ofNat c))
    (i := y.index + 2) (j := s.index + 2) (n := (c + 3) / 4)
    (by rw [Memory.size_withHeader]; omega) (by rw [Memory.size_withHeader]; omega)
  have hlow {j : Nat} (hj : j < r.index + 2) := (hcopy j).trans (if_neg (by omega))
  have hlow' {j : Nat} (hj : j < s.index + 2) := (hcopy' j).trans (if_neg (by omega))
  refine ht.madeText hf hf' ⟨?_, rfl, fun i hi => ?_⟩ ⟨?_, rfl, fun i hi => ?_⟩
    ((hlow (by omega)).trans h0) ?_ fun j hj => ?_
  · rw [Memory.size_withCopy, Memory.size_withHeader]
  · rw [hcopy, if_neg (by omega)]
    exact hw.outside i hi
  · rw [Memory.size_withCopy, Memory.size_withHeader]
  · rw [hcopy', if_neg (by omega)]
    exact hw'.outside i hi
  · rw [hlow (by omega), h1, UInt32.toNat_ofNat', Nat.mod_eq_of_lt hc]
  · rcases (by omega : j = 0 ∨ j = 1 ∨ 2 ≤ j) with rfl | rfl | hj2
    · exact (hlow' (by omega)).trans (h0'.trans ((hlow (by omega)).trans h0).symm)
    · exact (hlow' (by omega)).trans (h1'.trans ((hlow (by omega)).trans h1).symm)
    · have hat : x.index + 2 + (r.index + j - (r.index + 2)) = x.index + j := by omega
      have hat' : y.index + 2 + (s.index + j - (s.index + 2)) = y.index + j := by omega
      rw [hcopy, if_pos (by omega), hcopy', if_pos (by omega), hat, hat',
        hw.text ht.left hf hknows hx hj, hw'.text ht.right hf' hknows' hy hj, hword j hj]

theorem copyString {r s : Reference} (hv : h.Paired p (.object r) (.object s)) :
    Alike h.Made (h.copyString r) (h'.copyString s) := by
  obtain ⟨hframe, haligned⟩ := ht.enterFrame
  unfold Heap.copyString
  rw [hframe]
  refine (ht.textLength hv).bind ?_
  rintro _ c ⟨rfl, htext, hc⟩
  refine (ht.pushRoot hv).with_eq.bind ?_
  rintro _ _ ⟨⟨slot, h₁, h₁', rfl, rfl, ht₁, hk₁⟩, hpush, -⟩
  obtain ⟨hslot, sp, m, hr, rfl⟩ := ht.left.pushRoot_object hpush
  have htext₁ := htext.restacked ht.left hr (ht.knows hv).1
  dsimp only
  rw [Kind.size_eq .string hc, ok_bind, ok_bind]
  refine (ht₁.alloc _).bind ?_
  rintro _ _ ⟨q, x, y, n, h₂, h₂', rfl, rfl, hx⟩
  obtain rfl : n = 2 + (c + 3) / 4 := hx.words_eq rfl (by omega)
  refine (hx.twin.root slot).with_eq.bind fun v v' ⟨hv₂, hroot, _⟩ => ?_
  -- The slot still holds the text, wherever the allocation has moved it.
  obtain ⟨⟨p₁, hp₁⟩, hk₂⟩ := hx.before
  have hv₁ := hp₁.root slot
  rw [hslot, hroot] at hv₁
  obtain ⟨z, rfl⟩ := Paired.object hv₁
  obtain ⟨z', rfl⟩ := hv₂.object
  obtain ⟨htext₂, -, -, -⟩ := hp₁.text hv₁ htext₁
  obtain ⟨htext₂', -, -, -⟩ := hx.twin.text hv₂ htext₂
  have hz : (Value.object z).object? = some z :=
    Value.object?_eq_some_iff.mpr ⟨rfl, htext₂.ne_null hx.twin.left⟩
  have hz' : (Value.object z').object? = some z' :=
    Value.object?_eq_some_iff.mpr ⟨rfl, htext₂'.ne_null hx.twin.right⟩
  rw [hz, hz']
  refine (hx.twin.leaveFrame haligned).bind fun k k' ⟨⟨hk, hkeep⟩, ⟨hm, hm'⟩, hf⟩ => ?_
  have hv₃ := hv₂.keep hkeep
  have htext₃ : k.IsText z c := htext₂.congr (by rw [hm]) (by rw [hm])
  obtain ⟨-, -, hin, hin'⟩ := hk.text hv₃ htext₃
  have hfresh := (hf x _).1 hx.fresh
  have hfresh' := (hf y _).2 hx.fresh'
  have hx := hfresh.inside hk.left.toLayout
  have hy := hfresh'.inside hk.right.toLayout
  dsimp only [Kind.wordCount]
  rw [copyText_eq hk.left.size_le hin hx, copyText_eq hk.right.size_le hin' hy]
  exact (hk.madeCopy hfresh hfresh' hv₃ htext₃ hc).after ((hk₁.trans hk₂).trans hkeep)

end Twin

end Heap

end CopyingHeap
