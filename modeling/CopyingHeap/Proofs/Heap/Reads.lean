import CopyingHeap.Object.Array
import CopyingHeap.Object.ListNode
import CopyingHeap.Object.Text
import CopyingHeap.Proofs.Heap.Roots

/-!
Reading objects in twins. References that correspond have one kind: objects correspond, symbols are the
same, and at null there is no object. So the same reads succeed, with corresponding values.
-/

namespace CopyingHeap

namespace Heap

/-- A string or symbol of `n` bytes. -/
def IsText (h : Heap) (r : Reference) (n : Nat) : Prop :=
  ∃ k : Kind, (k = .string ∨ k = .symbol) ∧ h.memory.word r.index = k.header ∧
    (h.memory.word (r.index + 1)).toNat = n

theorem Sound.symbol_inside {h : Heap} (hs : h.Sound) {r : Reference} (hr : h.IsSymbol r) :
    r.index + h.size r ≤ h.memory.words.size :=
  hr.inside hs.toLayout hs.limit_le

theorem Sound.nonempty {h : Heap} (hs : h.Sound) : 0 < h.memory.words.size := by
  have h1 := hs.spaces.reserved
  have h2 := Address.le_iff.mp hs.spaces.base_le_active
  have h3 := hs.spaces.active_inside
  unfold Size.reservedBytes at h1
  omega

theorem Sound.kind?_null {h : Heap} (hs : h.Sound) : h.memory.kind? Reference.null = .ok none := by
  rw [Memory.kind?_eq_ok (Nat.lt_of_le_of_lt (by decide) hs.nonempty), hs.null_raw]

theorem IsText.ne_null {h : Heap} (hs : h.Sound) {r : Reference} {n : Nat} (hn : h.IsText r n) :
    r ≠ Reference.null := by
  rintro rfl
  obtain ⟨k, -, hheader, -⟩ := hn
  have hraw := hs.null_raw
  rw [hheader, Kind.ofHeader?_header] at hraw
  nomatch hraw

theorem IsText.shape {h : Heap} {r : Reference} {n : Nat} (hn : h.IsText r n) :
    h.size r = 2 + (n + 3) / 4 ∧ ∀ j, ¬ h.memory.IsSlot r.index j := by
  obtain ⟨k, hk, hheader, hlen⟩ := hn
  refine ⟨?_, fun j => ?_⟩
  · rw [size, Memory.wordCount_eq hheader, hlen]
    rcases hk with rfl | rfl <;> rfl
  · rw [Memory.isSlot_iff hheader]
    rcases hk with rfl | rfl <;> exact id

/-- A text stays in every memory that has its words. -/
theorem IsText.congr {h k : Heap} {r : Reference} {n : Nat} (hn : h.IsText r n)
    (h0 : k.memory.word r.index = h.memory.word r.index)
    (h1 : k.memory.word (r.index + 1) = h.memory.word (r.index + 1)) : k.IsText r n := by
  unfold IsText
  rw [h0, h1]
  exact hn

theorem IsText.restacked {h : Heap} (hs : h.Sound) {sp : Address} {m : Memory}
    (hr : h.Restacks sp m) {r : Reference} {n : Nat} (hn : h.IsText r n)
    (hv : h.Knows (.object r)) : (h.restacked sp m).IsText r n := by
  rcases hv r (Value.object?_eq_some_iff.mpr ⟨rfl, hn.ne_null hs⟩) with hsymbol | hi
  · have hle := hsymbol.index_le
    exact hn.congr (hr.static (by omega)) (hr.static (by omega))
  · exact hn.congr (hr.object hs.toLayout hi 0) (hr.object hs.toLayout hi 1)

namespace Twin

variable {p : Reference → Reference → Prop} {h h' : Heap} (ht : Twin p h h') {r s : Reference}

include ht

/-- A pair of symbols is one symbol, in the same words of both heaps. -/
theorem symbol (hr : h.IsSymbol r) : h'.IsSymbol r ∧ h'.size r = h.size r ∧
    ∀ j < h.size r, h'.memory.word (r.index + j) = h.memory.word (r.index + j) := by
  have hsymbol : h'.IsSymbol r := hr.congr (by rw [ht.stack]) ht.static
  have hword (j : Nat) (hj : j < h.size r) :
      h'.memory.word (r.index + j) = h.memory.word (r.index + j) := by
    have hle := hr.2
    exact ht.static _ (by omega)
  have htwo : 2 ≤ h.size r := Memory.two_le_wordCount hr.1
  exact ⟨hsymbol, Memory.wordCount_congr (hword 0 (by omega)) fun _ _ _ => hword 1 (by omega), hword⟩

theorem kind? (hv : h.Paired p (.object r) (.object s)) :
    ∃ o, h.memory.kind? r = .ok o ∧ h'.memory.kind? s = .ok o ∧
      ∀ k, o = some k → h.memory.word r.index = k.header ∧
        (p r s ∧ k ≠ .symbol ∨ (s = r ∧ h.IsSymbol r) ∧ k = .symbol) := by
  rcases hv with ⟨x, y, hp, hr, hs⟩ | ⟨hv, heq⟩
  · injection hr with hr
    injection hs with hs
    subst hr hs
    obtain ⟨hi, hi'⟩ := ht.initialised r s hp
    obtain ⟨k, hk, -, hheader⟩ := ht.left.regular.kind_eq hi
    have hlt := ht.left.regular.index_lt_size (ht.left.regular.isSet_of_initialised hi)
    have hlt' := ht.right.regular.index_lt_size (ht.right.regular.isSet_of_initialised hi')
    have hkind : Kind.ofHeader? (h.memory.word r.index) = some k := by
      rw [hheader, Kind.ofHeader?_header]
    refine ⟨some k, ?_, ?_, fun l hl => ?_⟩
    · rw [Memory.kind?_eq_ok hlt, hkind]
    · rw [Memory.kind?_eq_ok hlt', ht.header_eq hp, hkind]
    · injection hl with hl
      exact hl ▸ ⟨hheader, .inl ⟨hp, hk⟩⟩
  · injection heq with heq
    subst heq
    by_cases hnull : s = Reference.null
    · subst hnull
      exact ⟨none, ht.left.kind?_null, ht.right.kind?_null, fun k hk => nomatch hk⟩
    · have hsymbol := hv s (Value.object?_eq_some_iff.mpr ⟨rfl, hnull⟩)
      have hsymbol' := (ht.symbol hsymbol).1
      have htwo : 2 ≤ h.size s := Memory.two_le_wordCount hsymbol.1
      have hcount' := (ht.symbol hsymbol).2.1
      have hin := ht.left.symbol_inside hsymbol
      have hin' := ht.right.symbol_inside hsymbol'
      refine ⟨some .symbol, ?_, ?_, fun k hk => ?_⟩
      · rw [Memory.kind?_eq_ok (by omega), hsymbol.1, Kind.ofHeader?_header]
      · rw [Memory.kind?_eq_ok (by omega), hsymbol'.1, Kind.ofHeader?_header]
      · injection hk with hk
        subst hk
        exact ⟨hsymbol.1, .inr ⟨⟨rfl, hsymbol⟩, rfl⟩⟩

theorem length (hp : p r s) :
    h.memory.length r = .ok (h.memory.word (r.index + 1)).toNat ∧
      h'.memory.length s = .ok (h'.memory.word (s.index + 1)).toNat := by
  have htwo := ht.left.regular.two_le_size (ht.initialised r s hp).1
  obtain ⟨hin, hin'⟩ := ht.inside hp
  exact ⟨Memory.length_eq ht.left.size_le (by omega), Memory.length_eq ht.right.size_le (by omega)⟩

/-- Both references are to corresponding arrays, or neither is to an array. -/
theorem arraySize (hv : h.Paired p (.object r) (.object s)) :
    Alike (fun n n' => n' = n ∧ p r s ∧ h.memory.word r.index = Kind.array.header ∧
      n = (h.memory.word (r.index + 1)).toNat) (h.memory.arraySize r) (h'.memory.arraySize s) := by
  obtain ⟨o, hk, hk', ho⟩ := ht.kind? hv
  rw [Memory.arraySize, Memory.arraySize, hk, hk', ok_bind, ok_bind]
  by_cases harray : o = some .array
  · rw [if_pos harray, if_pos harray]
    obtain ⟨hheader, ⟨hp, -⟩ | ⟨-, hno⟩⟩ := ho .array harray
    · rw [(ht.length hp).1, (ht.length hp).2, ht.length_eq hp hheader rfl]
      exact ⟨rfl, hp, hheader, rfl⟩
    · nomatch hno
  · rw [if_neg harray, if_neg harray]
    exact alike_error rfl

theorem checkIndex (hv : h.Paired p (.object r) (.object s)) (i : Nat) :
    Alike (fun _ _ => p r s ∧ h.memory.word r.index = Kind.array.header ∧
        i < (h.memory.word (r.index + 1)).toNat)
      (h.memory.checkIndex r i) (h'.memory.checkIndex s i) := by
  refine (ht.arraySize hv).bind fun n n' ⟨hn, hp, hheader, hlen⟩ => ?_
  subst hn
  by_cases hi : i < n'
  · rw [if_pos hi, if_pos hi]
    exact ⟨hp, hheader, hlen ▸ hi⟩
  · rw [if_neg hi, if_neg hi]
    exact alike_error rfl

theorem load_word (hp : p r s) {j : Nat} (hj : j < h.size r) :
    h.memory.load (Address.ofNat (4 * (r.index + j))) = .ok (h.memory.word (r.index + j)) ∧
      h'.memory.load (Address.ofNat (4 * (s.index + j))) = .ok (h'.memory.word (s.index + j)) := by
  obtain ⟨hi, hi'⟩ := ht.initialised r s hp
  exact ⟨ht.left.regular.load_slot hi hj, ht.right.regular.load_slot hi' (ht.size_eq hp ▸ hj)⟩

theorem elementAddress (hp : p r s) {n : Nat} (hn : 2 + n < h.size r + 1) :
    Memory.elementAddress r n = .ok (Address.ofNat (4 * (r.index + 2 + n))) ∧
      Memory.elementAddress s n = .ok (Address.ofNat (4 * (s.index + 2 + n))) := by
  obtain ⟨hin, hin'⟩ := ht.inside hp
  have hsize := ht.left.size_le
  have hsize' := ht.right.size_le
  exact ⟨Memory.elementAddress_eq (by omega), Memory.elementAddress_eq (by omega)⟩

theorem arrayGet (hv : h.Paired p (.object r) (.object s)) (i : Nat) :
    Alike (h.Paired p) (h.memory.arrayGet r i) (h'.memory.arrayGet s i) := by
  refine (ht.checkIndex hv i).bind fun _ _ ⟨hp, hheader, hi⟩ => ?_
  have hslot := (Memory.isSlot_iff hheader (j := 2 + i)).mpr ⟨by omega, by omega⟩
  have hlt : 2 + i < h.size r := hslot.lt
  obtain ⟨ha, ha'⟩ := ht.elementAddress hp (n := i) (by omega)
  obtain ⟨hw, hw'⟩ := ht.load_word hp hlt
  rw [ha, ha', ok_bind, ok_bind, Nat.add_assoc, Nat.add_assoc, hw, hw']
  exact (ht.slots r s hp _ hslot).decode

theorem checkListNode (hv : h.Paired p (.object r) (.object s)) :
    Alike (fun _ _ => p r s ∧ h.memory.word r.index = Kind.listNode.header)
      (h.memory.checkListNode r) (h'.memory.checkListNode s) := by
  obtain ⟨o, hk, hk', ho⟩ := ht.kind? hv
  rw [Memory.checkListNode, Memory.checkListNode, hk, hk', ok_bind, ok_bind]
  by_cases hnode : o = some .listNode
  · rw [if_pos hnode, if_pos hnode]
    obtain ⟨hheader, ⟨hp, -⟩ | ⟨-, hno⟩⟩ := ho .listNode hnode
    · exact ⟨hp, hheader⟩
    · nomatch hno
  · rw [if_neg hnode, if_neg hnode]
    exact alike_error rfl

theorem nodeWord (hp : p r s) (hheader : h.memory.word r.index = Kind.listNode.header) {j : Nat}
    (hj : j = 1 ∨ j = 2) :
    Alike (h.Paired p) (r.address.add (4 * j) >>= fun a => h.memory.load a >>= fun w =>
        .ok (Value.decode w))
      (s.address.add (4 * j) >>= fun a => h'.memory.load a >>= fun w => .ok (Value.decode w)) := by
  have hslot := (Memory.isSlot_iff hheader (j := j)).mpr hj
  have hlt : j < h.size r := hslot.lt
  obtain ⟨hin, hin'⟩ := ht.inside hp
  have hsize := ht.left.size_le
  have hsize' := ht.right.size_le
  obtain ⟨hw, hw'⟩ := ht.load_word hp hlt
  rw [r.add_eq (by omega), s.add_eq (by omega), ok_bind, ok_bind, hw, hw']
  exact (ht.slots r s hp _ hslot).decode

theorem listHead (hv : h.Paired p (.object r) (.object s)) :
    Alike (h.Paired p) (h.memory.listHead r) (h'.memory.listHead s) :=
  (ht.checkListNode hv).bind fun _ _ ⟨hp, hheader⟩ => ht.nodeWord hp hheader (.inl rfl)

theorem listTail (hv : h.Paired p (.object r) (.object s)) :
    Alike (h.Paired p) (h.memory.listTail r) (h'.memory.listTail s) :=
  (ht.checkListNode hv).bind fun _ _ ⟨hp, hheader⟩ => ht.nodeWord hp hheader (.inr rfl)

theorem knows {v v' : Value} (hv : h.Paired p v v') : h.Knows v ∧ h'.Knows v' := by
  rcases hv with ⟨r, s, hp, rfl, rfl⟩ | ⟨hv, rfl⟩
  · obtain ⟨hi, hi'⟩ := ht.initialised r s hp
    exact ⟨knows_object (.inr hi), knows_object (.inr hi')⟩
  · exact ⟨fun t htarget => .inl (hv t htarget),
      fun t htarget => .inl (ht.symbol (hv t htarget)).1⟩

theorem text (hv : h.Paired p (.object r) (.object s)) {n : Nat} (hn : h.IsText r n) :
    h'.IsText s n ∧
      (∀ j < 2 + (n + 3) / 4, h'.memory.word (s.index + j) = h.memory.word (r.index + j)) ∧
      r.index + (2 + (n + 3) / 4) ≤ h.memory.words.size ∧
      s.index + (2 + (n + 3) / 4) ≤ h'.memory.words.size := by
  obtain ⟨hcount, hno⟩ := hn.shape
  have hin : r.index + h.size r ≤ h.memory.words.size ∧
      s.index + h.size r ≤ h'.memory.words.size ∧
      ∀ j < h.size r, h'.memory.word (s.index + j) = h.memory.word (r.index + j) := by
    rcases hv with ⟨x, y, hp, hr, hs⟩ | ⟨hv, heq⟩
    · injection hr with hr
      injection hs with hs
      subst hr hs
      obtain ⟨hin, hin'⟩ := ht.inside hp
      exact ⟨hin, hin', fun j hj => ht.payload r s hp j hj (hno j)⟩
    · injection heq with heq
      subst heq
      have hsymbol := hv s (Value.object?_eq_some_iff.mpr ⟨rfl, hn.ne_null ht.left⟩)
      obtain ⟨hsymbol', hsize, hword⟩ := ht.symbol hsymbol
      exact ⟨ht.left.symbol_inside hsymbol, hsize ▸ ht.right.symbol_inside hsymbol', hword⟩
  rw [hcount] at hin
  obtain ⟨hin, hin', hword⟩ := hin
  obtain ⟨k, hk, hheader, hlen⟩ := hn
  refine ⟨⟨k, hk, ?_, ?_⟩, hword, hin, hin'⟩
  · exact (hword 0 (by omega)).trans hheader
  · rw [hword 1 (by omega), hlen]

/-- Both references are to texts of one length, or neither is to a text. -/
theorem textLength (hv : h.Paired p (.object r) (.object s)) :
    Alike (fun n n' => n' = n ∧ h.IsText r n ∧ n < 0x100000000)
      (h.memory.textLength r) (h'.memory.textLength s) := by
  have hread {k : Kind} (hk : k = .string ∨ k = .symbol)
      (hheader : h.memory.word r.index = k.header) :
      Alike (fun n n' => n' = n ∧ h.IsText r n ∧ n < 0x100000000) (h.memory.length r)
        (h'.memory.length s) := by
    have htext : h.IsText r (h.memory.word (r.index + 1)).toNat := ⟨k, hk, hheader, rfl⟩
    obtain ⟨-, hword, hin, hin'⟩ := ht.text hv htext
    rw [Memory.length_eq ht.left.size_le (by omega), Memory.length_eq ht.right.size_le (by omega),
      hword 1 (by omega)]
    exact ⟨rfl, htext, UInt32.toNat_lt _⟩
  obtain ⟨o, hk, hk', ho⟩ := ht.kind? hv
  rw [Memory.textLength, Memory.textLength, hk, hk', ok_bind, ok_bind]
  split
  · exact hread (.inl rfl) (ho _ rfl).1
  · exact hread (.inr rfl) (ho _ rfl).1
  · exact alike_error rfl

end Twin

end Heap

end CopyingHeap
