import CopyingHeap.Memory.Bytes
import CopyingHeap.Proofs.Memory.Words

/-!
Writing bytes, seen by words. Words that no byte falls into stay, and the same bytes at the same place
in equal words leave equal words. What has been written is read back.
-/

namespace CopyingHeap

namespace Memory

/-- The memory with other bytes from byte `i` on. -/
def withBytes (m : Memory) (i : Nat) (bs : List UInt8) : Memory :=
  ⟨setBytes m.words i bs, m.maxPages⟩

@[simp] theorem size_withBytes (m : Memory) (i : Nat) (bs : List UInt8) :
    (m.withBytes i bs).words.size = m.words.size :=
  size_setBytes ..

@[simp] theorem maxPages_withBytes (m : Memory) (i : Nat) (bs : List UInt8) :
    (m.withBytes i bs).maxPages = m.maxPages :=
  rfl

theorem withBytes_cons (m : Memory) (i : Nat) (b : UInt8) (bs : List UInt8) :
    m.withBytes i (b :: bs) = (m.withBytes i [b]).withBytes (i + 1) bs :=
  rfl

theorem word_withByte {m : Memory} {i : Nat} (hi : i / 4 < m.words.size) (b : UInt8) (k : Nat) :
    (m.withBytes i [b]).word k =
      if k = i / 4 then withByte (m.word k) (i % 4) b else m.word k := by
  unfold word withBytes setBytes setBytes setByte
  rw [Array.getD_eq_getD_getElem?, Array.getD_eq_getD_getElem?, Array.getElem?_modify]
  by_cases hk : k = i / 4
  · subst hk
    simp [hi]
  · rw [if_neg hk, if_neg (fun heq => hk heq.symm)]

theorem checkBytes_eq_ok {m : Memory} {a : Address} {count : Nat}
    (hsize : m.words.size ≤ 0x3FFFC000) (hs : a.toNat + count ≤ 4 * m.words.size) :
    m.checkBytes a count = .ok () := by
  have hbytes : m.bytes = 4 * m.words.size := Size.ofWords_eq (by omega)
  rw [checkBytes, Size.add_eq_ok (by omega), ok_bind, hbytes, if_pos hs]
  rfl

theorem readBytes_eq_ok {m : Memory} {a : Address} {count : Nat}
    (hsize : m.words.size ≤ 0x3FFFC000) (hs : a.toNat + count ≤ 4 * m.words.size) :
    m.readBytes a count = .ok ((List.range' a.toNat count).map (byteAt m.words)) := by
  rw [readBytes, checkBytes_eq_ok hsize hs]
  rfl

theorem writeBytes_eq_ok {m : Memory} {a : Address} {bs : List UInt8}
    (hsize : m.words.size ≤ 0x3FFFC000) (hs : a.toNat + bs.length ≤ 4 * m.words.size) :
    m.writeBytes a bs = .ok (m.withBytes a.toNat bs) := by
  rw [writeBytes, checkBytes_eq_ok hsize hs, ok_bind]
  rfl

theorem writeBytes_eq_error {m : Memory} {a : Address} {bs : List UInt8}
    (hsize : m.words.size ≤ 0x3FFFC000) (hs : 4 * m.words.size < a.toNat + bs.length) :
    m.writeBytes a bs = .error .overflow ∨ m.writeBytes a bs = .error .outOfBounds := by
  have hbytes : m.bytes = 4 * m.words.size := Size.ofWords_eq (by omega)
  rcases Nat.lt_or_ge (a.toNat + bs.length) Size.bound with hlt | hge
  · refine .inr ?_
    rw [writeBytes, checkBytes, Size.add_eq_ok hlt, ok_bind, hbytes, if_neg (by omega)]
    rfl
  · refine .inl ?_
    rw [writeBytes, checkBytes, Size.add_eq_error hge]
    rfl

theorem word_withBytes_outside {m : Memory} {i k : Nat} {bs : List UInt8}
    (hs : i + bs.length ≤ 4 * m.words.size) (hk : ¬ (i / 4 ≤ k ∧ 4 * k < i + bs.length)) :
    (m.withBytes i bs).word k = m.word k := by
  induction bs generalizing m i with
  | nil => rfl
  | cons b bs ih =>
    rw [List.length_cons] at hs hk
    have hrest := ih (m := m.withBytes i [b]) (i := i + 1) (by rw [size_withBytes]; omega) (by omega)
    rw [withBytes_cons, hrest, word_withByte (by omega), if_neg (by omega)]

theorem word_withBytes_congr {m n : Memory} {a c d w : Nat} {bs : List UInt8}
    (hs : a + w ≤ m.words.size) (hs' : c + w ≤ n.words.size) (hlen : d + bs.length ≤ 4 * w)
    (hword : ∀ j < w, n.word (c + j) = m.word (a + j)) {j : Nat} (hj : j < w) :
    (n.withBytes (4 * c + d) bs).word (c + j) = (m.withBytes (4 * a + d) bs).word (a + j) := by
  induction bs generalizing m n d with
  | nil => exact hword j hj
  | cons b bs ih =>
    rw [List.length_cons] at hlen
    rw [withBytes_cons m, withBytes_cons n, Nat.add_assoc, Nat.add_assoc]
    refine ih (m := m.withBytes (4 * a + d) [b]) (n := n.withBytes (4 * c + d) [b])
      (by rwa [size_withBytes]) (by rwa [size_withBytes]) (by omega) fun l hl => ?_
    have hmod : (4 * c + d) % 4 = (4 * a + d) % 4 := by omega
    rw [word_withByte (by omega), word_withByte (by omega), hmod, hword l hl]
    by_cases he : a + l = (4 * a + d) / 4
    · rw [if_pos he, if_pos (by omega)]
    · rw [if_neg he, if_neg (by omega)]

theorem byteAt_withByte {m : Memory} {i : Nat} (hi : i / 4 < m.words.size) (b : UInt8) (k : Nat) :
    byteAt (m.withBytes i [b]).words k = if k = i then b else byteAt m.words k := by
  have hword : byteAt (m.withBytes i [b]).words k =
      byteOf ((m.withBytes i [b]).word (k / 4)) (k % 4) := rfl
  rw [hword, word_withByte hi]
  by_cases hk : k / 4 = i / 4
  · rw [if_pos hk, byteOf_withByte _ (by omega) (by omega)]
    by_cases he : k = i
    · rw [if_pos he, if_pos (by rw [he])]
    · rw [if_neg he, if_neg (by omega)]
      rfl
  · rw [if_neg hk, if_neg (fun he => hk (by rw [he]))]
    rfl

theorem byteAt_withBytes_outside {m : Memory} {i k : Nat} {bs : List UInt8}
    (hs : i + bs.length ≤ 4 * m.words.size) (hk : ¬ (i ≤ k ∧ k < i + bs.length)) :
    byteAt (m.withBytes i bs).words k = byteAt m.words k := by
  induction bs generalizing m i with
  | nil => rfl
  | cons b bs ih =>
    rw [List.length_cons] at hs hk
    rw [withBytes_cons, ih (by rw [size_withBytes]; omega) (by omega), byteAt_withByte (by omega),
      if_neg (by omega)]

theorem map_byteAt_withBytes {m : Memory} {i : Nat} {bs : List UInt8}
    (hs : i + bs.length ≤ 4 * m.words.size) :
    (List.range' i bs.length).map (byteAt (m.withBytes i bs).words) = bs := by
  induction bs generalizing m i with
  | nil => rfl
  | cons b bs ih =>
    rw [List.length_cons] at hs ⊢
    have hs' : i + 1 + bs.length ≤ 4 * (m.withBytes i [b]).words.size := by
      rw [size_withBytes]
      omega
    rw [withBytes_cons, List.range'_succ, List.map_cons, ih hs',
      byteAt_withBytes_outside hs' (by omega), byteAt_withByte (by omega), if_pos rfl]

end Memory

end CopyingHeap
