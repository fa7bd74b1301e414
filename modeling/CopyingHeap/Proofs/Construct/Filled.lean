import CopyingHeap.Proofs.Construct.Arrays
import CopyingHeap.Proofs.Heap.Grant

/-!
Filled arrays. A size of 64 bits is turned into bytes by a shift that drops its two upper bits, and its
lower 32 bits are stored as the length. Only blocks below 4 GiB are handed out, and for these both agree:
an array is as long as the size without its two upper bits.
-/

namespace CopyingHeap

/-- The shift to bytes drops the two upper bits of a size. -/
theorem Size.ofWords_mod (size : Nat) : Size.ofWords size = 4 * (size % 0x4000000000000000) := by
  unfold ofWords wordBytes bound
  omega

/-- The bytes of an array, if they fit into 64 bits. -/
theorem Kind.array_size_cases (size : Nat) :
    Kind.array.size size = .ok (8 + 4 * (size % 0x4000000000000000)) ∨
      (Kind.array.size size = .error .overflow ∧
        0x10000000000000000 ≤ 8 + 4 * (size % 0x4000000000000000)) := by
  unfold Kind.size contentOffset
  dsimp only
  rw [Size.ofWords_mod]
  generalize size % 0x4000000000000000 = n
  rcases Nat.lt_or_ge (8 + 4 * n) 0x10000000000000000 with hfit | hfit
  · left
    rw [Size.add_eq_ok hfit, ok_bind, Size.objectBytes_eq (by omega)]
    exact congrArg Except.ok (by omega)
  · right
    rw [Size.add_eq_error hfit]
    exact ⟨rfl, hfit⟩

/-- The memory with an array at word `i` whose elements are all the word `w`. -/
def Memory.withFilledArray (m : Memory) (i : Nat) (length w : Word) : Memory :=
  (m.withHeader i .array length).withFill (i + 2) length.toNat w

theorem Memory.word_withFilledArray {m : Memory} {i : Nat} {length : Word}
    (hin : i + (2 + length.toNat) ≤ m.words.size) (w : Word) :
    (m.withFilledArray i length w).word i = Kind.array.header ∧
      (m.withFilledArray i length w).word (i + 1) = length ∧
      ∀ j < length.toNat, (m.withFilledArray i length w).word (i + (2 + j)) = w := by
  obtain ⟨h0, h1⟩ := word_withHeader (m := m) (i := i) .array length (by omega)
  have hfill := word_withFill (m := m.withHeader i .array length) (i := i + 2)
    (n := length.toNat) (by rw [size_withHeader]; omega) w
  refine ⟨?_, ?_, fun j hj => ?_⟩
  · rw [withFilledArray, hfill, if_neg (by omega), h0]
  · rw [withFilledArray, hfill, if_neg (by omega), h1]
  · rw [withFilledArray, hfill, if_pos (by omega)]

namespace Heap

/-- An array of `n` elements, each of them `v`. -/
structure IsFilled (h : Heap) (r : Reference) (n : Nat) (v : Value) : Prop where
  arraySize : h.memory.arraySize r = .ok n
  arrayGet : ∀ i < n, h.memory.arrayGet r i = .ok v

theorem WellFormed.allocArray {h : Heap} (hw : h.WellFormed) (size : Nat) :
    Ends (h.allocArray size)
      (fun x => ∃ bytes f s r n k length,
        x = (r, { k with memory := k.memory.withHeader r.index .array length }) ∧
        h.Grant bytes f s r n k ∧ n = 2 + length.toNat ∧
        length.toNat = size % 0x4000000000000000)
      (fun e => h.Refuses (8 + 4 * (size % 0x4000000000000000)) e ∨
        e = .overflow ∧ 0x10000000000000000 ≤ 8 + 4 * (size % 0x4000000000000000)) := by
  unfold Heap.allocArray
  rcases Kind.array_size_cases size with hbytes | ⟨hbytes, hlarge⟩
  · rw [hbytes, ok_bind]
    refine ((hw.alloc_grant _).mono (fun _ hx => hx) fun _ he => .inl he).bind ?_
    rintro ⟨_, k⟩ ⟨f, s, r, n, rfl, hg⟩
    have hlt := hg.size_lt
    have hround := hg.bytes
    have hinside := hg.inside
    have hlength : (UInt32.ofNat size).toNat = size % 0x4000000000000000 := by
      rw [UInt32.toNat_ofNat']
      omega
    rw [Size.objectBytes_eq (by omega)] at hround
    dsimp only
    rw [writeArray_eq hg.added.paged.size_le (by omega)]
    exact ⟨_, f, s, r, n, k, _, rfl, hg, by omega, hlength⟩
  · rw [hbytes]
    exact .inr ⟨rfl, hlarge⟩

/-- A size below the number of words in memory is not cut. -/
theorem WellFormed.allocArray_uncut {h : Heap} (hw : h.WellFormed) {size : Nat}
    (hsize : size < 0x40000000) :
    Ends (h.allocArray size)
      (fun x => ∃ bytes f s r n k length,
        x = (r, { k with memory := k.memory.withHeader r.index .array length }) ∧
        h.Grant bytes f s r n k ∧ n = 2 + length.toNat ∧ length.toNat = size)
      (h.RunsOut 0 1 (8 + 4 * size)) := by
  have hmod : size % 0x4000000000000000 = size := Nat.mod_eq_of_lt (by omega)
  have halloc := hw.allocArray size
  rw [hmod] at halloc
  apply halloc.mono
  · exact fun _ hx => hx
  · rintro e (he | ⟨-, hlarge⟩)
    · refine he.runsOut ?_ (Nat.le_refl _)
      rw [Size.objectBytes_eq (by omega)]
      omega
    · omega

theorem Written.withFilledArray (h : Heap) (r : Reference) (length w : Word)
    (hin : r.index + (2 + length.toNat) ≤ h.memory.words.size) :
    h.Written r (2 + length.toNat) (h.memory.withFilledArray r.index length w) where
  size := by rw [Memory.withFilledArray, Memory.size_withFill, Memory.size_withHeader]
  maxPages := rfl
  outside := by
    intro i hi
    rw [Memory.withFilledArray, Memory.word_withFill (by rw [Memory.size_withHeader]; omega),
      if_neg (by omega), Memory.word_withHeader_ne _ _ (by omega) (by omega)]

/-- The array fills the block that has been granted for it. -/
theorem Grant.filled {h s k : Heap} {bytes n : Nat} {f : Reference → Reference} {r : Reference}
    {length w : Word} (hg : h.Grant bytes f s r n k) (hn : n = 2 + length.toNat) {m : Memory}
    (hm : m = k.memory.withFilledArray r.index length w) :
    k.Written r n m ∧ Last { k with memory := m } r .array (8 + 4 * length.toNat) ∧
      IsFilled { k with memory := m } r length.toNat (Value.decode w) := by
  subst hn
  obtain ⟨h0, h1, helements⟩ := Memory.word_withFilledArray hg.inside w
  have hwritten : k.Written r (2 + length.toNat) m := hm ▸ .withFilledArray k r length w hg.inside
  rw [← hm] at h0 h1 helements
  have hcount : m.wordCount r.index = 2 + length.toNat := by
    rw [Memory.wordCount_eq h0, h1]
    rfl
  obtain ⟨hlies, hlast⟩ := hg.last hwritten h0 hcount
  refine ⟨hwritten, ?_, ?_, fun i hi => ?_⟩
  · have hbytes : 8 + 4 * length.toNat = 4 * (2 + length.toNat) := by omega
    rw [hbytes]
    exact hlast
  · rw [← h1]
    exact hlies.arraySize_eq
  · rw [← helements i hi]
    exact hlies.arrayGet_eq (by rwa [h1])

/-- The steps that follow the allocation. -/
theorem Grant.newFilledArray_eq {h p s k : Heap} {bytes n size : Nat} {f : Reference → Reference}
    {r : Reference} {v : Value} {w length : Word} {slot : RootSlot} (hh : h.WellFormed)
    (hp : h.Stacked [v] [slot] p) (hg : p.Grant bytes f s r n k) (hv : h.Accepts v)
    (hw : v.encode = .ok w) (hpush : h.pushRoot v = .ok (slot, p))
    (halloc : p.allocArray size =
      .ok (r, { k with memory := k.memory.withHeader r.index .array length }))
    (hn : n = 2 + length.toNat) (hlength : length.toNat = size % 0x4000000000000000) :
    h.newFilledArray size v = .ok (r, { k with
      memory := k.memory.withFilledArray r.index length (h.renamed f w)
      stack := h.stack }) := by
  have hinside := hg.inside
  have hsmall := hg.added.paged.size_le
  have hr := hh.toRegular
  have hheader := Written.withHeader k r (n := n) (by omega) .array length
  have hroot := hp.granted_value hr hg hheader hv
  have hframe := hp.leaveFrame_eq (l := { k with memory := k.memory.withHeader r.index .array length })
    hh hg.stack_eq
  have hfirst := Memory.elementAddress_eq (r := r) (n := 0) (by omega)
  have hwords : Size.ofWords size = 4 * length.toNat := by rw [Size.ofWords_mod, hlength]
  have hfill := fillElements_eq (r := r)
    (h := { k with memory := k.memory.withHeader r.index .array length, stack := h.stack })
    (by rw [Memory.size_withHeader]; exact hsmall) hwords
    (by rw [Memory.size_withHeader]; omega) (h.renamed f w)
  unfold Heap.newFilledArray
  rw [hpush, ok_bind]
  dsimp only
  rw [halloc, ok_bind]
  dsimp only
  rw [hroot, ok_bind, hframe, ok_bind, hfirst, ok_bind, hr.encode_relocated hw f, ok_bind,
    Nat.add_zero, hfill, ok_bind]
  rfl

/-- Making an array of `size` elements ends with the array, which is the last object and new, as long as
`size` without its two upper bits, and holds the value everywhere, at the place to which its object has
gone. Otherwise memory, the stack or a counter gives out; that does not happen where there is room. -/
theorem WellFormed.newFilledArray_contract {h : Heap} (hw : h.WellFormed) (size : Nat) {v : Value}
    (hv : h.Accepts v) :
    (∃ r k f, h.newFilledArray size v = .ok (r, k) ∧
      k.Last r .array (8 + 4 * (size % 0x4000000000000000)) ∧
      k.IsFilled r (size % 0x4000000000000000) (h.relocated f v) ∧
      h.Relocates [v] f k ∧ ∀ x, h.ReachableWith [v] x → f x ≠ r) ∨
    ∃ e, h.newFilledArray size v = .error e ∧ (e = .overflow ∨ ∃ cause, e = .outOfMemory cause) ∧
      ¬ (h.stack.limit.toNat + 4 ≤ h.stack.sp.toNat ∧
        h.Affords (8 + 4 * (size % 0x4000000000000000))) := by
  have hr := hw.toRegular
  obtain ⟨w, hencode, -⟩ := Value.exists_encode hv.fits
  rcases (hw.pushRoot hv.fits).cases with ⟨⟨slot, p⟩, hpush, hp, hsp⟩ | ⟨e, hpush, he, hfull⟩
  · rcases ((hp.wellFormed hw).allocArray size).cases with
      ⟨_, halloc, bytes, f, s, r, n, k, length, rfl, hg, hn, hlength⟩ | ⟨e, halloc, he⟩
    · left
      obtain ⟨hwritten, hlast, hfilled⟩ := hg.filled (w := h.renamed f w) hn rfl
      rw [(Value.encode_eq_ok_iff.mp (hr.encode_relocated hencode f)).1] at hfilled
      rw [← hlength]
      obtain ⟨hrestores, hfresh⟩ := hp.made hr hg hwritten
      refine ⟨r, _, f, hg.newFilledArray_eq hw hp hv hencode hpush halloc hn hlength, ?_, ?_, ?_, ?_⟩
      · exact ⟨hlast.initialised, hlast.kind, hlast.objectSize, hlast.stop⟩
      · exact ⟨hfilled.arraySize, hfilled.arrayGet⟩
      · exact hrestores.toRelocates
      · exact hfresh
    · right
      unfold Heap.newFilledArray
      rw [hpush, ok_bind]
      dsimp only
      rw [halloc]
      refine ⟨e, rfl, ?_, fun hroom => ?_⟩
      · rcases he with ⟨hcause | ⟨rfl, -⟩, -⟩ | ⟨rfl, -⟩
        · exact .inr hcause
        · exact .inl rfl
        · exact .inl rfl
      · have hsize := hroom.2.size_lt
        rcases he with he | ⟨-, hlarge⟩
        · exact he.short (hp.affords hroom.2)
        · omega
  · right
    unfold Heap.newFilledArray
    rw [hpush]
    exact ⟨e, rfl, .inr he, fun hroom => absurd hroom.1 (by omega)⟩

theorem accepts_int (h : Heap) {n : Int32} (hn : (Value.int n).Fits) : h.Accepts (.int n) where
  fits := hn
  target := fun _ htarget => nomatch htarget

/-- More elements are asked for than memory has bytes, and one is made. -/
theorem newFilledArray_looped : looped.WellFormed ∧ looped.Accepts (.int 7) ∧
    ∃ r k, looped.newFilledArray 0x4000000000000001 (.int 7) = .ok (r, k) ∧
      k.Last r .array 12 ∧ k.IsFilled r 1 (.int 7) ∧ k.stack = looped.stack := by
  have haccepts : looped.Accepts (.int 7) := looped.accepts_int (Value.fitsInt_iff.mp (by decide))
  have hbytes : 8 + 4 * (0x4000000000000001 % 0x4000000000000000) = 12 := by decide
  have hsize : 0x4000000000000001 % 0x4000000000000000 = 1 := by decide
  have haffords : looped.Affords 12 :=
    { size_lt := by decide
      room := hasRoom_looped (by decide)
      ample := ample_looped (by decide) }
  refine ⟨wellFormed_looped, haccepts, ?_⟩
  rcases WellFormed.newFilledArray_contract wellFormed_looped 0x4000000000000001 haccepts with
    ⟨r, k, f, hk, hlast, hfilled, hmoved, -⟩ | ⟨e, -, -, hno⟩
  · rw [hbytes] at hlast
    rw [hsize] at hfilled
    exact ⟨r, k, hk, hlast, hfilled, hmoved.stack⟩
  · rw [hbytes] at hno
    exact absurd ⟨by decide, haffords⟩ hno

end Heap

end CopyingHeap
