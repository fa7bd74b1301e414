import CopyingHeap.Proofs.Heap.Twin
import CopyingHeap.Proofs.Memory.Growth

/-!
The heaps that a program starts from. Whatever memory one is built on, it is sound, with an empty stack
and no block; two of them with one static segment and one stack cannot be told apart.
-/

namespace CopyingHeap

/-- A stack below an aligned base. Its limit is rounded up to a word, and of its size the low 32 bits
count. -/
theorem ShadowStack.below_eq_ok {base : Address} (hbase : base.WordAligned) (bytes : Nat) :
    ∃ limit, below base bytes = .ok ⟨base, limit, base⟩ ∧
      limit.toNat = (max (base.toNat - bytes % 0x100000000) 8 + 3) / 4 * 4 := by
  rw [below, if_pos hbase]
  refine ⟨_, rfl, ?_⟩
  have hlt := base.toNat_lt
  unfold Address.WordAligned at hbase
  rw [Size.wordBytes, Address.toNat_alignUp_four, Address.toNat_max, base.toNat_saturatingSub,
    Address.toNat_ofNat, Size.reservedBytes]
  omega

theorem ShadowStack.below_spec {base top : Address} (hbase : base.WordAligned)
    (hle : base ≤ top) (htop : Size.reservedBytes ≤ top.toNat) (bytes : Nat) :
    ∃ limit, below base bytes = .ok ⟨base, limit, base⟩ ∧ Size.reservedBytes ≤ limit.toNat ∧
      limit ≤ top := by
  obtain ⟨limit, hbelow, hlimit⟩ := below_eq_ok hbase bytes
  refine ⟨limit, hbelow, ?_⟩
  unfold Address.WordAligned at hbase
  rw [Address.le_iff] at hle ⊢
  unfold Size.reservedBytes at *
  omega

theorem Semispaces.split_spec {base : Address} {extent : Nat} (hwords : extent % 4 = 0)
    (hfit : base.toNat + 2 * extent < 0x100000000) (hbase : base.WordAligned)
    (hreserved : Size.reservedBytes ≤ base.toNat) :
    ∃ s, split base extent = .ok s ∧ s.base = base ∧ s.active.start = base ∧
      s.active.extent = extent ∧ (∀ a, s.bits.isSet a = false) ∧
      ∀ m : Memory, base.toNat + 2 * extent ≤ 4 * m.words.size → s.Placed m := by
  obtain ⟨middle, hmiddle, hmiddleNat⟩ := Address.exists_add (a := base) (n := extent) (by omega)
  obtain ⟨stop, hstop, hstopNat⟩ := Address.exists_add (a := middle) (n := extent) (by omega)
  have htotal : middle.toNat + extent = base.toNat + 2 * extent := by omega
  rw [htotal] at hstopNat
  obtain ⟨bits, hbits, hcovers, -, hset⟩ :=
    (⟨#[]⟩ : StartBits).ensureCovers_spec (n := base.toNat + 2 * extent) hfit
  refine ⟨⟨⟨"copyspace0", base, extent, false⟩, ⟨"copyspace1", middle, extent, true⟩, base, bits⟩,
    ?_, rfl, rfl, rfl, fun a => (hset a).trans (StartBits.isSet_empty a), fun m hm => ?_⟩
  · rw [split, Size.wordBytes, if_pos hwords, hmiddle, ok_bind, hstop, ok_bind, hstopNat,
      StartBits.covering, hbits]
    rfl
  · unfold Address.WordAligned at hbase
    unfold StartBits.Covers at hcovers
    refine
      { active_aligned := hbase
        scratch_aligned := ?_
        extent_words := hwords
        extent_eq := rfl
        reserved := hreserved
        base_le_active := Nat.le_refl _
        base_le_scratch := ?_
        active_inside := ?_
        scratch_inside := ?_
        active_covered := ?_
        scratch_covered := ?_
        disjoint := .inl hmiddleNat.ge }
    · unfold Address.WordAligned
      dsimp only
      omega
    · rw [Address.le_iff]
      dsimp only
      omega
    · dsimp only
      omega
    · dsimp only
      omega
    · unfold StartBits.Covers
      dsimp only
      omega
    · unfold StartBits.Covers
      dsimp only
      omega

namespace Heap

/-- What a heap that has just been built looks like. -/
structure Built (options : Options) (m : Memory) (stackBase heapBase : Address) (h : Heap) : Prop where
  layout : h.Layout
  base : h.spaces.base = heapBase
  base_aligned : heapBase.WordAligned
  stack : ∃ limit, ShadowStack.below stackBase options.stackSize = .ok h.stack ∧
    h.stack = ⟨stackBase, limit, stackBase⟩ ∧ Size.reservedBytes ≤ limit.toNat ∧ limit ≤ heapBase
  empty : h.spaces.active.start = h.bump.cursor
  isSet : ∀ a, h.spaces.bits.isSet a = false
  word : ∀ i, h.memory.word i = m.word i
  statistics : h.statistics = Statistics.initial

theorem build_eq {options : Options} {m : Memory} {stackBase heapBase : Address} {bytes : Nat}
    (haligned : stackBase.WordAligned ∧ heapBase.WordAligned) (hle : stackBase ≤ heapBase)
    (hreserved : Size.reservedBytes ≤ heapBase.toNat) :
    build options m stackBase heapBase bytes =
      match heapBase.add? (2 * Size.alignDown (bytes / 2) Size.wordBytes) with
      | none => .error (.outOfMemory (.heapExhausted bytes))
      | some heapStop =>
        (m.limitPages options.maxMemoryPages).ensure heapStop >>= fun x =>
          match x with
          | .error refusal => .error (.outOfMemory (.growFailed refusal))
          | .ok m =>
            Semispaces.split heapBase (Size.alignDown (bytes / 2) Size.wordBytes) >>= fun spaces =>
              spaces.active.stop >>= fun stop =>
                Bump.spanning spaces.active.start stop >>= fun bump =>
                  ShadowStack.below stackBase options.stackSize >>= fun stack =>
                    .ok ⟨m, stack, spaces, bump, options, Statistics.initial, 0⟩ := by
  have hlt : ¬ heapBase < stackBase := by
    rw [Address.le_iff] at hle
    rw [Address.lt_iff]
    omega
  rw [build, if_neg (not_not.mpr haligned), if_neg hlt, if_neg (Nat.not_lt.mpr hreserved)]
  rfl

/-- A heap is built unless the memory has no room for it and cannot grow. -/
theorem build_spec {options : Options} {m : Memory} {stackBase heapBase : Address} {bytes : Nat}
    (hm : m.Paged) (haligned : stackBase.WordAligned ∧ heapBase.WordAligned)
    (hle : stackBase ≤ heapBase) (hreserved : Size.reservedBytes ≤ heapBase.toNat) :
    Ends (build options m stackBase heapBase bytes) (Built options m stackBase heapBase)
      fun _ => 4 * m.words.size < heapBase.toNat + bytes := by
  rw [build_eq haligned hle hreserved]
  have hextent := Size.alignDown_le (bytes / 2) Size.wordBytes
  have hwords : Size.alignDown (bytes / 2) Size.wordBytes % 4 = 0 := Size.alignDown_mod_four _
  generalize Size.alignDown (bytes / 2) Size.wordBytes = extent at hextent hwords
  have hsize := hm.size_le
  have hlt' := heapBase.toNat_lt
  cases hstop : heapBase.add? (2 * extent) with
  | none =>
    rw [Address.add?_eq_none_iff] at hstop
    change 4 * m.words.size < heapBase.toNat + bytes
    omega
  | some heapStop =>
    dsimp only
    rw [Address.add?_eq_some_iff] at hstop
    have hlt := heapStop.toNat_lt
    rcases (hm.limitPages options.maxMemoryPages).ensure heapStop with
      ⟨refusal, he, hshort⟩ | ⟨n, he, hn, hend, -, hword⟩
    · rw [he]
      change 4 * m.words.size < heapStop.toNat at hshort
      change 4 * m.words.size < heapBase.toNat + bytes
      omega
    · obtain ⟨hbaseAligned, hheapAligned⟩ := haligned
      have hfit : heapBase.toNat + 2 * extent < 0x100000000 := by omega
      obtain ⟨spaces, hsplit, hbase, hstart, hextent, hset, hplaced⟩ :=
        Semispaces.split_spec hwords hfit hheapAligned hreserved
      have hplaced := hplaced n (by omega)
      obtain ⟨limit, hbelow, hlow, hhigh⟩ :=
        ShadowStack.below_spec hbaseAligned hle hreserved options.stackSize
      obtain ⟨past, hpast, hpastNat⟩ : ∃ past, spaces.active.stop = .ok past ∧
          past.toNat = heapBase.toNat + extent := by
        rw [Space.stop, hstart, hextent]
        exact Address.exists_add (by omega)
      have hcursor : heapBase ≤ past := by
        rw [Address.le_iff]
        omega
      rw [he, ok_bind]
      dsimp only
      rw [hsplit, ok_bind, hpast, ok_bind, hstart, Bump.spanning_eq_ok_iff.mpr ⟨hcursor, rfl⟩,
        ok_bind, hbelow, ok_bind]
      exact
        { layout :=
            { paged := hn
              spaces := hplaced
              stack := ⟨hbaseAligned, hbaseAligned, Nat.le_refl _, hbase ▸ hle, .inr rfl⟩
              limit := hpastNat.trans (by dsimp only; rw [hstart, hextent])
              cursor_aligned := hheapAligned
              start_le := hstart ▸ Nat.le_refl _
              cursor_le := hcursor }
          base := hbase
          base_aligned := hheapAligned
          stack := ⟨limit, hbelow, rfl, hlow, hhigh⟩
          empty := hstart
          isSet := hset
          word := hword
          statistics := rfl }

theorem built_of_build {options : Options} {m : Memory} {stackBase heapBase : Address} {bytes : Nat}
    {h : Heap} (hm : m.Paged) (hb : build options m stackBase heapBase bytes = .ok h) :
    h.Built options m stackBase heapBase := by
  by_cases haligned : stackBase.WordAligned ∧ heapBase.WordAligned
  swap
  · rw [build, if_pos haligned] at hb
    nomatch hb
  by_cases hlt : heapBase < stackBase
  · rw [build, if_neg (not_not.mpr haligned), if_pos hlt] at hb
    nomatch hb
  by_cases hreserved : heapBase.toNat < Size.reservedBytes
  · rw [build, if_neg (not_not.mpr haligned), if_neg hlt, if_pos hreserved] at hb
    nomatch hb
  have hle : stackBase ≤ heapBase := by
    rw [Address.le_iff]
    rw [Address.lt_iff] at hlt
    omega
  exact (build_spec hm haligned hle (Nat.not_lt.mp hreserved)).of_ok hb

namespace Built

variable {options : Options} {m : Memory} {stackBase heapBase : Address} {h : Heap}
  (hb : h.Built options m stackBase heapBase)

include hb

theorem tiled : h.Tiled [] where
  tiles := congrArg (fun a : Address => a.toNat / 4) hb.empty
  nonempty := fun x hx => nomatch hx
  starts := fun a => by simp [hb.isSet a]
  filled := fun x hx => nomatch hx

theorem not_initialised (r : Reference) : ¬ h.Initialised r := by
  rw [hb.tiled.initialised_iff hb.layout, hb.isSet]
  rintro ⟨hset, -⟩
  nomatch hset

/-- A heap is sound from the start, unless there is an object at null. -/
theorem sound (hraw : Kind.ofHeader? (m.word Reference.null.index) = none) : h.Sound := by
  obtain ⟨limit, -, hstack, hlow, hhigh⟩ := hb.stack
  exact
    { hb.layout with
      base_aligned := hb.base ▸ hb.base_aligned
      reserved := by rwa [hstack]
      limit_le := by rwa [hstack, hb.base]
      null_raw := by rwa [hb.word]
      tiled := ⟨[], hb.tiled⟩
      slots := fun r hr => absurd hr (hb.not_initialised r)
      roots := fun i h1 h2 => by
        rw [hstack] at h1 h2
        dsimp only at h1 h2
        omega }

end Built

/-- Two heaps with one static segment and one stack start as twins. -/
theorem Built.twin {options options' : Options} {m m' : Memory} {stackBase heapBase heapBase' : Address}
    {h h' : Heap} (hb : h.Built options m stackBase heapBase)
    (hb' : h'.Built options' m' stackBase heapBase') (hsize : options'.stackSize = options.stackSize)
    (hraw : Kind.ofHeader? (m.word Reference.null.index) = none)
    (hstatic : ∀ i, 4 * i < h.stack.limit.toNat → m'.word i = m.word i) :
    Twin (fun _ _ => False) h h' := by
  have hs := hb.sound hraw
  have hstack : h'.stack = h.stack := by
    obtain ⟨-, hbelow, -⟩ := hb.stack
    obtain ⟨-, hbelow', -⟩ := hb'.stack
    rw [hsize, hbelow, Except.ok.injEq] at hbelow'
    exact hbelow'.symm
  have hraw' : Kind.ofHeader? (m'.word Reference.null.index) = none := by
    have hreserved := hs.reserved
    rwa [hstatic _ (Nat.lt_of_lt_of_le (by decide) hreserved)]
  exact
    { left := hs
      right := hb'.sound hraw'
      stack := hstack
      static := fun i hi => by rw [hb.word, hb'.word, hstatic i hi]
      initialised := fun _ _ hp => hp.elim
      functional := fun _ _ _ hp => hp.elim
      injective := fun _ _ _ hp => hp.elim
      slots := fun _ _ hp => hp.elim
      payload := fun _ _ hp => hp.elim
      roots := fun i h1 h2 => by
        obtain ⟨limit, -, hstack, -, -⟩ := hb.stack
        rw [hstack] at h1 h2
        dsimp only at h1 h2
        omega }

/-- One page of zeros, which cannot grow. -/
def blank : Memory :=
  ⟨Array.replicate 0x4000 0, 1⟩

theorem size_blank : blank.words.size = 0x4000 :=
  Array.size_replicate

theorem paged_blank : blank.Paged :=
  ⟨⟨1, size_blank, by decide⟩, by decide⟩

theorem word_blank (i : Nat) : blank.word i = 0 := by
  unfold Memory.word blank
  rw [Array.getD_eq_getD_getElem?, Array.getElem?_replicate]
  split <;> rfl

theorem raw_blank : Kind.ofHeader? (blank.word Reference.null.index) = none := by
  rw [word_blank]
  rfl

/-- The same page, but at null there is the header of an array of a thousand elements. Writing to the
elements of null then is writing anywhere below address 4008, whatever lies there. -/
def headed : Memory :=
  (blank.withWord 0 Kind.array.header).withWord 1 1000

theorem paged_headed : headed.Paged :=
  ⟨⟨1, by simp [headed, size_blank], by decide⟩, by decide⟩

theorem exists_build_blank (options : Options) {stackBase heapBase : Address} {bytes : Nat}
    (haligned : stackBase.WordAligned ∧ heapBase.WordAligned) (hle : stackBase ≤ heapBase)
    (hreserved : Size.reservedBytes ≤ heapBase.toNat) (hfit : heapBase.toNat + bytes ≤ 0x10000) :
    ∃ h, build options blank stackBase heapBase bytes = .ok h := by
  have hspec : Ends (build options blank stackBase heapBase bytes) _ _ :=
    build_spec paged_blank haligned hle hreserved
  obtain ⟨h, hb, -⟩ := hspec.exists_ok fun f hf => by
    rw [size_blank] at hf
    omega
  exact ⟨h, hb⟩

end Heap

end CopyingHeap
