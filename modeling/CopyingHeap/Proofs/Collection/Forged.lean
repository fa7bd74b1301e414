import CopyingHeap.Proofs.Collection.Marked

/-!
What a collection does to the address of a raw block on the stack. It leaves everything as it would with
null in that place, and the address too. But a raw block that looks forwarded to the copy of which a lower
word of the stack holds the address by then is taken for the object that has been copied there.
-/

namespace CopyingHeap

/-- Every counter has room for more than a collection adds to it. -/
structure Statistics.Roomy (s : Statistics) : Prop where
  copies : ∀ k, s.objectsCopied.get k + 0x100000000 < Size.bound ∧
    s.bytesCopied.get k + 0x100000000 < Size.bound
  collections : s.collections + 1 < Size.bound
  roots : s.rootsTraced + 0x100000000 < Size.bound

namespace Heap

/-- A counter has overflowed. -/
def Overfull (h : Heap) (f : Fault) : Prop :=
  f = .overflow ∧ ¬ h.statistics.Roomy

/-- The words of the stack that deceive a collection of `h`, when the cleared heap becomes `k`. -/
noncomputable def deceived (h k : Heap) : Nat :=
  h.deceptions k.memory (h.stack.sp.toNat / 4)
    (h.stack.base.toNat / 4 - h.stack.sp.toNat / 4)

/-- What a collection of `h` leaves in the masked words, when the cleared heap becomes `k`. -/
noncomputable def residue (h k : Heap) (i : Nat) : Word :=
  if h.options.zeroOnRelease = true ∧ h.InSource i then 0
  else h.shown k.memory (h.stack.base.toNat / 4) i

/-- What a collection of `h` leaves, with `n` in memory, when the cleared heap becomes `k`. -/
noncomputable def unveiled (h k : Heap) (n : Memory) : Heap :=
  { k with
    memory := n
    statistics := { k.statistics with rootsTraced := k.statistics.rootsTraced + h.deceived k } }

namespace Loose

variable {h : Heap} (hl : h.Loose)

include hl

theorem rooted {stop : Address}
    (hstop : stop.toNat = h.spaces.scratch.start.toNat + h.spaces.active.extent) :
    h.Rooted [] (h.stack.sp.toNat / 4) h.target
      ⟨⟨h.spaces.scratch.start, stop⟩, h.spaces.bits, h.statistics⟩ h.memory h.cleared.memory where
  evacuated := hl.regular_cleared.evacuated hstop
  veiled := h.veiled_cleared.congr fun i _ => shown_of_not_deceives fun b hi hd => by
    have hsp := hd.onStack.1
    omega
  direct := fun _ hp => absurd hp List.not_mem_nil

theorem counterFault_cleared {f : Fault} (hf : h.cleared.CounterFault f) : h.Overfull f := by
  refine ⟨hf.1, fun hroomy => hf.2 ?_⟩
  exact hl.regular_cleared.countersFit hroomy.copies hroomy.collections hroomy.roots

/-- After the roots, the copies are traced alike, and the stack stays as it is. -/
theorem close {moves : List (Reference × Reference)} {e : Evacuation} {n m : Memory}
    (ht : h.Rooted moves (h.stack.base.toNat / 4) h.target e n m) :
    InStep (fun x y => Alongside h.Masked (h.shown m (h.stack.base.toNat / 4)) x y ∧
        (∃ more, h.cleared.Evacuated (moves ++ more) (h.stack.base.toNat / 4)
          (y.1.bump.cursor.toNat / 4) y.1 y.2) ∧
        ∀ j < h.stack.base.toNat / 4, h.OnStack j → y.2.word j = m.word j)
      (Evacuation.close h.source e n h.spaces.scratch.start)
      (Evacuation.close h.source e m h.spaces.scratch.start) := by
  have hr := hl.regular_cleared
  have hposition := hl.scratch_start
  have hclose := ht.evacuated.close_veiled hr hl.spares ht.veiled (List.nil_append moves).symm rfl
    hposition
  refine (hclose.and_ends (ht.evacuated.close hr (List.nil_append moves).symm rfl hposition)).mono ?_
  rintro x y ⟨hxy, more, he⟩
  exact ⟨hxy, ⟨more, he⟩, fun j hj hon =>
    ht.evacuated.word_traced hr he (Nat.le_refl _) hon.1 hon.2 hj⟩

omit hl in
/-- Counters that cannot hold so many roots did not have enough room. -/
theorem not_roomy {moves : List (Reference × Reference)} {slot scan roots : Nat} {e : Evacuation}
    {m : Memory} (he : h.cleared.Evacuated moves slot scan e m) (hroots : roots ≤ 0x100000000)
    (hfull : Size.bound ≤ e.statistics.collections + 1 ∨
      Size.bound ≤ e.statistics.rootsTraced + roots) : ¬ h.statistics.Roomy := by
  intro hroomy
  have hcollections : e.statistics.collections = h.statistics.collections :=
    (congrArg Statistics.collections he.statistics :)
  have hrootsTraced : e.statistics.rootsTraced = h.statistics.rootsTraced :=
    (congrArg Statistics.rootsTraced he.statistics :)
  have h1 := hroomy.collections
  have h2 := hroomy.roots
  omega

/-- What a collection of the cleared heap is known to do says what one of the heap does. -/
theorem collect_of_cleared {Q : Heap → Prop} {G : Fault → Prop} (hQ : Ends h.cleared.collect Q G) :
    Ends h.collect (fun h' => ∃ k n, Q k ∧ n.Veiled h.Masked (h.residue k) k.memory ∧
      h' = h.unveiled k n) fun f => G f ∨ h.Overfull f := by
  have hr := hl.regular_cleared
  obtain ⟨stop, hstop⟩ := hl.exists_stop
  have hstack := hl.stack_bounds
  have hlimit := h.stack.base.toNat_lt
  obtain ⟨count, hcount⟩ : ∃ count, h.stack.base.toNat / 4 - h.stack.sp.toNat / 4 = count := ⟨_, rfl⟩
  have hwhole : h.stack.sp.toNat / 4 + count = h.stack.base.toNat / 4 := by omega
  have hsteps : h.collect = _ := hl.toLayout.collect_eq hstop h.memory
  have hsteps' : h.cleared.collect = _ := hl.toLayout.collect_eq hstop h.cleared.memory
  rw [hsteps', hcount] at hQ
  rw [hsteps, hcount]
  -- The roots.
  have hfirst : h.stack.sp.toNat ≤ 4 * (h.stack.sp.toNat / 4) := by omega
  have hlast : 4 * (h.stack.sp.toNat / 4 + count) ≤ h.stack.base.toNat := by omega
  refine (((hl.rooted hstop).traceRoots hl 0 0 hfirst hlast).and_ends
    ((hr.evacuated hstop).traceRoots hr 0 hfirst hlast)).ends hQ ?_ fun f => .inl
  rintro ⟨found, e, n⟩ ⟨found', e', m⟩ ⟨⟨hfound, hstate, moves, ht⟩, hroots, -⟩ hQ
  have hle : found' ≤ count :=
    (hroots.trans (Nat.zero_add _)).le.trans (List.countP_le_length.trans (List.length_range' ..).le)
  rw [List.nil_append, hwhole] at ht
  dsimp only at hfound hstate hQ ⊢
  subst hstate
  -- The copies.
  refine (hl.close ht).ends hQ ?_ fun f => .inl
  rintro ⟨e, n₁⟩ ⟨e', m₁⟩ ⟨⟨hstate, hv⟩, ⟨more, he⟩, hsame⟩ hQ
  dsimp only at hstate hv he hsame hQ ⊢
  subst hstate
  -- The emptied space.
  obtain ⟨n', m', bits, hrelease', hrelease, hword, hv'⟩ :=
    hl.release_veiled hv (he.size.trans h.size_cleared) he.cells h.options.zeroOnRelease
  have hkept (j : Nat) (hj : j < h.stack.base.toNat / 4) (hon : h.OnStack j) :
      m'.word j = m.word j := by
    rw [hword, if_neg, hsame j hj hon]
    rintro ⟨-, hin⟩
    unfold InSource at hin
    omega
  have hlive : e.bump.cursor.diff h.spaces.scratch.start = .ok _ :=
    Address.diff_eq_ok_iff.mpr (he.cursor_eq hr)
  rw [hrelease, ok_bind, hlive, ok_bind] at hQ
  rw [hrelease', ok_bind, hlive, ok_bind]
  -- The counters.
  have hextra : found = found' + h.deceptions m' (h.stack.sp.toNat / 4) count := by
    rw [hfound, Nat.zero_add, deceptions_congr fun j hj => hkept j (by omega)]
  have hmore : h.deceptions m' (h.stack.sp.toNat / 4) count ≤ count := deceptions_le count
  rcases Statistics.recordCollection_add e.statistics found'
    (h.deceptions m' (h.stack.sp.toNat / 4) count) _ with ⟨t, hrecord, hrecord'⟩ | ⟨hrecord', hfull⟩
  · rw [hrecord, ok_bind] at hQ
    rw [hextra, hrecord', ok_bind]
    cases hbump : Bump.spanning e.bump.cursor stop with
    | error f =>
      rw [hbump] at hQ
      exact .inl hQ
    | ok bump =>
      rw [hbump] at hQ
      refine ⟨_, n', hQ, hv'.congr fun i _ => ?_, ?_⟩
      · rw [residue, shown_congr hkept]
      · rw [unveiled, deceived, hcount]
  · rw [hextra, hrecord']
    exact .inr ⟨rfl, not_roomy he (by omega) hfull⟩

/-- A collection ends well unless a counter overflows, and leaves the cleared heap but for the masked
words. -/
theorem collect : Ends h.collect (fun h' => ∃ k n, h.cleared.collect = .ok k ∧
    k.memory.words.size = h.memory.words.size ∧ n.Veiled h.Masked (h.residue k) k.memory ∧
    h' = h.unveiled k n) h.Overfull := by
  refine (hl.collect_of_cleared hl.regular_cleared.collect.with_eq).mono ?_ fun f hf =>
    hf.elim hl.counterFault_cleared id
  rintro h' ⟨k, n, ⟨⟨moves, hc⟩, hdone⟩, hn, rfl⟩
  exact ⟨k, n, hdone, hc.size.trans h.size_cleared, hn, rfl⟩

theorem of_collect {h' : Heap} (hc : h.collect = .ok h') : ∃ k n, h.cleared.collect = .ok k ∧
    k.memory.words.size = h.memory.words.size ∧ n.Veiled h.Masked (h.residue k) k.memory ∧
    h' = h.unveiled k n :=
  hl.collect.of_ok hc

end Loose

/-- The heap with null in word `s`. -/
def nulled (h : Heap) (s : Nat) : Heap :=
  { h with memory := h.memory.withWord s 0 }

/-- The heap with another word at `s`, and with more roots counted. -/
def withRoot (h : Heap) (s : Nat) (w : Word) (roots : Nat) : Heap :=
  { h with
    memory := h.memory.withWord s w
    statistics := { h.statistics with rootsTraced := h.statistics.rootsTraced + roots } }

namespace Loose

variable {h : Heap} (hl : h.Loose) {s : Nat} (hs : h.OnStack s) {i : Nat} {b c r : Reference}

include hl hs

theorem word_nulled (i : Nat) : (h.nulled s).memory.word i = if i = s then 0 else h.memory.word i :=
  Memory.word_withWord (hl.stack_inside hs.2) 0 i

theorem word_block_nulled (hset : h.spaces.bits.isSet r.address = true) (j : Nat) :
    (h.nulled s).memory.word (r.index + j) = h.memory.word (r.index + j) := by
  rw [hl.word_nulled hs, if_neg]
  rintro rfl
  exact hl.off_stack hset j hs

theorem parcelled_nulled {blocks : List AddressRange} (hb : h.Parcelled blocks) :
    (h.nulled s).Parcelled blocks ∧ ∀ r, (h.nulled s).Initialised r ↔ h.Initialised r := by
  have hblock {r : Reference} (hset : h.spaces.bits.isSet r.address = true) (j : Nat) :
      (h.nulled s).memory.word (r.index + j) = h.memory.word (r.index + j) :=
    hl.word_block_nulled hs hset j
  have hobject (r : Reference) (hi : h.Initialised r) (b : AddressRange) (_ : b ∈ blocks)
      (_ : b.start = r.address) (j : Nat) (_ : 4 * (r.index + j) < b.stop.toNat) :=
    hblock ((hb.initialised_iff hl.toLayout).mp hi).1 j
  have hraw (r : Reference) (hv : h.Vacant r) :
      Kind.ofHeader? ((h.nulled s).memory.word r.index) = none := by
    have hw := hblock hv.1 0
    rw [Nat.add_zero] at hw
    rw [hw, hl.ofHeader?_eq_none hv]
  have hsize : (h.nulled s).memory.words.size = h.memory.words.size := Memory.size_withWord ..
  exact ⟨hb.parcelled_rewritten hl.toLayout hsize hobject hraw,
    fun r => hb.initialised_rewritten hl.toLayout hsize hobject hraw⟩

theorem nulled : (h.nulled s).Loose := by
  obtain ⟨blocks, hb⟩ := hl.blocks
  exact { hl.withMemory (Memory.size_withWord ..) rfl with
    blocks := ⟨blocks, (hl.parcelled_nulled hs hb).1⟩ }

theorem initialised_nulled : (h.nulled s).Initialised r ↔ h.Initialised r := by
  obtain ⟨blocks, hb⟩ := hl.blocks
  exact (hl.parcelled_nulled hs hb).2 r

theorem vacant_nulled : (h.nulled s).Vacant r ↔ h.Vacant r :=
  and_congr_right fun _ => not_congr (hl.initialised_nulled hs)

theorem namesObject_nulled (w : Word) : (h.nulled s).namesObject w = h.namesObject w := by
  rw [Bool.eq_iff_iff, namesObject_iff, namesObject_iff]
  exact exists_congr fun r => and_congr_right fun _ => hl.initialised_nulled hs

theorem masked_nulled : (h.nulled s).Masked i ↔ h.Masked i ∧ i ≠ s := by
  constructor
  · rintro (⟨r, hv, rfl⟩ | ⟨hon, r, htarget, hv⟩)
    · have hv' := (hl.vacant_nulled hs).mp hv
      refine ⟨.inl ⟨r, hv', rfl⟩, ?_⟩
      rintro rfl
      exact hl.off_stack hv'.1 0 hs
    · rw [hl.word_nulled hs] at htarget
      by_cases hi : i = s
      · rw [if_pos hi] at htarget
        nomatch htarget
      · rw [if_neg hi] at htarget
        exact ⟨.inr ⟨hon, r, htarget, (hl.vacant_nulled hs).mp hv⟩, hi⟩
  · rintro ⟨⟨r, hv, rfl⟩ | ⟨hon, r, htarget, hv⟩, hi⟩
    · exact .inl ⟨r, (hl.vacant_nulled hs).mpr hv, rfl⟩
    · refine .inr ⟨hon, r, ?_, (hl.vacant_nulled hs).mpr hv⟩
      rw [hl.word_nulled hs, if_neg hi]
      exact htarget

section Masked

variable (hmasked : h.Masked s)

include hmasked

open Classical in
/-- Both heaps become the same when they are cleared. -/
theorem cleared_nulled : (h.nulled s).cleared = h.cleared := by
  have hmemory : (h.nulled s).cleared.memory = h.cleared.memory := by
    refine Memory.ext_word ?_ rfl fun i => ?_
    · rw [size_cleared, size_cleared]
      exact Memory.size_withWord ..
    · rw [word_cleared, word_cleared, hl.word_nulled hs]
      by_cases hi : i = s
      · subst hi
        rw [if_pos rfl, if_pos hmasked, ite_self]
      · rw [if_neg hi]
        exact if_congr ((hl.masked_nulled hs).trans (and_iff_left hi)) rfl rfl
  exact congrArg (fun m => { h with memory := m }) hmemory

theorem deceives_nulled {m : Memory} :
    (h.nulled s).Deceives m i c ↔ h.Deceives m i c ∧ i ≠ s := by
  constructor
  · rintro ⟨hon, htarget, hv, hmarked, j, hj, hjon, hnames, hcopy⟩
    have hv' := (hl.vacant_nulled hs).mp hv
    have hsecond := hl.word_block_nulled hs hv'.1 1
    have hfirst := hl.word_block_nulled hs hv'.1 0
    rw [Nat.add_zero] at hfirst
    rw [hl.word_nulled hs] at htarget hnames
    have hi : i ≠ s := by
      intro hi
      rw [if_pos hi] at htarget
      nomatch htarget
    have hjs : j ≠ s := by
      intro hjs
      rw [if_pos hjs] at hnames
      nomatch hnames
    rw [if_neg hi] at htarget
    rw [if_neg hjs, hl.namesObject_nulled hs] at hnames
    exact ⟨⟨hon, htarget, hv', hfirst.symm.trans hmarked, j, hj, hjon, hnames, hcopy.trans hsecond⟩,
      hi⟩
  · rintro ⟨⟨hon, htarget, hv, hmarked, j, hj, hjon, hnames, hcopy⟩, hi⟩
    have hsecond := hl.word_block_nulled hs hv.1 1
    have hfirst := hl.word_block_nulled hs hv.1 0
    rw [Nat.add_zero] at hfirst
    have hjs : j ≠ s := by
      rintro rfl
      exact hl.not_masked_of_namesObject hjon hnames hmasked
    refine ⟨hon, ?_, (hl.vacant_nulled hs).mpr hv, hfirst.trans hmarked, j, hj, hjon, ?_,
      hcopy.trans hsecond.symm⟩
    · rw [hl.word_nulled hs, if_neg hi]
      exact htarget
    · rw [hl.word_nulled hs, if_neg hjs, hl.namesObject_nulled hs]
      exact hnames

theorem shown_nulled {m : Memory} {slot : Nat} (hi : i ≠ s) :
    (h.nulled s).shown m slot i = h.shown m slot i := by
  by_cases hd : ∃ c, i < slot ∧ h.Deceives m i c
  · obtain ⟨c, hlt, hd⟩ := hd
    rw [shown_of_deceives hlt hd,
      shown_of_deceives hlt ((hl.deceives_nulled hs hmasked).mpr ⟨hd, hi⟩),
      hl.word_block_nulled hs hd.vacant.1]
  · have hno (c : Reference) (hlt : i < slot) : ¬ h.Deceives m i c := fun hc => hd ⟨c, hlt, hc⟩
    rw [shown_of_not_deceives hno, shown_of_not_deceives fun c hlt hc =>
      hno c hlt ((hl.deceives_nulled hs hmasked).mp hc).1, hl.word_nulled hs, if_neg hi]

open Classical in
theorem deceived_nulled (k : Heap) : h.deceived k =
    (h.nulled s).deceived k + if ∃ b, h.Deceives k.memory s b then 1 else 0 := by
  have hstack := hl.stack_bounds
  have hmem : s ∈ List.range' (h.stack.sp.toNat / 4)
      (h.stack.base.toNat / 4 - h.stack.sp.toNat / 4) := by
    rw [List.mem_range'_1]
    unfold OnStack at hs
    omega
  have hrest : (h.nulled s).deceived k =
      ((List.range' (h.stack.sp.toNat / 4) (h.stack.base.toNat / 4 - h.stack.sp.toNat / 4)).erase
        s).countP fun i => decide (∃ b, h.Deceives k.memory i b) := by
    rw [(List.nodup_range' ..).erase_eq_filter, List.countP_filter]
    refine List.countP_congr fun i _ => ?_
    simp only [hl.deceives_nulled hs hmasked, exists_and_right, Bool.decide_and, Bool.and_eq_true,
      decide_eq_true_iff, bne_iff_ne]
  have hall := (List.perm_cons_erase hmem).countP_eq
    fun i => decide (∃ b, h.Deceives k.memory i b)
  rw [List.countP_cons, ← hrest] at hall
  simp only [decide_eq_true_iff] at hall
  exact hall

theorem residue_nulled (k : Heap) (hi : i ≠ s) : (h.nulled s).residue k i = h.residue k i :=
  congrArg (ite _ 0) (hl.shown_nulled hs hmasked hi)

open Classical in
/-- Where the cleared heap becomes `k`, the two heaps differ in one word and in the number of roots. -/
theorem unveiled_nulled {k : Heap} (hin : s < k.memory.words.size) {n n₀ : Memory}
    (hn : n.Veiled h.Masked (h.residue k) k.memory)
    (hn₀ : n₀.Veiled (h.nulled s).Masked ((h.nulled s).residue k) k.memory) :
    h.unveiled k n = ((h.nulled s).unveiled k n₀).withRoot s (h.shown k.memory
      (h.stack.base.toNat / 4) s) (if ∃ b, h.Deceives k.memory s b then 1 else 0) := by
  have hsize := hn₀.size
  have hmemory : n = n₀.withWord s (h.shown k.memory (h.stack.base.toNat / 4) s) := by
    refine Memory.ext_word ?_ (hn.maxPages.trans hn₀.maxPages.symm) fun i => ?_
    · rw [Memory.size_withWord, hn.size, hsize]
    · rw [Memory.word_withWord (by omega)]
      split
      · rename_i hi
        have hstack := hl.stack_bounds
        have hout : ¬ (h.options.zeroOnRelease = true ∧ h.InSource s) := by
          rintro ⟨-, hsource⟩
          unfold InSource at hsource
          unfold OnStack at hs
          omega
        rw [hi, hn.on s hmasked]
        exact if_neg hout
      · rename_i hi
        by_cases hm : h.Masked i
        · rw [hn.on i hm, hn₀.on i ((hl.masked_nulled hs).mpr ⟨hm, hi⟩),
            hl.residue_nulled hs hmasked k hi]
        · rw [hn.off i hm, hn₀.off i fun hm₀ => hm ((hl.masked_nulled hs).mp hm₀).1]
  unfold unveiled withRoot
  rw [hmemory, hl.deceived_nulled hs hmasked, ← Nat.add_assoc]

end Masked

/-- The address of a raw block on the stack is no root, and the collection leaves it: all else is as it would
be with null there. But if the block looks forwarded, and its second word is the address of the copy that a
lower word of the stack now refers to, it is taken for the copied object. -/
theorem collect_vacant (hb : h.Vacant b) (hword : h.memory.word s = b.word) :
    (∃ k k₀, h.collect = .ok k ∧ (h.nulled s).collect = .ok k₀ ∧
      (h.Deceives k₀.memory s b → k = k₀.withRoot s (h.memory.word (b.index + 1)) 1) ∧
      (¬ h.Deceives k₀.memory s b → k = k₀.withRoot s b.word 0)) ∨
    ((h.collect = .error .overflow ∨ (h.nulled s).collect = .error .overflow) ∧
      ¬ h.statistics.Roomy) := by
  have hne : b ≠ Reference.null := by
    have hactive := Address.le_iff.mp hl.spaces.base_le_active
    have hreserved := hl.spaces.reserved
    have hbounds := hl.bounds hb.1
    rw [Reference.ne_null_iff]
    unfold Size.reservedBytes at hreserved
    omega
  have htarget : Word.target? (h.memory.word s) = some b := target?_eq_some_iff.mpr ⟨hword, hne⟩
  have hmasked : h.Masked s := .inr ⟨hs, b, htarget, hb⟩
  have hinside := hl.stack_inside hs.2
  have hbelow : s < h.stack.base.toNat / 4 := by
    have hstack := hl.stack_bounds
    unfold OnStack at hs
    omega
  rcases hl.collect.cases with
    ⟨k', hrun, k, n, hdone, hsize, hn, rfl⟩ | ⟨f, hrun, rfl, hfull⟩
  swap
  · exact .inr ⟨.inl hrun, hfull⟩
  rcases (hl.nulled hs).collect.cases with
    ⟨k₀', hrun₀, k₀, n₀, hdone₀, -, hn₀, rfl⟩ | ⟨f, hrun₀, rfl, hfull⟩
  swap
  · exact .inr ⟨.inr hrun₀, hfull⟩
  rw [hl.cleared_nulled hs hmasked, hdone, Except.ok.injEq] at hdone₀
  subst hdone₀
  have hsame : h.Deceives n₀ s b ↔ h.Deceives k.memory s b := by
    refine deceives_congr fun j hj hon hnames => hn₀.off j fun hm => ?_
    exact hl.not_masked_of_namesObject hon hnames ((hl.masked_nulled hs).mp hm).1
  have hone : (∃ c, h.Deceives k.memory s c) ↔ h.Deceives k.memory s b := by
    refine ⟨fun ⟨c, hc⟩ => ?_, fun hd => ⟨b, hd⟩⟩
    obtain rfl : c = b := Option.some.inj (hc.target.symm.trans htarget)
    exact hc
  refine .inl ⟨_, _, hrun, hrun₀, ?_⟩
  rw [hl.unveiled_nulled hs hmasked (by omega) hn hn₀]
  refine ⟨fun hd => ?_, fun hd => ?_⟩
  · have hd' := hsame.mp hd
    rw [shown_of_deceives hbelow hd', if_pos (hone.mpr hd')]
  · have hd' : ¬ h.Deceives k.memory s b := fun hd' => hd (hsame.mpr hd')
    rw [shown_of_not_deceives fun c _ hc => hd' (hone.mp ⟨c, hc⟩), hword,
      if_neg fun hc => hd' (hone.mp hc)]

end Loose

/-- The heap `looped` with a second root, the address of a raw block, above the one that it had. The block
looks forwarded to where the first copy will be. -/
def forged : Heap :=
  { looped with
    memory := (((looped.memory.withWord 14 64).withWord 15 76).withWord 19 forwardedHeader).withWord
      20 128
    stack := { looped.stack with sp := .ofNat 56 }
    spaces := { looped.spaces with bits := ⟨#[0x90000]⟩ }
    bump := { looped.bump with cursor := .ofNat 84 } }

theorem word_forged (i : Nat) : forged.memory.word i =
    if i = 20 then 128 else if i = 19 then forwardedHeader else if i = 15 then 76
      else if i = 14 then 64 else looped.memory.word i := by
  unfold forged
  dsimp only
  rw [Memory.word_withWord (by simp [size_looped]), Memory.word_withWord (by simp [size_looped]),
    Memory.word_withWord (by simp [size_looped]), Memory.word_withWord (by simp [size_looped])]

theorem size_forged : forged.memory.words.size = 0x4000 := by
  simp [forged, size_looped]

theorem isSet_forged (a : Address) :
    forged.spaces.bits.isSet a = true ↔ a = .ofNat 64 ∨ a = .ofNat 76 := by
  have hset : looped.spaces.bits.set (.ofNat 76) = .ok forged.spaces.bits := by decide
  rw [StartBits.isSet_set hset, Bool.or_eq_true, isSet_looped, decide_eq_true_iff]

theorem layout_forged : forged.Layout where
  paged := ⟨⟨1, size_forged, by decide⟩, by decide⟩
  spaces :=
    { layout_looped.spaces with
      active_inside := by rw [size_forged]; decide
      scratch_inside := by rw [size_forged]; decide }
  stack := ⟨by decide, by decide, by decide, by decide, by decide⟩
  limit := by decide
  cursor_aligned := by decide
  start_le := by decide
  cursor_le := by decide

theorem words_forged : forged.memory.word 14 = 64 ∧ forged.memory.word 15 = 76 ∧
    forged.memory.word 16 = Kind.listNode.header ∧ forged.memory.word 17 = 64 ∧
    forged.memory.word 18 = 0 ∧ forged.memory.word 19 = forwardedHeader ∧
    forged.memory.word 20 = 128 := by
  simp [word_forged, word_looped]

theorem node_forged : forged.Initialised (.ofIndex 16) := by
  have hheader : forged.memory.word (Reference.ofIndex 16).index = Kind.listNode.header :=
    words_forged.2.2.1
  refine ⟨by decide, ?_⟩
  rw [Memory.kind_eq_ok (by rw [size_forged]; decide) hheader]
  rfl

theorem allows_forged : forged.Allows 64 ∧ forged.Allows 0 := by
  constructor
  · intro r htarget
    obtain ⟨hword, -⟩ := target?_eq_some_iff.mp htarget
    have hself : r.word = (Reference.ofIndex 16).word := hword.symm
    exact .inr (Reference.word_inj.mp hself ▸ node_forged)
  · intro r htarget
    nomatch htarget

theorem parcelled_forged : forged.Parcelled [⟨.ofNat 64, .ofNat 76⟩, ⟨.ofNat 76, .ofNat 84⟩] where
  within := by decide
  disjoint := List.pairwise_pair.mpr (.inl (by decide))
  starts := fun a => by
    simp only [isSet_forged, List.mem_cons, List.not_mem_nil, or_false, exists_eq_or_imp,
      exists_eq_left]
    exact or_congr eq_comm eq_comm
  filled := fun b hmem r hstart => by
    obtain ⟨-, -, hheader, hhead, htail, hmarked, -⟩ := words_forged
    rcases List.mem_pair.mp hmem with rfl | rfl
    · obtain rfl : r = .ofIndex 16 := Reference.ext_address hstart
      have hw : forged.memory.word (Reference.ofIndex 16).index = Kind.listNode.header := hheader
      have hsize : forged.size (.ofIndex 16) = 3 := Memory.wordCount_eq hw
      right
      rw [holds_iff (by rw [size_forged]; decide) (by rw [size_forged]; decide)]
      refine ⟨.listNode, by decide, hw, by rw [hsize]; decide, fun j hj => ?_⟩
      rcases (Memory.isSlot_iff hw).mp hj with rfl | rfl
      · exact hhead ▸ allows_forged.1
      · exact htail ▸ allows_forged.2
    · obtain rfl : r = .ofIndex 19 := Reference.ext_address hstart
      refine .inl ⟨_, Memory.load_address (by rw [size_forged]; decide), ?_⟩
      exact congrArg Kind.ofHeader? hmarked

theorem loose_forged : forged.Loose :=
  { layout_forged with blocks := ⟨_, parcelled_forged⟩ }

theorem vacant_forged : forged.Vacant (.ofIndex 19) := by
  obtain ⟨-, -, -, -, -, hmarked, -⟩ := words_forged
  refine parcelled_forged.vacant_of_ofHeader?_eq_none layout_forged (List.mem_pair.mpr (.inr rfl))
    rfl ?_
  exact congrArg Kind.ofHeader? hmarked

theorem initialised_forged (r : Reference) : forged.Initialised r ↔ r = .ofIndex 16 := by
  constructor
  · intro hi
    have hset := ((parcelled_forged.initialised_iff layout_forged).mp hi).1
    rcases (isSet_forged _).mp hset with ha | ha
    · exact Reference.ext_address ha
    · obtain rfl : r = .ofIndex 19 := Reference.ext_address ha
      exact absurd hi vacant_forged.2
  · rintro rfl
    exact node_forged

theorem onStack_forged : forged.OnStack 15 :=
  ⟨by decide, by decide⟩

/-- The node is copied to the start of the other space. -/
theorem copy_forged {k : Heap} (hk : (forged.nulled 15).collect = .ok k) : k.memory.word 14 = 128 := by
  obtain ⟨hfirst, hsecond, -⟩ := words_forged
  have hl := loose_forged
  have hr := hl.regular_cleared
  have hmasked : forged.Masked 15 := .inr ⟨onStack_forged, .ofIndex 19, hsecond ▸ by decide,
    vacant_forged⟩
  have hstack : forged.OnStack 14 := ⟨by decide, by decide⟩
  have hnames : forged.namesObject (forged.memory.word 14) = true :=
    namesObject_iff.mpr ⟨.ofIndex 16, hfirst ▸ by decide, node_forged⟩
  have hkept := hl.not_masked_of_namesObject hstack hnames
  obtain ⟨c, n, hc, -, hn, rfl⟩ := (hl.nulled onStack_forged).of_collect hk
  rw [hl.cleared_nulled onStack_forged hmasked] at hc
  obtain ⟨moves, hm⟩ := hr.of_collect hc
  have hi : forged.cleared.Initialised (.ofIndex 16) := hl.initialised_cleared.mpr node_forged
  have hword : forged.cleared.memory.word 14 = (Reference.ofIndex 16).word :=
    (word_cleared_of_not_masked hkept).trans hfirst
  have hone : moves.map Prod.fst = [.ofIndex 16] := by
    apply List.perm_singleton.mp
    apply (List.perm_ext_iff_of_nodup hm.nodup (List.nodup_singleton _)).mpr
    intro r
    rw [hm.mem_iff, List.mem_singleton]
    constructor
    · intro hreach
      exact (initialised_forged r).mp (hl.initialised_cleared.mp hreach.initialised)
    · rintro rfl
      exact .root (hr.rootAt hstack.1 hstack.2 hword hi)
  obtain ⟨⟨r, s⟩, rfl, -⟩ := List.map_eq_singleton_iff.mp hone
  have hplace : s = .ofIndex 32 := Reference.index_inj.mp hm.tiles.1
  obtain ⟨t, ht, hcopy⟩ := hr.carried_word hi hword (hm.roots 14 hstack.1 hstack.2)
  obtain ⟨-, rfl⟩ := Prod.mk.injEq .. ▸ List.mem_singleton.mp ht
  have hnot : ¬ (forged.nulled 15).Masked 14 := fun hm => hkept ((hl.masked_nulled onStack_forged).mp hm).1
  show n.word 14 = 128
  rw [hn.off 14 hnot, hcopy, hplace]
  rfl

/-- The raw block is taken for a copy of the node. -/
theorem collect_forged : forged.Loose ∧ forged.OnStack 15 ∧ forged.Vacant (.ofIndex 19) ∧
    ∃ k k₀, forged.collect = .ok k ∧ (forged.nulled 15).collect = .ok k₀ ∧
      forged.memory.word 15 = 76 ∧ k = k₀.withRoot 15 128 1 := by
  obtain ⟨hfirst, hsecond, -, -, -, hmarked, hpointer⟩ := words_forged
  have hroomy : forged.statistics.Roomy :=
    ⟨fun k => by cases k <;> decide, by decide, by decide⟩
  obtain ⟨k, k₀, hk, hk₀, hdeceived, -⟩ := (Loose.collect_vacant loose_forged onStack_forged
    vacant_forged hsecond).resolve_right fun hfull => hfull.2 hroomy
  refine ⟨loose_forged, onStack_forged, vacant_forged, k, k₀, hk, hk₀, hsecond, ?_⟩
  have hd : forged.Deceives k₀.memory 15 (.ofIndex 19) :=
    { onStack := onStack_forged
      target := hsecond ▸ by decide
      vacant := vacant_forged
      marked := hmarked
      copied := ⟨14, by decide, ⟨by decide, by decide⟩,
        namesObject_iff.mpr ⟨.ofIndex 16, hfirst ▸ by decide, node_forged⟩,
        (copy_forged hk₀).trans hpointer.symm⟩ }
  rw [hdeceived hd]
  exact congrArg (k₀.withRoot 15 · 1) hpointer

end Heap

end CopyingHeap
