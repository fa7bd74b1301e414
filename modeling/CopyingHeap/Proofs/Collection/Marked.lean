import CopyingHeap.Proofs.Collection.Loose

/-!
Tracing the roots of a heap whose raw blocks may look forwarded, beside those of the same heap after it has
been cleared. The two traversals copy the same objects to the same places. They differ in the words of the
stack that name raw blocks: the cleared heap has null there, and the heap itself keeps the word, unless the
block looks forwarded to a copy that has just been made.
-/

namespace CopyingHeap

namespace Heap

open Classical

/-- Word `i` of the stack is the address of the raw block `b`, which looks forwarded: its second word is
the address that in `m` a lower word of the stack has instead of that of an object. -/
structure Deceives (h : Heap) (m : Memory) (i : Nat) (b : Reference) : Prop where
  onStack : h.OnStack i
  target : Word.target? (h.memory.word i) = some b
  vacant : h.Vacant b
  marked : h.memory.word b.index = forwardedHeader
  copied : ∃ j < i, h.OnStack j ∧ h.namesObject (h.memory.word j) = true ∧
    m.word j = h.memory.word (b.index + 1)

theorem Deceives.congr {h : Heap} {m m' : Memory} {i : Nat} {b : Reference} (hd : h.Deceives m i b)
    (hm : ∀ j < i, h.OnStack j → h.namesObject (h.memory.word j) = true → m'.word j = m.word j) :
    h.Deceives m' i b :=
  { hd with
    copied := by
      obtain ⟨j, hj, hstack, hnames, hw⟩ := hd.copied
      exact ⟨j, hj, hstack, hnames, (hm j hj hstack hnames).trans hw⟩ }

theorem deceives_congr {h : Heap} {m m' : Memory} {i : Nat} {b : Reference}
    (hm : ∀ j < i, h.OnStack j → h.namesObject (h.memory.word j) = true → m'.word j = m.word j) :
    h.Deceives m' i b ↔ h.Deceives m i b :=
  ⟨fun hd => hd.congr fun j hj hstack hnames => (hm j hj hstack hnames).symm, fun hd => hd.congr hm⟩

/-- What a masked word holds once the stack below word `slot` has been traced, and is as in `m`. -/
noncomputable def shown (h : Heap) (m : Memory) (slot i : Nat) : Word :=
  match Word.target? (h.memory.word i) with
  | some b =>
    if i < slot ∧ h.Deceives m i b then h.memory.word (b.index + 1) else h.memory.word i
  | none => h.memory.word i

/-- How many of the `count` words from word `slot` on deceive the collection. -/
noncomputable def deceptions (h : Heap) (m : Memory) (slot count : Nat) : Nat :=
  (List.range' slot count).countP fun i => decide (∃ b, h.Deceives m i b)

section Shown

variable {h : Heap} {m m' : Memory} {slot i : Nat} {b : Reference}

theorem shown_of_deceives (hi : i < slot) (hd : h.Deceives m i b) :
    h.shown m slot i = h.memory.word (b.index + 1) := by
  rw [shown, hd.target]
  exact if_pos ⟨hi, hd⟩

theorem shown_of_not_deceives (hd : ∀ b, i < slot → ¬ h.Deceives m i b) :
    h.shown m slot i = h.memory.word i := by
  unfold shown
  split
  · rename_i b _
    exact if_neg fun hb => hd b hb.1 hb.2
  · rfl

theorem shown_congr (hm : ∀ j < slot, h.OnStack j → m'.word j = m.word j) :
    h.shown m' slot i = h.shown m slot i := by
  unfold shown
  split
  · rename_i b _
    refine if_congr (and_congr_right fun hi => ?_) rfl rfl
    exact deceives_congr fun j hj hstack _ => hm j (by omega) hstack
  · rfl

theorem shown_succ (hi : i ≠ slot) : h.shown m (slot + 1) i = h.shown m slot i := by
  unfold shown
  split
  · exact if_congr (and_congr_left fun _ => by omega) rfl rfl
  · rfl

theorem deceptions_congr {count : Nat}
    (hm : ∀ j < slot + count, h.OnStack j → m'.word j = m.word j) :
    h.deceptions m' slot count = h.deceptions m slot count := by
  unfold deceptions
  refine List.countP_congr fun i hi => ?_
  rw [List.mem_range'_1] at hi
  simp only [decide_eq_true_iff]
  exact exists_congr fun b => deceives_congr fun j hj hstack _ => hm j (by omega) hstack

theorem deceptions_succ (count : Nat) : h.deceptions m slot (count + 1) =
    h.deceptions m slot 1 + h.deceptions m (slot + 1) count := by
  unfold deceptions
  rw [List.range'_succ, List.range'_one, List.countP_cons, List.countP_singleton]
  omega

theorem deceptions_le (count : Nat) : h.deceptions m slot count ≤ count :=
  List.countP_le_length.trans (List.length_range' ..).le

theorem deceptions_one_of_deceives (hd : h.Deceives m slot b) : h.deceptions m slot 1 = 1 := by
  unfold deceptions
  rw [List.range'_one, List.countP_singleton, if_pos (decide_eq_true ⟨b, hd⟩)]

theorem deceptions_one_of_not_deceives (hd : ∀ b, ¬ h.Deceives m slot b) :
    h.deceptions m slot 1 = 0 := by
  unfold deceptions
  rw [List.range'_one, List.countP_singleton, if_neg]
  rw [decide_eq_true_iff]
  rintro ⟨b, hb⟩
  exact hd b hb

theorem deceptions_one_of_not_masked (hmasked : ¬ h.Masked slot) : h.deceptions m slot 1 = 0 :=
  deceptions_one_of_not_deceives fun b hd => hmasked (.inr ⟨hd.onStack, b, hd.target, hd.vacant⟩)

end Shown

/-- The roots of `h` have been traced up to word `slot`, in its own memory, which is now `n`, and in that
of the cleared heap, which is now `m`. So far only objects that words of the stack name were copied. -/
structure Rooted (h : Heap) (moves : List (Reference × Reference)) (slot scan : Nat) (e : Evacuation)
    (n m : Memory) : Prop where
  evacuated : h.cleared.Evacuated moves slot scan e m
  veiled : n.Veiled h.Masked (h.shown m slot) m
  direct : ∀ p ∈ moves, ∃ j < slot, h.OnStack j ∧ h.cleared.memory.word j = p.1.word

namespace Loose

variable {h : Heap} (hl : h.Loose) {i : Nat}

include hl

theorem not_masked_of_namesObject (hi : h.OnStack i) (hnames : h.namesObject (h.memory.word i) = true) :
    ¬ h.Masked i := by
  intro hmasked
  obtain ⟨b, hb, hv⟩ := hl.exists_vacant hi hmasked
  obtain ⟨r, hr, hobject⟩ := namesObject_iff.mp hnames
  rw [hb, Option.some.injEq] at hr
  exact hv.2 (hr ▸ hobject)

theorem namesObject_cleared (w : Word) : h.cleared.namesObject w = h.namesObject w := by
  rw [Bool.eq_iff_iff, namesObject_iff, namesObject_iff]
  exact exists_congr fun r => and_congr_right fun _ => hl.initialised_cleared

end Loose

namespace Rooted

variable {h : Heap} (hl : h.Loose) {moves : List (Reference × Reference)} {slot scan : Nat}
  {e : Evacuation} {n m : Memory} (ht : h.Rooted moves slot scan e n m) {b : Reference}

include hl ht

/-- The copies that exist are those that the traced words of the stack refer to. -/
theorem exists_copy_iff {w : Word} : (∃ p ∈ moves, p.2.word = w) ↔
    ∃ j < slot, h.OnStack j ∧ h.namesObject (h.memory.word j) = true ∧ m.word j = w := by
  have hr := hl.regular_cleared
  have he := ht.evacuated
  constructor
  · rintro ⟨p, hp, rfl⟩
    obtain ⟨j, hj, hstack, hw⟩ := ht.direct p hp
    have hi := he.initialised hp
    have hmasked : ¬ h.Masked j := by
      intro hmasked
      rw [word_cleared_of_masked hmasked] at hw
      exact hr.ne_null hi (Reference.word_inj.mp hw.symm)
    obtain ⟨t, hpt, hm⟩ := hr.carried_word hi hw (he.stack_done j hstack.1 hstack.2 hj)
    rw [word_cleared_of_not_masked hmasked] at hw
    refine ⟨j, hj, hstack, ?_, ?_⟩
    · rw [hw, ← hl.namesObject_cleared]
      exact hr.namesObject_word hi
    · rw [hm, he.functional hpt hp]
  · rintro ⟨j, hj, hstack, hnames, rfl⟩
    have hw := word_cleared_of_not_masked (hl.not_masked_of_namesObject hstack hnames)
    obtain ⟨r, htarget, hi⟩ := namesObject_iff.mp hnames
    obtain ⟨t, hrt, hm⟩ := hr.carried_word (hl.initialised_cleared.mpr hi)
      (hw.trans (target?_eq_some_iff.mp htarget).1) (he.stack_done j hstack.1 hstack.2 hj)
    exact ⟨(r, t), hrt, hm.symm⟩

/-- The first two words of a raw block are as they were. -/
theorem word_vacant (hv : h.Vacant b) : n.word b.index = h.memory.word b.index ∧
    n.word (b.index + 1) = h.memory.word (b.index + 1) := by
  have hr := hl.regular_cleared
  have he := ht.evacuated
  have hbounds := hl.bounds hv.1
  have hcl := Address.le_iff.mp hl.cursor_le
  have hlimit := hl.limit
  constructor
  · rw [ht.veiled.on _ (.inl ⟨b, hv, rfl⟩)]
    exact shown_of_not_deceives fun c _ hd => hl.off_stack hv.1 0 hd.onStack
  · have hsecond := hl.second_not_masked hv
    rw [ht.veiled.off _ hsecond, ← word_cleared_of_not_masked hsecond]
    refine he.word_inSource hr ⟨?_, ?_⟩ fun p hp => ?_
    · exact Nat.le_trans hbounds.1 (by omega)
    · show 4 * (b.index + 1) < h.spaces.active.start.toNat + h.spaces.active.extent
      omega
    · have hi := hl.initialised_cleared.mp (he.initialised hp)
      have hset : h.spaces.bits.isSet p.1.address = true :=
        hr.isSet_of_initialised (he.initialised hp)
      have hne : b ≠ p.1 := fun heq => hv.2 (heq ▸ hi)
      rcases hl.apart hv hset hne with hlt | hlt <;> omega

/-- A raw block is a root if it looks forwarded to a copy. -/
theorem root?_vacant (hv : h.Vacant b) {w : Word} (hw : Word.target? w = some b) :
    Evacuation.root? h.source h.spaces.scratch.start e n w =
      .ok (if h.memory.word b.index = forwardedHeader ∧
        ∃ p ∈ moves, p.2.word = h.memory.word (b.index + 1) then some b else none) := by
  have hr := hl.regular_cleared
  have he := ht.evacuated
  obtain ⟨h0, h1⟩ := ht.word_vacant hl hv
  have hbounds := hl.bounds hv.1
  have hcursor := hl.cursor_inside
  have hsize := hl.size_le
  have hnsize := ht.veiled.size.trans (he.size.trans h.size_cleared)
  have hinside : h.cleared.Inside b := hr.inside_of_isSet hv.1
  have hcontains : h.source.contains b.address = .ok (decide (h.cleared.Inside b)) :=
    hr.source_contains b
  have hset : e.bits.isSet b.address = true := (he.isSet_inside hr hinside).mpr hv.1
  have htarget : (Value.decode w).object? = some b := hw
  rw [Evacuation.root?, htarget]
  dsimp only
  rw [hcontains, ok_bind, decide_eq_true hinside, hset, Memory.isForwarded,
    Memory.load_address (by omega), ok_bind, h0]
  by_cases hmarked : h.memory.word b.index = forwardedHeader
  · have hadd : b.address.add forwardingOffset = .ok (Address.ofNat (4 * (b.index + 1))) :=
      b.add_eq (j := 1) (by omega)
    rw [hmarked, hadd, ok_bind, Memory.loadAddress, Memory.load_word (by omega) (by omega), ok_bind,
      h1]
    have hcopy : e.isCopy h.spaces.scratch.start ⟨h.memory.word (b.index + 1)⟩ = true ↔
        ∃ p ∈ moves, p.2.word = h.memory.word (b.index + 1) := by
      refine (he.isCopy_iff hr).trans (exists_congr fun p => and_congr_right fun _ => ?_)
      exact ⟨congrArg Address.word, congrArg Address.mk⟩
    simp [hcopy, pure, Except.pure]
  · have hnone : ¬ (h.memory.word b.index = forwardedHeader ∧
        ∃ p ∈ moves, p.2.word = h.memory.word (b.index + 1)) := fun hd => hmarked hd.1
    rw [beq_eq_false_iff_ne.mpr hmarked, if_neg hnone, Memory.kind?_eq_ok (by omega), h0,
      hl.ofHeader?_eq_none hv]
    rfl

/-- What is neither the address of an object nor that of a raw block is no root. -/
theorem root?_eq_none {w : Word} (hnames : h.namesObject w = false)
    (hv : ∀ b, Word.target? w = some b → ¬ h.Vacant b) :
    Evacuation.root? h.source h.spaces.scratch.start e n w = .ok none := by
  have hr := hl.regular_cleared
  rw [Evacuation.root?]
  cases htarget : (Value.decode w).object? with
  | none => rfl
  | some r =>
    have hcontains : h.source.contains r.address = .ok (decide (h.cleared.Inside r)) :=
      hr.source_contains r
    dsimp only
    rw [hcontains, ok_bind]
    by_cases hin : h.cleared.Inside r
    · have hset : e.bits.isSet r.address = false := by
        rw [Bool.eq_false_iff]
        intro hset
        refine hv r htarget ⟨(ht.evacuated.isSet_inside hr hin).mp hset, fun hi => ?_⟩
        rw [namesObject_iff.mpr ⟨r, htarget, hi⟩] at hnames
        cases hnames
      rw [decide_eq_true hin, hset]
      rfl
    · rw [decide_eq_false hin]
      rfl

/-- The address of an object is a root in both memories. -/
theorem root?_of_initialised {r : Reference} (hi : h.cleared.Initialised r) :
    Evacuation.root? h.source h.spaces.scratch.start e n r.word = .ok (some r) := by
  have hr := hl.regular_cleared
  have htwo := hr.two_le_size hi
  have hend := hr.end_le_size hi
  have hsize := hr.size_le
  have hmsize := ht.evacuated.size
  have hnsize := ht.veiled.size
  have h0 : n.word r.index = m.word r.index := ht.veiled.off _ (hl.spares.object r hi 0 (by omega))
  have h1 : n.word (r.index + 1) = m.word (r.index + 1) :=
    ht.veiled.off _ (hl.spares.object r hi 1 (by omega))
  have hload : n.load r.address = m.load r.address := by
    rw [Memory.load_address (by omega), Memory.load_address (by omega), h0]
  have hadd : r.address.add forwardingOffset = .ok (Address.ofNat (4 * (r.index + 1))) :=
    r.add_eq (j := 1) (by omega)
  have hnext : n.loadAddress (Address.ofNat (4 * (r.index + 1))) =
      m.loadAddress (Address.ofNat (4 * (r.index + 1))) := by
    rw [Memory.loadAddress, Memory.loadAddress, Memory.load_word (by omega) (by omega),
      Memory.load_word (by omega) (by omega), h1]
  have hm := ht.evacuated.root?_of_initialised hr hi
  have htarget : (Value.decode r.word).object? = some r := hr.target?_word hi
  unfold Evacuation.root? Memory.isForwarded Memory.kind? at hm ⊢
  rw [htarget] at hm ⊢
  dsimp only at hm ⊢
  rw [hload, hadd, ok_bind, hnext]
  rw [hadd, ok_bind] at hm
  exact hm

section Slot

variable (hstack : h.OnStack slot)

include hstack

/-- A masked word is none of the roots of the cleared heap. -/
theorem traceRoot_cleared (hmasked : h.Masked slot) :
    Evacuation.traceRoot h.source h.spaces.scratch.start e m (Address.ofNat (4 * slot)) =
      .ok (0, e, m) := by
  have hr := hl.regular_cleared
  have he := ht.evacuated
  have hinside := hr.stack_inside hstack.2
  have hsize := hr.size_le
  have hmsize := he.size
  have hw : m.word slot = 0 :=
    (he.stack_rest slot hstack.1 hstack.2 (Nat.le_refl slot)).trans (word_cleared_of_masked hmasked)
  rw [Evacuation.traceRoot, Memory.load_word (by omega) (by omega), ok_bind, hw]
  rfl

theorem traceRoot_masked (hmasked : h.Masked slot) : ∃ n',
    Evacuation.traceRoot h.source h.spaces.scratch.start e n (Address.ofNat (4 * slot)) =
      .ok (h.deceptions m slot 1, e, n') ∧ n'.Veiled h.Masked (h.shown m (slot + 1)) m := by
  have hr := hl.regular_cleared
  have hinside := hl.stack_inside hstack.2
  have hsize := hl.size_le
  have hmsize := ht.evacuated.size.trans h.size_cleared
  have hnsize := ht.veiled.size
  obtain ⟨b, htarget, hv⟩ := hl.exists_vacant hstack hmasked
  have hw : n.word slot = h.memory.word slot := by
    rw [ht.veiled.on slot hmasked]
    exact shown_of_not_deceives fun _ hlt => absurd hlt (Nat.lt_irrefl slot)
  rw [Evacuation.traceRoot, Memory.load_word (by omega) (by omega), ok_bind, hw,
    ht.root?_vacant hl hv htarget, ok_bind]
  by_cases hd : h.Deceives m slot b
  · obtain ⟨p, hp, hcopy⟩ := (ht.exists_copy_iff hl).mpr hd.copied
    obtain ⟨h0, h1⟩ := ht.word_vacant hl hv
    have hbounds := hl.bounds hv.1
    have hcursor := hl.cursor_inside
    have htrace : Evacuation.trace h.source e n b = .ok (p.2, e, n) :=
      hr.trace_forwarded (hr.inside_of_isSet hv.1) e (hnsize.trans ht.evacuated.size) (by omega)
        (h0.trans hd.marked) (h1.trans hcopy.symm)
    rw [if_pos ⟨hd.marked, p, hp, hcopy⟩, deceptions_one_of_deceives hd]
    dsimp only
    rw [htrace, ok_bind]
    dsimp only
    rw [Memory.store_word (by omega) (by omega)]
    refine ⟨_, rfl, ht.veiled.withVeiled hmasked (by omega) ?_ fun i hne _ => shown_succ hne⟩
    rw [shown_of_deceives (Nat.lt_succ_self slot) hd, hcopy]
  · have hno : ¬ (h.memory.word b.index = forwardedHeader ∧
        ∃ p ∈ moves, p.2.word = h.memory.word (b.index + 1)) := by
      rintro ⟨hmarked, hcopy⟩
      exact hd ⟨hstack, htarget, hv, hmarked, (ht.exists_copy_iff hl).mp hcopy⟩
    have hnone (c : Reference) : ¬ h.Deceives m slot c := by
      intro hc
      obtain rfl : c = b := Option.some.inj (hc.target.symm.trans htarget)
      exact hd hc
    rw [if_neg hno, deceptions_one_of_not_deceives hnone]
    refine ⟨n, rfl, ht.veiled.congr fun i _ => ?_⟩
    by_cases hi : i = slot
    · subst hi
      rw [shown_of_not_deceives fun c _ => hnone c, shown_of_not_deceives fun c _ => hnone c]
    · exact shown_succ hi

/-- A word that is not masked is a root in both memories or in none, and traced alike. -/
theorem traceRoot_not_masked (hmasked : ¬ h.Masked slot) :
    InStep (fun x y => x.1 = y.1 ∧ Alongside h.Masked (h.shown m slot) x.2 y.2)
      (Evacuation.traceRoot h.source h.spaces.scratch.start e n (Address.ofNat (4 * slot)))
      (Evacuation.traceRoot h.source h.spaces.scratch.start e m (Address.ofNat (4 * slot))) := by
  have hr := hl.regular_cleared
  have he := ht.evacuated
  have hinside := hr.stack_inside hstack.2
  have hsize := hr.size_le
  have hmsize := he.size
  have hnsize := ht.veiled.size
  have hw : m.word slot = h.memory.word slot :=
    (he.stack_rest slot hstack.1 hstack.2 (Nat.le_refl slot)).trans
      (word_cleared_of_not_masked hmasked)
  rw [Evacuation.traceRoot, Evacuation.traceRoot, Memory.load_word (by omega) (by omega),
    Memory.load_word (by omega) (by omega), ok_bind, ok_bind, ht.veiled.off slot hmasked, hw]
  cases hnames : h.namesObject (h.memory.word slot) with
  | false =>
    have hv (b : Reference) (hb : Word.target? (h.memory.word slot) = some b) : ¬ h.Vacant b :=
      fun hv => hmasked (.inr ⟨hstack, b, hb, hv⟩)
    have hcleared : Evacuation.root? h.source h.spaces.scratch.start e m (h.memory.word slot) =
        .ok none := he.root?_eq_none hr ((hl.namesObject_cleared _).trans hnames)
    rw [ht.root?_eq_none hl hnames hv, hcleared]
    exact ⟨rfl, rfl, ht.veiled⟩
  | true =>
    obtain ⟨r, htarget, hobject⟩ := namesObject_iff.mp hnames
    obtain ⟨hword, -⟩ := target?_eq_some_iff.mp htarget
    have hi : h.cleared.Initialised r := hl.initialised_cleared.mpr hobject
    have hcleared : Evacuation.root? h.source h.spaces.scratch.start e m r.word = .ok (some r) :=
      he.root?_of_initialised hr hi
    rw [hword, ht.root?_of_initialised hl hi, hcleared, ok_bind, ok_bind]
    refine (he.trace_veiled hr hl.spares ht.veiled hi).bind ?_
    rintro ⟨t, e₁, n'⟩ ⟨t', e₂, m'⟩ ⟨hcopy, hstate, hv⟩
    dsimp only at hcopy hstate hv ⊢
    subst hcopy hstate
    refine (hv.store (by rwa [toNat_ofNat_div (by omega)]) _).bind fun n'' m'' hv' => ?_
    exact ⟨rfl, rfl, hv'⟩

omit hl in
/-- One more word of the stack. -/
theorem next {more : List (Reference × Reference)} {e' : Evacuation} {n' m' : Memory}
    (he : h.cleared.Evacuated (moves ++ more) (slot + 1) scan e' m')
    (hv : n'.Veiled h.Masked (h.shown m' (slot + 1)) m')
    (hmore : ∀ p ∈ more, h.cleared.memory.word slot = p.1.word) :
    h.Rooted (moves ++ more) (slot + 1) scan e' n' m' where
  evacuated := he
  veiled := hv
  direct := fun p hp => by
    rcases List.mem_append.mp hp with hp | hp
    · obtain ⟨j, hj, hstack', hw⟩ := ht.direct p hp
      exact ⟨j, by omega, hstack', hw⟩
    · exact ⟨slot, by omega, hstack, hmore p hp⟩

theorem traceRoot :
    InStep (fun x y => x.1 = y.1 + h.deceptions y.2.2 slot 1 ∧ x.2.1 = y.2.1 ∧
        ∃ more, h.Rooted (moves ++ more) (slot + 1) scan y.2.1 x.2.2 y.2.2)
      (Evacuation.traceRoot h.source h.spaces.scratch.start e n (Address.ofNat (4 * slot)))
      (Evacuation.traceRoot h.source h.spaces.scratch.start e m (Address.ofNat (4 * slot))) := by
  have hr := hl.regular_cleared
  have he : Ends
      (Evacuation.traceRoot h.source h.spaces.scratch.start e m (Address.ofNat (4 * slot))) _ _ :=
    ht.evacuated.traceRoot hr hstack.1 hstack.2
  by_cases hmasked : h.Masked slot
  · obtain ⟨n', hrun, hv⟩ := ht.traceRoot_masked hl hstack hmasked
    have hcleared := ht.traceRoot_cleared hl hstack hmasked
    obtain ⟨-, more, he', hmore⟩ := he.of_ok hcleared
    rw [hrun, hcleared]
    exact ⟨(Nat.zero_add _).symm, rfl, more, ht.next hstack he' hv hmore⟩
  · refine ((ht.traceRoot_not_masked hl hstack hmasked).and_ends he).mono ?_
    rintro x y ⟨⟨hfound, hstate, hv⟩, -, more, he', hmore⟩
    refine ⟨?_, hstate, more, ht.next hstack he' (hv.congr fun i hi => ?_) hmore⟩
    · rw [deceptions_one_of_not_masked hmasked, Nat.add_zero, hfound]
    · have hne : i ≠ slot := fun heq => hmasked (heq ▸ hi)
      rw [shown_succ hne]
      exact shown_congr fun j hj hstack' =>
        ht.evacuated.word_traced hr he' (Nat.le_succ slot) hstack'.1 hstack'.2 hj

end Slot

/-- The two traversals of the stack differ only in the words that deceive them. -/
theorem traceRoots {count : Nat} (roots extra : Nat) (hsp : h.stack.sp.toNat ≤ 4 * slot)
    (hbase : 4 * (slot + count) ≤ h.stack.base.toNat) :
    InStep (fun x y => x.1 = y.1 + (extra + h.deceptions y.2.2 slot count) ∧ x.2.1 = y.2.1 ∧
        ∃ more, h.Rooted (moves ++ more) (slot + count) scan y.2.1 x.2.2 y.2.2)
      (Evacuation.traceRoots h.source h.spaces.scratch.start (roots + extra) e n
        (Address.ofNat (4 * slot)) count)
      (Evacuation.traceRoots h.source h.spaces.scratch.start roots e m
        (Address.ofNat (4 * slot)) count) := by
  induction count generalizing slot roots extra e n m moves with
  | zero =>
    refine ⟨rfl, rfl, [], ?_⟩
    rw [List.append_nil]
    exact ht
  | succ count ih =>
    have hr := hl.regular_cleared
    have hlimit := h.stack.base.toNat_lt
    have hnext := ofNat_next (i := slot) (by omega)
    rw [Evacuation.traceRoots, Evacuation.traceRoots, hnext]
    refine (ht.traceRoot hl ⟨hsp, by omega⟩).bind ?_
    rintro ⟨found, e₁, n₁⟩ ⟨found', e₂, m₁⟩ ⟨hfound, hstate, more, ht'⟩
    dsimp only at hfound hstate ht' ⊢
    subst hfound hstate
    have hsum : roots + extra + (found' + h.deceptions m₁ slot 1) =
        roots + found' + (extra + h.deceptions m₁ slot 1) := by omega
    rw [hsum]
    refine (ih ht' (roots + found') (extra + h.deceptions m₁ slot 1) (by omega) (by omega)).mono ?_
    rintro x y ⟨hfound, hstate, more', ht''⟩
    refine ⟨?_, hstate, more ++ more', ?_⟩
    · have hsame : h.deceptions y.2.2 slot 1 = h.deceptions m₁ slot 1 :=
        deceptions_congr fun j hj hstack =>
          ht'.evacuated.word_traced hr ht''.evacuated (by omega) hstack.1 hstack.2 hj
      rw [hfound, deceptions_succ count, hsame]
      omega
    · rw [← List.append_assoc, show slot + (count + 1) = slot + 1 + count from by omega]
      exact ht''

end Rooted

end Heap

end CopyingHeap
