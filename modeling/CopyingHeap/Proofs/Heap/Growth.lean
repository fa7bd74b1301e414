import CopyingHeap.Proofs.Heap.WellFormed
import CopyingHeap.Proofs.Memory.Growth
import CopyingHeap.Proofs.Outcome

/-!
Growth of the spaces. The active space keeps its start and its contents; the scratch space, which is
empty, moves to where the larger one fits. A growth that fails leaves the program without memory.
-/

namespace CopyingHeap

namespace Semispaces

/-- Two spaces of one size, neither of them below the base of the heap, that lie in memory and under the
start bits and do not overlap. -/
structure Spread (s : Semispaces) (m : Memory) : Prop where
  extent_eq : s.scratch.extent = s.active.extent
  base_le_active : s.base ≤ s.active.start
  base_le_scratch : s.base ≤ s.scratch.start
  active_inside : s.active.start.toNat + s.active.extent ≤ 4 * m.words.size
  scratch_inside : s.scratch.start.toNat + s.active.extent ≤ 4 * m.words.size
  active_covered : s.bits.Covers (s.active.start.toNat + s.active.extent)
  scratch_covered : s.bits.Covers (s.scratch.start.toNat + s.active.extent)
  disjoint : s.active.start.toNat + s.active.extent ≤ s.scratch.start.toNat ∨
    s.scratch.start.toNat + s.active.extent ≤ s.active.start.toNat

theorem Placed.spread {s : Semispaces} {m : Memory} (hs : s.Placed m) : s.Spread m :=
  { hs with }

theorem grownExtent_eq_some {extent required minGrowth n : Nat}
    (h : grownExtent extent required minGrowth = .ok (some n)) :
    n % 4 = 0 ∧ 2 * extent ≤ n ∧ required ≤ n ∧ extent + minGrowth ≤ n := by
  obtain ⟨double, hdouble, hn⟩ := bind_eq_ok_iff.mp h
  obtain ⟨-, rfl⟩ := Size.add_eq_ok_iff.mp hdouble
  replace hn := Except.ok.inj hn
  split at hn
  · rename_i hlt
    injection hn with hn
    -- The greatest count cannot have been wanted: rounding it up leaves 64 bits.
    simp only [Size.highest, Size.bound] at hlt hn
    omega
  · cases hn

theorem grownLayout_spec {s : Semispaces} {extent : Nat} {past scratch stop : Address}
    (h : s.grownLayout extent = some (past, scratch, stop)) :
    past.toNat = s.active.start.toNat + extent ∧ stop.toNat = scratch.toNat + extent ∧
      (scratch = s.base ∧ s.base.toNat + extent ≤ s.active.start.toNat ∨ scratch = past) := by
  unfold grownLayout at h
  cases hp : s.active.start.add? extent with
  | none =>
    rw [hp] at h
    nomatch h
  | some p =>
    cases ht : (scratchStart s.base s.active.start p extent).add? extent with
    | none =>
      rw [hp] at h
      simp [ht] at h
    | some t =>
      rw [hp] at h
      simp only [Option.bind_eq_bind, Option.bind_some, ht] at h
      injection h with h
      injection h with h1 h2
      injection h2 with h2 h3
      subst h1 h2 h3
      refine ⟨Address.add?_eq_some_iff.mp hp, Address.add?_eq_some_iff.mp ht, ?_⟩
      unfold scratchStart
      split
      · rename_i below hb
        rw [Address.add?_eq_some_iff] at hb
        split
        · rename_i hle
          rw [Address.le_iff] at hle
          exact .inl ⟨rfl, by omega⟩
        · exact .inr rfl
      · exact .inr rfl

/-- What a growth that succeeds has computed on its way. -/
theorem grow_eq_ok {s t : Semispaces} {m n : Memory} {required minGrowth : Nat}
    (h : s.grow m required minGrowth = .ok (.ok (t, n))) :
    ∃ extent past scratch stop bits,
      grownExtent s.active.extent required minGrowth = .ok (some extent) ∧
      s.grownLayout extent = some (past, scratch, stop) ∧
      m.ensure (max past stop) = .ok (.ok n) ∧
      s.bits.ensureCovers (max past stop).toNat = .ok bits ∧
      t = ⟨{ s.active with extent }, { s.scratch with start := scratch, extent }, s.base, bits⟩ := by
  obtain ⟨extent?, hextent, h⟩ := bind_eq_ok_iff.mp h
  cases extent? with
  | none => cases h
  | some extent =>
    dsimp only at h
    cases hlayout : s.grownLayout extent with
    | none =>
      rw [hlayout] at h
      cases h
    | some places =>
      obtain ⟨past, scratch, stop⟩ := places
      rw [hlayout] at h
      obtain ⟨grown, hensure, h⟩ := bind_eq_ok_iff.mp h
      cases grown with
      | error refusal => cases h
      | ok memory =>
        obtain ⟨bits, hbits, h⟩ := bind_eq_ok_iff.mp h
        cases h
        exact ⟨extent, past, scratch, stop, bits, hextent, hlayout, hensure, hbits, rfl⟩

/-- A growth has left the data where it was and made both spaces larger: twice as large as before, large
enough for what was required, and larger by the least growth. -/
structure Grown (s : Semispaces) (m : Memory) (required minGrowth : Nat) (t : Semispaces)
    (n : Memory) : Prop where
  paged : n.Paged
  base : t.base = s.base
  start : t.active.start = s.active.start
  extent_words : t.active.extent % 4 = 0
  double_le : 2 * s.active.extent ≤ t.active.extent
  required_le : required ≤ t.active.extent
  step_le : s.active.extent + minGrowth ≤ t.active.extent
  spread : t.Spread n
  /-- The scratch space begins where the heap does, or where the active space ends. -/
  scratch_start : t.scratch.start = s.base ∨
    t.scratch.start.toNat = s.active.start.toNat + t.active.extent
  size_le : m.words.size ≤ n.words.size
  kept : ∀ i, i < m.words.size → n.words[i]? = m.words[i]?
  zero : ∀ i, m.words.size ≤ i → i < n.words.size → n.words[i]? = some 0
  isSet : ∀ a, t.bits.isSet a = s.bits.isSet a

theorem Spread.grown {s t : Semispaces} {m n : Memory} (hs : s.Spread m) (hm : m.Paged)
    {required minGrowth : Nat} (h : s.grow m required minGrowth = .ok (.ok (t, n))) :
    s.Grown m required minGrowth t n := by
  obtain ⟨extent, past, scratch, stop, bits, hextent, hlayout, hensure, hbits, rfl⟩ := grow_eq_ok h
  obtain ⟨hwords, hdouble, hrequired, hstep⟩ := grownExtent_eq_some hextent
  obtain ⟨hpast, hstop, hscratch⟩ := grownLayout_spec hlayout
  have hbase := Address.le_iff.mp hs.base_le_active
  have hmax := Address.toNat_max past stop
  obtain ⟨bits', hbits', hcovers, -, hset⟩ := s.bits.ensureCovers_spec (max past stop).toNat_lt
  obtain rfl : bits' = bits := Except.ok.inj (hbits'.symm.trans hbits)
  rcases hm.ensure (max past stop) with ⟨refusal, he, -⟩ | ⟨n', he, hn, hend, hsize, hword⟩
  · rw [hensure] at he
    cases he
  · obtain rfl : n' = n := Except.ok.inj (Except.ok.inj (he.symm.trans hensure))
    unfold StartBits.Covers at hcovers
    refine
      { paged := hn
        base := rfl
        start := rfl
        extent_words := hwords
        double_le := hdouble
        required_le := hrequired
        step_le := hstep
        spread := ?_
        scratch_start := ?_
        size_le := hsize
        kept := fun i hi => ?_
        zero := fun i hi hi' => ?_
        isSet := hset }
    · exact
        { extent_eq := rfl
          base_le_active := hs.base_le_active
          base_le_scratch := by
            rw [Address.le_iff]
            dsimp only
            rcases hscratch with ⟨rfl, -⟩ | rfl <;> omega
          active_inside := by dsimp only; omega
          scratch_inside := by dsimp only; omega
          active_covered := by unfold StartBits.Covers; dsimp only; omega
          scratch_covered := by unfold StartBits.Covers; dsimp only; omega
          disjoint := by
            dsimp only
            rcases hscratch with ⟨rfl, hbelow⟩ | rfl <;> omega }
    · dsimp only
      rcases hscratch with ⟨rfl, -⟩ | rfl
      · exact .inl rfl
      · exact .inr hpast
    · rw [Memory.getElem?_eq_word (by omega), Memory.getElem?_eq_word hi, hword]
    · rw [Memory.getElem?_eq_word hi', hword, Memory.word_of_size_le hi]

/-- Where the spaces are does not depend on what the memory and the start bits hold. -/
theorem Placed.congr {s : Semispaces} {m n : Memory} {bits : StartBits} (hs : s.Placed m)
    (hsize : n.words.size = m.words.size) (hcells : bits.cells.size = s.bits.cells.size) :
    Placed ⟨s.active, s.scratch, s.base, bits⟩ n :=
  { hs with
    active_inside := hsize ▸ hs.active_inside
    scratch_inside := hsize ▸ hs.scratch_inside
    active_covered := by
      rw [StartBits.Covers, hcells]
      exact hs.active_covered
    scratch_covered := by
      rw [StartBits.Covers, hcells]
      exact hs.scratch_covered }

/-- What a growth does to the spaces wherever the heap begins: the active space keeps its start and its
contents, and has room for what was required. The scratch space is aligned if the base of the heap is. -/
structure Widened (s : Semispaces) (m : Memory) (required : Nat) (t : Semispaces) (n : Memory) :
    Prop where
  paged : n.Paged
  word : ∀ i, n.word i = m.word i
  size_le : m.words.size ≤ n.words.size
  base : t.base = s.base
  start : t.active.start = s.active.start
  extent_le : s.active.extent ≤ t.active.extent
  required_le : required ≤ t.active.extent
  inside : t.active.start.toNat + t.active.extent ≤ 4 * n.words.size
  covered : t.bits.Covers (t.active.start.toNat + t.active.extent)
  isSet : ∀ a, t.bits.isSet a = s.bits.isSet a
  placed : s.base.WordAligned → t.Placed n

theorem Grown.word {s t : Semispaces} {m n : Memory} {required minGrowth : Nat}
    (hg : s.Grown m required minGrowth t n) (i : Nat) : n.word i = m.word i := by
  rcases Nat.lt_or_ge i m.words.size with hi | hi
  · have hkept := hg.kept i hi
    rw [Memory.getElem?_eq_word hi] at hkept
    exact Memory.word_eq_of_getElem? hkept
  · rw [Memory.word_of_size_le hi]
    rcases Nat.lt_or_ge i n.words.size with hi' | hi'
    · exact Memory.word_eq_of_getElem? (hg.zero i hi hi')
    · exact Memory.word_of_size_le hi'

theorem Grown.scratch_aligned {s t : Semispaces} {m n : Memory} {required minGrowth : Nat}
    (hg : s.Grown m required minGrowth t n) (hbase : s.base.WordAligned)
    (hactive : s.active.start.WordAligned) : t.scratch.start.WordAligned := by
  have hwords := hg.extent_words
  unfold Address.WordAligned at *
  rcases hg.scratch_start with hstart | hstart
  · rw [hstart]
    exact hbase
  · omega

/-- A growth of spaces that are placed places them anew. -/
theorem Grown.widened {s t : Semispaces} {m n : Memory} {required minGrowth : Nat}
    (hg : s.Grown m required minGrowth t n) (hs : s.Placed m) : s.Widened m required t n where
  paged := hg.paged
  word := hg.word
  size_le := hg.size_le
  base := hg.base
  start := hg.start
  extent_le := by
    have h := hg.double_le
    omega
  required_le := hg.required_le
  inside := hg.spread.active_inside
  covered := hg.spread.active_covered
  isSet := hg.isSet
  placed := fun hbase =>
    { hg.spread with
      active_aligned := hg.start ▸ hs.active_aligned
      scratch_aligned := hg.scratch_aligned hbase hs.active_aligned
      extent_words := hg.extent_words
      reserved := hg.base ▸ hs.reserved }

/-- A growth fails only for want of memory. -/
theorem Placed.grow {s : Semispaces} {m : Memory} (hs : s.Placed m) (hm : m.Paged)
    (required minGrowth : Nat) :
    ∃ x, s.grow m required minGrowth = .ok x ∧
      ((∃ cause, x = .error cause ∧ (Fault.outOfMemory cause).Exhausted) ∨
        ∃ t n, x = .ok (t, n) ∧ s.Widened m required t n) := by
  have hinside := hs.active_inside
  have hsize := hm.size_le
  obtain ⟨extent?, hextent⟩ : ∃ x, grownExtent s.active.extent required minGrowth = .ok x := by
    rw [grownExtent, Size.double, Size.add_eq_ok (by omega)]
    exact ⟨_, rfl⟩
  have hwidened {t n} (h : s.grow m required minGrowth = .ok (.ok (t, n))) :=
    (hs.spread.grown hm h).widened hs
  rw [Semispaces.grow, hextent, ok_bind] at hwidened ⊢
  cases extent? with
  | none => exact ⟨_, rfl, .inl ⟨_, rfl, trivial⟩⟩
  | some extent =>
    dsimp only at hwidened ⊢
    cases hlayout : s.grownLayout extent with
    | none => exact ⟨_, rfl, .inl ⟨_, rfl, trivial⟩⟩
    | some places =>
      obtain ⟨past, scratch, stop⟩ := places
      rw [hlayout] at hwidened
      dsimp only at hwidened ⊢
      rcases hm.ensure (max past stop) with ⟨refusal, he, -⟩ | ⟨n, he, -⟩
      · rw [he]
        exact ⟨_, rfl, .inl ⟨_, rfl, trivial⟩⟩
      · obtain ⟨bits, hbits, -⟩ := s.bits.ensureCovers_spec (max past stop).toNat_lt
        rw [he, ok_bind] at hwidened ⊢
        dsimp only at hwidened ⊢
        rw [hbits] at hwidened ⊢
        exact ⟨_, rfl, .inr ⟨_, n, rfl, hwidened rfl⟩⟩

end Semispaces

end CopyingHeap
