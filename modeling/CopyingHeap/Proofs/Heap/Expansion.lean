import CopyingHeap.Proofs.Heap.Evolution
import CopyingHeap.Proofs.Memory.Limit

/-!
When a growth of the spaces succeeds. The layout that it aims at is computed here in natural numbers.
The growth fails exactly if that layout leaves the 32-bit address space or needs more pages than the
host allows, and then it has changed nothing: not the spaces, not the start bits, not the memory.
-/

namespace CopyingHeap

open Effect

namespace Semispaces

variable {s t : Semispaces} {m n : Memory} {extent required minGrowth : Nat}

/-- The extent of both spaces after a growth: twice as large as before, large enough for what is required
and larger by the least growth, in whole words. -/
def wantedExtent (s : Semispaces) (required minGrowth : Nat) : Nat :=
  (max (max (2 * s.active.extent) required) (s.active.extent + minGrowth) + 3) / 4 * 4

/-- Where the scratch space is to start: at the base of the heap if it fits below the active space, else
right after the active space. -/
def wantedScratch (s : Semispaces) (extent : Nat) : Nat :=
  if s.base.toNat + extent ≤ s.active.start.toNat then s.base.toNat
  else s.active.start.toNat + extent

/-- The end of the space that ends last. -/
def wantedStop (s : Semispaces) (extent : Nat) : Nat :=
  max (s.active.start.toNat + extent) (s.wantedScratch extent + extent)

theorem grownExtent_eq (hdouble : 2 * s.active.extent < 0x10000000000000000) :
    grownExtent s.active.extent required minGrowth = .ok none ∧
        0x100000000 ≤ s.wantedStop (s.wantedExtent required minGrowth) ∨
      grownExtent s.active.extent required minGrowth =
        .ok (some (s.wantedExtent required minGrowth)) := by
  unfold wantedStop wantedExtent
  unfold grownExtent Size.double Size.highest Size.bound
  rw [Size.add_eq_ok (by omega), ok_bind, ← Nat.two_mul]
  dsimp only
  by_cases hround : max (max (2 * s.active.extent) required) (s.active.extent + minGrowth) + 3 <
      0x10000000000000000
  · rw [Nat.min_eq_left (by omega), if_pos hround]
    exact .inr rfl
  · rw [if_neg (by omega)]
    exact .inl ⟨rfl, by omega⟩

theorem toNat_scratchStart {past : Address} (hpast : past.toNat = s.active.start.toNat + extent) :
    (scratchStart s.base s.active.start past extent).toNat = s.wantedScratch extent := by
  have hstart := s.active.start.toNat_lt
  unfold scratchStart wantedScratch
  cases hbelow : s.base.add? extent with
  | none =>
    have hbelow := Address.add?_eq_none_iff.mp hbelow
    rw [if_neg (by omega)]
    exact hpast
  | some below =>
    have hbelow := Address.add?_eq_some_iff.mp hbelow
    dsimp only
    by_cases hle : below ≤ s.active.start
    · rw [if_pos hle]
      rw [Address.le_iff] at hle
      rw [if_pos (by omega)]
    · rw [if_neg hle]
      rw [Address.le_iff] at hle
      rw [if_neg (by omega)]
      exact hpast

theorem grownLayout_fits (hfits : s.wantedStop extent < 0x100000000) :
    s.grownLayout extent = some (Address.ofNat (s.active.start.toNat + extent),
      Address.ofNat (s.wantedScratch extent), Address.ofNat (s.wantedScratch extent + extent)) := by
  unfold wantedStop at hfits
  have hpast : s.active.start.add? extent = some (Address.ofNat (s.active.start.toNat + extent)) :=
    if_pos (by omega)
  have hscratch : scratchStart s.base s.active.start
      (Address.ofNat (s.active.start.toNat + extent)) extent =
        Address.ofNat (s.wantedScratch extent) := by
    apply Address.ext_toNat
    rw [toNat_scratchStart (by rw [Address.toNat_ofNat]; omega), Address.toNat_ofNat]
    omega
  have hstop : (Address.ofNat (s.wantedScratch extent)).add? extent =
      some (Address.ofNat (s.wantedScratch extent + extent)) := by
    rw [Address.add?_eq_some_iff, Address.toNat_ofNat, Address.toNat_ofNat]
    omega
  unfold grownLayout
  rw [hpast]
  simp only [Option.bind_eq_bind, Option.bind_some, hscratch, hstop]
  rfl

theorem grownLayout_exhausted (hexceeds : 0x100000000 ≤ s.wantedStop extent) :
    s.grownLayout extent = none := by
  cases hlayout : s.grownLayout extent with
  | none => rfl
  | some places =>
    obtain ⟨past, scratch, stop⟩ := places
    have hpast := past.toNat_lt
    have hstop := stop.toNat_lt
    obtain ⟨hpast', hstop', hscratch⟩ := grownLayout_spec hlayout
    unfold wantedStop wantedScratch at hexceeds
    have hstart := s.active.start.toNat_lt
    split at hexceeds
    · omega
    · rcases hscratch with ⟨-, hbelow⟩ | rfl
      · contradiction
      · omega

/-- The end of the layout that a growth aims at. -/
def grownStop (s : Semispaces) (required minGrowth : Nat) : Nat :=
  s.wantedStop (s.wantedExtent required minGrowth)

/-- The spaces after a growth, under start bits that cover them. -/
def withExtent (s : Semispaces) (extent : Nat) (bits : StartBits) : Semispaces :=
  ⟨{ s.active with extent }, { s.scratch with start := .ofNat (s.wantedScratch extent), extent },
    s.base, bits⟩

theorem toNat_grownStop (hfits : s.grownStop required minGrowth < 0x100000000) :
    (Address.ofNat (s.grownStop required minGrowth)).toNat = s.grownStop required minGrowth :=
  Address.toNat_ofNat_of_lt hfits

theorem max_grownStop (hfits : s.grownStop required minGrowth < 0x100000000) :
    max (Address.ofNat (s.active.start.toNat + s.wantedExtent required minGrowth))
        (Address.ofNat (s.wantedScratch (s.wantedExtent required minGrowth) +
          s.wantedExtent required minGrowth)) = Address.ofNat (s.grownStop required minGrowth) := by
  unfold grownStop wantedStop at hfits ⊢
  apply Address.ext_toNat
  rw [Address.toNat_max, Address.toNat_ofNat, Address.toNat_ofNat, Address.toNat_ofNat]
  omega

section

variable (hdouble : 2 * s.active.extent < 0x10000000000000000)

include hdouble

theorem growing_exhausted (hexceeds : 0x100000000 ≤ s.grownStop required minGrowth) :
    (growing required minGrowth).run (s, m) = .ok (.error (.heapExhausted required)) (s, m) := by
  unfold growing
  rw [run_get_bind]
  dsimp only
  rcases grownExtent_eq hdouble with ⟨hextent, -⟩ | hextent
  · rw [hextent, run_check_bind]
    rfl
  · rw [hextent, run_check_bind]
    dsimp only
    rw [grownLayout_exhausted hexceeds]
    rfl

theorem grownExtent_fits (hfits : s.grownStop required minGrowth < 0x100000000) :
    grownExtent s.active.extent required minGrowth =
      .ok (some (s.wantedExtent required minGrowth)) := by
  rcases grownExtent_eq (s := s) hdouble with ⟨-, hexceeds⟩ | hextent
  · exact absurd hfits (Nat.not_lt.mpr hexceeds)
  · exact hextent

theorem growing_refused (hm : m.Paged) (hfits : s.grownStop required minGrowth < 0x100000000)
    (hexceeds : m.maxPages < Memory.pagesFor (s.grownStop required minGrowth)) :
    (growing required minGrowth).run (s, m) =
      .ok (.error (.growFailed ⟨Memory.pagesFor (s.grownStop required minGrowth), m.maxPages⟩)) (s, m) := by
  have hstop := max_grownStop hfits
  have hnat := toNat_grownStop hfits
  have hensure := Memory.ensuring_refused hm (hnat.symm ▸ hexceeds)
  rw [hnat] at hensure
  unfold growing
  rw [run_get_bind]
  dsimp only
  rw [grownExtent_fits hdouble hfits, run_check_bind]
  dsimp only
  rw [grownLayout_fits hfits]
  dsimp only
  rw [hstop, run_bind_ok _ (run_onSecond_ok s hensure)]
  rfl

theorem growing_fits (hm : m.Paged) (hfits : s.grownStop required minGrowth < 0x100000000)
    (hpages : Memory.pagesFor (s.grownStop required minGrowth) ≤ m.maxPages) :
    ∃ bits, s.bits.ensureCovers (s.grownStop required minGrowth) = .ok bits ∧
      (growing required minGrowth).run (s, m) =
        .ok (.ok ()) (s.withExtent (s.wantedExtent required minGrowth) bits,
          m.resize (max m.pages (Memory.pagesFor (s.grownStop required minGrowth)))) := by
  have hstop := max_grownStop hfits
  have hnat := toNat_grownStop hfits
  have hensure := Memory.ensuring_fits hm (hnat.symm ▸ hpages)
  rw [hnat] at hensure
  obtain ⟨bits, hbits, -⟩ := s.bits.ensureCovers_spec hfits
  refine ⟨bits, hbits, ?_⟩
  unfold growing
  rw [run_get_bind]
  dsimp only
  rw [grownExtent_fits hdouble hfits, run_check_bind]
  dsimp only
  rw [grownLayout_fits hfits]
  dsimp only
  rw [hstop, run_bind_ok _ (run_onSecond_ok s hensure)]
  dsimp only
  rw [hnat, hbits, run_check_bind, run_modify_bind,
    run_modify_bind, run_modify_bind]
  rfl

end

/-- How a growth ends. Whether the layout fits the address space, and whether the host has the pages for
it, decide between the three answers; what a growth that fails leaves is what it found. -/
structure Decided (s : Semispaces) (m : Memory) (required minGrowth : Nat) : Prop where
  exhausted_iff : ∀ bytes, s.grow m required minGrowth = .ok (.error (.heapExhausted bytes)) ↔
    0x100000000 ≤ s.grownStop required minGrowth ∧ bytes = required
  refused_iff : ∀ refusal, s.grow m required minGrowth = .ok (.error (.growFailed refusal)) ↔
    s.grownStop required minGrowth < 0x100000000 ∧
      m.maxPages < Memory.pagesFor (s.grownStop required minGrowth) ∧
      refusal = ⟨Memory.pagesFor (s.grownStop required minGrowth), m.maxPages⟩
  grown_iff : (∃ t n, s.grow m required minGrowth = .ok (.ok (t, n))) ↔
    s.grownStop required minGrowth < 0x100000000 ∧
      Memory.pagesFor (s.grownStop required minGrowth) ≤ m.maxPages
  grown : ∀ t n, s.grow m required minGrowth = .ok (.ok (t, n)) →
    (growing required minGrowth).run (s, m) = .ok (.ok ()) (t, n) ∧
      (∃ bits, t = s.withExtent (s.wantedExtent required minGrowth) bits) ∧
      n = m.resize (max m.pages (Memory.pagesFor (s.grownStop required minGrowth)))
  unchanged : ∀ e, s.grow m required minGrowth = .ok (.error e) →
    (growing required minGrowth).run (s, m) = .ok (.error e) (s, m)

/-- A growth fails only if it must, and then it changes nothing. -/
theorem grow_decided (hm : m.Paged)
    (hinside : s.active.start.toNat + s.active.extent ≤ 4 * m.words.size) :
    s.Decided m required minGrowth := by
  have hsize := hm.size_le
  have hdouble : 2 * s.active.extent < 0x10000000000000000 := by omega
  rcases Nat.lt_or_ge (s.grownStop required minGrowth) 0x100000000 with hfits | hexceeds
  · rcases Nat.lt_or_ge m.maxPages (Memory.pagesFor (s.grownStop required minGrowth)) with
      hpages | hpages
    · have hrun := growing_refused hdouble hm hfits hpages
      have hgrow := grow_of_refused hrun
      exact
        { exhausted_iff := fun bytes => by simp [hgrow, Nat.not_le.mpr hfits]
          refused_iff := fun refusal => by simp [hgrow, hfits, hpages, eq_comm]
          grown_iff := by simp [hgrow, Nat.not_le.mpr hpages]
          grown := fun t n h => by simp [hgrow] at h
          unchanged := fun e h => by
            rw [hgrow] at h
            cases h
            exact hrun }
    · obtain ⟨bits, -, hrun⟩ := growing_fits hdouble hm hfits hpages
      have hgrow := grow_of_done hrun
      exact
        { exhausted_iff := fun bytes => by simp [hgrow, Nat.not_le.mpr hfits]
          refused_iff := fun refusal => by simp [hgrow, Nat.not_lt.mpr hpages]
          grown_iff := by simp [hgrow, hfits, hpages]
          grown := fun t n h => by
            rw [hgrow] at h
            cases h
            exact ⟨hrun, ⟨bits, rfl⟩, rfl⟩
          unchanged := fun e h => by simp [hgrow] at h }
  · have hrun := growing_exhausted (m := m) hdouble hexceeds
    have hgrow := grow_of_refused hrun
    exact
      { exhausted_iff := fun bytes => by simp [hgrow, hexceeds, eq_comm]
        refused_iff := fun refusal => by simp [hgrow, Nat.not_lt.mpr hexceeds]
        grown_iff := by simp [hgrow, Nat.not_lt.mpr hexceeds]
        grown := fun t n h => by simp [hgrow] at h
        unchanged := fun e h => by
          rw [hgrow] at h
          cases h
          exact hrun }

/-- A heap of two spaces of 64 bytes in a memory of one page, which the host does not enlarge. -/
theorem decided_narrow : Heap.blank.Paged ∧
    narrow.active.start.toNat + narrow.active.extent ≤ 4 * Heap.blank.words.size ∧
    (∃ t n, narrow.grow Heap.blank 100 0 = .ok (.ok (t, n))) ∧
    narrow.grow Heap.blank 0x10000 0 = .ok (.error (.growFailed ⟨3, 1⟩)) ∧
    (growing 0x10000 0).run (narrow, Heap.blank) =
      .ok (.error (.growFailed ⟨3, 1⟩)) (narrow, Heap.blank) ∧
    narrow.grow Heap.blank 100 0xFFFFFFFFFFFFFFFF =
      .ok (.error (.heapExhausted 100)) := by
  have hinside : narrow.active.start.toNat + narrow.active.extent ≤ 4 * Heap.blank.words.size := by
    rw [Heap.size_blank]
    decide
  have hdecided (required minGrowth : Nat) : narrow.Decided Heap.blank required minGrowth :=
    grow_decided Heap.paged_blank hinside
  have hrefused := ((hdecided 0x10000 0).refused_iff ⟨3, 1⟩).mpr (by decide +kernel)
  refine ⟨Heap.paged_blank, hinside, (hdecided 100 0).grown_iff.mpr (by decide +kernel), hrefused,
    (hdecided 0x10000 0).unchanged _ hrefused,
    ((hdecided 100 0xFFFFFFFFFFFFFFFF).exhausted_iff 100).mpr (by decide +kernel)⟩

end Semispaces

end CopyingHeap
