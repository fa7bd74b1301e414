import CopyingHeap.Proofs.Collection.Tracing
import CopyingHeap.Proofs.Heap.Build
import CopyingHeap.Proofs.Heap.Growth

/-!
The spaces through collections and growths. A collection exchanges them, whatever the memory holds, and a
growth moves the scratch space; neither lets them overlap or leave the memory. So the layout of the
spaces lasts however collections and growths follow one another, with anything written in between.
-/

namespace CopyingHeap

namespace Evacuation

/-- The memory and the start bits have kept their sizes. -/
structure Sized (m : Memory) (bits : StartBits) (e : Evacuation) (n : Memory) : Prop where
  size : n.words.size = m.words.size
  maxPages : n.maxPages = m.maxPages
  cells : e.bits.cells.size = bits.cells.size

variable {m : Memory} {bits : StartBits} {source : Space} {e : Evacuation} {n : Memory}

theorem Sized.store {n' : Memory} {a : Address} {w : Word} (hn : n.store a w = .ok n')
    (hs : e.Sized m bits n) : e.Sized m bits n' where
  size := (Memory.size_store hn).trans hs.size
  maxPages := (Memory.maxPages_store hn).trans hs.maxPages
  cells := hs.cells

theorem Sized.copy {n' : Memory} {a b : Address} {bytes : Nat} (hn : n.copy a b bytes = .ok n')
    (hs : e.Sized m bits n) : e.Sized m bits n' := by
  obtain ⟨-, -, -, -, -, rfl⟩ := Memory.copy_eq_ok_iff.mp hn
  exact ⟨(Memory.size_overwrite _ _ _).trans hs.size, hs.maxPages, hs.cells⟩

theorem Sized.forward (hs : e.Sized m bits n) (r target : Reference) :
    Ends (n.forward r target) (fun n' => e.Sized m bits n') fun _ => True := by
  apply Ends.bind_forall
  intro forwarded
  split
  · apply Ends.bind_forall
    intro target'
    trivial
  · apply Ends.bind_eq
    intro n₁ hn₁
    apply Ends.bind_forall
    intro second
    cases hn₂ : n₁.store second target.word with
    | error f => trivial
    | ok n₂ => exact (hs.store hn₁).store hn₂

theorem Sized.copyWhole (hs : e.Sized m bits n) (r : Reference) (k : Kind) (bytes : Nat) :
    Ends (e.copyWhole n r k bytes) (fun x => x.2.1.Sized m bits x.2.2) fun _ => True := by
  obtain ⟨bump, ebits, statistics⟩ := e
  apply Ends.bind_forall
  rintro ⟨a, bump'⟩
  apply Ends.bind_eq
  intro n₁ hcopy
  apply Ends.bind_forall
  intro target
  apply ((hs.copy hcopy).forward r target).bind
  intro n₂ hforward
  apply Ends.bind_eq
  intro ebits' hset
  apply Ends.bind_forall
  intro statistics'
  exact ⟨hforward.size, hforward.maxPages, (StartBits.size_set hset).trans hs.cells⟩

theorem Sized.keeps : (trace source).Keeps (Sized m bits) :=
  keeps_of_copyWhole (fun _ _ r k bytes hs => hs.copyWhole r k bytes) fun hn hs => hs.store hn

end Evacuation

namespace Semispaces

/-- The two spaces have changed places. -/
structure Swapped (s : Semispaces) (m : Memory) (t : Semispaces) (n : Memory) : Prop where
  base : t.base = s.base
  active_start : t.active.start = s.scratch.start
  active_extent : t.active.extent = s.scratch.extent
  scratch_start : t.scratch.start = s.active.start
  scratch_extent : t.scratch.extent = s.active.extent
  size : n.words.size = m.words.size
  maxPages : n.maxPages = m.maxPages
  cells : t.bits.cells.size = s.bits.cells.size

/-- A collection that returns has exchanged the spaces, whatever it has found in memory. -/
theorem collect_swapped (s : Semispaces) (m : Memory) (roots : AddressRange)
    (statistics : Statistics) (zero : Bool) :
    Ends (s.collect m roots statistics zero) (fun x => s.Swapped m x.2.1 x.2.2.1)
      fun _ => True := by
  apply Ends.bind_forall
  intro stop
  apply Ends.bind_forall
  intro bump
  have hstart : Evacuation.Sized m s.bits ⟨bump, s.bits, statistics⟩ m := ⟨rfl, rfl, rfl⟩
  apply (Evacuation.traceRoots_keeps Evacuation.Sized.keeps hstart _ _ _).bind
  rintro ⟨found, e, m'⟩ he
  apply (Evacuation.close_keeps Evacuation.Sized.keeps he _).bind
  rintro ⟨⟨bump', bits, statistics'⟩, n⟩ hn
  apply (Space.release_spec _ n bits zero).bind
  rintro ⟨source, n', bits'⟩ ⟨hsource, hsize, hmax, hcells⟩
  apply Ends.bind_forall
  intro liveBytes
  apply Ends.bind_forall
  intro statistics''
  dsimp only at hsource hsize hmax hcells
  subst hsource
  exact
    { base := rfl
      active_start := rfl
      active_extent := rfl
      scratch_start := rfl
      scratch_extent := rfl
      size := hsize.trans hn.size
      maxPages := hmax.trans hn.maxPages
      cells := hcells.trans hn.cells }

/-- The spaces and the memory that collections and growths make of `s` and `m`. In between, the memory and
the start bits may be written, and enlarged. -/
inductive Evolves (s : Semispaces) (m : Memory) : Semispaces → Memory → Prop where
  | start : Evolves s m s m
  | write {t : Semispaces} {n n' : Memory} {bits : StartBits} :
      Evolves s m t n → n'.Paged → n.words.size ≤ n'.words.size →
      t.bits.cells.size ≤ bits.cells.size →
      Evolves s m ⟨t.active, t.scratch, t.base, bits⟩ n'
  | collect {t u : Semispaces} {n n' : Memory} {roots : AddressRange} {statistics after : Statistics}
      {zero : Bool} {cursor : Address} :
      Evolves s m t n → t.collect n roots statistics zero = .ok (cursor, u, n', after) →
      Evolves s m u n'
  | grow {t u : Semispaces} {n n' : Memory} {required minGrowth : Nat} :
      Evolves s m t n → t.grow n required minGrowth = .ok (.ok (u, n')) → Evolves s m u n'

/-- The spaces are laid out as a collection needs them. -/
structure Laid (s : Semispaces) (m : Memory) : Prop extends s.Spread m where
  active_aligned : s.active.start.WordAligned
  scratch_aligned : s.scratch.start.WordAligned

theorem Spread.write {s : Semispaces} {m n : Memory} {bits : StartBits} (hs : s.Spread m)
    (hsize : m.words.size ≤ n.words.size) (hcells : s.bits.cells.size ≤ bits.cells.size) :
    Spread ⟨s.active, s.scratch, s.base, bits⟩ n := by
  have hactive := hs.active_inside
  have hscratch := hs.scratch_inside
  have hactive' := hs.active_covered
  have hscratch' := hs.scratch_covered
  unfold StartBits.Covers at hactive' hscratch'
  exact
    { hs with
      active_inside := by dsimp only; omega
      scratch_inside := by dsimp only; omega
      active_covered := by unfold StartBits.Covers; dsimp only; omega
      scratch_covered := by unfold StartBits.Covers; dsimp only; omega }

/-- The two spaces are of one size, so that each may take the place of the other. -/
theorem Spread.swap {s t : Semispaces} {m n : Memory} (hs : s.Spread m) (ht : s.Swapped m t n) :
    t.Spread n := by
  have hextent : t.active.extent = s.active.extent := ht.active_extent.trans hs.extent_eq
  have hcells := ht.cells
  exact
    { extent_eq := by rw [ht.scratch_extent, hextent]
      base_le_active := ht.base ▸ ht.active_start ▸ hs.base_le_scratch
      base_le_scratch := ht.base ▸ ht.scratch_start ▸ hs.base_le_active
      active_inside := by rw [ht.active_start, hextent, ht.size]; exact hs.scratch_inside
      scratch_inside := by rw [ht.scratch_start, hextent, ht.size]; exact hs.active_inside
      active_covered := by
        rw [StartBits.Covers, hcells, ht.active_start, hextent]
        exact hs.scratch_covered
      scratch_covered := by
        rw [StartBits.Covers, hcells, ht.scratch_start, hextent]
        exact hs.active_covered
      disjoint := by
        rw [ht.active_start, ht.scratch_start, hextent]
        exact hs.disjoint.symm }

/-- What lasts, from one state of the spaces to a later one. -/
structure Lasts (s : Semispaces) (t : Semispaces) (n : Memory) : Prop where
  laid : t.Laid n
  paged : n.Paged
  base : t.base = s.base
  extent_words : s.active.extent % 4 = 0 → t.active.extent % 4 = 0

theorem Laid.lasts {s t : Semispaces} {m n : Memory} (hm : m.Paged) (hs : s.Laid m)
    (hbase : s.base.WordAligned) (h : s.Evolves m t n) : s.Lasts t n := by
  induction h with
  | start => exact ⟨hs, hm, rfl, id⟩
  | write _ hpaged hsize hcells ih =>
    exact
      { laid := { ih.laid.toSpread.write hsize hcells with
          active_aligned := ih.laid.active_aligned
          scratch_aligned := ih.laid.scratch_aligned }
        paged := hpaged
        base := ih.base
        extent_words := ih.extent_words }
  | collect _ hu ih =>
    have hswap := (collect_swapped _ _ _ _ _).of_ok hu
    obtain ⟨p, hp, hle⟩ := ih.paged.pages
    exact
      { laid := { ih.laid.toSpread.swap hswap with
          active_aligned := hswap.active_start ▸ ih.laid.scratch_aligned
          scratch_aligned := hswap.scratch_start ▸ ih.laid.active_aligned }
        paged := ⟨⟨p, hswap.size.trans hp, hswap.maxPages ▸ hle⟩, hswap.maxPages ▸ ih.paged.maximum⟩
        base := hswap.base.trans ih.base
        extent_words := by
          rw [hswap.active_extent, ih.laid.extent_eq]
          exact ih.extent_words }
  | grow _ hu ih =>
    have hg := ih.laid.toSpread.grown ih.paged hu
    exact
      { laid := { hg.spread with
          active_aligned := hg.start ▸ ih.laid.active_aligned
          scratch_aligned := hg.scratch_aligned (ih.base ▸ hbase) ih.laid.active_aligned }
        paged := hg.paged
        base := hg.base.trans ih.base
        extent_words := fun _ => hg.extent_words }

/-- The spaces have come from a split. -/
def Made (s : Semispaces) (m : Memory) : Prop :=
  ∃ base extent start m₀, split base extent = .ok start ∧ start.Evolves m₀ s m

/-- Where a space starts and where the heap does differ by whole words. -/
def Congruent (s : Semispaces) : Prop :=
  s.active.start.toNat % 4 = s.base.toNat % 4 ∧ s.scratch.start.toNat % 4 = s.base.toNat % 4

theorem congruent_split {base : Address} {extent : Nat} {s : Semispaces}
    (hs : split base extent = .ok s) : s.Congruent := by
  unfold split at hs
  split at hs
  · rename_i hwords
    obtain ⟨middle, hmiddle, hs⟩ := bind_eq_ok_iff.mp hs
    obtain ⟨past, -, hs⟩ := bind_eq_ok_iff.mp hs
    obtain ⟨bits, -, hs⟩ := bind_eq_ok_iff.mp hs
    rw [Address.add_eq_ok_iff] at hmiddle
    rw [Size.wordBytes] at hwords
    cases hs
    refine ⟨rfl, ?_⟩
    dsimp only
    omega
  · cases hs

theorem Evolves.congruent {s t : Semispaces} {m n : Memory} (h : s.Evolves m t n)
    (hs : s.Congruent) : t.Congruent := by
  induction h with
  | start => exact hs
  | write _ _ _ _ ih => exact ih
  | collect _ hu ih =>
    have hswap := (collect_swapped _ _ _ _ _).of_ok hu
    rw [Congruent, hswap.active_start, hswap.scratch_start, hswap.base]
    exact ih.symm
  | grow _ hu ih =>
    obtain ⟨extent, past, scratch, stop, bits, hextent, hlayout, -, -, rfl⟩ := grow_eq_ok hu
    obtain ⟨hwords, -⟩ := grownExtent_eq_some hextent
    obtain ⟨hpast, -, hscratch⟩ := grownLayout_spec hlayout
    refine ⟨ih.1, ?_⟩
    have hactive := ih.1
    dsimp only
    rcases hscratch with ⟨rfl, -⟩ | rfl
    · rfl
    · omega

theorem Made.base_aligned {s : Semispaces} {m : Memory} (hs : s.Made m)
    (haligned : s.active.start.WordAligned) : s.base.WordAligned := by
  obtain ⟨base, extent, start, m₀, hsplit, hevolves⟩ := hs
  have hcongruent := (hevolves.congruent (congruent_split hsplit)).1
  exact hcongruent.symm.trans haligned

/-- Growth keeps the layout sound and the data in place. Spaces that have come from a split, or whose heap
begins at a word, stay laid out through all collections and growths. -/
theorem Laid.evolution {s : Semispaces} {m : Memory} (hm : m.Paged) (hs : s.Laid m) :
    (∀ required minGrowth t n, s.grow m required minGrowth = .ok (.ok (t, n)) →
      s.Grown m required minGrowth t n) ∧
    (s.Made m ∨ s.base.WordAligned → ∀ t n, s.Evolves m t n → s.Lasts t n) := by
  refine ⟨fun required minGrowth t n h => hs.toSpread.grown hm h, fun hbase t n h => ?_⟩
  rcases hbase with hmade | hbase
  · exact hs.lasts hm (hmade.base_aligned hs.active_aligned) h
  · exact hs.lasts hm hbase h

/-- Two spaces of 64 bytes, from address 64 on. -/
def narrow : Semispaces :=
  ⟨⟨"copyspace0", .ofNat 64, 64, false⟩, ⟨"copyspace1", .ofNat 128, 64, true⟩, .ofNat 64, ⟨#[0]⟩⟩

theorem split_narrow : split (.ofNat 64) 64 = .ok narrow := by
  have hmiddle : (Address.ofNat 64).add 64 = .ok (.ofNat 128) := by
    decide +kernel
  have hpast : (Address.ofNat 128).add 64 = .ok (.ofNat 192) := by
    decide +kernel
  have hbits : StartBits.covering (Address.ofNat 192).toNat = .ok ⟨#[0]⟩ := by
    decide +kernel
  rw [split, if_pos (by decide), hmiddle, ok_bind, hpast, ok_bind, hbits, ok_bind]
  rfl

theorem laid_narrow : narrow.Laid Heap.blank where
  extent_eq := rfl
  base_le_active := by decide
  base_le_scratch := by decide
  active_inside := by rw [Heap.size_blank]; decide
  scratch_inside := by rw [Heap.size_blank]; decide
  active_covered := by unfold StartBits.Covers; decide
  scratch_covered := by unfold StartBits.Covers; decide
  disjoint := by decide
  active_aligned := by decide
  scratch_aligned := by decide

theorem grow_narrow : narrow.grow Heap.blank 100 0 =
    .ok (.ok (⟨{ narrow.active with extent := 128 },
      { narrow.scratch with start := .ofNat 192, extent := 128 }, narrow.base, ⟨#[0, 0]⟩⟩,
      Heap.blank)) := by
  have hextent : grownExtent narrow.active.extent 100 0 = .ok (some 128) := by
    decide +kernel
  have hlayout : narrow.grownLayout 128 = some (.ofNat 192, .ofNat 192, .ofNat 320) := by
    decide +kernel
  have hensure : Heap.blank.ensure (max (.ofNat 192) (.ofNat 320)) = .ok (.ok Heap.blank) := by
    refine if_pos ?_
    rw [Address.le_iff, Memory.toNat_stop Heap.paged_blank, Heap.size_blank]
    decide
  have hbits : narrow.bits.ensureCovers (max (Address.ofNat 192) (.ofNat 320)).toNat =
      .ok ⟨#[0, 0]⟩ := by
    decide +kernel
  rw [grow, hextent, ok_bind]
  dsimp only
  rw [hlayout]
  dsimp only
  rw [hensure, ok_bind]
  dsimp only
  rw [hbits, ok_bind]
  rfl

theorem evolution_narrow : ∃ t,
    narrow.grow Heap.blank 100 0 = .ok (.ok (t, Heap.blank)) ∧ narrow.Laid Heap.blank ∧
      narrow.Grown Heap.blank 100 0 t Heap.blank ∧ narrow.Lasts t Heap.blank := by
  obtain ⟨hgrown, hlasts⟩ := laid_narrow.evolution Heap.paged_blank
  exact ⟨_, grow_narrow, laid_narrow, hgrown _ _ _ _ grow_narrow,
    hlasts (.inl ⟨_, _, _, _, split_narrow, .start⟩) _ _ (.grow .start grow_narrow)⟩

end Semispaces

end CopyingHeap
