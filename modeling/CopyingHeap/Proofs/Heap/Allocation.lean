import CopyingHeap.Proofs.Collection.Soundness
import CopyingHeap.Proofs.Heap.Growth

/-!
Allocation. It may collect and grow the spaces, yet the heap it leaves is a twin of the one before,
with a zeroed block more. It fails only for want of memory, or where a counter overflows.
-/

namespace CopyingHeap

namespace Heap

theorem Tiled.congr {h h' : Heap} {xs : List (Reference × Nat)} (ht : h.Tiled xs)
    (hstart : h'.spaces.active.start = h.spaces.active.start)
    (hcursor : h'.bump.cursor = h.bump.cursor)
    (hset : ∀ a, h'.spaces.bits.isSet a = h.spaces.bits.isSet a)
    (hword : ∀ i, h'.memory.word i = h.memory.word i) : h'.Tiled xs where
  tiles := by
    rw [hstart, hcursor]
    exact ht.tiles
  nonempty := ht.nonempty
  starts := fun a => by
    rw [hset]
    exact ht.starts a
  filled := fun x hx => by
    have hsize : h'.size x.1 = h.size x.1 :=
      Memory.wordCount_congr (hword _) fun _ _ _ => hword _
    rw [hword, hsize]
    exact ht.filled x hx

/-- A change of the layout that keeps the active space, its cursor and every word. -/
theorem Sound.congr {h h' : Heap} (hs : h.Sound) (hl : h'.Layout) (hstack : h'.stack = h.stack)
    (hbase : h'.spaces.base = h.spaces.base)
    (hstart : h'.spaces.active.start = h.spaces.active.start)
    (hcursor : h'.bump.cursor = h.bump.cursor)
    (hset : ∀ a, h'.spaces.bits.isSet a = h.spaces.bits.isSet a)
    (hword : ∀ i, h'.memory.word i = h.memory.word i) : Twin h.Stays h h' := by
  obtain ⟨xs, hxs⟩ := hs.tiled
  have hxs' := hxs.congr hstart hcursor hset hword
  have hinit (r : Reference) : h'.Initialised r ↔ h.Initialised r := by
    rw [hxs'.initialised_iff hl, hxs.initialised_iff hs.toLayout, hset, hword]
  have hadmits {w : Word} (ha : h.Admits w) : h'.Admits w :=
    ha.congr (by rw [hstack]) (fun i _ => hword i) fun r => (hinit r).mpr
  refine hs.twin ?_ hstack (fun r => (hinit r).mpr) (fun i _ => hword i) (fun i _ _ => hword i)
    fun r _ j _ => hword _
  refine hs.rebuild hl hbase (by rw [hstack]) (fun i _ => hword i) ⟨xs, hxs'⟩
    (fun r hr j hj => ?_) fun i h1 h2 => ?_
  · rw [hword]
    refine hadmits (hs.slots r ((hinit r).mp hr) j ?_)
    exact (Memory.isSlot_congr (hword _) fun _ _ _ => hword _).mp hj
  · rw [hstack] at h1 h2
    rw [hword]
    exact hadmits (hs.roots i h1 h2)

/-- The counters play no part in what a program sees. -/
theorem Sound.withCounters {h : Heap} (hs : h.Sound) (statistics : Statistics) (recent : Nat) :
    h.Renews { h with statistics, recent } :=
  Twin.renews (hs.congr
    ⟨hs.paged, hs.spaces, hs.stack, hs.limit, hs.cursor_aligned, hs.start_le, hs.cursor_le⟩
    rfl rfl rfl rfl (fun _ => rfl) fun _ => rfl) rfl fun xs hxs =>
      ⟨xs, hxs.congr rfl rfl (fun _ => rfl) fun _ => rfl, .same rfl rfl⟩

theorem ends_add (a b : Nat) : Ends (Size.add a b) (fun n => n = a + b) Fault.Exhausted := by
  rcases Nat.lt_or_ge (a + b) Size.bound with h | h
  · rw [Size.add_eq_ok h]
    rfl
  · rw [Size.add_eq_error h]
    trivial

theorem growFor_eq (h : Heap) (bytes : Nat) : h.growFor bytes =
    h.used >>= fun used => Size.add used bytes >>= fun required =>
      h.spaces.grow h.memory required h.options.minGrowthBytes >>= fun x =>
        match x with
        | .error cause => .error (.outOfMemory cause)
        | .ok (spaces, memory) =>
          spaces.active.stop >>= fun stop => h.bump.moveLimit stop >>= fun bump =>
            h.statistics.recordGrowth >>= fun statistics =>
              .ok ⟨memory, h.stack, spaces, bump, h.options, statistics, h.recent⟩ :=
  rfl

/-- `k` is `h` in a wider layout: the words, the used part of the active space and its start bits are
those of `h`. -/
structure Widened (h k : Heap) : Prop where
  stack : k.stack = h.stack
  base : k.spaces.base = h.spaces.base
  start : k.spaces.active.start = h.spaces.active.start
  cursor : k.bump.cursor = h.bump.cursor
  limit : k.bump.limit.toNat = k.spaces.active.start.toNat + k.spaces.active.extent
  cursor_le : k.bump.cursor ≤ k.bump.limit
  paged : k.memory.Paged
  inside : k.spaces.active.start.toNat + k.spaces.active.extent ≤ 4 * k.memory.words.size
  size_le : h.memory.words.size ≤ k.memory.words.size
  covered : k.spaces.bits.Covers (k.spaces.active.start.toNat + k.spaces.active.extent)
  isSet : ∀ a, k.spaces.bits.isSet a = h.spaces.bits.isSet a
  word : ∀ i, k.memory.word i = h.memory.word i
  placed : h.spaces.base.WordAligned → k.spaces.Placed k.memory

theorem Layout.widened {h : Heap} (hl : h.Layout) : h.Widened h where
  stack := rfl
  base := rfl
  start := rfl
  cursor := rfl
  limit := hl.limit
  cursor_le := hl.cursor_le
  paged := hl.paged
  inside := hl.spaces.active_inside
  size_le := Nat.le_refl _
  covered := hl.spaces.active_covered
  isSet := fun _ => rfl
  word := fun _ => rfl
  placed := fun _ => hl.spaces

theorem Widened.layout {h k : Heap} (hw : h.Widened k) (hl : h.Layout)
    (hbase : h.spaces.base.WordAligned) : k.Layout where
  paged := hw.paged
  spaces := hw.placed hbase
  stack := hw.stack ▸ hw.base ▸ hl.stack
  limit := hw.limit
  cursor_aligned := hw.cursor ▸ hl.cursor_aligned
  start_le := hw.start ▸ hw.cursor ▸ hl.start_le
  cursor_le := hw.cursor_le

theorem recordGrowth_spec (s : Statistics) :
    Ends s.recordGrowth (fun t => t = { s with growths := s.growths + 1 })
      (fun f => f = .overflow ∧ Size.bound ≤ s.growths + 1) := by
  unfold Statistics.recordGrowth
  rcases Nat.lt_or_ge (s.growths + 1) Size.bound with h | h
  · rw [Size.add_eq_ok h]
    rfl
  · rw [Size.add_eq_error h]
    exact ⟨rfl, h⟩

/-- A growth makes room for the request, or there is no memory for it. -/
theorem Layout.growFor {h : Heap} (hl : h.Layout) {bytes : Nat} (hbytes : bytes ≤ 0x100000000) :
    Ends (h.growFor bytes)
      (fun k => h.Widened k ∧ k.bump.cursor.toNat + bytes ≤ k.bump.limit.toNat ∧
        k.statistics = { h.statistics with growths := h.statistics.growths + 1 })
      (fun f => (∃ cause, f = .outOfMemory cause ∧ (Fault.outOfMemory cause).Exhausted) ∨
        f = .overflow ∧ Size.bound ≤ h.statistics.growths + 1) := by
  have hstart := Address.le_iff.mp hl.start_le
  have hlt := h.bump.cursor.toNat_lt
  have hused : h.used = .ok (h.bump.cursor.toNat - h.spaces.active.start.toNat) :=
    Address.diff_eq_ok_iff.mpr (by omega)
  rw [growFor_eq, hused, ok_bind, Size.add_eq_ok (by omega), ok_bind]
  obtain ⟨x, hx, ⟨cause, rfl, hcause⟩ | ⟨t, n, rfl, ht⟩⟩ :=
    hl.spaces.grow hl.paged (h.bump.cursor.toNat - h.spaces.active.start.toNat + bytes)
      h.options.minGrowthBytes
  · rw [hx]
    exact .inl ⟨cause, rfl, hcause⟩
  · have hinside := ht.inside
    have hrequired := ht.required_le
    have hsize := ht.paged.size_le
    have hstartEq := congrArg Address.toNat ht.start
    obtain ⟨stop, hstop, hstopNat⟩ : ∃ stop, t.active.stop = .ok stop ∧
        stop.toNat = t.active.start.toNat + t.active.extent := Address.exists_add (by omega)
    have hle : h.bump.cursor ≤ stop := by
      rw [Address.le_iff, hstopNat]
      omega
    rw [hx, ok_bind]
    dsimp only
    rw [hstop, ok_bind, Bump.moveLimit, Bump.spanning_eq_ok_iff.mpr ⟨hle, rfl⟩, ok_bind]
    refine Ends.bind ((recordGrowth_spec _).mono (fun _ hs => hs) fun _ hf => .inr hf) ?_
    rintro statistics rfl
    refine ⟨?_, ?_, rfl⟩
    · exact
        { stack := rfl
          base := ht.base
          start := ht.start
          cursor := rfl
          limit := hstopNat
          cursor_le := hle
          paged := ht.paged
          inside := ht.inside
          size_le := ht.size_le
          covered := ht.covered
          isSet := ht.isSet
          word := ht.word
          placed := ht.placed }
    · dsimp only
      omega

theorem Sound.growFor {h : Heap} (hs : h.Sound) {bytes : Nat} (hbytes : bytes ≤ 0x100000000) :
    Ends (h.growFor bytes) h.Renews Fault.Exhausted := by
  -- The step of the ledger names the growth itself.
  apply (hs.toLayout.growFor hbytes).with_eq.mono
  · rintro k ⟨⟨hw, -, -⟩, hk⟩
    have htwin := hs.congr (hw.layout hs.toLayout hs.base_aligned) hw.stack hw.base hw.start
      hw.cursor hw.isSet hw.word
    exact htwin.renews hw.base fun xs hxs =>
      ⟨xs, hxs.congr hw.start hw.cursor hw.isSet hw.word, .grown hk⟩
  · rintro f (⟨cause, rfl, hcause⟩ | ⟨rfl, -⟩)
    · exact hcause
    · trivial

theorem takeBlock_eq (h : Heap) (a : Address) (bump : Bump) (bytes : Nat) :
    h.takeBlock a bump bytes =
      h.memory.zero a bytes >>= fun memory => h.spaces.bits.set a >>= fun bits =>
        h.statistics.recordAllocation bytes >>= fun statistics =>
          .ok ⟨memory, h.stack, ⟨h.spaces.active, h.spaces.scratch, h.spaces.base, bits⟩, bump,
            h.options, statistics, h.recent⟩ :=
  rfl

/-- Taking the block at the cursor zeroes its words and sets its start bit. -/
theorem takeBlock_spec {h : Heap} {bump : Bump} {n : Nat} (hn : 0 < n)
    (haligned : h.bump.cursor.WordAligned)
    (hinside : h.bump.cursor.toNat + 4 * n ≤ 4 * h.memory.words.size)
    (hcovers : h.spaces.bits.Covers (h.bump.cursor.toNat + 4 * n)) :
    ∃ bits : StartBits, bits.cells.size = h.spaces.bits.cells.size ∧
      (∀ a, bits.isSet a = true ↔ h.spaces.bits.isSet a = true ∨ a = h.bump.cursor) ∧
      h.takeBlock h.bump.cursor bump (4 * n) =
        h.statistics.recordAllocation (4 * n) >>= fun statistics =>
          .ok ⟨h.memory.withFill (h.bump.cursor.toNat / 4) n 0, h.stack,
            ⟨h.spaces.active, h.spaces.scratch, h.spaces.base, bits⟩, bump, h.options, statistics,
            h.recent⟩ := by
  have hzero : h.memory.zero h.bump.cursor (4 * n) =
      .ok (h.memory.withFill (h.bump.cursor.toNat / 4) n 0) :=
    Memory.fill_eq_ok haligned (by omega) 0
  obtain ⟨bits, hbits, hcells, hset⟩ := StartBits.set_eq_ok hcovers (by omega) haligned
  refine ⟨bits, hcells, hset, ?_⟩
  rw [takeBlock_eq, hzero, ok_bind, hbits, ok_bind]

section TakeBlock

variable {h h' : Heap} (hs : h.Sound) {r : Reference} {n : Nat} (hn : 0 < n)
  (hstack : h'.stack = h.stack) (hbase : h'.spaces.base = h.spaces.base) (hl : h'.Layout)
  (hstart : h'.spaces.active.start = h.spaces.active.start)
  (hr : r.address = h.bump.cursor) (hcursor : h'.bump.cursor.toNat = h.bump.cursor.toNat + 4 * n)
  (hset : ∀ a, h'.spaces.bits.isSet a = true ↔ h.spaces.bits.isSet a = true ∨ a = h.bump.cursor)
  (hword : ∀ i, h'.memory.word i =
    if r.index ≤ i ∧ i < r.index + n then 0 else h.memory.word i)

include hr hword

theorem word_below_cursor {i : Nat} (hi : 4 * i < h.bump.cursor.toNat) :
    h'.memory.word i = h.memory.word i := by
  have hindex := r.toNat_address
  rw [hr] at hindex
  rw [hword, if_neg (by omega)]

include hs hn hstart hcursor hset

theorem Tiled.takeBlock {xs : List (Reference × Nat)} (ht : h.Tiled xs) :
    h'.Tiled (xs ++ [(r, n)]) where
  tiles := by
    have hindex := r.toNat_address
    rw [hr] at hindex
    rw [hstart, hcursor, show (h.bump.cursor.toNat + 4 * n) / 4 = h.bump.cursor.toNat / 4 + n from by
      omega]
    exact ht.tiles.snoc (x := (r, n)) (by dsimp only; omega)
  nonempty := fun x hx => by
    rcases List.mem_append.mp hx with hx | hx
    · exact ht.nonempty x hx
    · rw [List.mem_singleton.mp hx]
      exact hn
  starts := fun a => by
    rw [hset, ht.starts]
    simp only [List.mem_append, List.mem_singleton, or_and_right, exists_or, exists_eq_left, hr]
    rw [eq_comm (a := a)]
  filled := fun x hx => by
    rcases List.mem_append.mp hx with hx | hx
    · have hb := ht.bounds hs.toLayout hx
      have hpos := ht.nonempty x hx
      rw [word_below_cursor hr hword (by omega)]
      refine (ht.filled x hx).imp_right fun ⟨k, hk, hheader, hsize⟩ => ⟨k, hk, hheader, ?_⟩
      have htwo : 2 ≤ h.size x.1 := Memory.two_le_wordCount hheader
      have hsame : h'.size x.1 = h.size x.1 :=
        Memory.wordCount_congr (word_below_cursor hr hword (by omega)) fun _ _ _ =>
          word_below_cursor hr hword (by omega)
      omega
    · rw [List.mem_singleton.mp hx]
      refine .inl ?_
      rw [hword, if_pos (by dsimp only; omega)]
      exact ⟨by decide, by decide⟩

include hstack hbase hl

theorem Sound.twin_takeBlock : Twin h.Stays h h' := by
  obtain ⟨xs, hxs⟩ := hs.tiled
  have hxs' := hxs.takeBlock hs hn hstart hr hcursor hset hword
  have hbelow {i : Nat} (hi : 4 * i < h.bump.cursor.toNat) :
      h'.memory.word i = h.memory.word i := word_below_cursor hr hword hi
  have hindex := r.toNat_address
  rw [hr] at hindex
  have hstackBounds := hs.stack_bounds
  have hlimit := Address.le_iff.mp hs.limit_le
  have hbaseLe := Address.le_iff.mp hs.spaces.base_le_active
  have hstartLe := Address.le_iff.mp hs.start_le
  have hinit (s : Reference) : h'.Initialised s ↔ h.Initialised s := by
    rw [hxs'.initialised_iff hl, hxs.initialised_iff hs.toLayout, hset]
    constructor
    · rintro ⟨hset' | hs', k, hk⟩
      · have hw := hs.regular.index_within hset'
        exact ⟨hset', k, (hbelow hw.2).symm.trans hk⟩
      · have hrs : s = r := Reference.ext_address (hs'.trans hr.symm)
        rw [hrs, hword, if_pos (by omega)] at hk
        cases k <;> nomatch hk
    · rintro ⟨hset', k, hk⟩
      have hw := hs.regular.index_within hset'
      exact ⟨.inl hset', k, (hbelow hw.2).trans hk⟩
  have hobject {s : Reference} (hi : h.Initialised s) {j : Nat} (hj : j < h.size s) :
      h'.memory.word (s.index + j) = h.memory.word (s.index + j) := by
    have hend := (hs.regular.object_end hi).1
    exact hbelow (by omega)
  have hstatic (i : Nat) (hi : 4 * i < h.stack.limit.toNat) :
      h'.memory.word i = h.memory.word i := hbelow (by omega)
  have hadmits {w : Word} (ha : h.Admits w) : h'.Admits w :=
    ha.congr (by rw [hstack]) hstatic fun s => (hinit s).mpr
  refine hs.twin ?_ hstack (fun s => (hinit s).mpr) hstatic (fun i _ h2 => hbelow (by omega))
    fun s hi j hj => hobject hi hj
  refine hs.rebuild hl hbase (by rw [hstack]) hstatic ⟨_, hxs'⟩ (fun s hi j hj => ?_)
    fun i h1 h2 => ?_
  · rw [hinit] at hi
    have htwo := hs.regular.two_le_size hi
    have hj' := (Memory.isSlot_congr (hobject hi (j := 0) (by omega)) fun _ _ _ =>
      hobject hi (j := 1) (by omega)).mp hj
    rw [hobject hi hj'.lt]
    exact hadmits (hs.slots s hi j hj')
  · rw [hstack] at h1 h2
    rw [hbelow (by omega)]
    exact hadmits (hs.roots i h1 h2)

end TakeBlock

theorem Sound.takeBlock {h : Heap} (hs : h.Sound) {n : Nat} (hn : 0 < n) {a : Address} {bump : Bump}
    (hb : h.bump.alloc (4 * n) = some (a, bump)) :
    Ends (h.takeBlock a bump (4 * n))
      (fun h' => ∃ r, a = r.address ∧ h.Renews h' ∧ h'.Fresh r n) Fault.Exhausted := by
  obtain ⟨rfl, hlimit, hcursor, hle⟩ := Bump.alloc_eq_some_iff.mp hb
  have hlim := hs.limit
  have hinside := hs.spaces.active_inside
  have haligned := hs.cursor_aligned
  have hcursorLe := Address.le_iff.mp hle
  have hstartLe := Address.le_iff.mp hs.start_le
  have haligned' := haligned
  unfold Address.WordAligned at haligned'
  have hcovers : h.spaces.bits.Covers (h.bump.cursor.toNat + 4 * n) :=
    Nat.le_trans (by omega) hs.spaces.active_covered
  obtain ⟨bits, hcells, hset, htake⟩ := takeBlock_spec hn haligned (by omega) hcovers
  have hrecord : Ends (h.statistics.recordAllocation (4 * n)) (fun _ => True) Fault.Exhausted :=
    Ends.bind (ends_add _ _) fun _ _ => trivial
  rw [htake]
  refine hrecord.with_eq.bind fun statistics ⟨_, hstatistics⟩ => ?_
  rw [hstatistics, ok_bind] at htake
  let r : Reference := ⟨h.bump.cursor, haligned⟩
  let h' : Heap := ⟨h.memory.withFill r.index n 0, h.stack,
    ⟨h.spaces.active, h.spaces.scratch, h.spaces.base, bits⟩, bump, h.options, statistics, h.recent⟩
  have hr : r.address = h.bump.cursor := rfl
  have hindex : r.index = h.bump.cursor.toNat / 4 := rfl
  have hstart : h'.spaces.active.start = h.spaces.active.start := rfl
  have hword : ∀ i, h'.memory.word i =
      if r.index ≤ i ∧ i < r.index + n then 0 else h.memory.word i :=
    Memory.word_withFill (by omega) 0
  have hl : h'.Layout :=
    { paged := hs.paged.withFill _ _ _
      spaces := hs.spaces.congr (Memory.size_withFill ..) hcells
      stack := hs.stack
      limit := (congrArg Address.toNat hlimit).trans hlim
      cursor_aligned := (by omega : bump.cursor.toNat % 4 = 0)
      start_le := (by omega : h.spaces.active.start.toNat ≤ bump.cursor.toNat)
      cursor_le := hlimit ▸ hle }
  have hblock {xs : List (Reference × Nat)} (hxs : h.Tiled xs) : h'.Tiled (xs ++ [(r, n)]) :=
    hxs.takeBlock hs hn hstart hr hcursor hset hword
  have htwin : Twin h.Stays h h' :=
    hs.twin_takeBlock hn rfl rfl hl hstart hr hcursor hset hword
  obtain ⟨xs, hxs⟩ := hs.tiled
  refine ⟨r, rfl, htwin.renews rfl fun ys hys => ⟨_, hblock hys, .handed hb htake⟩,
    ⟨⟨_, hblock hxs, List.mem_append_right _ (List.mem_singleton_self _)⟩, fun j hj => ?_⟩⟩
  exact (hword _).trans (if_pos (by omega))

theorem Sound.tryAlloc {h : Heap} (hs : h.Sound) {n : Nat} (hn : 0 < n) :
    Ends (h.tryAlloc (4 * n)) (fun x => h.Renews x.2 ∧
      ∀ a, x.1 = some a → ∃ r, a = r.address ∧ x.2.Fresh r n) Fault.Exhausted := by
  unfold Heap.tryAlloc
  cases hb : h.bump.alloc (4 * n) with
  | none =>
    refine ⟨hs.renews, fun a ha => ?_⟩
    nomatch ha
  | some x =>
    refine Ends.bind (hs.takeBlock hn hb) fun h' ⟨r, hr, ht, hf⟩ => ⟨ht, fun a ha => ⟨r, ?_, hf⟩⟩
    injection ha with ha
    exact ha ▸ hr

theorem Sound.charge {h : Heap} (hs : h.Sound) (bytes : Nat) :
    Ends (h.charge bytes) h.Renews Fault.Exhausted := by
  unfold Heap.charge
  refine Ends.bind (ends_add _ _) fun recent _ => ?_
  split
  · refine Ends.bind hs.collect fun h' hh' => ?_
    exact hh'.trans (hh'.sound.withCounters h'.statistics bytes)
  · exact hs.withCounters h.statistics recent

theorem objectBytes_words {size : Nat} (h : size < 0x100000000) :
    ∃ n, 0 < n ∧ 4 * n ≤ 0x100000000 ∧ Size.objectBytes size = 4 * n := by
  refine ⟨max ((size + 3) / 4) 2, by omega, by omega, ?_⟩
  rw [Size.objectBytes_eq (by omega)]
  omega

/-- Allocation renews the heap and hands out a zeroed block, or the memory is exhausted. -/
theorem Sound.alloc {h : Heap} (hs : h.Sound) (size : Nat) :
    Ends (h.alloc size) (fun x => ∃ r n, h.Renews x.2 ∧ x.1 = r.address ∧ x.2.Fresh r n ∧
      size < 0x100000000 ∧ 4 * n = Size.objectBytes size) Fault.Exhausted := by
  unfold Heap.alloc
  split
  · trivial
  · rename_i hsize
    have hsize' : size < 0x100000000 := by
      unfold Address.highest Address.toNat at hsize
      exact Nat.lt_of_le_of_lt (Nat.not_lt.mp hsize) (by decide)
    obtain ⟨n, hn, hle, hbytes⟩ := objectBytes_words hsize'
    rw [hbytes]
    refine Ends.bind (hs.charge _) fun h₁ ht₁ => ?_
    refine Ends.bind (ht₁.sound.tryAlloc hn) fun ⟨a₂, h₂⟩ ⟨ht₂, hf₂⟩ => ?_
    have ht₂' := ht₁.trans ht₂
    cases a₂ with
    | some a =>
      obtain ⟨r, rfl, hr⟩ := hf₂ a rfl
      exact ⟨r, n, ht₂', rfl, hr, hsize', rfl⟩
    | none =>
      -- The block does not fit, and a collection may make room for it.
      refine Ends.bind ht₂'.sound.collect fun h₃ ht₃ => ?_
      have ht₃' := (ht₂'.trans ht₃).trans (ht₃.sound.withCounters h₃.statistics (4 * n))
      refine Ends.bind (ht₃'.sound.tryAlloc hn) fun ⟨a₄, h₄⟩ ⟨ht₄, hf₄⟩ => ?_
      have ht₄' := ht₃'.trans ht₄
      cases a₄ with
      | some a =>
        obtain ⟨r, rfl, hr⟩ := hf₄ a rfl
        exact ⟨r, n, ht₄', rfl, hr, hsize', rfl⟩
      | none =>
        -- The block still does not fit, so the spaces grow.
        refine Ends.bind (ht₄'.sound.growFor hle) fun h₅ ht₅ => ?_
        have ht₅' := ht₄'.trans ht₅
        refine Ends.bind (ht₅'.sound.tryAlloc hn) fun ⟨a₆, h₆⟩ ⟨ht₆, hf₆⟩ => ?_
        cases a₆ with
        | some a =>
          obtain ⟨r, rfl, hr⟩ := hf₆ a rfl
          exact ⟨r, n, ht₅'.trans ht₆, rfl, hr, hsize', rfl⟩
        | none => trivial

end Heap

end CopyingHeap
