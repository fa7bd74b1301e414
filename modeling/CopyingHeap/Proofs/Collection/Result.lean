import CopyingHeap.Proofs.Collection.Closure
import CopyingHeap.Proofs.Collection.Roots

/-!
The result of a collection. Every object that the roots reach has been copied, and nothing else; the
copies fill the beginning of the other space, and the emptied one has no start bits left. A collection
fails only where a counter overflows.
-/

namespace CopyingHeap

namespace Heap

/-- The steps of a collection. -/
theorem collect_eq (h : Heap) : h.collect =
    h.spaces.scratch.stop >>= fun stop => Bump.spanning h.spaces.scratch.start stop >>= fun bump =>
      Evacuation.traceRoots h.source h.spaces.scratch.start 0 ⟨bump, h.spaces.bits, h.statistics⟩
        h.memory h.stack.sp (h.stack.sp.wordsBetween h.stack.base) >>= fun x =>
      Evacuation.close h.source x.2.1 x.2.2 h.spaces.scratch.start >>= fun y =>
      h.source.release y.2 y.1.bits h.options.zeroOnRelease >>= fun z =>
      y.1.bump.cursor.diff h.spaces.scratch.start >>= fun liveBytes =>
      y.1.statistics.recordCollection x.1 liveBytes >>= fun statistics =>
      h.spaces.scratch.stop >>= fun stop => Bump.spanning y.1.bump.cursor stop >>= fun bump =>
      .ok ⟨z.2.1, h.stack, ⟨{ h.spaces.scratch with isFrom := false }, z.1, h.spaces.base, z.2.2⟩,
        bump, h.options, statistics, 0⟩ := by
  have hflip : h.collect =
      h.spaces.collect h.memory h.stack.slots h.statistics h.options.zeroOnRelease >>= fun x =>
        x.2.1.active.stop >>= fun stop => Bump.spanning x.1 stop >>= fun bump =>
        .ok ⟨x.2.2.1, h.stack, x.2.1, bump, h.options, x.2.2.2, 0⟩ := rfl
  have hcollect : h.spaces.collect h.memory h.stack.slots h.statistics h.options.zeroOnRelease =
      h.spaces.scratch.stop >>= fun stop => Bump.spanning h.spaces.scratch.start stop >>= fun bump =>
        Evacuation.traceRoots h.source h.spaces.scratch.start 0 ⟨bump, h.spaces.bits, h.statistics⟩
          h.memory h.stack.sp (h.stack.sp.wordsBetween h.stack.base) >>= fun x =>
        Evacuation.close h.source x.2.1 x.2.2 h.spaces.scratch.start >>= fun y =>
        h.source.release y.2 y.1.bits h.options.zeroOnRelease >>= fun z =>
        y.1.bump.cursor.diff h.spaces.scratch.start >>= fun liveBytes =>
        y.1.statistics.recordCollection x.1 liveBytes >>= fun statistics =>
        .ok (y.1.bump.cursor, ⟨{ h.spaces.scratch with isFrom := false }, z.1, h.spaces.base, z.2.2⟩,
          z.2.1, statistics) := rfl
  rw [hflip, hcollect]
  simp only [bind_assoc, ok_bind]
  rfl

/-- What a collection does when all copies are traced: it releases the emptied space and counts. -/
def settle (h : Heap) (x : Nat × Evacuation × Memory) : Except Fault Heap := do
  let (found, ⟨bump, bits, statistics⟩, m) := x
  let (scratch, m, bits) ← h.source.release m bits h.options.zeroOnRelease
  let liveBytes ← bump.cursor.diff h.spaces.scratch.start
  let statistics ← statistics.recordCollection found liveBytes
  let bump ← Bump.spanning bump.cursor (← h.spaces.scratch.stop)
  return ⟨m, h.stack, ⟨{ h.spaces.scratch with isFrom := false }, scratch, h.spaces.base, bits⟩, bump,
    h.options, statistics, 0⟩

/-- The heap `h` has been collected; `moves` lists the objects that were kept and their copies. -/
structure Collected (h : Heap) (moves : List (Reference × Reference)) (h' : Heap) : Prop where
  stack : h'.stack = h.stack
  options : h'.options = h.options
  recent : h'.recent = 0
  size : h'.memory.words.size = h.memory.words.size
  maxPages : h'.memory.maxPages = h.memory.maxPages
  base : h'.spaces.base = h.spaces.base
  active_start : h'.spaces.active.start = h.spaces.scratch.start
  active_extent : h'.spaces.active.extent = h.spaces.active.extent
  scratch_start : h'.spaces.scratch.start = h.spaces.active.start
  scratch_extent : h'.spaces.scratch.extent = h.spaces.active.extent
  cells : h'.spaces.bits.cells.size = h.spaces.bits.cells.size
  limit : h'.bump.limit.toNat = h.spaces.scratch.start.toNat + h.spaces.active.extent
  cursor_aligned : h'.bump.cursor.WordAligned
  cursor_le : h'.bump.cursor ≤ h'.bump.limit
  tiles : Tiles (fun p => p.2.index) (fun p => h.size p.1) h.target moves (h'.bump.cursor.toNat / 4)
  nodup : (moves.map Prod.fst).Nodup
  mem_iff : ∀ r, r ∈ moves.map Prod.fst ↔ h.Reachable r
  starts : ∀ a, h'.spaces.bits.isSet a = true ↔ ∃ p ∈ moves, p.2.address = a
  slots : ∀ p ∈ moves, ∀ j, h.memory.IsSlot p.1.index j →
    h.Carried (CopiedTo moves) (h.memory.word (p.1.index + j)) (h'.memory.word (p.2.index + j))
  verbatim : ∀ p ∈ moves, ∀ j < h.size p.1, ¬ h.memory.IsSlot p.1.index j →
    h'.memory.word (p.2.index + j) = h.memory.word (p.1.index + j)
  roots : ∀ i, h.stack.sp.toNat ≤ 4 * i → 4 * i < h.stack.base.toNat →
    h.Carried (CopiedTo moves) (h.memory.word i) (h'.memory.word i)
  frame : ∀ i, 4 * i < h.spaces.base.toNat →
    ¬ (h.stack.sp.toNat ≤ 4 * i ∧ 4 * i < h.stack.base.toNat) → h'.memory.word i = h.memory.word i
  counts : ∀ k,
    h'.statistics.objectsCopied.get k =
      h.statistics.objectsCopied.get k + h.countOf k (moves.map Prod.fst) ∧
    h'.statistics.bytesCopied.get k =
      h.statistics.bytesCopied.get k + h.bytesOf k (moves.map Prod.fst)
  statistics : h'.statistics = { h.statistics with
    collections := h.statistics.collections + 1
    rootsTraced := h.statistics.rootsTraced + h.rootCount
    liveBytes := 4 * ((moves.map Prod.fst).map h.size).sum
    objectsCopied := h'.statistics.objectsCopied, bytesCopied := h'.statistics.bytesCopied }

theorem Layout.scratch_stop {h : Heap} (hl : h.Layout) {stop : Address}
    (hstop : stop.toNat = h.spaces.scratch.start.toNat + h.spaces.active.extent) :
    h.spaces.scratch.stop = .ok stop := by
  have hextent := hl.spaces.extent_eq
  have hlimit := stop.toNat_lt
  rw [Space.stop, Address.add_eq_ok_iff, hextent, hstop]
  omega

/-- The steps of a collection, whatever is in memory; the target space ends at `stop`. -/
theorem Layout.collect_eq {h : Heap} (hl : h.Layout) {stop : Address}
    (hstop : stop.toNat = h.spaces.scratch.start.toNat + h.spaces.active.extent) (m : Memory) :
    Heap.collect { h with memory := m } =
    Evacuation.traceRoots h.source h.spaces.scratch.start 0
      ⟨⟨h.spaces.scratch.start, stop⟩, h.spaces.bits, h.statistics⟩ m
      (Address.ofNat (4 * (h.stack.sp.toNat / 4)))
      (h.stack.base.toNat / 4 - h.stack.sp.toNat / 4) >>= fun x =>
    Evacuation.close h.source x.2.1 x.2.2 h.spaces.scratch.start >>= fun y =>
    h.source.release y.2 y.1.bits h.options.zeroOnRelease >>= fun z =>
    y.1.bump.cursor.diff h.spaces.scratch.start >>= fun liveBytes =>
    y.1.statistics.recordCollection x.1 liveBytes >>= fun statistics =>
    Bump.spanning y.1.bump.cursor stop >>= fun bump =>
    .ok ⟨z.2.1, h.stack, ⟨{ h.spaces.scratch with isFrom := false }, z.1, h.spaces.base, z.2.2⟩,
      bump, h.options, statistics, 0⟩ := by
  have hstack := hl.stack_bounds
  have hspace := hl.scratch_stop hstop
  have hspanning : Bump.spanning h.spaces.scratch.start stop = .ok ⟨h.spaces.scratch.start, stop⟩ :=
    Bump.spanning_eq_ok_iff.mpr ⟨by rw [Address.le_iff]; omega, rfl⟩
  have hfirst : Address.ofNat (4 * (h.stack.sp.toNat / 4)) = h.stack.sp := by
    rw [show 4 * (h.stack.sp.toNat / 4) = h.stack.sp.toNat from by omega, Address.ofNat_toNat]
  have hcount : h.stack.sp.wordsBetween h.stack.base =
      h.stack.base.toNat / 4 - h.stack.sp.toNat / 4 := by
    rw [Address.wordsBetween]
    omega
  rw [Heap.collect_eq]
  dsimp only [source]
  rw [hspace, ok_bind, hspanning, ok_bind, hcount, hfirst]
  simp only [ok_bind]

theorem Layout.collect_eq_settle {h : Heap} (hl : h.Layout) {stop : Address}
    (hstop : stop.toNat = h.spaces.scratch.start.toNat + h.spaces.active.extent) : h.collect =
    Evacuation.traceRoots h.source h.spaces.scratch.start 0
      ⟨⟨h.spaces.scratch.start, stop⟩, h.spaces.bits, h.statistics⟩ h.memory
      (Address.ofNat (4 * (h.stack.sp.toNat / 4)))
      (h.stack.base.toNat / 4 - h.stack.sp.toNat / 4) >>= fun x =>
    Evacuation.close h.source x.2.1 x.2.2 h.spaces.scratch.start >>= fun y =>
    h.settle (x.1, y) := by
  have hsteps : h.collect = _ := hl.collect_eq hstop h.memory
  rw [hsteps]
  refine bind_congr fun x => bind_congr fun y => ?_
  rw [settle, hl.scratch_stop hstop]
  rfl

theorem Layout.exists_stop {h : Heap} (hl : h.Layout) : ∃ stop : Address,
    stop.toNat = h.spaces.scratch.start.toNat + h.spaces.active.extent := by
  have hinside := hl.spaces.scratch_inside
  have hsize := hl.size_le
  exact ⟨_, Address.toNat_ofNat_of_lt (by omega)⟩

/-- Nothing has been copied yet. -/
theorem Regular.evacuated {h : Heap} (hr : h.Regular) {a : Address}
    (ha : a.toNat = h.spaces.scratch.start.toNat + h.spaces.active.extent) :
    h.Evacuated [] (h.stack.sp.toNat / 4) h.target
      ⟨⟨h.spaces.scratch.start, a⟩, h.spaces.bits, h.statistics⟩ h.memory := by
  refine
    { size := rfl
      maxPages := rfl
      limit := ha
      cursor_aligned := hr.spaces.scratch_aligned
      scan_le := hr.scratch_start.ge
      tiles := rfl
      nodup := List.nodup_nil
      reachable := fun p hp => absurd hp List.not_mem_nil
      cells := rfl
      starts := fun x => by simp
      forwarded := fun p hp => absurd hp List.not_mem_nil
      traced := fun p hp => absurd hp List.not_mem_nil
      verbatim := fun p hp => absurd hp List.not_mem_nil
      stack_done := fun i h1 _ h3 => by omega
      stack_rest := fun _ _ _ _ => rfl
      frame := fun _ _ _ _ => rfl
      counts := fun k => ⟨rfl, rfl⟩
      statistics := rfl }

/-- Does word `i` lie in the space that a collection empties? -/
def InSource (h : Heap) (i : Nat) : Prop :=
  h.spaces.active.start.toNat ≤ 4 * i ∧
    4 * i < h.spaces.active.start.toNat + h.spaces.active.extent

instance (h : Heap) (i : Nat) : Decidable (h.InSource i) :=
  inferInstanceAs (Decidable (_ ∧ _))

/-- Releasing the emptied space clears its start bits, whatever is in memory, and on request its words. -/
theorem Layout.release {h : Heap} (hl : h.Layout) {bits : StartBits}
    (hb : bits.cells.size = h.spaces.bits.cells.size) (zero : Bool) :
    ∃ bits', bits'.cells.size = bits.cells.size ∧
      (∀ x, bits'.isSet x = true ↔ bits.isSet x = true ∧
        ¬ (h.spaces.active.start.toNat ≤ x.toNat ∧
          x.toNat < h.spaces.active.start.toNat + h.spaces.active.extent)) ∧
      ∀ m : Memory, m.words.size = h.memory.words.size → ∃ m',
        h.source.release m bits zero = .ok ({ h.source with isFrom := false }, m', bits') ∧
          m'.words.size = m.words.size ∧ m'.maxPages = m.maxPages ∧
          ∀ i, m'.word i = if zero = true ∧ h.InSource i then 0 else m.word i := by
  obtain ⟨stop, hstop, hstopNat⟩ := hl.source_stop
  have hinside := hl.spaces.active_inside
  have hsize := hl.size_le
  have haligned := hl.spaces.active_aligned
  have hwords := hl.spaces.extent_words
  have hcovered : bits.Covers (h.spaces.active.start.toNat + h.spaces.active.extent) := by
    rw [StartBits.Covers, hb]
    exact hl.spaces.active_covered
  obtain ⟨bits', hclear, hcells, hiff⟩ : ∃ c, bits.clearRange h.source.start stop = .ok c ∧
      bits.Cleared c h.source.start stop :=
    StartBits.clearRange_spec hcovered (by omega) (by omega) haligned
  refine ⟨bits', hcells, fun x => ?_, fun m hm => ?_⟩
  · rw [hiff, Address.le_iff, Address.lt_iff, hstopNat]
    rfl
  cases zero with
  | false =>
    refine ⟨m, ?_, rfl, rfl, fun i => ?_⟩
    · rw [Space.release, hstop, ok_bind, hclear]
      rfl
    · rw [if_neg fun hz => Bool.false_ne_true hz.1]
  | true =>
    have hextent : h.source.extent = 4 * (h.spaces.active.extent / 4) := by
      change h.spaces.active.extent = _
      omega
    unfold Address.WordAligned at haligned
    have hfill : m.zero h.source.start h.source.extent =
        .ok (m.withFill (h.spaces.active.start.toNat / 4) (h.spaces.active.extent / 4) 0) := by
      rw [Memory.zero, hextent]
      exact Memory.fill_eq_ok haligned (by omega) 0
    refine ⟨m.withFill (h.spaces.active.start.toNat / 4) (h.spaces.active.extent / 4) 0, ?_,
      by simp, rfl, fun i => ?_⟩
    · rw [Space.release, hstop, ok_bind, hclear, ok_bind, if_pos rfl, hfill]
      rfl
    · have hrange : h.InSource i ↔ h.spaces.active.start.toNat / 4 ≤ i ∧
          i < h.spaces.active.start.toNat / 4 + h.spaces.active.extent / 4 := by
        unfold InSource
        omega
      rw [Memory.word_withFill (by omega)]
      simp only [hrange, true_and]

namespace Statistics

theorem recordCollection_spec (s : Statistics) (roots liveBytes : Nat) :
    Ends (s.recordCollection roots liveBytes)
      (fun t => t = { s with
          collections := s.collections + 1, rootsTraced := s.rootsTraced + roots, liveBytes } ∧
        s.collections + 1 < Size.bound ∧ s.rootsTraced + roots < Size.bound)
      (fun f => f = .overflow ∧
        (Size.bound ≤ s.collections + 1 ∨ Size.bound ≤ s.rootsTraced + roots)) := by
  unfold Statistics.recordCollection
  rcases Nat.lt_or_ge (s.collections + 1) Size.bound with hc | hc
  · rw [Size.add_eq_ok hc, ok_bind]
    rcases Nat.lt_or_ge (s.rootsTraced + roots) Size.bound with ht | ht
    · rw [Size.add_eq_ok ht]
      exact ⟨rfl, hc, ht⟩
    · rw [Size.add_eq_error ht]
      exact ⟨rfl, .inr ht⟩
  · rw [Size.add_eq_error hc]
    exact ⟨rfl, .inl hc⟩

/-- Counting more roots changes only their number, unless there are too many to count. -/
theorem recordCollection_add (s : Statistics) (roots extra liveBytes : Nat) :
    (∃ t, s.recordCollection roots liveBytes = .ok t ∧ s.recordCollection (roots + extra) liveBytes =
      .ok { t with rootsTraced := t.rootsTraced + extra }) ∨
    (s.recordCollection (roots + extra) liveBytes = .error .overflow ∧
      (Size.bound ≤ s.collections + 1 ∨ Size.bound ≤ s.rootsTraced + (roots + extra))) := by
  rcases (recordCollection_spec s (roots + extra) liveBytes).cases with
    ⟨t, hmore, rfl, hcollections, hroots⟩ | ⟨f, hmore, rfl, hfull⟩
  · rcases (recordCollection_spec s roots liveBytes).cases with
      ⟨t, hsome, rfl, -, -⟩ | ⟨f, -, -, hfull⟩
    · refine .inl ⟨_, hsome, hmore.trans ?_⟩
      rw [Nat.add_assoc]
    · omega
  · exact .inr ⟨hmore, hfull⟩

end Statistics

namespace Evacuated

variable {h : Heap} (hr : h.Regular) {moves : List (Reference × Reference)} {e : Evacuation}
  {m : Memory}
  (he : h.Evacuated moves (h.stack.base.toNat / 4) (e.bump.cursor.toNat / 4) e m)

include hr he

/-- When both traversals are done, everything that the roots reach has a copy. -/
theorem mem_of_reachable {r : Reference} (hreach : h.Reachable r) : r ∈ moves.map Prod.fst := by
  induction hreach with
  | @root slot r hroot =>
    -- The whole stack has been traced.
    obtain ⟨i, hsp, hbase, hw⟩ := hroot.index
    have hbound := hr.stack_bounds
    obtain ⟨s, hs, -⟩ := hr.carried_word hroot.2.2 hw (he.stack_done i hsp hbase (by omega))
    exact List.mem_map_of_mem (f := Prod.fst) hs
  | @step r s hreach hedge ih =>
    -- The copy of `r` has been traced, since the scan pointer is at the cursor.
    obtain ⟨p, hp, rfl⟩ := List.mem_map.mp ih
    obtain ⟨⟨j, hj, hw⟩, hs⟩ := (hr.pointsTo_iff hreach.initialised).mp hedge
    have hb := he.copy_bounds hp hj.lt
    have haligned := he.cursor_aligned
    unfold Address.WordAligned at haligned
    obtain ⟨t, ht, -⟩ := hr.carried_word hs hw (he.traced p hp j hj (by omega))
    exact List.mem_map_of_mem (f := Prod.fst) ht

/-- The copies have been traced, and lie outside the space that is emptied. -/
theorem copy_outside {p : Reference × Reference} (hp : p ∈ moves) {j : Nat} (hj : j < h.size p.1) :
    p.2.index + j < e.bump.cursor.toNat / 4 ∧ ¬ h.InSource (p.2.index + j) := by
  have haligned := he.cursor_aligned
  have hb := he.copy_bounds hp hj
  unfold Address.WordAligned at haligned
  exact ⟨by omega, he.copy_apart hr hp hj⟩

/-- The start bits from before all lay in the space that has been released. -/
theorem starts_released {bits : StartBits}
    (hbits : ∀ x, bits.isSet x = true ↔ e.bits.isSet x = true ∧
      ¬ (h.spaces.active.start.toNat ≤ x.toNat ∧
        x.toNat < h.spaces.active.start.toNat + h.spaces.active.extent)) (a : Address) :
    bits.isSet a = true ↔ ∃ p ∈ moves, p.2.address = a := by
  rw [hbits, he.starts]
  constructor
  · rintro ⟨hset | hcopy, hout⟩
    · have hwithin := hr.isSet_within hset
      have hcl := Address.le_iff.mp hr.cursor_le
      have hlim := hr.limit
      rw [Address.le_iff, Address.lt_iff] at hwithin
      exact absurd ⟨hwithin.1, by omega⟩ hout
    · exact hcopy
  · rintro ⟨p, hp, rfl⟩
    have htwo := hr.two_le_size (he.initialised hp)
    have hout := (he.copy_outside hr hp (j := 0) (by omega)).2
    rw [Reference.toNat_address]
    exact ⟨.inr ⟨p, hp, rfl⟩, hout⟩

/-- Once the emptied space is released, what is left is the heap after the collection. -/
theorem collected {stop : Address} {m' : Memory} {bits : StartBits} {spaces : Semispaces}
    (hstop : stop.toNat = h.spaces.scratch.start.toNat + h.spaces.active.extent)
    (hsize : m'.words.size = m.words.size) (hmax : m'.maxPages = m.maxPages)
    (hcells : bits.cells.size = e.bits.cells.size)
    (hword : ∀ i, ¬ h.InSource i → m'.word i = m.word i)
    (hbits : ∀ x, bits.isSet x = true ↔ e.bits.isSet x = true ∧
      ¬ (h.spaces.active.start.toNat ≤ x.toNat ∧
        x.toNat < h.spaces.active.start.toNat + h.spaces.active.extent))
    (hspaces : spaces = ⟨{ h.spaces.scratch with isFrom := false },
      { h.source with isFrom := false }, h.spaces.base, bits⟩) :
    h.Collected moves ⟨m', h.stack, spaces, ⟨e.bump.cursor, stop⟩, h.options,
      { e.statistics with
        collections := e.statistics.collections + 1
        rootsTraced := e.statistics.rootsTraced + h.rootCount
        liveBytes := 4 * ((moves.map Prod.fst).map h.size).sum }, 0⟩ := by
  subst hspaces
  have hcursor := he.cursor_le hr
  have hlimit := he.limit
  have haligned := he.cursor_aligned
  have hscratch := hr.scratch_start
  have hstack := hr.stack_bounds
  have hbase := Address.le_iff.mp hr.spaces.base_le_active
  have hbase' := Address.le_iff.mp hr.spaces.base_le_scratch
  unfold Address.WordAligned at haligned
  have hcopy {p : Reference × Reference} (hp : p ∈ moves) {j : Nat} (hj : j < h.size p.1) :
      m'.word (p.2.index + j) = m.word (p.2.index + j) :=
    hword _ (he.copy_outside hr hp hj).2
  refine
    { stack := rfl
      options := rfl
      recent := rfl
      size := hsize.trans he.size
      maxPages := hmax.trans he.maxPages
      base := rfl
      active_start := rfl
      active_extent := hr.spaces.extent_eq
      scratch_start := rfl
      scratch_extent := rfl
      cells := hcells.trans he.cells
      limit := hstop
      cursor_aligned := he.cursor_aligned
      cursor_le := ?_
      tiles := he.tiles
      nodup := he.nodup
      mem_iff := fun r => ⟨fun hr' => ?_, he.mem_of_reachable hr⟩
      starts := he.starts_released hr hbits
      slots := fun p hp j hj => ?_
      verbatim := fun p hp j hj hno => ?_
      roots := fun i h1 h2 => ?_
      frame := fun i h1 h2 => ?_
      counts := he.counts
      statistics := ?_ }
  · rw [Address.le_iff]
    dsimp only
    omega
  · obtain ⟨p, hp, rfl⟩ := List.mem_map.mp hr'
    exact he.reachable p hp
  · rw [hcopy hp hj.lt]
    exact he.traced p hp j hj (he.copy_outside hr hp hj.lt).1
  · rw [hcopy hp hj]
    exact he.verbatim p hp j hj fun hs => hno hs.1
  · rw [hword i (by unfold InSource; omega)]
    exact he.stack_done i h1 h2 (by omega)
  · rw [hword i (by unfold InSource; omega)]
    refine he.frame i h2 (by omega) fun p hp => ?_
    have hin := hr.inside (he.initialised hp)
    unfold Inside at hin
    omega
  · have hs := he.statistics
    dsimp only
    rw [hs]

/-- When all is traced, only the counters can still overflow. What is left is what the traversals have
made, but for the words of the emptied space. -/
theorem settle_ends : Ends (h.settle (h.rootCount, e, m)) (fun h' =>
    h'.bump.cursor = e.bump.cursor ∧
      (∀ i, h'.memory.word i =
        if h.options.zeroOnRelease = true ∧ h.InSource i then 0 else m.word i) ∧
      h.Collected moves h') h.CounterFault := by
  obtain ⟨stop, hstop⟩ := hr.exists_stop
  obtain ⟨bits, hcells, hbits, hspace⟩ := hr.release he.cells h.options.zeroOnRelease
  obtain ⟨m', hrelease, hsize', hmax, hword⟩ := hspace m he.size
  have hrest (i : Nat) (hi : ¬ h.InSource i) : m'.word i = m.word i := by
    rw [hword, if_neg fun hz => hi hz.2]
  have hcollected := he.collected hr hstop hsize' hmax hcells hrest hbits rfl
  rw [settle]
  dsimp only
  rw [hrelease, ok_bind, Address.diff_eq_ok_iff.mpr (he.cursor_eq hr), ok_bind]
  refine Ends.bind ((Statistics.recordCollection_spec _ _ _).mono (fun _ ht => ht.1) fun f hf =>
    ⟨hf.1, fun hfit => ?_⟩) fun t ht => ?_
  · have h1 := hfit.collections
    have h2 := hfit.roots
    have h3 := congrArg Statistics.collections he.statistics
    have h4 := congrArg Statistics.rootsTraced he.statistics
    dsimp only at h3 h4
    rw [h3, h4] at hf
    omega
  · subst ht
    rw [hr.scratch_stop hstop, ok_bind, Bump.spanning_eq_ok_iff.mpr ⟨hcollected.cursor_le, rfl⟩]
    exact ⟨rfl, hword, hcollected⟩

end Evacuated

/-- A collection ends well unless a counter overflows. What it leaves is what the traversals have made,
in the state `e` and the memory `m`, but for the words of the emptied space. -/
theorem Regular.collect_evacuated {h : Heap} (hr : h.Regular) :
    Ends h.collect (fun h' => ∃ moves e m,
      h.Evacuated moves (h.stack.base.toNat / 4) (e.bump.cursor.toNat / 4) e m ∧
      h'.bump.cursor = e.bump.cursor ∧
      (∀ i, h'.memory.word i =
        if h.options.zeroOnRelease = true ∧ h.InSource i then 0 else m.word i) ∧
      h.Collected moves h') h.CounterFault := by
  obtain ⟨stop, hstop⟩ := hr.exists_stop
  have hstack := hr.stack_bounds
  have hwhole : h.stack.sp.toNat / 4 + (h.stack.base.toNat / 4 - h.stack.sp.toNat / 4) =
      h.stack.base.toNat / 4 := by omega
  rw [hr.collect_eq_settle hstop]
  refine Ends.bind ((hr.evacuated hstop).traceRoots hr 0 (by omega) (by omega)) ?_
  rintro ⟨found, e, m⟩ ⟨hfound, moves, he⟩
  rw [List.nil_append, hwhole] at he
  dsimp only at hfound he ⊢
  refine Ends.bind (he.close hr (List.nil_append moves).symm rfl hr.scratch_start) ?_
  rintro ⟨e, m⟩ ⟨more, he⟩
  dsimp only at he ⊢
  obtain rfl : found = h.rootCount := hfound.trans (Nat.zero_add _)
  exact (he.settle_ends hr).mono (fun h' hh => ⟨moves ++ more, e, m, he, hh⟩) fun f hf => hf

/-- A collection ends well unless a counter overflows. -/
theorem Regular.collect {h : Heap} (hr : h.Regular) :
    Ends h.collect (fun h' => ∃ moves, h.Collected moves h') h.CounterFault := by
  apply hr.collect_evacuated.mono
  · intro h' hh
    obtain ⟨moves, -, -, -, -, -, hm⟩ := hh
    exact ⟨moves, hm⟩
  · intro f hf
    exact hf

theorem Regular.of_collect {h h' : Heap} (hr : h.Regular) (hc : h.collect = .ok h') :
    ∃ moves, h.Collected moves h' :=
  hr.collect.of_ok hc

end Heap

end CopyingHeap
