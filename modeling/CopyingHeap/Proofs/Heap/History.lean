import CopyingHeap.Proofs.Collection.Totals
import CopyingHeap.Proofs.Heap.Allocation
import CopyingHeap.Proofs.Heap.Build

/-!
The accounts of a heap. Its history lists the blocks it has handed out, its collections and its growths,
and nothing else moves the cursor, the spaces or the counters. What the counters and the cursor must be is
read off the history, whatever the program has written into memory.
-/

namespace CopyingHeap

/-- What changes the accounts of a heap. -/
inductive Event where
  /-- A request for `size` bytes has been given a block. -/
  | handed (size : Nat)
  /-- A collection, with the counters before and after it. -/
  | collected (before after : Statistics)
  | grown

namespace Event

/-- The bytes that the event hands out: the rounded size of the request. -/
def bytes : Event → Nat
  | handed size => Size.objectBytes size
  | collected _ _ | grown => 0

def isCollection : Event → Bool
  | collected _ _ => true
  | _ => false

/-- The bytes handed out in all. The last event comes first. -/
def handedOut (es : List Event) : Nat :=
  (es.map bytes).sum

/-- The bytes handed out since the last collection. -/
def sinceCollection (es : List Event) : Nat :=
  handedOut (es.takeWhile fun e => !e.isCollection)

/-- The bytes handed out since the last collection, if they were `n` before the events. -/
def outstanding (n : Nat) : List Event → Nat
  | [] => n
  | handed size :: es => outstanding n es + Size.objectBytes size
  | collected _ _ :: _ => 0
  | grown :: es => outstanding n es

theorem outstanding_handed (n size : Nat) (es : List Event) :
    outstanding n (handed size :: es) = outstanding n es + Size.objectBytes size :=
  rfl

theorem outstanding_append (n : Nat) (es fs : List Event) :
    outstanding n (fs ++ es) = outstanding (outstanding n es) fs := by
  induction fs with
  | nil => rfl
  | cons f fs ih =>
    cases f with
    | handed size => rw [List.cons_append, outstanding_handed, outstanding_handed, ih]
    | collected s t => rfl
    | grown => exact ih

theorem outstanding_zero (es : List Event) : outstanding 0 es = sinceCollection es := by
  induction es with
  | nil => rfl
  | cons e es ih =>
    cases e with
    | handed size =>
      have hrest : sinceCollection (handed size :: es) =
          Size.objectBytes size + sinceCollection es := rfl
      rw [hrest, ← ih, outstanding_handed, Nat.add_comm]
    | collected s t => rfl
    | grown =>
      have hrest : sinceCollection (grown :: es) = 0 + sinceCollection es := rfl
      rw [hrest, ← ih, Nat.zero_add]
      rfl

end Event

namespace Heap

/-- The events that have turned the heap `h` into another one, the last one first. In between, only the
memory, the stack and the bytes charged may change. -/
inductive History (h : Heap) : List Event → Heap → Prop where
  | start : History h [] h
  | quiet {es : List Event} {k l : Heap} :
      History h es k → l.spaces = k.spaces → l.bump = k.bump → l.statistics = k.statistics →
      History h es l
  | handed {es : List Event} {k l : Heap} {size : Nat} {a : Address} {bump : Bump} :
      History h es k → k.bump.alloc (Size.objectBytes size) = some (a, bump) →
      k.takeBlock a bump (Size.objectBytes size) = .ok l → History h (.handed size :: es) l
  | collected {es : List Event} {k l : Heap} :
      History h es k → k.collect = .ok l → History h (.collected k.statistics l.statistics :: es) l
  | grown {es : List Event} {k l : Heap} {bytes : Nat} :
      History h es k → k.growFor bytes = .ok l → History h (.grown :: es) l

/-- The two spaces have one extent and end in the address space, and the bump lies in the active one. -/
structure Spanned (h : Heap) : Prop where
  extent_eq : h.spaces.scratch.extent = h.spaces.active.extent
  active_lt : h.spaces.active.start.toNat + h.spaces.active.extent < 0x100000000
  scratch_lt : h.spaces.scratch.start.toNat + h.spaces.active.extent < 0x100000000
  limit : h.bump.limit.toNat = h.spaces.active.start.toNat + h.spaces.active.extent
  start_le : h.spaces.active.start ≤ h.bump.cursor
  cursor_le : h.bump.cursor ≤ h.bump.limit

/-- Handing out a block moves the cursor over it and counts its bytes. -/
structure Hands (h : Heap) (bytes : Nat) (k : Heap) : Prop where
  active : k.spaces.active = h.spaces.active
  scratch : k.spaces.scratch = h.spaces.scratch
  limit : k.bump.limit = h.bump.limit
  cursor : k.bump.cursor.toNat = h.bump.cursor.toNat + bytes
  cursor_le : k.bump.cursor ≤ k.bump.limit
  statistics : k.statistics = { h.statistics with allocated := h.statistics.allocated + bytes }
  recent : k.recent = h.recent

theorem hands_of_takeBlock {h k : Heap} {a : Address} {bump : Bump} {bytes : Nat}
    (halloc : h.bump.alloc bytes = some (a, bump)) (hk : h.takeBlock a bump bytes = .ok k) :
    h.Hands bytes k := by
  obtain ⟨-, hlimit, hcursor, hle⟩ := Bump.alloc_eq_some_iff.mp halloc
  rw [takeBlock_eq] at hk
  obtain ⟨memory, -, hk⟩ := bind_eq_ok_iff.mp hk
  obtain ⟨bits, -, hk⟩ := bind_eq_ok_iff.mp hk
  obtain ⟨statistics, hstatistics, hk⟩ := bind_eq_ok_iff.mp hk
  obtain ⟨allocated, hadd, hstatistics⟩ := bind_eq_ok_iff.mp hstatistics
  obtain ⟨-, rfl⟩ := Size.add_eq_ok_iff.mp hadd
  cases hstatistics
  cases hk
  exact
    { active := rfl
      scratch := rfl
      limit := hlimit
      cursor := hcursor
      cursor_le := by rw [hlimit]; exact hle
      statistics := rfl
      recent := rfl }

/-- Growing enlarges both spaces, and counts that. -/
structure Grows (h k : Heap) : Prop where
  active_start : k.spaces.active.start = h.spaces.active.start
  extent_le : h.spaces.active.extent ≤ k.spaces.active.extent
  cursor : k.bump.cursor = h.bump.cursor
  statistics : k.statistics = { h.statistics with growths := h.statistics.growths + 1 }
  spanned : k.Spanned

/-- The spaces that a growth leaves, if it succeeds. -/
theorem grow_extents {s t : Semispaces} {m n : Memory} {required minGrowth : Nat}
    (ht : s.grow m required minGrowth = .ok (.ok (t, n))) :
    t.active.start = s.active.start ∧ s.active.extent ≤ t.active.extent ∧
      t.scratch.extent = t.active.extent ∧
      t.active.start.toNat + t.active.extent < 0x100000000 ∧
      t.scratch.start.toNat + t.active.extent < 0x100000000 := by
  obtain ⟨extent, past, scratch, stop, bits, hextent, hlayout, -, -, rfl⟩ :=
    Semispaces.grow_eq_ok ht
  obtain ⟨-, hdouble, -, -⟩ := Semispaces.grownExtent_eq_some hextent
  obtain ⟨hpast, hstop, -⟩ := Semispaces.grownLayout_spec hlayout
  have hpastLt := past.toNat_lt
  have hstopLt := stop.toNat_lt
  refine ⟨rfl, ?_, rfl, ?_, ?_⟩
  · dsimp only
    omega
  · dsimp only
    omega
  · dsimp only
    omega

theorem grows_of_growFor {h k : Heap} {bytes : Nat} (hs : h.Spanned)
    (hk : h.growFor bytes = .ok k) : h.Grows k := by
  rw [growFor_eq] at hk
  obtain ⟨used, -, hk⟩ := bind_eq_ok_iff.mp hk
  obtain ⟨required, -, hk⟩ := bind_eq_ok_iff.mp hk
  obtain ⟨grown, hgrow, hk⟩ := bind_eq_ok_iff.mp hk
  cases grown with
  | error cause => nomatch hk
  | ok grown =>
    obtain ⟨spaces, memory⟩ := grown
    obtain ⟨hstart, hle, hextent, hlt, hlt'⟩ := grow_extents hgrow
    obtain ⟨stop, hstop, hk⟩ := bind_eq_ok_iff.mp hk
    obtain ⟨bump, hbump, hk⟩ := bind_eq_ok_iff.mp hk
    obtain ⟨hcursor, rfl⟩ := Bump.spanning_eq_ok_iff.mp hbump
    obtain ⟨statistics, hstatistics, hk⟩ := bind_eq_ok_iff.mp hk
    have hcount := (recordGrowth_spec h.statistics).of_ok hstatistics
    cases hk
    have hlimit := Address.add_eq_ok_iff.mp hstop
    exact
      { active_start := hstart
        extent_le := hle
        cursor := rfl
        statistics := hcount
        spanned :=
          { extent_eq := hextent
            active_lt := hlt
            scratch_lt := hlt'
            limit := by dsimp only; omega
            start_le := by dsimp only; rw [hstart]; exact hs.start_le
            cursor_le := hcursor } }

theorem untouched_of_growFor {h k : Heap} {bytes : Nat} (hk : h.growFor bytes = .ok k) :
    k.recent = h.recent ∧ k.options = h.options := by
  rw [growFor_eq] at hk
  obtain ⟨used, -, hk⟩ := bind_eq_ok_iff.mp hk
  obtain ⟨required, -, hk⟩ := bind_eq_ok_iff.mp hk
  obtain ⟨grown, -, hk⟩ := bind_eq_ok_iff.mp hk
  cases grown with
  | error cause => nomatch hk
  | ok grown =>
    obtain ⟨stop, -, hk⟩ := bind_eq_ok_iff.mp hk
    obtain ⟨bump, -, hk⟩ := bind_eq_ok_iff.mp hk
    obtain ⟨statistics, -, hk⟩ := bind_eq_ok_iff.mp hk
    cases hk
    exact ⟨rfl, rfl⟩

theorem options_of_takeBlock {h k : Heap} {a : Address} {bump : Bump} {bytes : Nat}
    (hk : h.takeBlock a bump bytes = .ok k) : k.options = h.options := by
  rw [takeBlock_eq] at hk
  obtain ⟨memory, -, hk⟩ := bind_eq_ok_iff.mp hk
  obtain ⟨bits, -, hk⟩ := bind_eq_ok_iff.mp hk
  obtain ⟨statistics, -, hk⟩ := bind_eq_ok_iff.mp hk
  cases hk
  rfl

theorem Hands.spanned {h k : Heap} {bytes : Nat} (hk : h.Hands bytes k) (hs : h.Spanned) :
    k.Spanned where
  extent_eq := by rw [hk.active, hk.scratch, hs.extent_eq]
  active_lt := by rw [hk.active]; exact hs.active_lt
  scratch_lt := by rw [hk.active, hk.scratch]; exact hs.scratch_lt
  limit := by rw [hk.limit, hk.active, hs.limit]
  start_le := by
    have hstart := Address.le_iff.mp hs.start_le
    have hcursor := hk.cursor
    rw [hk.active, Address.le_iff]
    omega
  cursor_le := hk.cursor_le

theorem Settles.spanned {h k : Heap} (hk : h.Settles k) (hs : h.Spanned) : k.Spanned := by
  have hactive := hs.active_lt
  have hscratch := hs.scratch_lt
  have hextent := hs.extent_eq
  have hcursor := hk.cursor
  have hlimit := Address.add_eq_ok_iff.mp hk.limit
  have h1 := hk.active_start
  have h2 := hk.active_extent
  have h3 := hk.scratch_start
  have h4 := hk.scratch_extent
  refine
    { extent_eq := by rw [h2, h4, hextent]
      active_lt := by rw [h1, h2, hextent]; exact hscratch
      scratch_lt := by rw [h2, h3, hextent]; exact hactive
      limit := ?_
      start_le := Address.le_iff.mpr (by omega)
      cursor_le := hk.cursor_le }
  rw [hlimit, Nat.mod_eq_of_lt]
  rw [h2, hextent]
  omega

theorem Spanned.congr {h k : Heap} (hs : h.Spanned) (hspaces : k.spaces = h.spaces)
    (hbump : k.bump = h.bump) : k.Spanned where
  extent_eq := by rw [hspaces]; exact hs.extent_eq
  active_lt := by rw [hspaces]; exact hs.active_lt
  scratch_lt := by rw [hspaces]; exact hs.scratch_lt
  limit := by rw [hspaces, hbump]; exact hs.limit
  start_le := by rw [hspaces, hbump]; exact hs.start_le
  cursor_le := by rw [hbump]; exact hs.cursor_le

namespace History

variable {h k l : Heap} {es fs : List Event}

theorem trans (hh : h.History es k) (hk : k.History fs l) : h.History (fs ++ es) l := by
  induction hk with
  | start => exact hh
  | quiet _ hspaces hbump hstatistics ih => exact ih.quiet hspaces hbump hstatistics
  | handed _ halloc htake ih => exact ih.handed halloc htake
  | collected _ hcollect ih => exact ih.collected hcollect
  | grown _ hgrow ih => exact ih.grown hgrow

theorem spanned (hs : h.Spanned) (hh : h.History es k) : k.Spanned := by
  induction hh with
  | start => exact hs
  | quiet _ hspaces hbump _ ih => exact ih.congr hspaces hbump
  | handed _ halloc htake ih => exact (hands_of_takeBlock halloc htake).spanned ih
  | collected _ hcollect ih => exact ((collect_settles _).of_ok hcollect).spanned ih
  | grown _ hgrow ih => exact (grows_of_growFor ih hgrow).spanned

theorem allocated_eq (hs : h.Spanned) (hh : h.History es k) :
    k.statistics.allocated = h.statistics.allocated + Event.handedOut es := by
  induction hh with
  | start => rfl
  | quiet _ _ _ hstatistics ih => rw [hstatistics, ih]
  | @handed es _ _ size _ _ _ halloc htake ih =>
    have hhands := hands_of_takeBlock halloc htake
    have hsum : Event.handedOut (.handed size :: es) =
        Size.objectBytes size + Event.handedOut es := rfl
    rw [hhands.statistics, hsum]
    dsimp only
    omega
  | @collected es k l _ hcollect ih =>
    have hsettles := (collect_settles _).of_ok hcollect
    have hsum : Event.handedOut (.collected k.statistics l.statistics :: es) =
        0 + Event.handedOut es := rfl
    rw [hsettles.allocated, ih, hsum, Nat.zero_add]
  | @grown es _ _ _ hh hgrow ih =>
    have hgrows := grows_of_growFor (hh.spanned hs) hgrow
    have hsum : Event.handedOut (.grown :: es) = 0 + Event.handedOut es := rfl
    rw [hgrows.statistics, hsum, Nat.zero_add]
    exact ih

/-- Every collection that is counted is an event. -/
theorem collections_eq (hs : h.Spanned) (hh : h.History es k) : k.statistics.collections =
    h.statistics.collections + es.countP Event.isCollection := by
  induction hh with
  | start => rfl
  | quiet _ _ _ hstatistics ih => rw [hstatistics, ih]
  | handed _ halloc htake ih =>
    rw [(hands_of_takeBlock halloc htake).statistics]
    exact ih
  | collected _ hcollect ih =>
    rw [((collect_settles _).of_ok hcollect).collections, ih, List.countP_cons_of_pos rfl]
    rfl
  | grown hh hgrow ih =>
    rw [(grows_of_growFor (hh.spanned hs) hgrow).statistics]
    exact ih

/-- The cursor has passed the bytes that the last collection kept, and those handed out since. -/
theorem cursor_eq (hs : h.Spanned) {n : Nat}
    (hn : h.bump.cursor.toNat = h.spaces.active.start.toNat + h.statistics.liveBytes + n)
    (hh : h.History es k) : k.bump.cursor.toNat =
      k.spaces.active.start.toNat + k.statistics.liveBytes + Event.outstanding n es := by
  induction hh with
  | start => exact hn
  | quiet _ hspaces hbump hstatistics ih => rw [hspaces, hbump, hstatistics, ih]
  | handed _ halloc htake ih =>
    have hhands := hands_of_takeBlock halloc htake
    rw [hhands.cursor, hhands.active, hhands.statistics, ih, Event.outstanding_handed]
    exact Nat.add_assoc _ _ _
  | collected _ hcollect ih => exact ((collect_settles _).of_ok hcollect).cursor
  | grown hh hgrow ih =>
    have hgrows := grows_of_growFor (hh.spanned hs) hgrow
    rw [hgrows.cursor, hgrows.active_start, hgrows.statistics, ih]
    rfl

/-- Over each collection, the bytes copied in all have grown by the bytes that it kept. -/
theorem copied_eq {s t : Statistics} (hh : h.History es k) (hmem : .collected s t ∈ es) :
    t.bytesCopied.sum = s.bytesCopied.sum + t.liveBytes := by
  induction hh with
  | start => nomatch hmem
  | quiet _ _ _ _ ih => exact ih hmem
  | handed _ _ _ ih =>
    rcases List.mem_cons.mp hmem with heq | hmem
    · nomatch heq
    · exact ih hmem
  | collected _ hcollect ih =>
    rcases List.mem_cons.mp hmem with heq | hmem
    · injection heq with hs ht
      subst hs ht
      exact ((collect_settles _).of_ok hcollect).copied
    · exact ih hmem
  | grown _ _ ih =>
    rcases List.mem_cons.mp hmem with heq | hmem
    · nomatch heq
    · exact ih hmem

/-- The capacity changes only where a growth is counted, and it never shrinks. -/
theorem capacity_eq (hs : h.Spanned) (hh : h.History es k) :
    h.capacity ≤ k.capacity ∧ h.statistics.growths ≤ k.statistics.growths ∧
      (k.statistics.growths = h.statistics.growths → k.capacity = h.capacity) := by
  unfold capacity
  induction hh with
  | start => exact ⟨Nat.le_refl _, Nat.le_refl _, fun _ => rfl⟩
  | quiet _ hspaces _ hstatistics ih =>
    rw [hspaces, hstatistics]
    exact ih
  | handed _ halloc htake ih =>
    have hhands := hands_of_takeBlock halloc htake
    rw [hhands.active, hhands.statistics]
    exact ih
  | collected hh hcollect ih =>
    have hsettles := (collect_settles _).of_ok hcollect
    rw [hsettles.active_extent, (hh.spanned hs).extent_eq, hsettles.growths]
    exact ih
  | grown hh hgrow ih =>
    have hgrows := grows_of_growFor (hh.spanned hs) hgrow
    have hle := hgrows.extent_le
    rw [hgrows.statistics]
    dsimp only
    refine ⟨by omega, by omega, fun hsame => ?_⟩
    omega

end History

end Heap

end CopyingHeap
