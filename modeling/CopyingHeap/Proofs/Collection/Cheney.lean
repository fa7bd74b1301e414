import CopyingHeap.Proofs.Collection.Preservation
import CopyingHeap.Proofs.Collection.Turns

/-!
The invariant of the loops of a collection. The copies fill the new space up to the cursor. Those that the
scan pointer has passed refer to copies only, and the others hold what their originals held. In the old
space an object is either forwarded to its copy or as it was.
-/

namespace CopyingHeap

namespace Heap

/-- The copies of a collection at a moment: `moves` lists the objects that have one, with it, in the order
of the copies. -/
structure Cheney (h : Heap) (moves : List (Reference × Reference)) (scan : Address) (e : Evacuation)
    (m : Memory) : Prop where
  start_le : h.spaces.scratch.start ≤ scan
  scan_le : scan ≤ e.bump.cursor
  cursor_le : e.bump.cursor.toNat ≤ h.spaces.scratch.start.toNat + h.spaces.scratch.extent
  originals : ∀ p ∈ moves, h.Initialised p.1 ∧ h.memory.objectSize p.1 = .ok (4 * h.size p.1)
  copies : ∀ p ∈ moves, m.objectSize p.2 = .ok (4 * m.wordCount p.2.index)
  tiles : Tiles (fun p => p.2.address.toNat) (fun p => 4 * m.wordCount p.2.index)
    h.spaces.scratch.start.toNat moves e.bump.cursor.toNat
  marked : ∀ a, h.spaces.scratch.start ≤ a → a < e.bump.cursor →
    (e.bits.isSet a = true ↔ ∃ p ∈ moves, p.2.address = a)
  kind : ∀ p ∈ moves, ∃ k, m.kind p.2 = .ok k ∧ h.memory.kind p.1 = .ok k
  isForwarded : ∀ r, h.Initialised r → m.isForwarded r = .ok (decide (r ∈ moves.map Prod.fst))
  forwardingPointer : ∀ p ∈ moves, m.forwardingPointer p.1 = .ok p.2
  functional : ∀ p ∈ moves, ∀ q ∈ moves, p.1 = q.1 → p.2 = q.2
  injective : ∀ p ∈ moves, ∀ q ∈ moves, p.2 = q.2 → p.1 = q.1
  before : ∀ p ∈ moves, ∀ slot, m.HasSlot p.2 slot → slot < scan → ∃ w, m.load slot = .ok w ∧
    ∀ r, Word.target? w = some r → h.source.contains r.address = .ok false
  after : ∀ p ∈ moves, ∀ slot, m.HasSlot p.2 slot → scan ≤ slot → ∃ w, m.load slot = .ok w ∧
    h.memory.load (Address.ofNat (p.1.address.toNat + (slot.toNat - p.2.address.toNat))) = .ok w
  unforwarded : ∀ r, h.Initialised r → r ∉ moves.map Prod.fst → ∀ j < h.size r,
    ∃ w, m.load (Address.ofNat (4 * (r.index + j))) = .ok w ∧
      h.memory.load (Address.ofNat (4 * (r.index + j))) = .ok w
  total_eq : (moves.map fun p => 4 * m.wordCount p.2.index).sum = (moves.map fun p => 4 * h.size p.1).sum
  total_le : ∃ used, h.used = .ok used ∧ (moves.map fun p => 4 * h.size p.1).sum ≤ used

namespace Evacuated

variable {h : Heap} (hr : h.Regular) {moves : List (Reference × Reference)} {slot scan : Nat}
  {e : Evacuation} {m : Memory} (he : h.Evacuated moves slot scan e m) {p : Reference × Reference}
  {r : Reference}

include hr he

theorem copy_end (hp : p ∈ moves) {j : Nat} (hj : j < h.size p.1) :
    p.2.index + j < 0x40000000 ∧ p.2.index + j < m.words.size := by
  obtain ⟨-, -, -, -, hend, -⟩ := he.copy_shape hr hp
  have hsize := hr.size_le
  have hmsize := he.size
  omega

theorem copy_hasSlot_iff (hp : p ∈ moves) {a : Address} : m.HasSlot p.2 a ↔
    ∃ j, h.memory.IsSlot p.1.index j ∧ a = Address.ofNat (4 * (p.2.index + j)) := by
  obtain ⟨k, hheader, h0, hcount, hend, hslots⟩ := he.copy_shape hr hp
  have hsize := hr.size_le
  have hmsize := he.size
  rw [Memory.hasSlot_iff (by omega) h0 (by omega)]
  simp only [Memory.isSlot_iff h0, Memory.isSlot_iff hheader, Kind.isSlot_iff_between, hslots]

/-- A slot that has been traced refers to nothing in the emptied space. -/
theorem traced_outside (hp : p ∈ moves) {j : Nat} (hj : h.memory.IsSlot p.1.index j)
    (hscan : p.2.index + j < scan) (hr' : Word.target? (m.word (p.2.index + j)) = some r) :
    ¬ h.Inside r := by
  obtain ⟨hword, hne⟩ := target?_eq_some_iff.mp hr'
  rcases he.traced p hp j hj hscan with ⟨s, t, hst, -, ht⟩ | ⟨hnames, hsame⟩
  · have hrt : r = t := Reference.word_inj.mp (hword.symm.trans ht)
    exact hrt ▸ he.copy_not_inside hr hst
  · rw [hsame] at hword
    rcases he.slot_target hr hp hj hword hne with hreach | ⟨hout, -⟩
    · rw [hword, hr.namesObject_word hreach.initialised] at hnames
      cases hnames
    · exact hout

theorem isForwarded_eq (hi : h.Initialised r) :
    m.isForwarded r = .ok (decide (r ∈ moves.map Prod.fst)) := by
  have htwo := hr.two_le_size hi
  have hend := hr.end_le_size hi
  have hmsize := he.size
  rw [Memory.isForwarded, Memory.load_address (by omega), ok_bind]
  by_cases hold : r ∈ moves.map Prod.fst
  · obtain ⟨p, hp, rfl⟩ := List.mem_map.mp hold
    rw [(he.forwarded p hp).1, decide_eq_true hold]
    rfl
  · obtain ⟨k, -, -, hheader⟩ := hr.kind_eq hi
    have h0 : m.word r.index = k.header :=
      (he.original hr hi hold (j := 0) (by omega)).trans hheader
    rw [h0, beq_eq_false_iff_ne.mpr (header_ne_forwarded k), decide_eq_false hold]
    rfl

theorem forwardingPointer_eq (hp : p ∈ moves) : m.forwardingPointer p.1 = .ok p.2 := by
  have hi := he.initialised hp
  have htwo := hr.two_le_size hi
  have hend := hr.end_le_size hi
  have hmsize := he.size
  have hsize := hr.size_le
  obtain ⟨h0, h1⟩ := he.forwarded p hp
  have htarget := Memory.forwarded?_eq (by omega) (by omega) h0 h1
  rw [Memory.forwarded?, he.isForwarded_eq hr hi, decide_eq_true (List.mem_map_of_mem hp), ok_bind,
    if_pos rfl] at htarget
  obtain ⟨s, hs, heq⟩ := bind_eq_ok_iff.mp htarget
  injection heq with heq
  injection heq with heq
  rw [hs, heq]

/-- The copies take no more room than what has been allocated in the space that is emptied. -/
theorem total_le : ∃ used, h.used = .ok used ∧ (moves.map fun p => 4 * h.size p.1).sum ≤ used := by
  have hsum := hr.sum_size_le_used he.nodup fun r hmem => by
    obtain ⟨p, hp, rfl⟩ := List.mem_map.mp hmem
    exact he.initialised hp
  have hstart := Address.le_iff.mp hr.start_le
  have htiles := he.tiles.sum_eq
  have hscaled := (he.tiles.scale 4).sum_eq
  rw [List.map_map] at hsum
  unfold Function.comp at hsum
  exact ⟨h.bump.cursor.toNat - h.spaces.active.start.toNat,
    Address.diff_eq_ok_iff.mpr (by omega), by omega⟩

theorem copy_before (hp : p ∈ moves) {a : Address} (ha : m.HasSlot p.2 a) (hlt : a.toNat < 4 * scan) :
    ∃ w, m.load a = .ok w ∧ ∀ r, Word.target? w = some r →
      h.source.contains r.address = .ok false := by
  obtain ⟨j, hj, rfl⟩ := (he.copy_hasSlot_iff hr hp).mp ha
  have hend := he.copy_end hr hp hj.lt
  rw [Address.toNat_ofNat_of_lt (by omega)] at hlt
  refine ⟨_, Memory.load_word hend.1 hend.2, fun r htarget => ?_⟩
  rw [hr.source_contains, decide_eq_false (he.traced_outside hr hp hj (by omega) htarget)]

theorem copy_after (hp : p ∈ moves) {a : Address} (ha : m.HasSlot p.2 a) (hle : 4 * scan ≤ a.toNat) :
    ∃ w, m.load a = .ok w ∧ h.memory.load
      (Address.ofNat (p.1.address.toNat + (a.toNat - p.2.address.toNat))) = .ok w := by
  obtain ⟨j, hj, rfl⟩ := (he.copy_hasSlot_iff hr hp).mp ha
  have hend := he.copy_end hr hp hj.lt
  rw [Address.toNat_ofNat_of_lt (by omega)] at hle ⊢
  have hplace : p.1.address.toNat + (4 * (p.2.index + j) - p.2.address.toNat) =
      4 * (p.1.index + j) := by
    rw [Reference.toNat_address, Reference.toNat_address]
    omega
  refine ⟨_, Memory.load_word hend.1 hend.2, ?_⟩
  rw [hplace, hr.load_slot (he.initialised hp) hj.lt,
    he.verbatim p hp j hj.lt fun hs => by omega]

/-- What the state of a collection means for its loops. -/
theorem cheney {a : Address} (ha : a.toNat = 4 * scan) (hle : h.target ≤ scan) :
    h.Cheney moves a e m := by
  have hcursor := he.cursor_le hr
  have hlimit := he.limit
  have hextent := hr.spaces.extent_eq
  have hscan := he.scan_le
  have hmsize := he.size
  have hsize := hr.size_le
  have haligned := he.cursor_aligned
  have htarget := hr.scratch_start
  unfold Address.WordAligned at haligned
  have hcount (p : Reference × Reference) (hp : p ∈ moves) : m.wordCount p.2.index = h.size p.1 := by
    obtain ⟨-, -, -, hcount, -⟩ := he.copy_shape hr hp
    exact hcount
  refine
    { start_le := Address.le_iff.mpr (by omega)
      scan_le := Address.le_iff.mpr (by omega)
      cursor_le := by omega
      originals := fun p hp => ⟨he.initialised hp, hr.objectSize (he.initialised hp)⟩
      copies := fun p hp => ?_
      tiles := ?_
      marked := fun a hlow hhigh => ?_
      kind := fun p hp => ?_
      isForwarded := fun r => he.isForwarded_eq hr
      forwardingPointer := fun p => he.forwardingPointer_eq hr
      functional := fun p hp q hq heq => ?_
      injective := fun p hp q hq heq => ?_
      before := fun p hp slot hslot hlt => ?_
      after := fun p hp slot hslot hle => ?_
      unforwarded := fun r hi hnew j hj => ?_
      total_eq := ?_
      total_le := he.total_le hr }
  · obtain ⟨k, -, h0, -, hend, -⟩ := he.copy_shape hr hp
    have htwo := hr.two_le_size (he.initialised hp)
    exact Memory.objectSize_eq (by omega) (by omega) h0
  · have htiles := he.tiles.scale 4
    rw [← htarget, show 4 * (e.bump.cursor.toNat / 4) = e.bump.cursor.toNat from by omega] at htiles
    exact htiles.congr fun p hp => ⟨p.2.toNat_address, by rw [hcount p hp]⟩
  · rw [← he.isCopy_iff hr, Evacuation.isCopy, decide_eq_true hlow, decide_eq_true hhigh]
    rfl
  · obtain ⟨k, hheader, h0, -, hend, -⟩ := he.copy_shape hr hp
    have hi := he.initialised hp
    have htwo := hr.two_le_size hi
    have hlast := hr.end_le_size hi
    exact ⟨k, Memory.kind_eq_ok (by omega) h0, Memory.kind_eq_ok (by omega) hheader⟩
  · exact he.functional (r := p.1) hp (show (p.1, q.2) ∈ moves from heq ▸ hq)
  · have hp2 := hr.two_le_size (he.initialised hp)
    have hq2 := hr.two_le_size (he.initialised hq)
    rw [(he.copy_unique hp hq (j := 0) (i := 0) (by omega) (by omega) (by rw [heq])).1]
  · rw [Address.lt_iff, ha] at hlt
    exact he.copy_before hr hp hslot hlt
  · rw [Address.le_iff, ha] at hle
    exact he.copy_after hr hp hslot hle
  · have hend := hr.end_le_size hi
    exact ⟨_, Memory.load_word (by omega) (by omega),
      by rw [hr.load_slot hi hj, he.original hr hi hnew hj]⟩
  · exact congrArg List.sum (List.map_congr_left fun p hp => by rw [hcount p hp])

end Evacuated

/-- The scan pointer of the moment is in the state of the collection. -/
theorem At.evacuated {h : Heap} (hr : h.Regular) {moves : List (Reference × Reference)} {x : Moment}
    (hx : h.At moves x) : ∃ slot scan, h.Evacuated moves slot scan x.evacuation x.memory ∧
      (x.scan h).toNat = 4 * scan ∧ h.target ≤ scan := by
  cases hx with
  | roots hfound he => exact ⟨_, _, he, hr.scratch_start, Nat.le_refl _⟩
  | copies hfound hmoves hdone hposition he => exact ⟨_, _, he, hposition, hdone.le⟩
  | @slots _ _ p j k _ past _ _ hfound hmoves hdone hpast hj _ _ he =>
    have hle := hdone.le
    have hlimit := past.toNat_lt
    exact ⟨_, _, he, Address.toNat_ofNat_of_lt (by omega), by omega⟩

/-- Cheney's invariant holds at every moment of a collection of a well-formed heap. What is left to do at
the moment is the collection. -/
theorem WellFormed.cheney_of_visits {h : Heap} (hw : h.WellFormed) {x : Moment} (hx : h.Visits x) :
    (∃ moves, h.Cheney moves (x.scan h) x.evacuation x.memory) ∧
      h.collect = x.rest h >>= h.settle := by
  obtain ⟨⟨moves, hat⟩, hcollect⟩ := hw.toRegular.visits hx
  obtain ⟨slot, scan, he, hscan, hle⟩ := hat.evacuated hw.toRegular
  exact ⟨⟨moves, he.cheney hw.toRegular hscan hle⟩, hcollect⟩

theorem cheney_looped : looped.WellFormed ∧ ∃ x, looped.Visits x ∧ x.next looped = .ok none ∧
    (∃ moves, looped.Cheney moves (x.scan looped) x.evacuation x.memory) ∧
      looped.collect = x.rest looped >>= looped.settle := by
  have hstop : looped.spaces.scratch.stop = .ok (.ofNat 192) := by decide
  have hbump : Bump.spanning looped.spaces.scratch.start (.ofNat 192) = .ok ⟨.ofNat 128, .ofNat 192⟩ := by
    decide
  have hstart := Visits.start hstop hbump
  obtain ⟨h', -, hcollect, -⟩ := wellFormed_looped.exists_collect countersFit_looped
  rw [collect_eq_rest hstop hbump] at hcollect
  obtain ⟨y, hy, -⟩ := bind_eq_ok_iff.mp hcollect
  obtain ⟨x, -, hx, hlast, -, -⟩ := wellFormed_looped.toRegular.exists_last hstart hy
  exact ⟨wellFormed_looped, x, hx, hlast, WellFormed.cheney_of_visits wellFormed_looped hx⟩

end Heap

end CopyingHeap
