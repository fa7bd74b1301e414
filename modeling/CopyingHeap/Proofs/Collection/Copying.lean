import CopyingHeap.Collection
import CopyingHeap.Proofs.Heap.Reachable
import CopyingHeap.Proofs.Tiling

/-!
The state of a collection between two steps. The originals that have been copied are listed with their
copies; the copies lie end to end in the target space, and everything that no step has reached yet is
as it was. Copying one more object keeps this, and cannot fail unless a counter overflows: the
originals do not overlap, so the copies need no more room than the space that is emptied.
-/

namespace CopyingHeap

namespace Memory

theorem forward_eq {m : Memory} {r t : Reference} (hb : r.index + 1 < 0x40000000)
    (hi : r.index + 1 < m.words.size) (hne : m.word r.index ≠ forwardedHeader) :
    m.forward r t =
      .ok ((m.withWord r.index forwardedHeader).withWord (r.index + 1) t.word) := by
  have hforwarded : m.isForwarded r = .ok false := by
    rw [isForwarded, load_address (by omega), ok_bind]
    exact congrArg Except.ok (beq_eq_false_iff_ne.mpr hne)
  have hadd : r.address.add forwardingOffset = .ok (Address.ofNat (4 * (r.index + 1))) :=
    r.add_eq (j := 1) (by omega)
  have hstore := store_word (m := m.withWord r.index forwardedHeader) (i := r.index + 1) (by omega)
    (by rwa [size_withWord]) t.word
  rw [forward, hforwarded, ok_bind]
  simp only [Bool.false_eq_true, if_false]
  rw [store_address (by omega), ok_bind, hadd, ok_bind, hstore]

theorem forwarded?_eq {m : Memory} {r t : Reference} (hs : m.words.size ≤ 0x3FFFC000)
    (hi : r.index + 1 < m.words.size) (h0 : m.word r.index = forwardedHeader)
    (h1 : m.word (r.index + 1) = t.word) : m.forwarded? r = .ok (some t) := by
  have hforwarded : m.isForwarded r = .ok true := by
    rw [isForwarded, load_address (by omega), ok_bind, h0]
    rfl
  have hadd : r.address.add forwardingOffset = .ok (Address.ofNat (4 * (r.index + 1))) :=
    r.add_eq (j := 1) (by omega)
  rw [forwarded?, hforwarded, ok_bind, if_pos rfl, forwardingPointer, hforwarded, ok_bind,
    if_pos rfl, hadd, ok_bind, loadAddress, load_word (by omega) hi, ok_bind, h1]
  have ht := Reference.ofAddress_address t
  simp only [pure, Except.pure, ok_bind]
  rw [show (Address.mk t.word) = t.address from rfl, ht]
  rfl

theorem forwarded?_eq_none {m : Memory} {r : Reference} (hi : r.index < m.words.size)
    (hne : m.word r.index ≠ forwardedHeader) : m.forwarded? r = .ok none := by
  rw [forwarded?, isForwarded, load_address hi, ok_bind]
  simp only [pure, Except.pure, ok_bind, beq_eq_false_iff_ne.mpr hne]
  rfl

/-- The memory with the `n` words of `r` copied to `t`, and `r` forwarded there. -/
def withMove (m : Memory) (r t : Reference) (n : Nat) : Memory :=
  ((m.withCopy r.index t.index n).withWord r.index forwardedHeader).withWord (r.index + 1) t.word

@[simp] theorem size_withMove (m : Memory) (r t : Reference) (n : Nat) :
    (m.withMove r t n).words.size = m.words.size := by
  simp [withMove]

@[simp] theorem maxPages_withMove (m : Memory) (r t : Reference) (n : Nat) :
    (m.withMove r t n).maxPages = m.maxPages :=
  rfl

theorem word_withMove {m : Memory} {r t : Reference} {n : Nat} (hr : r.index + n ≤ m.words.size)
    (ht : t.index + n ≤ m.words.size) (hn : 2 ≤ n) (i : Nat) : (m.withMove r t n).word i =
      if i = r.index + 1 then t.word
      else if i = r.index then forwardedHeader
      else if t.index ≤ i ∧ i < t.index + n then m.word (r.index + (i - t.index))
      else m.word i := by
  rw [withMove, word_withWord (by simp only [size_withWord, size_withCopy]; omega),
    word_withWord (by rw [size_withCopy]; omega), word_withCopy hr ht]

end Memory

theorem header_ne_forwarded (k : Kind) : k.header ≠ forwardedHeader := by
  cases k <;> decide

namespace Evacuation

theorem reserve_eq_ok_iff {bump : Bump} {bytes : Nat} {x : Address × Bump} :
    reserve bump bytes = .ok x ↔ bump.alloc bytes = some x := by
  unfold reserve
  cases bump.alloc bytes with
  | none =>
    refine ⟨fun h => ?_, nofun⟩
    obtain ⟨left, -, h⟩ := bind_eq_ok_iff.mp h
    nomatch h
  | some y =>
    dsimp only
    rw [Except.ok.injEq, Option.some.injEq]

/-- Copying an object whole, where the target space has room for it. -/
theorem copyWhole_eq {e : Evacuation} {m : Memory} {r t : Reference} {n : Nat} {bump : Bump}
    {bits : StartBits} (k : Kind) (hb : r.index + 1 < 0x40000000)
    (hreserve : reserve e.bump (4 * n) = .ok (t.address, bump))
    (hset : e.bits.set t.address = .ok bits) (hr : r.index + n ≤ m.words.size)
    (ht : t.index + n ≤ m.words.size) (hn : 2 ≤ n)
    (hne : (m.withCopy r.index t.index n).word r.index ≠ forwardedHeader) :
    e.copyWhole m r k (4 * n) = e.statistics.recordCopy k (4 * n) >>= fun statistics =>
      .ok (t, ⟨bump, bits, statistics⟩, m.withMove r t n) := by
  have hcopy : m.copy r.address t.address (4 * n) = .ok (m.withCopy r.index t.index n) :=
    Memory.copy_eq_ok r.aligned t.aligned hr ht
  have hforward : (m.withCopy r.index t.index n).forward r t = .ok (m.withMove r t n) :=
    Memory.forward_eq hb (by rw [Memory.size_withCopy]; omega) hne
  obtain ⟨oldBump, oldBits, statistics⟩ := e
  dsimp only at hreserve hset ⊢
  rw [copyWhole, hreserve, ok_bind]
  dsimp only
  rw [hcopy, ok_bind, Reference.ofAddress_address, ok_bind, hforward, ok_bind, hset, ok_bind]
  rfl

/-- Copying an object, which is no symbol, is copying its bytes whole. -/
theorem copyObject_eq_copyWhole (e : Evacuation) {m : Memory} {r : Reference} {k : Kind} {bytes : Nat}
    (hk : m.kind r = .ok k) (hsymbol : k ≠ .symbol) (hbytes : m.sizeAs r k = .ok bytes) :
    e.copyObject m r = e.copyWhole m r k bytes := by
  rw [copyObject, hk, ok_bind]
  cases k with
  | symbol => exact absurd rfl hsymbol
  | _ => simp only [hbytes, ok_bind]

end Evacuation

namespace Statistics

/-- Counting a copy changes the two counters of its kind and nothing else. -/
def Copied (s t : Statistics) (k : Kind) (bytes : Nat) : Prop :=
  (∀ l, t.objectsCopied.get l = s.objectsCopied.get l + (if l = k then 1 else 0) ∧
    t.bytesCopied.get l = s.bytesCopied.get l + (if l = k then bytes else 0)) ∧
  t = { s with objectsCopied := t.objectsCopied, bytesCopied := t.bytesCopied }

theorem tally_add (t : Tally) (k : Kind) (n : Nat) :
    Ends (t.add k n) (fun u => ∀ l, u.get l = t.get l + (if l = k then n else 0))
      (fun f => f = .overflow ∧ Size.bound ≤ t.get k + n) := by
  cases h : t.add k n with
  | ok u =>
    intro l
    rw [Tally.get_add h l]
    split
    · rename_i hl
      rw [hl]
    · rfl
  | error f =>
    rw [Tally.add] at h
    rcases Nat.lt_or_ge (t.get k + n) Size.bound with hlt | hge
    · rw [Size.add_eq_ok hlt, ok_bind] at h
      nomatch h
    · rw [Size.add_eq_error hge, error_bind] at h
      injection h with h
      exact ⟨h.symm, hge⟩

theorem recordCopy_spec (s : Statistics) (k : Kind) (bytes : Nat) :
    Ends (s.recordCopy k bytes) (fun t => Copied s t k bytes)
      (fun f => f = .overflow ∧ (Size.bound ≤ s.objectsCopied.get k + 1 ∨
        Size.bound ≤ s.bytesCopied.get k + bytes)) := by
  unfold recordCopy
  refine Ends.bind (P := fun u => ∀ l, u.get l = s.objectsCopied.get l + (if l = k then 1 else 0))
    ((tally_add _ _ _).mono (fun _ h => h) fun f h => ⟨h.1, .inl h.2⟩) fun u hu => ?_
  refine Ends.bind (P := fun u => ∀ l, u.get l = s.bytesCopied.get l + (if l = k then bytes else 0))
    ((tally_add _ _ _).mono (fun _ h => h) fun f h => ⟨h.1, .inr h.2⟩) fun v hv => ?_
  exact ⟨fun l => ⟨hu l, hv l⟩, rfl⟩

end Statistics

namespace Heap

/-- The words from which a collection copies on. -/
def target (h : Heap) : Nat :=
  h.spaces.scratch.start.toNat / 4

/-- The space that a collection empties. -/
def source (h : Heap) : Space :=
  { h.spaces.active with isFrom := true }

theorem isFrom_source (h : Heap) : h.source.isFrom = true :=
  rfl

/-- Does the address lie in the active space? -/
def Inside (h : Heap) (r : Reference) : Prop :=
  h.spaces.active.start.toNat ≤ 4 * r.index ∧
    4 * r.index < h.spaces.active.start.toNat + h.spaces.active.extent

instance (h : Heap) (r : Reference) : Decidable (h.Inside r) :=
  inferInstanceAs (Decidable (_ ∧ _))

/-- Is `s` the copy of `r`? -/
def CopiedTo (moves : List (Reference × Reference)) (r s : Reference) : Prop :=
  (r, s) ∈ moves

/-- A collection of `h` has copied the objects in `moves`, in this order. It has traced the stack up to
word `slot`, and the copies up to word `scan`. -/
structure Evacuated (h : Heap) (moves : List (Reference × Reference)) (slot scan : Nat)
    (e : Evacuation) (m : Memory) : Prop where
  size : m.words.size = h.memory.words.size
  maxPages : m.maxPages = h.memory.maxPages
  limit : e.bump.limit.toNat = h.spaces.scratch.start.toNat + h.spaces.active.extent
  cursor_aligned : e.bump.cursor.WordAligned
  scan_le : 4 * scan ≤ e.bump.cursor.toNat
  tiles : Tiles (fun p => p.2.index) (fun p => h.size p.1) h.target moves (e.bump.cursor.toNat / 4)
  nodup : (moves.map Prod.fst).Nodup
  reachable : ∀ p ∈ moves, h.Reachable p.1
  cells : e.bits.cells.size = h.spaces.bits.cells.size
  starts : ∀ a, e.bits.isSet a = true ↔
    h.spaces.bits.isSet a = true ∨ ∃ p ∈ moves, p.2.address = a
  forwarded : ∀ p ∈ moves, m.word p.1.index = forwardedHeader ∧ m.word (p.1.index + 1) = p.2.word
  traced : ∀ p ∈ moves, ∀ j, h.memory.IsSlot p.1.index j → p.2.index + j < scan →
    h.Carried (CopiedTo moves) (h.memory.word (p.1.index + j)) (m.word (p.2.index + j))
  verbatim : ∀ p ∈ moves, ∀ j < h.size p.1, ¬ (h.memory.IsSlot p.1.index j ∧ p.2.index + j < scan) →
    m.word (p.2.index + j) = h.memory.word (p.1.index + j)
  stack_done : ∀ i, h.stack.sp.toNat ≤ 4 * i → 4 * i < h.stack.base.toNat → i < slot →
    h.Carried (CopiedTo moves) (h.memory.word i) (m.word i)
  stack_rest : ∀ i, h.stack.sp.toNat ≤ 4 * i → 4 * i < h.stack.base.toNat → slot ≤ i →
    m.word i = h.memory.word i
  frame : ∀ i, ¬ (h.stack.sp.toNat ≤ 4 * i ∧ 4 * i < h.stack.base.toNat) →
    ¬ (h.target ≤ i ∧ 4 * i < e.bump.cursor.toNat) →
    (∀ p ∈ moves, i ≠ p.1.index ∧ i ≠ p.1.index + 1) → m.word i = h.memory.word i
  counts : ∀ k,
    e.statistics.objectsCopied.get k =
      h.statistics.objectsCopied.get k + h.countOf k (moves.map Prod.fst) ∧
    e.statistics.bytesCopied.get k =
      h.statistics.bytesCopied.get k + h.bytesOf k (moves.map Prod.fst)
  statistics : e.statistics = { h.statistics with
    objectsCopied := e.statistics.objectsCopied, bytesCopied := e.statistics.bytesCopied }

/-- The next copy, of the object at `r`, goes to the cursor, at `t`; there is room for it, and the cursor
and the start bits after it are those given. -/
structure Landing (h : Heap) (e : Evacuation) (r t : Reference) (cursor : Address)
    (bits : StartBits) : Prop where
  start : e.bump.cursor.toNat = 4 * t.index
  cursor : cursor.toNat = e.bump.cursor.toNat + 4 * h.size r
  low : h.target ≤ t.index
  room : e.bump.cursor.toNat + 4 * h.size r ≤ e.bump.limit.toNat
  cells : bits.cells.size = e.bits.cells.size
  isSet : ∀ x, bits.isSet x = true ↔ e.bits.isSet x = true ∨ x = t.address

/-- A counter overflows, though it would hold the work of a whole collection. -/
def CounterFault (h : Heap) (f : Fault) : Prop :=
  f = .overflow ∧ ¬ h.CountersFit

theorem Carried.append {h : Heap} {moves more : List (Reference × Reference)} {w w' : Word}
    (hc : h.Carried (CopiedTo moves) w w') : h.Carried (CopiedTo (moves ++ more)) w w' :=
  hc.mono fun _ _ => List.mem_append_left more

theorem Layout.scratch_start {h : Heap} (hl : h.Layout) :
    h.spaces.scratch.start.toNat = 4 * h.target := by
  have hscratch := hl.spaces.scratch_aligned
  unfold Address.WordAligned at hscratch
  unfold target
  omega

theorem Layout.source_stop {h : Heap} (hl : h.Layout) :
    ∃ a, h.source.stop = .ok a ∧
      a.toNat = h.spaces.active.start.toNat + h.spaces.active.extent := by
  have hinside := hl.spaces.active_inside
  have hsize := hl.size_le
  exact Address.exists_add (a := h.spaces.active.start) (n := h.spaces.active.extent) (by omega)

theorem Layout.source_contains {h : Heap} (hl : h.Layout) (r : Reference) :
    h.source.contains r.address = .ok (decide (h.Inside r)) := by
  obtain ⟨a, hstop, ha⟩ := hl.source_stop
  rw [Space.contains, Space.range, hstop]
  refine congrArg Except.ok (decide_eq_decide.mpr ?_)
  show h.source.start ≤ r.address ∧ r.address < a ↔ _
  rw [Address.le_iff, Address.lt_iff, Reference.toNat_address, ha]
  rfl

theorem Regular.inside_of_isSet {h : Heap} (hr : h.Regular) {r : Reference}
    (hs : h.spaces.bits.isSet r.address = true) : h.Inside r := by
  have h1 := hr.index_within hs
  have h2 := Address.le_iff.mp hr.cursor_le
  have h3 := hr.limit
  exact ⟨h1.1, by omega⟩

theorem Regular.inside {h : Heap} (hr : h.Regular) {r : Reference} (hi : h.Initialised r) :
    h.Inside r :=
  hr.inside_of_isSet (hr.isSet_of_initialised hi)

/-- Tracing leaves what lies outside the space that is emptied. -/
theorem Layout.trace_outside {h : Heap} (hl : h.Layout) {r : Reference} (hout : ¬ h.Inside r)
    (e : Evacuation) (m : Memory) : Evacuation.trace h.source e m r = .ok (r, e, m) := by
  rw [Evacuation.trace, if_pos h.isFrom_source, hl.source_contains, ok_bind, decide_eq_false hout]
  rfl

/-- Tracing what has been forwarded. -/
theorem Layout.trace_forwarded {h : Heap} (hl : h.Layout) {r t : Reference} (hin : h.Inside r)
    (e : Evacuation) {n : Memory} (hn : n.words.size = h.memory.words.size)
    (hlt : r.index + 1 < n.words.size) (h0 : n.word r.index = forwardedHeader)
    (h1 : n.word (r.index + 1) = t.word) : Evacuation.trace h.source e n r = .ok (t, e, n) := by
  have hsize := hl.size_le
  rw [Evacuation.trace, if_pos h.isFrom_source, hl.source_contains, ok_bind,
    decide_eq_true hin, if_pos rfl, Memory.forwarded?_eq (by omega) hlt h0 h1]
  rfl

theorem Regular.trace_intact {h : Heap} (hr : h.Regular) {r : Reference} (hi : h.Initialised r)
    (e : Evacuation) {n : Memory} (hn : n.words.size = h.memory.words.size)
    (h0 : n.word r.index = h.memory.word r.index) :
    Evacuation.trace h.source e n r = e.copyObject n r := by
  obtain ⟨k, -, -, hheader⟩ := hr.kind_eq hi
  have htwo := hr.two_le_size hi
  have hend := hr.end_le_size hi
  rw [Evacuation.trace, if_pos h.isFrom_source, hr.source_contains, ok_bind,
    decide_eq_true (hr.inside hi), if_pos rfl, Memory.forwarded?_eq_none (by omega)]
  · rfl
  · rw [h0, hheader]
    exact header_ne_forwarded k

/-- Objects take no more room than what has been allocated. -/
theorem Regular.sum_size_le_used {h : Heap} (hr : h.Regular) {rs : List Reference} (hrs : rs.Nodup)
    (hi : ∀ r ∈ rs, h.Initialised r) :
    4 * (rs.map h.size).sum ≤ h.bump.cursor.toNat - h.spaces.active.start.toNat := by
  have hsum := sum_le_of_separate hrs (a := h.spaces.active.start.toNat / 4)
    (b := h.bump.cursor.toNat / 4)
    (fun x hx => by
      have h1 := hr.index_within (hr.isSet_of_initialised (hi x hx))
      have h2 := (hr.object_end (hi x hx)).1
      exact ⟨by omega, by omega⟩)
    (fun x hx y hy => hr.separate (hi x hx) (hi y hy))
  have hstart := hr.spaces.active_aligned
  unfold Address.WordAligned at hstart
  omega

theorem Regular.sum_size_le {h : Heap} (hr : h.Regular) {rs : List Reference} (hrs : rs.Nodup)
    (hi : ∀ r ∈ rs, h.Initialised r) : 4 * (rs.map h.size).sum ≤ h.spaces.active.extent := by
  have hsum := hr.sum_size_le_used hrs hi
  have hcl := Address.le_iff.mp hr.cursor_le
  have hlim := hr.limit
  omega

namespace Evacuated

variable {h : Heap} (hr : h.Regular) {moves : List (Reference × Reference)} {slot scan : Nat}
  {e : Evacuation} {m : Memory} (he : h.Evacuated moves slot scan e m) {r : Reference}

include he

theorem initialised {p : Reference × Reference} (hp : p ∈ moves) : h.Initialised p.1 :=
  (he.reachable p hp).initialised

theorem functional {t t' : Reference} (ht : CopiedTo moves r t) (ht' : CopiedTo moves r t') :
    t = t' :=
  congrArg Prod.snd (List.inj_on_of_nodup_map he.nodup ht ht' rfl)

theorem copy_bounds {p : Reference × Reference} (hp : p ∈ moves) {j : Nat} (hj : j < h.size p.1) :
    h.target ≤ p.2.index + j ∧ 4 * (p.2.index + j) < e.bump.cursor.toNat := by
  have hmem := he.tiles.mem hp
  omega

theorem nodup_snoc (hnew : r ∉ moves.map Prod.fst) : (moves.map Prod.fst ++ [r]).Nodup := by
  rw [← List.concat_eq_append]
  exact he.nodup.concat hnew

/-- Counting one more copy overflows only if the counters do not fit a whole collection. -/
theorem recordCopy (hreach : h.Reachable r) (hnew : r ∉ moves.map Prod.fst) {k : Kind}
    (hk : h.memory.kind r = .ok k) :
    Ends (e.statistics.recordCopy k (4 * h.size r))
      (fun s => e.statistics.Copied s k (4 * h.size r)) h.CounterFault := by
  refine (Statistics.recordCopy_spec _ _ _).mono (fun _ hs => hs) fun f hf => ⟨hf.1, fun hfit => ?_⟩
  have hc := hfit.copies (moves.map Prod.fst ++ [r]) (he.nodup_snoc hnew)
    (fun x hx => by
      rcases List.mem_append.mp hx with hx | hx
      · obtain ⟨p, hp, rfl⟩ := List.mem_map.mp hx
        exact he.reachable p hp
      · exact List.mem_singleton.mp hx ▸ hreach) k
  have hkind : h.isOfKind k r = true := isOfKind_iff.mpr hk
  rw [countOf_snoc, bytesOf_snoc, if_pos hkind, if_pos hkind] at hc
  have he' := he.counts k
  omega

include hr

theorem cursor_eq : e.bump.cursor.toNat =
    h.spaces.scratch.start.toNat + 4 * ((moves.map Prod.fst).map h.size).sum := by
  have htiles := he.tiles.sum_eq
  have haligned := he.cursor_aligned
  have hscratch := hr.scratch_start
  unfold Address.WordAligned at haligned
  have hcomp : (moves.map Prod.fst).map h.size = moves.map fun p => h.size p.1 := by
    rw [List.map_map]
    rfl
  rw [hcomp]
  omega

theorem cursor_le : e.bump.cursor.toNat ≤ e.bump.limit.toNat := by
  have hsum := hr.sum_size_le he.nodup fun x hx => by
    obtain ⟨p, hp, rfl⟩ := List.mem_map.mp hx
    exact he.initialised hp
  rw [he.cursor_eq hr, he.limit]
  omega

theorem limit_inside : e.bump.limit.toNat ≤ 4 * m.words.size := by
  rw [he.limit, he.size]
  exact hr.spaces.scratch_inside

/-- The copies, with one more, fit into the target space. -/
theorem room (hi : h.Initialised r) (hnew : r ∉ moves.map Prod.fst) :
    e.bump.cursor.toNat + 4 * h.size r ≤ e.bump.limit.toNat := by
  have hsum := hr.sum_size_le (List.nodup_cons.mpr ⟨hnew, he.nodup⟩) fun x hx => by
    rcases List.mem_cons.mp hx with rfl | hx
    · exact hi
    · obtain ⟨p, hp, rfl⟩ := List.mem_map.mp hx
      exact he.initialised hp
  rw [List.map_cons, List.sum_cons] at hsum
  rw [he.cursor_eq hr, he.limit]
  omega

/-- The space that is emptied, the target space and the stack have no word in common. -/
theorem apart (hi : h.Initialised r) {j : Nat} (hj : j < h.size r) :
    h.stack.base.toNat ≤ 4 * (r.index + j) ∧
      ¬ (h.target ≤ r.index + j ∧ 4 * (r.index + j) < e.bump.limit.toNat) := by
  have hstack := hr.stack_bounds
  have hwithin := hr.index_within (hr.isSet_of_initialised hi)
  have hend := (hr.object_end hi).1
  have hcl := Address.le_iff.mp hr.cursor_le
  have hlim := hr.limit
  have hlimit := he.limit
  have hscratch := hr.scratch_start
  refine ⟨by omega, ?_⟩
  rcases hr.spaces.disjoint with hd | hd <;> omega

/-- The copies lie in the target space, so outside the space that is emptied. -/
theorem copy_apart {p : Reference × Reference} (hp : p ∈ moves) {j : Nat} (hj : j < h.size p.1) :
    ¬ (h.spaces.active.start.toNat ≤ 4 * (p.2.index + j) ∧
      4 * (p.2.index + j) < h.spaces.active.start.toNat + h.spaces.active.extent) := by
  have hb := he.copy_bounds hp hj
  have hcursor := he.cursor_le hr
  have hlimit := he.limit
  have hscratch := hr.scratch_start
  rcases hr.spaces.disjoint with hd | hd <;> omega

theorem copy_not_inside {p : Reference × Reference} (hp : p ∈ moves) : ¬ h.Inside p.2 := by
  have htwo := hr.two_le_size (he.initialised hp)
  exact he.copy_apart hr hp (j := 0) (by omega)

/-- Objects that are not copied are as they were. -/
theorem original (hi : h.Initialised r) (hnew : r ∉ moves.map Prod.fst) {j : Nat}
    (hj : j < h.size r) : m.word (r.index + j) = h.memory.word (r.index + j) := by
  have hapart := he.apart hr hi hj
  have hcursor := he.cursor_le hr
  refine he.frame _ (by omega) (by omega) fun p hp => ?_
  have hne : p.1 ≠ r := fun heq => hnew (heq ▸ List.mem_map_of_mem hp)
  have htwo := hr.two_le_size (he.initialised hp)
  rcases hr.separate (he.initialised hp) hi hne with hs | hs <;> omega

section Move

variable {t : Reference} {cursor : Address} {bits : StartBits} (hi : h.Initialised r)
  (hland : h.Landing e r t cursor bits)

include hi hland

theorem word_moved (i : Nat) : (m.withMove r t (h.size r)).word i =
    if i = r.index + 1 then t.word
    else if i = r.index then forwardedHeader
    else if t.index ≤ i ∧ i < t.index + h.size r then m.word (r.index + (i - t.index))
    else m.word i := by
  have hsize := he.size
  have hlimit := he.limit_inside hr
  have hend := hr.end_le_size hi
  have hstart := hland.start
  have hroom := hland.room
  exact Memory.word_withMove (by omega) (by omega) (hr.two_le_size hi) i

theorem stack_moved {i : Nat} (hstop : 4 * i < h.stack.base.toNat) :
    (m.withMove r t (h.size r)).word i = m.word i := by
  have htwo := hr.two_le_size hi
  have hfirst := he.apart hr hi (j := 0) (by omega)
  have hstack := hr.stack_bounds
  have hscratch := hr.scratch_start
  have hlow := hland.low
  rw [he.word_moved hr hi hland, if_neg (by omega), if_neg (by omega), if_neg (by omega)]

theorem copy_moved {p : Reference × Reference} (hp : p ∈ moves) {j : Nat} (hj : j < h.size p.1) :
    (m.withMove r t (h.size r)).word (p.2.index + j) = m.word (p.2.index + j) := by
  have htwo := hr.two_le_size hi
  have hfirst := he.apart hr hi (j := 0) (by omega)
  have hsecond := he.apart hr hi (j := 1) (by omega)
  have hbounds := he.copy_bounds hp hj
  have hstart := hland.start
  have hroom := hland.room
  rw [he.word_moved hr hi hland, if_neg (by omega), if_neg (by omega), if_neg (by omega)]

/-- The originals do not overlap, so the other ones stay forwarded. -/
theorem forwarded_moved (hnew : r ∉ moves.map Prod.fst) :
    ∀ p ∈ moves ++ [(r, t)], (m.withMove r t (h.size r)).word p.1.index = forwardedHeader ∧
      (m.withMove r t (h.size r)).word (p.1.index + 1) = p.2.word := by
  intro p hp
  have hword := he.word_moved hr hi hland
  rcases List.mem_append.mp hp with hp | hp
  · have hpi := he.initialised hp
    have hne : p.1 ≠ r := fun heq => hnew (heq ▸ List.mem_map_of_mem hp)
    have htwo := hr.two_le_size hi
    have hptwo := hr.two_le_size hpi
    have h0 := he.apart hr hpi (j := 0) (by omega)
    have h1 := he.apart hr hpi (j := 1) (by omega)
    have hsep := hr.separate hpi hi hne
    have hlow := hland.low
    have hstart := hland.start
    have hroom := hland.room
    rw [hword, if_neg (by omega), if_neg (by omega), if_neg (by omega), hword, if_neg (by omega),
      if_neg (by omega), if_neg (by omega)]
    exact he.forwarded p hp
  · rw [List.mem_singleton.mp hp]
    refine ⟨?_, (hword _).trans (if_pos rfl)⟩
    dsimp only
    rw [hword, if_neg (by omega), if_pos rfl]

theorem traced_moved : ∀ p ∈ moves ++ [(r, t)], ∀ j, h.memory.IsSlot p.1.index j →
    p.2.index + j < scan → h.Carried (CopiedTo (moves ++ [(r, t)])) (h.memory.word (p.1.index + j))
      ((m.withMove r t (h.size r)).word (p.2.index + j)) := by
  intro p hp j hj hscan
  rcases List.mem_append.mp hp with hp | hp
  · rw [he.copy_moved hr hi hland hp hj.lt]
    exact (he.traced p hp j hj hscan).append
  · -- The new copy lies ahead of the scan pointer.
    rw [List.mem_singleton.mp hp] at hscan
    have hle := he.scan_le
    have hstart := hland.start
    dsimp only at hscan
    omega

theorem verbatim_moved (hnew : r ∉ moves.map Prod.fst) : ∀ p ∈ moves ++ [(r, t)],
    ∀ j < h.size p.1, ¬ (h.memory.IsSlot p.1.index j ∧ p.2.index + j < scan) →
      (m.withMove r t (h.size r)).word (p.2.index + j) = h.memory.word (p.1.index + j) := by
  intro p hp j hj hslot
  rcases List.mem_append.mp hp with hp | hp
  · rw [he.copy_moved hr hi hland hp hj]
    exact he.verbatim p hp j hj hslot
  · rw [List.mem_singleton.mp hp] at hj ⊢
    have htwo := hr.two_le_size hi
    have hfirst := he.apart hr hi (j := 0) (by omega)
    have hsecond := he.apart hr hi (j := 1) (by omega)
    have hlow := hland.low
    have hstart := hland.start
    have hroom := hland.room
    dsimp only at hj ⊢
    rw [he.word_moved hr hi hland, if_neg (by omega), if_neg (by omega), if_pos (by omega),
      Nat.add_sub_cancel_left]
    exact he.original hr hi hnew hj

theorem frame_moved (i : Nat) (hstack : ¬ (h.stack.sp.toNat ≤ 4 * i ∧ 4 * i < h.stack.base.toNat))
    (htarget : ¬ (h.target ≤ i ∧ 4 * i < cursor.toNat))
    (hmoves : ∀ p ∈ moves ++ [(r, t)], i ≠ p.1.index ∧ i ≠ p.1.index + 1) :
    (m.withMove r t (h.size r)).word i = h.memory.word i := by
  have hnext := hmoves (r, t) (List.mem_append_right _ (List.mem_singleton_self _))
  have hlow := hland.low
  have hstart := hland.start
  have hcursor := hland.cursor
  rw [he.word_moved hr hi hland, if_neg hnext.2, if_neg hnext.1, if_neg (by omega)]
  exact he.frame i hstack (by omega) fun p hp => hmoves p (List.mem_append_left _ hp)

omit hr hi hland in
theorem counts_moved {k : Kind} (hk : h.memory.kind r = .ok k) {statistics : Statistics}
    (hcount : e.statistics.Copied statistics k (4 * h.size r)) (l : Kind) :
    statistics.objectsCopied.get l = h.statistics.objectsCopied.get l +
        h.countOf l ((moves ++ [(r, t)]).map Prod.fst) ∧
      statistics.bytesCopied.get l = h.statistics.bytesCopied.get l +
        h.bytesOf l ((moves ++ [(r, t)]).map Prod.fst) := by
  have hold := he.counts l
  have hnext := hcount.1 l
  have hkind : h.isOfKind l r = true ↔ l = k := by
    rw [isOfKind_iff, hk, Except.ok.injEq, eq_comm]
  rw [List.map_append, List.map_singleton, countOf_snoc, bytesOf_snoc, hnext.1, hnext.2, hold.1,
    hold.2]
  simp only [hkind]
  omega

omit hi in
/-- One more object, copied behind the others and forwarded, extends the list of moves. -/
theorem snoc (hreach : h.Reachable r) (hnew : r ∉ moves.map Prod.fst) {k : Kind}
    (hk : h.memory.kind r = .ok k) {statistics : Statistics}
    (hcount : e.statistics.Copied statistics k (4 * h.size r)) :
    h.Evacuated (moves ++ [(r, t)]) slot scan ⟨⟨cursor, e.bump.limit⟩, bits, statistics⟩
      (m.withMove r t (h.size r)) := by
  have hi := hreach.initialised
  have hstart := hland.start
  have hcursor := hland.cursor
  have haligned := he.cursor_aligned
  unfold Address.WordAligned at haligned
  refine
    { size := (Memory.size_withMove ..).trans he.size
      maxPages := he.maxPages
      limit := he.limit
      cursor_aligned := by unfold Address.WordAligned; dsimp only; omega
      scan_le := ?_
      tiles := ?_
      nodup := by rw [List.map_append]; exact he.nodup_snoc hnew
      reachable := ?_
      cells := hland.cells.trans he.cells
      starts := ?_
      forwarded := he.forwarded_moved hr hi hland hnew
      traced := he.traced_moved hr hi hland
      verbatim := he.verbatim_moved hr hi hland hnew
      stack_done := ?_
      stack_rest := fun i h1 h2 h3 =>
        (he.stack_moved hr hi hland h2).trans (he.stack_rest i h1 h2 h3)
      frame := he.frame_moved hr hi hland
      counts := he.counts_moved hk hcount
      statistics := ?_ }
  · have hle := he.scan_le
    dsimp only
    omega
  · have hstop : cursor.toNat / 4 = e.bump.cursor.toNat / 4 + h.size r := by omega
    dsimp only
    rw [hstop]
    exact he.tiles.snoc (x := (r, t)) (by dsimp only; omega)
  · intro p hp
    rcases List.mem_append.mp hp with hp | hp
    · exact he.reachable p hp
    · exact List.mem_singleton.mp hp ▸ hreach
  · intro a
    simp only [List.mem_append, List.mem_singleton, or_and_right, exists_or, exists_eq_left]
    rw [hland.isSet, he.starts, or_assoc, eq_comm (a := a)]
  · intro i h1 h2 h3
    rw [he.stack_moved hr hi hland h2]
    exact (he.stack_done i h1 h2 h3).append
  · have hothers := hcount.2
    rw [he.statistics] at hothers
    exact hothers

end Move

/-- Copying an object that has no copy yet, in any memory that holds its first two words. -/
theorem copyObject_eq (hi : h.Initialised r) (hnew : r ∉ moves.map Prod.fst) :
    ∃ k t cursor bits, h.memory.kind r = .ok k ∧ h.Landing e r t cursor bits ∧
      ∀ n : Memory, n.words.size = h.memory.words.size →
        n.word r.index = h.memory.word r.index →
        n.word (r.index + 1) = h.memory.word (r.index + 1) →
        e.copyObject n r = e.statistics.recordCopy k (4 * h.size r) >>= fun statistics =>
          .ok (t, ⟨⟨cursor, e.bump.limit⟩, bits, statistics⟩, n.withMove r t (h.size r)) := by
  obtain ⟨k, hsymbol, hk, hheader⟩ := hr.kind_eq hi
  have htwo := hr.two_le_size hi
  have hsize := hr.size_le
  have hend := hr.end_le_size hi
  have hroom := he.room hr hi hnew
  have hlimit := he.limit
  have hinside := hr.spaces.scratch_inside
  -- The copy starts at the cursor.
  obtain ⟨t, ht⟩ : ∃ t : Reference, t.address = e.bump.cursor := ⟨⟨_, he.cursor_aligned⟩, rfl⟩
  have hdiv : e.bump.cursor.toNat = 4 * t.index := by rw [← ht, Reference.toNat_address]
  have hcursor := Address.toNat_ofNat_of_lt (n := e.bump.cursor.toNat + 4 * h.size r) (by omega)
  have hreserve : Evacuation.reserve e.bump (4 * h.size r) = .ok (t.address,
      ⟨Address.ofNat (e.bump.cursor.toNat + 4 * h.size r), e.bump.limit⟩) := by
    rw [Evacuation.reserve_eq_ok_iff, Bump.alloc_eq_some_iff]
    exact ⟨ht, rfl, hcursor, by rw [Address.le_iff, hcursor]; omega⟩
  have hcovered : e.bits.Covers (h.spaces.scratch.start.toNat + h.spaces.active.extent) := by
    rw [StartBits.Covers, he.cells]
    exact hr.spaces.scratch_covered
  obtain ⟨bits, hset, hcells, hbits⟩ := StartBits.set_eq_ok (a := t.address) hcovered
    (by rw [ht]; omega) t.aligned
  have hlow : h.target ≤ t.index := by
    have := he.tiles.le
    omega
  have hfirst := he.apart hr hi (j := 0) (by omega)
  refine ⟨k, t, _, bits, hk, ⟨hdiv, hcursor, hlow, hroom, hcells, hbits⟩, fun n hn h0 h1 => ?_⟩
  rw [hheader] at h0
  have hbytes : n.sizeAs r k = .ok (4 * h.size r) := by
    rw [Memory.sizeAs_eq (by omega) (by omega), h1, Heap.size, Memory.wordCount_eq hheader]
  have hcopy : e.copyObject n r = e.copyWhole n r k (4 * h.size r) :=
    e.copyObject_eq_copyWhole (Memory.kind_eq_ok (by omega) h0) hsymbol hbytes
  have hne : (n.withCopy r.index t.index (h.size r)).word r.index ≠ forwardedHeader := by
    rw [Memory.word_withCopy (by omega) (by omega), if_neg (by omega), h0]
    exact header_ne_forwarded k
  rw [hcopy, Evacuation.copyWhole_eq k (by omega) hreserve hset (by omega) (by omega) htwo hne]

theorem copyObject (hreach : h.Reachable r) (hnew : r ∉ moves.map Prod.fst) :
    Ends (e.copyObject m r)
      (fun x => h.Evacuated (moves ++ [(r, x.1)]) slot scan x.2.1 x.2.2) h.CounterFault := by
  have hi := hreach.initialised
  have htwo := hr.two_le_size hi
  obtain ⟨k, t, cursor, bits, hk, hland, hcopy⟩ := he.copyObject_eq hr hi hnew
  rw [hcopy m he.size (he.original hr hi hnew (j := 0) (by omega))
    (he.original hr hi hnew (j := 1) (by omega))]
  refine (he.recordCopy hreach hnew hk).bind fun statistics hcount => ?_
  exact he.snoc hr hland hreach hnew hk hcount

/-- Tracing an object that the roots reach yields its copy, which is made now if there is none. Nothing
else is copied. -/
theorem trace (hreach : h.Reachable r) :
    Ends (Evacuation.trace h.source e m r)
      (fun x => ∃ more, h.Evacuated (moves ++ more) slot scan x.2.1 x.2.2 ∧
        (r, x.1) ∈ moves ++ more ∧ ∀ p ∈ more, p.1 = r) h.CounterFault := by
  have hi := hreach.initialised
  have htwo := hr.two_le_size hi
  by_cases hold : r ∈ moves.map Prod.fst
  · obtain ⟨p, hp, rfl⟩ := List.mem_map.mp hold
    obtain ⟨h0, h1⟩ := he.forwarded p hp
    have hend := hr.end_le_size hi
    have hsize := he.size
    rw [hr.trace_forwarded (hr.inside hi) e hsize (by omega) h0 h1]
    refine ⟨[], ?_, ?_, fun q hq => absurd hq List.not_mem_nil⟩
    · rw [List.append_nil]
      exact he
    · rw [List.append_nil]
      exact hp
  · rw [hr.trace_intact hi e he.size (he.original hr hi hold (j := 0) (by omega))]
    refine (he.copyObject hr hreach hold).mono (fun x hx => ?_) fun f hf => hf
    exact ⟨[(r, x.1)], hx, List.mem_append_right _ (List.mem_singleton_self _),
      fun q hq => congrArg Prod.fst (List.mem_singleton.mp hq)⟩

end Evacuated

end Heap

end CopyingHeap
