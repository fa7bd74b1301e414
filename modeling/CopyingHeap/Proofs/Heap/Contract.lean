import CopyingHeap.Proofs.Collection.Preservation
import CopyingHeap.Proofs.Heap.History
import CopyingHeap.Proofs.Heap.NewBlock

/-!
The contract of allocation, for whatever lies on the stack and for requests of every size. A block that
is handed out is zeroed and lies apart from everything else, and the object graph is the one from
before. The last attempt follows a growth and cannot fail.
-/

namespace CopyingHeap

namespace Heap

/-- What the caller of an allocation can rely on: the `bytes` bytes at `a` are zero, end at the cursor,
have one start bit, at `a`, and lie apart from all other blocks, from the stack and from static data;
the object graph is the one from before. -/
structure HandedOut (h : Heap) (bytes : Nat) (a : Address) (k : Heap) : Prop where
  aligned : a.WordAligned
  start_le : k.spaces.active.start ≤ a
  stop : k.bump.cursor.toNat = a.toNat + bytes
  stop_le : a.toNat + bytes ≤ k.spaces.active.start.toNat + k.spaces.active.extent
  zero : ∀ i, a.toNat ≤ 4 * i → 4 * i < a.toNat + bytes →
    k.memory.load (Address.ofNat (4 * i)) = .ok 0
  marked : ∀ b, a ≤ b → b.toNat < a.toNat + bytes → (k.spaces.bits.isSet b = true ↔ b = a)
  blocked : ∃ blocks, k.Blocked (⟨a, k.bump.cursor⟩ :: blocks)
  off_stack : AddressRange.Apart ⟨a, k.bump.cursor⟩ ⟨k.stack.limit, k.stack.base⟩
  off_static : ∀ data : AddressRange, data.stop ≤ k.stack.limit →
    AddressRange.Apart ⟨a, k.bump.cursor⟩ data
  isomorphic : ∃ f, h.Isomorphic f k
  wellFormed : h.spaces.base.WordAligned → k.WellFormed

/-- The block was free: nothing outside it has changed, and nothing has been collected. -/
structure InPlace (h : Heap) (bytes : Nat) (a : Address) (k : Heap) : Prop where
  place : a = h.bump.cursor
  size : k.memory.words.size = h.memory.words.size
  word : ∀ i, ¬ (a.toNat ≤ 4 * i ∧ 4 * i < a.toNat + bytes) → k.memory.word i = h.memory.word i
  reachable : ∀ r, k.Reachable r ↔ h.Reachable r
  isomorphic : h.Isomorphic id k
  statistics : k.statistics =
    { h.statistics with allocated := h.statistics.allocated + bytes }

/-- The request fits into the free bytes, and it calls for no stress collection. -/
structure HasRoom (h : Heap) (bytes : Nat) : Prop where
  fits : ∃ free, h.free = .ok free ∧ bytes ≤ free
  calm : ¬ (h.options.stress = true ∧ h.options.stressFactor < h.recent + bytes)

/-- The counters have room for a request that collects twice and grows the spaces. -/
structure AllocationFits (h : Heap) (bytes : Nat) : Prop where
  recent : h.recent + bytes < Size.bound
  allocated : h.statistics.allocated + bytes < Size.bound
  growths : h.statistics.growths + 1 < Size.bound
  collections : h.statistics.collections + 2 < Size.bound
  roots : h.statistics.rootsTraced +
    2 * (h.stack.base.toNat / 4 - h.stack.sp.toNat / 4) < Size.bound
  copies : ∀ rs ss : List Reference, rs.Nodup → ss.Nodup → (∀ r ∈ rs, h.Reachable r) →
    (∀ s ∈ ss, h.Reachable s) → ∀ c,
      h.statistics.objectsCopied.get c + h.countOf c rs + h.countOf c ss < Size.bound ∧
        h.statistics.bytesCopied.get c + h.bytesOf c rs + h.bytesOf c ss < Size.bound

/-- A heap on the way to an allocation for `h`: it holds the object graph of `h`, and nothing has been
handed out yet. -/
structure Readied (h s : Heap) : Prop where
  wellFormed : s.WellFormed
  isomorphic : ∃ f, h.Isomorphic f s
  allocated : s.statistics.allocated = h.statistics.allocated
  growths : s.statistics.growths = h.statistics.growths

section Counters

variable {h k : Heap} {f : Reference → Reference} (hi : h.Isomorphic f k) {rs : List Reference}
  (hreach : ∀ r ∈ rs, h.Reachable r)

include hi hreach

theorem Isomorphic.countOf_map (c : Kind) : k.countOf c (rs.map f) = h.countOf c rs := by
  rw [countOf, countOf, List.countP_map]
  apply List.countP_congr
  intro r hr
  rw [Function.comp, isOfKind_iff, isOfKind_iff, hi.kind r (hreach r hr)]

theorem Isomorphic.bytesOf_map (hr : h.Regular) (c : Kind) :
    k.bytesOf c (rs.map f) = h.bytesOf c rs := by
  have hkind : rs.filter (k.isOfKind c ∘ f) = rs.filter (h.isOfKind c) := by
    apply List.filter_congr
    intro r hr
    rw [Bool.eq_iff_iff, Function.comp, isOfKind_iff, isOfKind_iff, hi.kind r (hreach r hr)]
  rw [bytesOf, bytesOf, List.filter_map, List.map_map, hkind]
  congr 1
  apply List.map_congr_left
  intro r hmem
  rw [Function.comp, hi.size_eq hr (hreach r (List.mem_of_mem_filter hmem))]

omit hreach

/-- The objects reached afterwards are the images of objects reached before. -/
theorem Isomorphic.exists_map {ss : List Reference} (hreach : ∀ s ∈ ss, k.Reachable s) :
    ∃ rs : List Reference, rs.map f = ss ∧ ∀ r ∈ rs, h.Reachable r := by
  induction ss with
  | nil => exact ⟨[], rfl, fun _ hr => absurd hr List.not_mem_nil⟩
  | cons s ss ih =>
    obtain ⟨r, hr, rfl⟩ := hi.bijective.surjOn (hreach s List.mem_cons_self)
    obtain ⟨rs, rfl, hrs⟩ := ih fun t ht => hreach t (List.mem_cons_of_mem _ ht)
    refine ⟨r :: rs, rfl, ?_⟩
    intro t ht
    rcases List.mem_cons.mp ht with rfl | ht
    · exact hr
    · exact hrs t ht

end Counters

namespace AllocationFits

variable {h : Heap} {bytes : Nat} (hf : h.AllocationFits bytes)

include hf

theorem countersFit : h.CountersFit where
  copies := by
    intro rs hrs hreach c
    have hempty := hf.copies rs [] hrs List.nodup_nil hreach
      (fun s hs => absurd hs List.not_mem_nil) c
    exact hempty
  collections := by
    have htwo := hf.collections
    omega
  roots := by
    have hroots := hf.roots
    have hle := h.rootCount_le
    omega

/-- After one collection the counters have room for another. -/
theorem collected (hr : h.Regular) {moves : List (Reference × Reference)} {k : Heap}
    (hc : h.Collected moves k) : k.CountersFit where
  copies := by
    intro ss hss hreach c
    have hi := (hc.sameGraph hr).isomorphic hr hc.base hc.frame
    obtain ⟨rs, rfl, hrs⟩ := hi.exists_map hreach
    have htwice := hf.copies (moves.map Prod.fst) rs hc.nodup (hss.of_map _)
      (fun r hmem => (hc.mem_iff r).mp hmem) hrs c
    rw [(hc.counts c).1, (hc.counts c).2, hi.countOf_map hrs, hi.bytesOf_map hrs hr]
    exact htwice
  collections := by
    have htwo := hf.collections
    rw [hc.statistics]
    exact htwo
  roots := by
    have htwo := hf.roots
    have hbefore := h.rootCount_le
    have hafter := k.rootCount_le
    rw [hc.stack] at hafter
    rw [hc.statistics]
    dsimp only
    omega

end AllocationFits

theorem Layout.withRecent {h : Heap} (hl : h.Layout) (n : Nat) : ({ h with recent := n }).Layout :=
  ⟨hl.paged, hl.spaces, hl.stack, hl.limit, hl.cursor_aligned, hl.start_le, hl.cursor_le⟩

theorem Regular.withRecent {h : Heap} (hr : h.Regular) (n : Nat) :
    Regular { h with recent := n } := by
  obtain ⟨blocks, hb⟩ := hr.blocks
  exact
    { hr.toLayout.withRecent n with
      blocks := ⟨blocks, hb.within, hb.disjoint, hb.starts, hb.filled⟩ }

theorem Layout.widened_withRecent {h : Heap} (hl : h.Layout) (n : Nat) :
    h.Widened { h with recent := n } :=
  { hl.widened with }

/-- How a request may fail: for want of memory, or since a counter overflows. -/
def AllocationFault (h : Heap) (bytes : Nat) (f : Fault) : Prop :=
  (∃ cause, f = .outOfMemory cause) ∨ f = .overflow ∧ ¬ h.AllocationFits bytes

namespace Readied

variable {h s k : Heap} {n : Nat} {r : Reference}

theorem refl (hw : h.WellFormed) : h.Readied h where
  wellFormed := hw
  isomorphic := ⟨id, hw.preserves_self.isomorphic hw.toRegular⟩
  allocated := rfl
  growths := rfl

theorem collected (hs : h.Readied s) (hr : h.Regular) {moves : List (Reference × Reference)}
    (hc : s.Collected moves k) : h.Readied k where
  wellFormed := hs.wellFormed.collected hc
  isomorphic := by
    obtain ⟨f, hi⟩ := hs.isomorphic
    have hr' := hs.wellFormed.toRegular
    exact ⟨_, hi.trans hr hr' ((hc.sameGraph hr').isomorphic hr' hc.base hc.frame)⟩
  allocated := by
    rw [hc.statistics]
    exact hs.allocated
  growths := by
    rw [hc.statistics]
    exact hs.growths

theorem handedOut (hs : h.Readied s) (hw : h.WellFormed) (hn : 0 < n) (ha : s.Added r n k) :
    h.HandedOut (4 * n) r.address k := by
  obtain ⟨f, hi⟩ := hs.isomorphic
  have hr := hs.wellFormed.toRegular
  have hcursor := ha.cursor
  have hcursorLe := Address.le_iff.mp ha.cursor_le
  have hlimit := ha.limit
  have hinside := ha.inside
  have hindex := ha.index_eq
  have hstack := hr.stack_bounds
  have hstart := Address.le_iff.mp hr.start_le
  have hlimitLe := Address.le_iff.mp hs.wellFormed.limit_le
  obtain ⟨blocks, hb⟩ := hr.blocks
  refine
    { aligned := r.aligned
      start_le := ?_
      stop := ?_
      stop_le := ?_
      zero := ?_
      marked := ?_
      blocked := ⟨blocks, ha.blocked hn hr hb⟩
      off_stack := ?_
      off_static := ?_
      isomorphic := ⟨_, hi.trans hw.toRegular hr ((ha.preserves hn hr).isomorphic hr)⟩
      wellFormed := fun hbase => ha.wellFormed hn hs.wellFormed (hi.base ▸ hbase) }
  · rw [ha.start, ha.place]
    exact hr.start_le
  · rw [ha.place, hcursor]
  · rw [ha.place]
    omega
  · intro i hlo hhi
    rw [ha.place] at hlo hhi
    have hsmall := ha.paged.size_le
    rw [Memory.load_word (by omega) (by omega), ha.word, if_pos (by omega)]
  · intro b hlo _
    rw [ha.isSet, ha.place]
    refine ⟨fun hset => hset.resolve_left fun hbefore => ?_, .inr⟩
    have hwithin := (hr.isSet_within hbefore).2
    rw [ha.place, Address.le_iff] at hlo
    rw [Address.lt_iff] at hwithin
    omega
  · right
    rw [ha.stack, ha.place, Address.le_iff]
    dsimp only
    omega
  · intro data hdata
    right
    rw [ha.stack, Address.le_iff] at hdata
    rw [ha.place, Address.le_iff]
    dsimp only
    omega

/-- Taking a block on the way to an allocation completes it. -/
theorem takeBlock (hs : h.Readied s) (hw : h.WellFormed) (hn : 0 < n) (hk : s.Widened k)
    (hallocated : k.statistics.allocated = s.statistics.allocated) {a : Address} {bump : Bump}
    (hb : k.bump.alloc (4 * n) = some (a, bump)) :
    Ends (k.takeBlock a bump (4 * n)) (h.HandedOut (4 * n) a) (h.AllocationFault (4 * n)) := by
  apply (hk.takeBlock hs.wellFormed.toLayout hn hb).mono
  · rintro l ⟨⟨r, rfl, ha⟩, -⟩
    exact hs.handedOut hw hn ha
  · rintro f ⟨rfl, hbound⟩
    right
    refine ⟨rfl, fun hf => ?_⟩
    have hroom := hf.allocated
    rw [hallocated, hs.allocated] at hbound
    omega

theorem tryAlloc (hs : h.Readied s) (hw : h.WellFormed) (hn : 0 < n) (hk : s.Widened k)
    (hallocated : k.statistics.allocated = s.statistics.allocated) :
    Ends (k.tryAlloc (4 * n))
      (fun x => (∃ a l, x = (some a, l) ∧ h.HandedOut (4 * n) a l) ∨
        (x = (none, k) ∧ k.bump.alloc (4 * n) = none))
      (h.AllocationFault (4 * n)) := by
  unfold Heap.tryAlloc
  cases hb : k.bump.alloc (4 * n) with
  | none => exact .inr ⟨rfl, rfl⟩
  | some x =>
    apply (hs.takeBlock hw hn hk hallocated hb).bind
    intro l hl
    exact .inl ⟨x.1, l, rfl, hl⟩

/-- A collection on the way to an allocation leads to a heap that is ready as well. -/
theorem collect (hs : h.Readied s) (hr : h.Regular) {bytes : Nat}
    (hfits : h.AllocationFits bytes → s.CountersFit) :
    Ends s.collect (fun t => h.Readied t ∧ ∃ moves, s.Collected moves t)
      (h.AllocationFault bytes) := by
  apply hs.wellFormed.toRegular.collect.mono
  · rintro t ⟨moves, hc⟩
    exact ⟨hs.collected hr hc, moves, hc⟩
  · rintro f ⟨rfl, hno⟩
    exact .inr ⟨rfl, fun hf => hno (hfits hf)⟩

end Readied

theorem WellFormed.charge {h : Heap} (hw : h.WellFormed) (bytes : Nat) :
    Ends (h.charge bytes)
      (fun s => ∃ t n, s = { t with recent := n } ∧ h.Readied t ∧
        (h.AllocationFits bytes → t.CountersFit))
      (h.AllocationFault bytes) := by
  unfold Heap.charge
  rcases Nat.lt_or_ge (h.recent + bytes) Size.bound with hlt | hge
  · rw [Size.add_eq_ok hlt, ok_bind]
    split
    · apply ((Readied.refl hw).collect hw.toRegular AllocationFits.countersFit).bind
      rintro t ⟨ht, moves, hc⟩
      exact ⟨t, bytes, rfl, ht, fun hf => hf.collected hw.toRegular hc⟩
    · exact ⟨h, _, rfl, .refl hw, AllocationFits.countersFit⟩
  · rw [Size.add_eq_error hge]
    exact .inr ⟨rfl, fun hf => absurd hf.recent (Nat.not_lt.mpr hge)⟩

/-- The attempts of an allocation: in the free bytes, after a collection, and after a growth. -/
def attempt (h : Heap) (bytes : Nat) : Except Fault (Option Address × Heap) := do
  match ← (← h.charge bytes).tryAlloc bytes with
  | (some a, h) => return (some a, h)
  | (none, h) =>
    match ← { (← h.collect) with recent := bytes }.tryAlloc bytes with
    | (some a, h) => return (some a, h)
    | (none, h) => (← h.growFor bytes).tryAlloc bytes

/-- Allocation with another answer for the case that the last attempt fails. -/
def allocElse (h : Heap) (giveUp : Except Fault (Address × Heap)) (size : Nat) :
    Except Fault (Address × Heap) := do
  if Address.highest.toNat < size then throw (.outOfMemory (.heapExhausted size))
  else
    match ← h.attempt (Size.objectBytes size) with
    | (some a, h) => return (a, h)
    | (none, _) => giveUp

/-- Every counter has room for more than an allocation adds to it. -/
structure Ample (h : Heap) (bytes : Nat) : Prop where
  recent : h.recent + bytes < Size.bound
  allocated : h.statistics.allocated + bytes < Size.bound
  growths : h.statistics.growths + 1 < Size.bound
  collections : h.statistics.collections + 2 < Size.bound
  roots : h.statistics.rootsTraced + 0x200000000 < Size.bound
  copies : ∀ c, h.statistics.objectsCopied.get c + 0x200000000 < Size.bound ∧
    h.statistics.bytesCopied.get c + 0x200000000 < Size.bound

/-- The counters have room for a request if each has room for the bytes of two whole memories. -/
theorem Regular.allocationFits {h : Heap} (hr : h.Regular) {bytes : Nat} (ha : h.Ample bytes) :
    h.AllocationFits bytes where
  recent := ha.recent
  allocated := ha.allocated
  growths := ha.growths
  collections := ha.collections
  roots := by
    have hlt := h.stack.base.toNat_lt
    have hroots := ha.roots
    omega
  copies := by
    intro rs ss hrs hss hreach hreach' c
    have hfirst := hr.copies_le hrs hreach c
    have hsecond := hr.copies_le hss hreach' c
    have hroom := ha.copies c
    omega

/-- One of the attempts succeeds, or the request fails before the last one: a growth makes room for the
block. -/
theorem WellFormed.attempt {h : Heap} (hw : h.WellFormed) {n : Nat} (hn : 0 < n)
    (hsize : 4 * n ≤ 0x100000000) :
    Ends (h.attempt (4 * n)) (fun x => ∃ a k, x = (some a, k) ∧ h.HandedOut (4 * n) a k)
      (h.AllocationFault (4 * n)) := by
  have hr := hw.toRegular
  unfold Heap.attempt
  apply (hw.charge (4 * n)).bind
  rintro _ ⟨s, recent, rfl, hs, hfits⟩
  have hls := hs.wellFormed.toLayout
  apply (hs.tryAlloc hw hn (hls.widened_withRecent recent) rfl).bind
  rintro _ (⟨a, k, rfl, hk⟩ | ⟨rfl, -⟩)
  · exact ⟨a, k, rfl, hk⟩
  · apply (hs.collect hr hfits).bind
    rintro t ⟨ht, -⟩
    have hlt := ht.wellFormed.toLayout
    apply (ht.tryAlloc hw hn (hlt.widened_withRecent (4 * n)) rfl).bind
    rintro _ (⟨a, k, rfl, hk⟩ | ⟨rfl, -⟩)
    · exact ⟨a, k, rfl, hk⟩
    · refine Ends.bind (((hlt.withRecent (4 * n)).growFor hsize).mono (fun _ hk => hk) ?_) ?_
      · rintro f (⟨cause, rfl, -⟩ | ⟨rfl, hbound⟩)
        · exact .inl ⟨cause, rfl⟩
        · refine .inr ⟨rfl, fun hf => ?_⟩
          have hroom := hf.growths
          have hsame := ht.growths
          dsimp only at hbound
          omega
      · rintro k ⟨hk, hroom, hstatistics⟩
        have hk' : t.Widened k := { hk with }
        have hallocated : k.statistics.allocated = t.statistics.allocated := by rw [hstatistics]
        apply (ht.tryAlloc hw hn hk' hallocated).mono
        · rintro x (hx | ⟨-, hnone⟩)
          · exact hx
          · -- The growth has moved the limit far enough.
            rw [Bump.alloc_eq_none_iff] at hnone
            omega
        · intro f hf
          exact hf

theorem highest_lt_iff {size : Nat} : Address.highest.toNat < size ↔ 0x100000000 ≤ size := by
  have htop : Address.highest.toNat = 0xFFFFFFFF := rfl
  omega

/-- A request beyond the address space is refused at once. -/
theorem alloc_eq_error (h : Heap) {size : Nat} (hsize : 0x100000000 ≤ size) :
    h.alloc size = .error (.outOfMemory (.heapExhausted size)) := by
  rw [Heap.alloc, if_pos (highest_lt_iff.mpr hsize)]
  rfl

theorem alloc_eq (h : Heap) (size : Nat) :
    h.alloc size = h.allocElse (throw (.outOfMemory (.heapExhausted size))) size := by
  unfold alloc allocElse attempt
  split
  · rfl
  · simp only [bind_assoc]
    apply bind_congr
    intro s
    apply bind_congr
    rintro ⟨_ | a, s⟩
    · simp only [bind_assoc]
      apply bind_congr
      intro t
      apply bind_congr
      rintro ⟨_ | a, t⟩
      · exact (bind_assoc _ _ _).symm
      · rfl
    · rfl

/-- An attempt takes a block in the free bytes, or leaves the heap as it is. -/
theorem tryAlloc_cases (k : Heap) (bytes : Nat) :
    Ends (k.tryAlloc bytes)
      (fun x => (∃ a bump, k.bump.alloc bytes = some (a, bump) ∧
        k.takeBlock a bump bytes = .ok x.2 ∧ x.1 = some a) ∨
          k.bump.alloc bytes = none ∧ x = (none, k)) fun _ => True := by
  unfold Heap.tryAlloc
  cases halloc : k.bump.alloc bytes with
  | none => exact .inr ⟨rfl, rfl⟩
  | some x =>
    obtain ⟨a, bump⟩ := x
    apply Ends.bind_eq
    intro l htake
    exact .inl ⟨a, bump, rfl, htake, rfl⟩

/-- The block of an allocation is taken in a heap with the property `Q`, if charging the request leads to
one with `P 1` after a collection and `P 0` without one, collecting leads from `P n` to `P (n + 1)`, and
growing leads to `Q`. -/
theorem attempt_takes {h : Heap} {bytes : Nat} {P : Nat → Heap → Prop} {Q : Heap → Prop}
    (hcharge : Ends (h.charge bytes) (fun s => ∃ n ≤ 1, P n s) fun _ => True)
    (hcollect : ∀ n s, P n s → Ends s.collect (fun t => P (n + 1) { t with recent := bytes })
      fun _ => True)
    (hgrow : ∀ n ≤ 2, ∀ s, P n s → Ends (s.growFor bytes) Q fun _ => True)
    (hready : ∀ n ≤ 2, ∀ s, P n s → Q s) :
    Ends (h.attempt bytes)
      (fun x => ∀ a, x.1 = some a → ∃ s bump, Q s ∧ s.bump.alloc bytes = some (a, bump) ∧
        s.takeBlock a bump bytes = .ok x.2) fun _ => True := by
  unfold Heap.attempt
  apply hcharge.bind
  rintro s ⟨n, hn, hs⟩
  have hnext : n + 1 ≤ 2 := Nat.succ_le_succ hn
  apply (s.tryAlloc_cases bytes).bind
  rintro ⟨_, l⟩ (⟨a, bump, halloc, htake, rfl⟩ | ⟨-, hnone⟩)
  · rintro _ ⟨⟩
    exact ⟨s, bump, hready n (Nat.le_of_lt hnext) s hs, halloc, htake⟩
  · cases hnone
    apply (hcollect n s hs).bind
    intro t ht
    apply (tryAlloc_cases _ bytes).bind
    rintro ⟨_, l⟩ (⟨a, bump, halloc, htake, rfl⟩ | ⟨-, hnone⟩)
    · rintro _ ⟨⟩
      exact ⟨_, bump, hready (n + 1) hnext _ ht, halloc, htake⟩
    · cases hnone
      apply (hgrow (n + 1) hnext _ ht).bind
      intro u hu
      apply (u.tryAlloc_cases bytes).imp
      rintro ⟨_, l⟩ (⟨a, bump, halloc, htake, rfl⟩ | ⟨-, hnone⟩)
      · rintro _ ⟨⟩
        exact ⟨u, bump, hu, halloc, htake⟩
      · cases hnone
        intro a ha
        nomatch ha

theorem alloc_takes {h : Heap} {size bytes : Nat} {P : Nat → Heap → Prop} {Q : Heap → Prop}
    (hbytes : Size.objectBytes size = bytes)
    (hcharge : Ends (h.charge bytes) (fun s => ∃ n ≤ 1, P n s) fun _ => True)
    (hcollect : ∀ n s, P n s → Ends s.collect (fun t => P (n + 1) { t with recent := bytes })
      fun _ => True)
    (hgrow : ∀ n ≤ 2, ∀ s, P n s → Ends (s.growFor bytes) Q fun _ => True)
    (hready : ∀ n ≤ 2, ∀ s, P n s → Q s) :
    Ends (h.alloc size)
      (fun x => ∃ s bump, Q s ∧ s.bump.alloc bytes = some (x.1, bump) ∧
        s.takeBlock x.1 bump bytes = .ok x.2) fun _ => True := by
  rw [alloc_eq, Heap.allocElse, hbytes]
  split
  · trivial
  · apply (attempt_takes hcharge hcollect hgrow hready).bind
    rintro ⟨_ | a, k⟩ hk
    · trivial
    · exact hk a rfl

/-- A block of `n` words has been added to `h` for a request, after at most one growth, and nothing has
been collected. -/
structure Supplied (h : Heap) (r : Reference) (n : Nat) (k : Heap) : Prop extends h.Added r n k where
  pos : 0 < n
  options : k.options = h.options
  statistics : ∃ growths ≤ 1, k.statistics =
    { h.statistics with
      growths := h.statistics.growths + growths
      allocated := h.statistics.allocated + 4 * n }

/-- The block of an allocation is added to a heap with the property `P n`, where `n` is the number of
collections, if `P` does not depend on the bytes that have been charged. The wider layout after a growth
is only used for the block. -/
theorem alloc_supplied {h : Heap} {P : Nat → Heap → Prop} (hp : P 0 h)
    (hlayout : ∀ n s, P n s → s.Layout)
    (hcollect : ∀ n s, P n s → Ends s.collect (P (n + 1)) fun _ => True)
    (hrecent : ∀ n s recent, P n s → P n { s with recent }) (size : Nat) :
    Ends (h.alloc size)
      (fun x => ∃ n ≤ 2, ∃ s r l, P n s ∧ x.1 = r.address ∧ s.Supplied r l x.2 ∧
        size < 0x100000000 ∧ 4 * l = Size.objectBytes size) fun _ => True := by
  rcases Nat.lt_or_ge size 0x100000000 with hsize | hsize
  · obtain ⟨l, hl, hle, hbytes⟩ := objectBytes_words hsize
    have hcharge : Ends (h.charge (4 * l)) (fun s => ∃ n ≤ 1, P n s) fun _ => True := by
      apply Ends.bind_forall
      intro recent
      split
      · apply (hcollect 0 h hp).bind
        intro k hk
        exact ⟨1, Nat.le_refl 1, hrecent 1 k (4 * l) hk⟩
      · exact ⟨0, Nat.zero_le 1, hrecent 0 h recent hp⟩
    apply (alloc_takes (Q := fun s => ∃ n ≤ 2, ∃ t, P n t ∧ t.Widened s ∧ s.options = t.options ∧
      ∃ growths ≤ 1, s.statistics = { t.statistics with growths := t.statistics.growths + growths })
      hbytes hcharge ?_ ?_ ?_).imp
    · rintro ⟨a, k⟩ ⟨s, bump, ⟨n, hn, t, ht, hwide, hoptions, growths, hg, hstatistics⟩, halloc, htake⟩
      obtain ⟨⟨r, hr, ha⟩, -, -, hcount⟩ := (hwide.takeBlock (hlayout n t ht) hl halloc).of_ok htake
      rw [hstatistics] at hcount
      exact ⟨n, hn, t, r, l, ht, hr,
        { ha with
          pos := hl
          options := (options_of_takeBlock htake).trans hoptions
          statistics := ⟨growths, hg, hcount⟩ }, hsize, hbytes.symm⟩
    · intro n s hs
      apply (hcollect n s hs).imp
      intro t ht
      exact hrecent (n + 1) t (4 * l) ht
    · intro n hn s hs
      apply ((hlayout n s hs).growFor hle).with_eq.imp
      rintro k ⟨⟨hwide, -, hcount⟩, hk⟩
      exact ⟨n, hn, s, hs, hwide, (untouched_of_growFor hk).2, 1, Nat.le_refl 1, hcount⟩
    · intro n hn s hs
      exact ⟨n, hn, s, hs, (hlayout n s hs).widened, rfl, 0, Nat.zero_le 1, rfl⟩
  · rw [h.alloc_eq_error hsize]
    trivial

/-- The block of an allocation is added to a heap with the property `P`, if that does not depend on the
bytes that have been charged and collections keep it. -/
theorem alloc_added {h : Heap} {P : Heap → Prop} (hp : P h) (hlayout : ∀ s, P s → s.Layout)
    (hcollect : ∀ s, P s → Ends s.collect P fun _ => True)
    (hrecent : ∀ s n, P s → P { s with recent := n }) (size : Nat) :
    Ends (h.alloc size)
      (fun x => ∃ s r n, P s ∧ 0 < n ∧ x.1 = r.address ∧ s.Added r n x.2 ∧ x.2.options = s.options)
      fun _ => True := by
  apply (alloc_supplied (P := fun _ => P) hp (fun _ => hlayout) (fun _ => hcollect) (fun _ => hrecent)
    size).imp
  rintro x ⟨-, -, s, r, n, hs, hr, ha, -⟩
  exact ⟨s, r, n, hs, ha.pos, hr, ha.toAdded, ha.options⟩

theorem Added.inPlace {h k : Heap} {r : Reference} {n : Nat} (ha : h.Added r n k) (hn : 0 < n)
    (hr : h.Regular) (hsize : k.memory.words.size = h.memory.words.size)
    (hstatistics : k.statistics =
      { h.statistics with allocated := h.statistics.allocated + 4 * n }) :
    h.InPlace (4 * n) r.address k where
  place := ha.place
  size := hsize
  word := by
    intro i hout
    rw [Reference.toNat_address] at hout
    rw [ha.word, if_neg (by omega)]
  reachable := fun _ => (ha.preserves hn hr).reachable_iff hr
  isomorphic := (ha.preserves hn hr).isomorphic hr
  statistics := hstatistics

theorem HasRoom.mono {h : Heap} {bytes more : Nat} (hroom : h.HasRoom more) (hle : bytes ≤ more) :
    h.HasRoom bytes where
  fits := by
    obtain ⟨free, hfree, hfits⟩ := hroom.fits
    exact ⟨free, hfree, Nat.le_trans hle hfits⟩
  calm := fun hstress => hroom.calm ⟨hstress.1, by omega⟩

/-- A request that fits into the free bytes is charged, and then its block is taken there. -/
theorem Layout.alloc_charged {h : Heap} (hl : h.Layout) {size : Nat} (hsize : size < 0x100000000)
    (hroom : h.HasRoom (Size.objectBytes size)) :
    Ends (h.alloc size)
      (fun x => ∃ bump, h.bump.alloc (Size.objectBytes size) = some (x.1, bump) ∧
        takeBlock { h with recent := h.recent + Size.objectBytes size } x.1 bump
          (Size.objectBytes size) = .ok x.2)
      (fun f => f = .overflow) := by
  obtain ⟨n, hn, -, hbytes⟩ := objectBytes_words hsize
  rw [hbytes] at hroom ⊢
  obtain ⟨free, hfree, hle⟩ := hroom.fits
  have hlimit : h.bump.limit.toNat = h.bump.cursor.toNat + free := Address.diff_eq_ok_iff.mp hfree
  have hcharge : Ends (h.charge (4 * n)) (fun s => s = { h with recent := h.recent + 4 * n })
      fun f => f = .overflow := by
    have hcalm : ¬ (h.options.stress && decide (h.options.stressFactor < h.recent + 4 * n)) = true := by
      rw [Bool.and_eq_true, decide_eq_true_iff]
      exact hroom.calm
    unfold Heap.charge
    rcases Nat.lt_or_ge (h.recent + 4 * n) Size.bound with hlt | hge
    · rw [Size.add_eq_ok hlt, ok_bind, if_neg hcalm]
      rfl
    · rw [Size.add_eq_error hge]
      rfl
  unfold Heap.alloc
  rw [if_neg fun hlt => Nat.not_lt.mpr (highest_lt_iff.mp hlt) hsize, hbytes]
  apply hcharge.bind
  rintro _ rfl
  unfold Heap.tryAlloc
  dsimp only
  cases hb : h.bump.alloc (4 * n) with
  | none =>
    rw [Bump.alloc_eq_none_iff] at hb
    omega
  | some x =>
    obtain ⟨a, bump⟩ := x
    have htake := ((hl.widened_withRecent (h.recent + 4 * n)).takeBlock hl hn hb).with_eq
    dsimp only
    rw [bind_assoc]
    apply (htake.mono (fun _ hk => hk.2) fun _ hf => hf.1).bind
    intro k hk
    exact ⟨bump, rfl, hk⟩

/-- A block that fits into the free bytes is taken there. -/
theorem WellFormed.alloc_inPlace {h : Heap} (hw : h.WellFormed) {size : Nat}
    (hsize : size < 0x100000000) (hroom : h.HasRoom (Size.objectBytes size)) :
    Ends (h.alloc size) (fun x => h.InPlace (Size.objectBytes size) x.1 x.2)
      (fun f => f = .overflow) := by
  have hl := hw.toLayout
  have hcharged := hl.alloc_charged hsize hroom
  obtain ⟨n, hn, -, hbytes⟩ := objectBytes_words hsize
  rw [hbytes] at hcharged ⊢
  apply hcharged.mono
  · rintro x ⟨bump, hb, htake⟩
    obtain ⟨⟨r, hr, ha⟩, hwords, -, hstatistics⟩ :=
      ((hl.widened_withRecent (h.recent + 4 * n)).takeBlock hl hn hb).of_ok htake
    exact hr ▸ ha.inPlace hn hw.toRegular hwords hstatistics
  · exact fun _ hf => hf

/-- Whatever is to happen when the last attempt fails never happens. -/
theorem WellFormed.allocElse {h : Heap} (hw : h.WellFormed)
    (giveUp : Except Fault (Address × Heap)) (size : Nat) :
    h.allocElse giveUp size = h.alloc size ∧
      Ends (h.alloc size) (fun x => h.HandedOut (Size.objectBytes size) x.1 x.2)
        (h.AllocationFault (Size.objectBytes size)) := by
  rw [alloc_eq]
  unfold Heap.allocElse
  split
  · exact ⟨rfl, .inl ⟨_, rfl⟩⟩
  · rename_i hhighest
    rw [highest_lt_iff, Nat.not_le] at hhighest
    obtain ⟨n, hn, hle, hbytes⟩ := objectBytes_words hhighest
    rw [hbytes]
    rcases (hw.attempt hn hle).cases with ⟨_, hx, a, k, rfl, hk⟩ | ⟨f, hx, hf⟩
    · rw [hx]
      exact ⟨rfl, hk⟩
    · rw [hx]
      exact ⟨rfl, hf⟩

/-- A request that fits into the free bytes is served, if the counters have room for it. -/
theorem WellFormed.exists_alloc {h : Heap} (hw : h.WellFormed) {size : Nat}
    (hsize : size < 0x100000000) (hroom : h.HasRoom (Size.objectBytes size))
    (hfits : h.AllocationFits (Size.objectBytes size)) :
    ∃ a k, h.alloc size = .ok (a, k) ∧ h.HandedOut (Size.objectBytes size) a k ∧
      h.InPlace (Size.objectBytes size) a k := by
  rcases (hw.alloc_inPlace hsize hroom).cases with ⟨⟨a, k⟩, hx, hin⟩ | ⟨f, hx, rfl⟩
  · exact ⟨a, k, hx, (hw.allocElse (throw .overflow) size).2.of_ok hx, hin⟩
  · have hfault := (hw.allocElse (throw .overflow) size).2
    rw [hx] at hfault
    rcases hfault with ⟨cause, hcause⟩ | ⟨-, hno⟩
    · nomatch hcause
    · exact absurd hfits hno

/-- An allocation hands out a block as the caller expects it, or the memory is exhausted, unless a
counter overflows. In the free bytes it succeeds and changes nothing else. The case that the block does
not fit even after a growth does not occur. -/
theorem WellFormed.alloc_contract {h : Heap} (hw : h.WellFormed) (size : Nat) :
    ((∃ a k, h.alloc size = .ok (a, k) ∧ h.HandedOut (Size.objectBytes size) a k ∧
        (h.HasRoom (Size.objectBytes size) → h.InPlace (Size.objectBytes size) a k)) ∨
      (∃ cause, h.alloc size = .error (.outOfMemory cause) ∧
        (size < 0x100000000 → ¬ h.HasRoom (Size.objectBytes size))) ∨
      (h.alloc size = .error .overflow ∧ ¬ h.AllocationFits (Size.objectBytes size))) ∧
    ∀ giveUp, h.allocElse giveUp size = h.alloc size := by
  refine ⟨?_, fun giveUp => (hw.allocElse giveUp size).1⟩
  rcases (hw.allocElse (throw .overflow) size).2.cases with
    ⟨⟨a, k⟩, hx, hk⟩ | ⟨f, hx, ⟨cause, rfl⟩ | ⟨rfl, hno⟩⟩
  · left
    refine ⟨a, k, hx, hk, ?_⟩
    intro hroom
    have hsize : size < 0x100000000 := by
      by_contra hge
      have htop : Address.highest.toNat < size := by
        have htop : Address.highest.toNat = 0xFFFFFFFF := rfl
        omega
      rw [Heap.alloc, if_pos htop] at hx
      nomatch hx
    exact (hw.alloc_inPlace hsize hroom).of_ok hx
  · right
    left
    refine ⟨cause, hx, ?_⟩
    intro hsize hroom
    have hfails := hw.alloc_inPlace hsize hroom
    rw [hx] at hfails
    nomatch hfails
  · right
    right
    exact ⟨hx, hno⟩

theorem hasRoom_looped {bytes : Nat} (hb : bytes ≤ 52) : looped.HasRoom bytes := by
  have hall : looped.HasRoom 52 := ⟨⟨52, by decide, by decide⟩, by decide⟩
  exact hall.mono hb

theorem ample_looped {bytes : Nat} (hb : bytes < 0x100000000) : looped.Ample bytes where
  recent := by
    have hbound : looped.recent + 0x100000000 < Size.bound := by decide
    omega
  allocated := by
    have hbound : looped.statistics.allocated + 0x100000000 < Size.bound := by decide
    omega
  growths := by decide
  collections := by decide
  roots := by decide
  copies := by
    intro c
    cases c <;> decide

theorem alloc_looped : looped.WellFormed ∧ ∃ a k, looped.alloc 6 = .ok (a, k) ∧
    looped.HandedOut 8 a k ∧ looped.InPlace 8 a k := by
  refine ⟨wellFormed_looped, ?_⟩
  have hbytes : Size.objectBytes 6 = 8 := by decide
  obtain ⟨hcases, -⟩ := WellFormed.alloc_contract wellFormed_looped 6
  rw [hbytes] at hcases
  rcases hcases with ⟨a, k, hx, hk, hin⟩ | ⟨cause, -, hno⟩ | ⟨-, hno⟩
  · exact ⟨a, k, hx, hk, hin (hasRoom_looped (by decide))⟩
  · exact absurd (hasRoom_looped (by decide)) (hno (by decide))
  · exact absurd (wellFormed_looped.toRegular.allocationFits (ample_looped (by decide))) hno

end Heap

end CopyingHeap
