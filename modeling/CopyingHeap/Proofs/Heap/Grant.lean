import CopyingHeap.Proofs.Heap.Frames
import CopyingHeap.Proofs.Heap.Update
import CopyingHeap.Proofs.Object.Whole

/-!
Blocks for new objects. A request is granted in a heap that carries the graph from before, wherever its
objects have gone meanwhile. What is then written into the block moves no object, and an object that fills
the block is the last one.
-/

namespace CopyingHeap

namespace Heap

/-- A heap on the way to an allocation for `h`: the graph is that of `h`, and the words of the stack
stand for the same values. -/
structure Carries (h : Heap) (f : Reference → Reference) (k : Heap) : Prop extends
    h.Isomorphic f k where
  allowed : ∀ i, h.stack.sp.toNat ≤ 4 * i → 4 * i < h.stack.base.toNat →
    h.Allows (h.memory.word i) → k.memory.word i = h.renamed f (h.memory.word i)

namespace Carries

variable {h k : Heap} {f : Reference → Reference} (hr : h.Regular)

include hr

theorem refl : h.Carries id h where
  toIsomorphic := hr.preserves_self.isomorphic hr
  allowed := fun _ _ _ _ => (h.renamed_id _).symm

variable (hc : h.Carries f k) (hk : k.Regular)

include hc hk

theorem collected {moves : List (Reference × Reference)} {l : Heap} (hl : k.Collected moves l) :
    h.Carries (copyOf moves ∘ f) l where
  toIsomorphic := hc.toIsomorphic.trans hr hk ((hl.sameGraph hk).isomorphic hk hl.base hl.frame)
  allowed := by
    intro i hsp hstop hw
    have hword := (hl.sameGraph hk).roots i (hc.stack ▸ hsp) (hc.stack ▸ hstop)
    rw [hword, hc.allowed i hsp hstop hw]
    apply hr.renamed_renamed hk hc.base hw
    exact fun r heq hi => (hc.reachable (.root (hr.rootAt hsp hstop heq hi))).initialised

theorem preserved {l : Heap} (hl : k.Preserves l) : h.Carries f l where
  toIsomorphic := hc.toIsomorphic.trans hr hk (hl.isomorphic hk)
  allowed := by
    intro i hsp hstop hw
    rw [hl.stack_word hk (hc.stack ▸ hstop)]
    exact hc.allowed i hsp hstop hw

omit hr in
theorem restores : h.Restores [] f k where
  stack := hc.stack
  injective := hc.bijective.injOn.mono fun _ => ReachableWith.reachable
  initialised := fun _ hreach => (hc.reachable hreach.reachable).initialised
  kind := fun r hreach => hc.kind r hreach.reachable
  objectSize := fun r hreach => hc.objectSize r hreach.reachable
  slots := fun r hreach => hc.slots r hreach.reachable
  payload := fun r hreach => hc.payload r hreach.reachable
  roots := hc.allowed
  base := hc.base
  base_le := hk.spaces.base_le_active
  strays := by
    intro i hsp hstop hw
    have hnames : h.namesObject (h.memory.word i) = false := by
      rw [Bool.eq_false_iff, Ne, namesObject_iff]
      rintro ⟨r, htarget, hi⟩
      obtain ⟨heq, -⟩ := target?_eq_some_iff.mp htarget
      exact hw (heq ▸ (accepts_object hi).allows rfl)
    refine (hc.others i hsp hstop hnames).imp_right ?_
    rintro ⟨s, hs, hword⟩
    exact ⟨s, hs.initialised, hword⟩

end Carries

/-- `k` is `s` with a zeroed block of `n` words at `r`, for a request of `size` bytes; `s` carries the
graph of `h`. -/
structure Grant (h : Heap) (size : Nat) (f : Reference → Reference) (s : Heap) (r : Reference) (n : Nat)
    (k : Heap) : Prop where
  wellFormed : s.WellFormed
  carries : h.Carries f s
  added : s.Added r n k
  pos : 0 < n
  size_lt : size < 0x100000000
  bytes : 4 * n = Size.objectBytes size
  spends : h.Spends (Size.objectBytes size) k
  static : ∀ i, 4 * i < h.stack.limit.toNat → s.memory.word i = h.memory.word i
  unmoved : k.statistics.collections = h.statistics.collections →
    f = id ∧ s.memory = h.memory ∧ s.bump = h.bump

/-- Nothing stands in the way of a request of `size` bytes. -/
structure Affords (h : Heap) (size : Nat) : Prop where
  size_lt : size < 0x100000000
  room : h.HasRoom (Size.objectBytes size)
  ample : h.Ample (Size.objectBytes size)

theorem Lowered.affords {h k : Heap} (hk : h.Lowered k) {size : Nat} (hs : h.Affords size) :
    k.Affords size where
  size_lt := hs.size_lt
  room := hk.hasRoom_iff.mpr hs.room
  ample := ampleFor_one.mp (hk.ampleFor_iff.mpr (ampleFor_one.mpr hs.ample))

/-- How a request may fail: for want of memory, or since a counter overflows, and not where nothing stands
in its way. -/
structure Refuses (h : Heap) (size : Nat) (e : Fault) : Prop where
  cause : (∃ cause, e = .outOfMemory cause) ∨ e = .overflow ∧ ¬ h.Ample (Size.objectBytes size)
  short : ¬ h.Affords size

theorem Refuses.runsOut {h : Heap} {size bytes : Nat} {e : Fault} (he : h.Refuses size e)
    (hbytes : Size.objectBytes size = bytes) (hle : size ≤ bytes) : h.RunsOut 0 1 bytes e where
  cause := by
    rw [ampleFor_one, ← hbytes]
    exact he.cause
  short := by
    rintro ⟨-, hroom, hample⟩
    rw [ampleFor_one, ← hbytes] at hample
    rw [Nat.one_mul] at hroom
    obtain ⟨free, hfree, hfits⟩ := hroom.fits
    have hlimit : h.bump.limit.toNat = h.bump.cursor.toNat + free := Address.diff_eq_ok_iff.mp hfree
    have hlt := h.bump.limit.toNat_lt
    exact he.short ⟨by omega, hbytes ▸ hroom, hample⟩

/-- An allocation grants the request, or refuses it. -/
theorem WellFormed.alloc_grant {h : Heap} (hw : h.WellFormed) (size : Nat) :
    Ends (h.alloc size) (fun x => ∃ f s r n, x.1 = r.address ∧ h.Grant size f s r n x.2)
      (h.Refuses size) := by
  have hr := hw.toRegular
  have hsupplied := alloc_supplied
    (P := fun n s => s.WellFormed ∧ h.Collects n s ∧
      (∀ i, 4 * i < h.stack.limit.toNat → s.memory.word i = h.memory.word i) ∧
      ∃ f, h.Carries f s ∧ (n = 0 → f = id ∧ s.memory = h.memory ∧ s.bump = h.bump))
    ⟨hw, .refl h, fun _ _ => rfl, id, .refl hr, fun _ => ⟨rfl, rfl, rfl⟩⟩
    (fun _ s hs => hs.1.toLayout) ?_ ?_ size
  · rcases ((hw.allocElse (throw .overflow) size).2.and hsupplied).cases with
      ⟨⟨_, k⟩, hx, -, n, hn, s, r, l, ⟨hs, hcollects, hstatic, f, hf, hsame⟩, rfl, hk, hsize, hbytes⟩ |
        ⟨e, hx, he⟩
    · rw [hx]
      refine ⟨f, s, r, l, rfl, hs, hf, hk.toAdded, hk.pos, hsize, hbytes, ?_, hstatic,
        fun hcount => hsame ?_⟩
      · exact hcollects.spends hw.toLayout hn hk hsize hbytes hx
      · obtain ⟨growths, -, hstatistics⟩ := hk.statistics
        have hcollections := hcollects.collections
        rw [hstatistics] at hcount
        dsimp only at hcount
        omega
    · rw [hx]
      refine ⟨he.imp_right (And.imp_right (mt hr.allocationFits)), fun haffords => ?_⟩
      obtain ⟨a, k, hk, -⟩ := hw.exists_alloc haffords.size_lt haffords.room
        (hr.allocationFits haffords.ample)
      rw [hx] at hk
      nomatch hk
  · rintro n s ⟨hs, hcollects, hstatic, f, hf, -⟩
    have hs' := hs.toRegular
    apply hs'.collect.imp
    rintro t ⟨moves, ht⟩
    refine ⟨hs.collected ht, hcollects.collected hs' ht, fun i hi => ?_, _, hf.collected hr hs' ht,
      fun hzero => nomatch hzero⟩
    rw [ht.static hs'.toLayout hs.limit_le_base (hf.stack ▸ hi), hstatic i hi]
  · rintro n s recent ⟨hs, hcollects, hstatic, f, hf, hsame⟩
    have hs' : WellFormed { s with recent } :=
      { hs.toRegular.withRecent recent with reserved := hs.reserved, limit_le := hs.limit_le }
    have hp : s.Preserves { s with recent } := { hs.preserves_self with }
    exact ⟨hs', { hcollects with }, hstatic, f, hf.preserved hr hs.toRegular hp, hsame⟩

/-- An object of kind `c` that takes `bytes` bytes is the last one in the used part of the active
space. -/
structure Last (h : Heap) (r : Reference) (c : Kind) (bytes : Nat) : Prop where
  initialised : h.Initialised r
  kind : h.memory.kind r = .ok c
  objectSize : h.memory.objectSize r = .ok bytes
  stop : h.bump.cursor.toNat = r.address.toNat + bytes

namespace Grant

variable {h s k : Heap} {size n : Nat} {f : Reference → Reference} {r : Reference}
  (hg : h.Grant size f s r n k)

include hg

theorem stack_eq : k.stack = h.stack :=
  hg.added.stack.trans hg.carries.stack

theorem inside : r.index + n ≤ k.memory.words.size := by
  have hindex := hg.added.index_eq
  have hcursor := hg.added.cursor
  have hinside := hg.added.cursor_inside
  omega

theorem words_eq {c : Nat} (hsize : size = 4 * c) (hc : 2 ≤ c) : n = c := by
  have hbytes := hg.bytes
  have hlt := hg.size_lt
  rw [Size.objectBytes_eq (by omega)] at hbytes
  omega

/-- The stack lies below the block. -/
theorem above_stack {i : Nat} (hi : 4 * i < h.stack.base.toNat) : i < r.index := by
  have hindex := hg.added.index_eq
  have hstart := Address.le_iff.mp hg.wellFormed.start_le
  have hbounds := hg.wellFormed.toLayout.stack_bounds
  rw [hg.carries.stack] at hbounds
  omega

theorem ne_null : r ≠ Reference.null := by
  have hindex := hg.added.index_eq
  have hstart := Address.le_iff.mp hg.wellFormed.start_le
  have hbase := Address.le_iff.mp hg.wellFormed.spaces.base_le_active
  have hreserved := hg.wellFormed.spaces.reserved
  unfold Size.reservedBytes at hreserved
  rw [Reference.ne_null_iff]
  omega

/-- The static data lies below the stack. -/
theorem above_static {i : Nat} (hi : 4 * i < h.stack.limit.toNat) : i < r.index := by
  have hlimit := Address.le_iff.mp hg.wellFormed.limit_le
  have hsp := Address.le_iff.mp hg.wellFormed.stack.sp_le
  rw [hg.carries.stack] at hlimit hsp
  exact hg.above_stack (by omega)

theorem word_below {i : Nat} (hi : i < r.index) : k.memory.word i = s.memory.word i := by
  have hindex := hg.added.index_eq
  exact hg.added.word_below (by omega)

/-- The block is none of the objects from before. -/
theorem fresh {x : Reference} (hx : h.ReachableWith [] x) : f x ≠ r := by
  have hindex := hg.added.index_eq
  have hregular := hg.wellFormed.toRegular
  have hi := (hg.carries.restores hregular).initialised x hx
  have hwithin := hregular.index_within (hregular.isSet_of_initialised hi)
  rintro rfl
  omega

section Written

variable {m : Memory} (hm : k.Written r n m)

include hm

theorem paged : m.Paged := by
  obtain ⟨pages, hp, hle⟩ := hg.added.paged.pages
  exact ⟨⟨pages, hm.size.trans hp, hm.maxPages ▸ hle⟩, hm.maxPages ▸ hg.added.paged.maximum⟩

theorem static_written {i : Nat} (hi : 4 * i < h.stack.limit.toNat) :
    m.word i = h.memory.word i := by
  have hbelow := hg.above_static hi
  rw [hm.outside i (by omega), hg.word_below hbelow, hg.static i hi]

/-- Without a collection the block is at the cursor, and nothing else changes. -/
theorem unmoved_written (hcount : k.statistics.collections = h.statistics.collections) :
    f = id ∧ r.address = h.bump.cursor ∧
      ∀ i, ¬ (r.index ≤ i ∧ i < r.index + n) → m.word i = h.memory.word i := by
  obtain ⟨hf, hmemory, hbump⟩ := hg.unmoved hcount
  refine ⟨hf, hg.added.place.trans (congrArg Bump.cursor hbump), fun i hi => ?_⟩
  rw [hm.outside i hi, hg.added.word, if_neg hi, hmemory]

/-- What is written into the block moves no object. -/
theorem includes : s.Includes { k with memory := m } where
  small := (hg.paged hm).size_le
  size_le := by
    dsimp only
    rw [hm.size]
    exact hg.added.size_le
  word := by
    intro x hx j hj
    have hend := (hg.wellFormed.toRegular.object_end hx).1
    have hindex := hg.added.index_eq
    dsimp only
    rw [hm.outside _ (by omega)]
    exact hg.word_below (by omega)
  stack := hg.added.stack
  base := hg.added.base
  base_le := by
    dsimp only
    rw [hg.added.base, hg.added.start]
    exact hg.wellFormed.spaces.base_le_active
  initialised := by
    intro x hx
    have hregular := hg.wellFormed.toRegular
    have hend := (hregular.object_end hx).1
    have htwo := hregular.two_le_size hx
    have hindex := hg.added.index_eq
    have hsize := hg.added.size_le
    have hin := hregular.end_le_size hx
    obtain ⟨c, -, -, hc⟩ := hregular.kind_eq hx
    refine ⟨(hg.added.isLive_iff hg.pos hregular).mpr (.inl hx.1), ?_⟩
    have hword : m.word x.index = c.header := by
      rw [hm.outside _ (by omega), hg.word_below (by omega), hc]
    rw [Memory.kind_eq_ok (by rw [hm.size]; omega) hword]
    rfl
  roots := by
    intro i _ hstop
    have hbelow := hg.above_stack (hg.carries.stack ▸ hstop)
    dsimp only
    rw [hm.outside i (by omega), hg.word_below hbelow]

theorem restores (hr : h.Regular) : h.Restores [] f { k with memory := m } :=
  (hg.carries.restores hg.wellFormed.toRegular).extend hr hg.wellFormed.toRegular (hg.includes hm)

/-- A value that waits on the stack is read back where its object has gone. -/
theorem root (hr : h.Regular) {slot : RootSlot} {v : Value} (hslot : h.root slot = .ok v)
    (hv : h.Accepts v) : root { k with memory := m } slot = .ok (h.relocated f v) := by
  obtain ⟨hholds, ha, -⟩ := hr.toLayout.root_eq_ok_iff.mp hslot
  have hbelow := hg.above_stack (hholds.index ha).2
  have hinside := hg.inside
  refine (hg.restores hm hr).root hr hslot hv ?_
  dsimp only
  rw [hm.size]
  omega

/-- What was reached lies in its new place, whatever is written into the block. -/
theorem lies (hr : h.Regular) {x : Reference} (hx : h.ReachableWith [] x) {c : Kind}
    (hc : h.memory.word x.index = c.header) : m.Lies (f x) c := by
  have hs := hg.wellFormed.toRegular
  have hi := (hg.carries.restores hs).initialised x hx
  have hrestores := hg.restores hm hr
  have hincludes := (hg.includes hm).toIntact
  have hheader := Memory.header_of_payload (hr.two_le_size hx.initialised) (hrestores.payload x hx)
  have hinside := hincludes.inside hs hi
  rw [← hincludes.size_eq hs hi] at hinside
  exact (hg.paged hm).lies (hheader.trans hc) hinside

/-- Every other object ends where the block starts, or before. -/
theorem apart {x : Reference} (hx : Initialised { k with memory := m } x) (hne : x ≠ r) {bytes : Nat}
    (hbytes : m.objectSize x = .ok bytes) : x.address.toNat + bytes ≤ r.address.toNat := by
  have hs := hg.wellFormed.toRegular
  have hlive := ((hg.added.isLive_iff hg.pos hs).mp hx.1).resolve_right hne
  have hwithin := hs.index_within (hs.isLive_iff.mp hlive)
  have hindex := hg.added.index_eq
  obtain ⟨c, hc⟩ := Memory.exists_header_of_isOk hx.2
  rw [hm.outside x.index (by omega), hg.word_below (by omega)] at hc
  have hi : s.Initialised x := hs.initialised_iff.mpr ⟨hs.isLive_iff.mp hlive, c, hc⟩
  have hsize := ((hg.includes hm).objectSize_eq hs hi).symm.trans hbytes
  rw [hs.objectSize hi, Except.ok.injEq] at hsize
  have hend := (hs.object_end hi).1
  rw [Reference.toNat_address, Reference.toNat_address]
  omega

/-- An object that fills the block is the last one. -/
theorem last {c : Kind} (hc : m.word r.index = c.header) (hcount : m.wordCount r.index = n) :
    m.Lies r c ∧ Last { k with memory := m } r c (4 * n) := by
  have hinside := hg.inside
  have hpos := hg.pos
  have hsmall := hg.added.paged.size_le
  have htwo := Memory.two_le_wordCount hc
  have hkind : m.kind r = .ok c := Memory.kind_eq_ok (by rw [hm.size]; omega) hc
  refine ⟨(hg.paged hm).lies hc (by rw [hm.size]; omega), ⟨?_, ?_⟩, hkind, ?_, ?_⟩
  · exact (hg.added.isLive_iff hpos hg.wellFormed.toRegular).mpr (.inr rfl)
  · rw [hkind]
    rfl
  · rw [← hcount]
    exact Memory.objectSize_eq (by rw [hm.size]; omega) (by rw [hm.size]; omega) hc
  · dsimp only
    rw [hg.added.cursor, hg.added.place]

/-- With a whole object in the block, whose slots hold what they may, the heap is well formed. The base of
the heap matters since a growth places a space there. -/
theorem wellFormed_written (hbase : h.spaces.base.WordAligned) {c : Kind} (hsymbol : c ≠ .symbol)
    (hc : m.word r.index = c.header) (hcount : m.wordCount r.index = n)
    (hslots : ∀ j, m.IsSlot r.index j → Allows { k with memory := m } (m.word (r.index + j))) :
    WellFormed { k with memory := m } := by
  have hs := hg.wellFormed.toRegular
  have hincludes := hg.includes hm
  have hcursor := hg.added.cursor
  have hindex := hg.added.index_eq
  have hinside := hg.added.cursor_inside
  have hlayout := hg.added.layout hg.pos hs (hg.carries.base ▸ hbase)
  obtain ⟨blocks, hb⟩ := hs.blocks
  have hblocked := hg.added.blocked hg.pos hs hb
  have hallows : ∀ w, s.Allows w → Allows { k with memory := m } w := by
    intro w hw x htarget
    refine (hw x htarget).imp (fun hbelow => ?_) (hincludes.initialised x)
    dsimp only
    rwa [hg.added.base]
  have hfilled : ∀ b ∈ (⟨r.address, k.bump.cursor⟩ :: blocks : List AddressRange), ∀ x : Reference,
      x.address = b.start → Raw { k with memory := m } x ∨ Holds { k with memory := m } x b := by
    intro b hmem x hx
    rcases List.mem_cons.mp hmem with rfl | hmem
    · right
      obtain rfl : x = r := Reference.ext_address hx
      rw [holds_iff (hg.paged hm).size_le (by dsimp only; rw [hm.size]; exact hinside)]
      refine ⟨c, hsymbol, hc, ?_, hslots⟩
      unfold Heap.size
      dsimp only
      omega
    · refine hb.filled_congr hs.toLayout hincludes.small hincludes.size_le ?_ hallows hmem hx
      intro i _ hi
      dsimp only
      rw [hm.outside i (by omega)]
      exact hg.word_below (by omega)
  exact
    { hlayout.withMemory hm.size hm.maxPages with
      blocks := ⟨_, hblocked.within, hblocked.disjoint, hblocked.starts, hfilled⟩
      reserved := hg.added.stack ▸ hg.wellFormed.reserved
      limit_le := hg.added.stack ▸ hg.wellFormed.limit_le }

end Written

end Grant

section Stacked

variable {h p s k : Heap} {size n : Nat} {f : Reference → Reference} {r : Reference} {vs : List Value}
  {slots : List RootSlot} (hp : h.Stacked vs slots p) (hr : h.Regular) (hg : p.Grant size f s r n k)
  {m : Memory} (hm : k.Written r n m)

include hp hr hg hm

/-- Whatever is written into the block, the values that wait in the slots are read back where their objects
have gone. -/
theorem Stacked.granted (hvs : ∀ v ∈ vs, h.Accepts v) :
    List.Forall₂ (fun slot v => Heap.root { k with memory := m } slot = .ok v) slots
      (vs.map (h.relocated f)) := by
  rw [List.forall₂_map_right_iff, List.forall₂_iff_get]
  refine ⟨hp.roots.length_eq, fun i hi hi' => ?_⟩
  rw [← hp.relocated_eq hr]
  exact hg.root hm (hp.regular hr) (hp.roots.get hi hi') ((hp.accepts_iff hr).mpr (hvs _ (List.get_mem ..)))

omit hp in
theorem Stacked.granted_value {v : Value} {slot : RootSlot} (hp : h.Stacked [v] [slot] p)
    (hv : h.Accepts v) : Heap.root { k with memory := m } slot = .ok (h.relocated f v) := by
  have hslots := hp.granted hr hg hm (List.forall_mem_singleton.mpr hv)
  exact (List.forall₂_cons.mp hslots).1

/-- When the block has been written and the frame left, all that was reached is where the map says, and the
block is none of it. -/
theorem Stacked.made : h.Restores vs f { k with memory := m, stack := h.stack } ∧
    ∀ x, h.ReachableWith vs x → f x ≠ r := by
  have hreaches : ∀ v ∈ vs, p.Reaches [] v := fun v hv => hp.reaches hr hv
  refine ⟨hp.restores hr hreaches (hg.restores hm (hp.regular hr)), fun x hx => ?_⟩
  exact hg.fresh (hp.reachableWith hr hreaches hx)

end Stacked

end Heap

end CopyingHeap
