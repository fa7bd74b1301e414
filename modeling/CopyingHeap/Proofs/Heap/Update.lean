import CopyingHeap.Proofs.Heap.Twin

/-!
Writing to a block of the heap. An object may be made in a raw block, and the reference slots of an
object may be changed. Two twins stay twins if both do so with corresponding words.
-/

namespace CopyingHeap

namespace Heap

/-- The memory `m` differs from that of the heap in the block of `n` words at `r` only. -/
structure Written (h : Heap) (r : Reference) (n : Nat) (m : Memory) : Prop where
  size : m.words.size = h.memory.words.size
  maxPages : m.maxPages = h.memory.maxPages
  outside : ∀ i, ¬ (r.index ≤ i ∧ i < r.index + n) → m.word i = h.memory.word i

theorem Written.refl (h : Heap) (r : Reference) (n : Nat) : h.Written r n h.memory :=
  ⟨rfl, rfl, fun _ _ => rfl⟩

theorem Written.withWord {h : Heap} {r : Reference} {n : Nat} {m : Memory} (hw : h.Written r n m)
    {j : Nat} (hj : j < n) (w : Word) : h.Written r n (m.withWord (r.index + j) w) where
  size := (Memory.size_withWord ..).trans hw.size
  maxPages := hw.maxPages
  outside := fun i hi => (Memory.word_withWord_ne m (by omega) w).trans (hw.outside i hi)

theorem Layout.withMemory {h : Heap} (hl : h.Layout) {m : Memory}
    (hsize : m.words.size = h.memory.words.size) (hmax : m.maxPages = h.memory.maxPages) :
    Layout { h with memory := m } where
  paged := by
    obtain ⟨pages, hp, hle⟩ := hl.paged.pages
    exact ⟨⟨pages, hsize.trans hp, hmax ▸ hle⟩, hmax ▸ hl.paged.maximum⟩
  spaces :=
    { hl.spaces with
      active_inside := by
        rw [hsize]
        exact hl.spaces.active_inside
      scratch_inside := by
        rw [hsize]
        exact hl.spaces.scratch_inside }
  stack := hl.stack
  limit := hl.limit
  cursor_aligned := hl.cursor_aligned
  start_le := hl.start_le
  cursor_le := hl.cursor_le

theorem Tiled.block_of_initialised {h : Heap} (hl : h.Layout) {xs : List (Reference × Nat)}
    (ht : h.Tiled xs) {r : Reference} (hr : h.Initialised r) :
    ∃ n, (r, n) ∈ xs ∧ h.size r ≤ n := by
  obtain ⟨hset, k, hk⟩ := (ht.initialised_iff hl).mp hr
  obtain ⟨⟨s, n⟩, hx, rfl⟩ := ht.isSet_iff.mp hset
  refine ⟨n, hx, ?_⟩
  rcases ht.filled _ hx with ⟨hraw, -⟩ | ⟨-, -, -, hsize⟩
  · rw [hk, Kind.ofHeader?_header] at hraw
    nomatch hraw
  · exact hsize

section Write

variable {h : Heap} (hs : h.Sound) {xs : List (Reference × Nat)} (hxs : h.Tiled xs) {r : Reference}
  {n : Nat} (hr : (r, n) ∈ xs) {m : Memory} (hw : h.Written r n m)

include hxs hr hw

theorem Written.block {x : Reference × Nat} (hx : x ∈ xs) (hne : x.1 ≠ r) {j : Nat} (hj : j < x.2) :
    m.word (x.1.index + j) = h.memory.word (x.1.index + j) := by
  refine hw.outside _ ?_
  rcases hxs.tiles.separate hx hr with heq | hsep | hsep
  · exact absurd (congrArg Prod.fst heq) hne
  · dsimp only at hsep
    omega
  · dsimp only at hsep
    omega

theorem Written.tiled {k : Kind} (hk : k ≠ .symbol) (hheader : m.word r.index = k.header)
    (hfit : m.wordCount r.index ≤ n) : Tiled { h with memory := m } xs where
  tiles := hxs.tiles
  nonempty := hxs.nonempty
  starts := hxs.starts
  filled := fun x hx => by
    have hpos := hxs.nonempty x hx
    rcases hxs.tiles.separate hx hr with heq | hsep
    · subst heq
      exact .inr ⟨k, hk, hheader, hfit⟩
    · have hne : x.1 ≠ r := fun heq => by
        have hpos' := hxs.nonempty _ hr
        rw [heq] at hsep
        dsimp only at hsep hpos'
        omega
      have h0 := hw.block hxs hr hx hne hpos
      rw [Nat.add_zero] at h0
      dsimp only
      rw [h0]
      refine (hxs.filled x hx).imp_right fun ⟨l, hl, hheader', hsize⟩ => ⟨l, hl, hheader', ?_⟩
      have htwo : 2 ≤ h.size x.1 := Memory.two_le_wordCount hheader'
      have hsame : m.wordCount x.1.index = h.size x.1 :=
        Memory.wordCount_congr h0 fun _ _ _ => hw.block hxs hr hx hne (by omega)
      exact hsame.trans_le hsize

include hs

theorem Written.static {i : Nat} (hi : 4 * i < h.stack.limit.toNat) :
    m.word i = h.memory.word i := by
  have hb := (hxs.bounds hs.toLayout hr).1
  dsimp only at hb
  have h1 := Address.le_iff.mp hs.limit_le
  have h2 := Address.le_iff.mp hs.spaces.base_le_active
  exact hw.outside i (by omega)

theorem Written.stack {i : Nat} (hi : 4 * i < h.stack.base.toNat) :
    m.word i = h.memory.word i := by
  have hb := (hxs.bounds hs.toLayout hr).1
  dsimp only at hb
  have h1 := hs.stack_bounds
  exact hw.outside i (by omega)

theorem Written.object {s : Reference} (hi : h.Initialised s) (hne : s ≠ r) {j : Nat}
    (hj : j < h.size s) : m.word (s.index + j) = h.memory.word (s.index + j) := by
  obtain ⟨l, hl, hsize⟩ := hxs.block_of_initialised hs.toLayout hi
  exact hw.block hxs hr hl hne (by dsimp only; omega)

theorem Written.shape {s : Reference} (hi : h.Initialised s) (hne : s ≠ r) :
    m.wordCount s.index = h.size s ∧
      ∀ j, m.IsSlot s.index j ↔ h.memory.IsSlot s.index j := by
  have htwo := hs.regular.two_le_size hi
  have h0 : m.word s.index = h.memory.word s.index :=
    hw.object hs hxs hr hi hne (j := 0) (by omega)
  have h1 := hw.object hs hxs hr hi hne (j := 1) (by omega)
  exact ⟨Memory.wordCount_congr h0 fun _ _ _ => h1, fun j =>
    Memory.isSlot_congr h0 fun _ _ _ => h1⟩

variable {k : Kind} (hk : k ≠ .symbol) (hheader : m.word r.index = k.header)

include hheader

theorem Written.initialised_iff (hxs' : Tiled { h with memory := m } xs) {s : Reference} :
    Initialised { h with memory := m } s ↔ h.Initialised s ∨ s = r := by
  have hl := hs.withMemory hw.size hw.maxPages
  have hset : h.spaces.bits.isSet r.address = true := hxs.isSet_iff.mpr ⟨_, hr, rfl⟩
  rw [hxs'.initialised_iff hl, hxs.initialised_iff hs.toLayout]
  dsimp only
  by_cases hsr : s = r
  · subst hsr
    exact ⟨fun _ => .inr rfl, fun _ => ⟨hset, k, hheader⟩⟩
  · simp only [hsr, or_false]
    refine and_congr_right fun hset' => ?_
    obtain ⟨x, hx, rfl⟩ := hxs.isSet_iff.mp hset'
    have hword := hw.block hxs hr hx hsr (hxs.nonempty x hx)
    rw [Nat.add_zero] at hword
    rw [hword]

include hk

/-- Making an object in a block, with sound words in its slots. -/
theorem Sound.write (hfit : m.wordCount r.index ≤ n)
    (hslots : ∀ j, m.IsSlot r.index j → Admits { h with memory := m } (m.word (r.index + j))) :
    Sound { h with memory := m } := by
  have hxs' := hw.tiled hxs hr hk hheader hfit
  have hinit {s : Reference} := hw.initialised_iff hs hxs hr hheader hxs' (s := s)
  have hadmits {w : Word} (ha : h.Admits w) : Admits { h with memory := m } w :=
    ha.congr rfl (fun i => hw.static hs hxs hr) fun s hi => hinit.mpr (.inl hi)
  refine hs.rebuild (hs.withMemory hw.size hw.maxPages) rfl rfl (fun i => hw.static hs hxs hr)
    ⟨xs, hxs'⟩ (fun s hi j hj => ?_) fun i h1 h2 => ?_
  · by_cases hsr : s = r
    · subst hsr
      exact hslots j hj
    · have hi' := (hinit.mp hi).resolve_right hsr
      have hj' := ((hw.shape hs hxs hr hi' hsr).2 j).mp hj
      exact (hw.object hs hxs hr hi' hsr hj'.lt).symm ▸ hadmits (hs.slots s hi' j hj')
  · exact (hw.stack hs hxs hr h2).symm ▸ hadmits (hs.roots i h1 h2)

end Write

/-- The relation `p`, in which `r` and `s` correspond too. -/
def Extended (p : Reference → Reference → Prop) (r s x y : Reference) : Prop :=
  p x y ∨ x = r ∧ y = s

section Extended

variable {p : Reference → Reference → Prop} {r s x y z : Reference}
  (hsame : ∀ x y, p x y → (x = r ↔ y = s))

theorem Extended.old (hxy : Extended p r s x y) (hne : x ≠ r) : p x y :=
  hxy.resolve_right fun heq => hne heq.1

include hsame

theorem Extended.eq_iff (hxy : Extended p r s x y) : x = r ↔ y = s := by
  rcases hxy with hxy | ⟨rfl, rfl⟩
  · exact hsame x y hxy
  · exact iff_of_true rfl rfl

theorem Extended.functional (hp : ∀ x y z, p x y → p x z → y = z) (hxy : Extended p r s x y)
    (hxz : Extended p r s x z) : y = z := by
  by_cases hxr : x = r
  · rw [(hxy.eq_iff hsame).mp hxr, (hxz.eq_iff hsame).mp hxr]
  · exact hp x y z (hxy.old hxr) (hxz.old hxr)

theorem Extended.injective (hp : ∀ x y z, p x z → p y z → x = y) (hxz : Extended p r s x z)
    (hyz : Extended p r s y z) : x = y := by
  by_cases hzs : z = s
  · rw [(hxz.eq_iff hsame).mpr hzs, (hyz.eq_iff hsame).mpr hzs]
  · have hxr : x ≠ r := fun heq => hzs ((hxz.eq_iff hsame).mp heq)
    have hyr : y ≠ r := fun heq => hzs ((hyz.eq_iff hsame).mp heq)
    exact hp x y z (hxz.old hxr) (hyz.old hyr)

end Extended

/-- Twins in which one corresponding object each is made or changed. -/
theorem Twin.write {p : Reference → Reference → Prop} {h h' : Heap} (ht : Twin p h h')
    {xs ys : List (Reference × Nat)} {r s : Reference} {n l : Nat} (hxs : h.Tiled xs)
    (hr : (r, n) ∈ xs) (hys : h'.Tiled ys) (hs : (s, l) ∈ ys) {m m' : Memory}
    (hw : h.Written r n m) (hw' : h'.Written s l m') {k : Kind} (hk : k ≠ .symbol)
    (hheader : m.word r.index = k.header) (hfit : m.wordCount r.index ≤ n)
    (hfit' : m.wordCount r.index ≤ l) (hsame : ∀ x y, p x y → (x = r ↔ y = s))
    (hslots : ∀ j, m.IsSlot r.index j →
      h.Linked (Extended p r s) (m.word (r.index + j)) (m'.word (s.index + j)))
    (hpayload : ∀ j < m.wordCount r.index, ¬ m.IsSlot r.index j →
      m'.word (s.index + j) = m.word (r.index + j)) :
    Twin (Extended p r s) { h with memory := m } { h' with memory := m' } := by
  have htwo := Memory.two_le_wordCount hheader
  have hheader' : m'.word s.index = m.word r.index := Memory.header_of_payload htwo hpayload
  have hcount : m'.wordCount s.index = m.wordCount r.index :=
    Memory.wordCount_of_payload htwo hpayload
  have hxs' := hw.tiled hxs hr hk hheader hfit
  have hys' := hw'.tiled hys hs hk (hheader'.trans hheader) (hcount ▸ hfit')
  have hinit (x y : Reference) (hxy : Extended p r s x y) :
      Initialised { h with memory := m } x ∧ Initialised { h' with memory := m' } y := by
    refine ⟨(hw.initialised_iff ht.left hxs hr hheader hxs').mpr ?_,
      (hw'.initialised_iff ht.right hys hs (hheader'.trans hheader) hys').mpr ?_⟩
    · exact hxy.imp (fun hp => (ht.initialised x y hp).1) And.left
    · exact hxy.imp (fun hp => (ht.initialised x y hp).2) And.right
  have hstatic (i : Nat) (hi : 4 * i < h.stack.limit.toNat) : m.word i = h.memory.word i :=
    hw.static ht.left hxs hr hi
  have hstatic' (i : Nat) (hi : 4 * i < h'.stack.limit.toNat) : m'.word i = h'.memory.word i :=
    hw'.static ht.right hys hs hi
  have hadmits {w w' : Word} (hl : h.Linked (Extended p r s) w w') :
      Admits { h with memory := m } w ∧ Admits { h' with memory := m' } w' :=
    hl.admits hinit fun hf => ⟨hf.congr rfl hstatic, (ht.fixed_iff.mpr hf).congr rfl hstatic'⟩
  have hlinked {w w' : Word} (hl : h.Linked (Extended p r s) w w') :
      Linked { h with memory := m } (Extended p r s) w w' :=
    hl.congr rfl hstatic
  -- An object that is not the one made or changed is as it was.
  have hother {x y : Reference} (hxy : p x y) (hne : x ≠ r) :
      (∀ j < h.size x, m.word (x.index + j) = h.memory.word (x.index + j)) ∧
        ∀ j < h.size x, m'.word (y.index + j) = h'.memory.word (y.index + j) := by
    obtain ⟨hx, hy⟩ := ht.initialised x y hxy
    refine ⟨fun j hj => hw.object ht.left hxs hr hx hne hj, fun j hj => ?_⟩
    exact hw'.object ht.right hys hs hy (fun hys => hne ((hsame x y hxy).mpr hys))
      ((ht.size_eq hxy).symm ▸ hj)
  have hshape {x y : Reference} (hxy : p x y) (hne : x ≠ r) :=
    hw.shape ht.left hxs hr (ht.initialised x y hxy).1 hne
  refine
    { left := ht.left.write hxs hr hw hk hheader hfit fun j hj => (hadmits (hslots j hj)).1
      right := ht.right.write hys hs hw' hk (hheader'.trans hheader) (hcount ▸ hfit')
        fun j hj => (hadmits (hslots j ((Memory.isSlot_of_payload htwo hpayload).mp hj))).2
      stack := ht.stack
      static := fun i hi => ?_
      initialised := hinit
      functional := fun x y z hxy hxz => hxy.functional hsame ht.functional hxz
      injective := fun x y z hxz hyz => hxz.injective hsame ht.injective hyz
      slots := fun x y hxy j hj => ?_
      payload := fun x y hxy j hj hno => ?_
      roots := fun i h1 h2 => ?_ }
  · exact (hstatic' i (ht.stack ▸ hi)).trans ((ht.static i hi).trans (hstatic i hi).symm)
  · by_cases hxr : x = r
    · have hys : y = s := (hxy.eq_iff hsame).mp hxr
      subst hxr hys
      exact hlinked (hslots j hj)
    · have hp := hxy.old hxr
      have hj' := ((hshape hp hxr).2 j).mp hj
      dsimp only
      rw [(hother hp hxr).1 j hj'.lt, (hother hp hxr).2 j hj'.lt]
      exact hlinked ((ht.slots x y hp j hj').mono fun x y => .inl)
  · by_cases hxr : x = r
    · have hys : y = s := (hxy.eq_iff hsame).mp hxr
      subst hxr hys
      exact hpayload j hj hno
    · have hp := hxy.old hxr
      have hj' : j < h.size x := (hshape hp hxr).1 ▸ hj
      dsimp only
      rw [(hother hp hxr).1 j hj', (hother hp hxr).2 j hj']
      exact ht.payload x y hp j hj' fun hs => hno (((hshape hp hxr).2 j).mpr hs)
  · dsimp only at h1 h2 ⊢
    rw [hw.stack ht.left hxs hr h2, hw'.stack ht.right hys hs (ht.stack ▸ h2)]
    exact hlinked ((ht.roots i h1 h2).mono fun x y => .inl)

/-- Twins in which corresponding objects have been made in fresh blocks. -/
theorem Twin.install {p : Reference → Reference → Prop} {h h' : Heap} (ht : Twin p h h')
    {r s : Reference} {n l : Nat} (hf : h.Fresh r n) (hf' : h'.Fresh s l) {m m' : Memory}
    (hw : h.Written r n m) (hw' : h'.Written s l m') {k : Kind} (hk : k ≠ .symbol)
    (hheader : m.word r.index = k.header) (hfit : m.wordCount r.index ≤ n)
    (hfit' : m.wordCount r.index ≤ l)
    (hslots : ∀ j, m.IsSlot r.index j →
      h.Linked p (m.word (r.index + j)) (m'.word (s.index + j)))
    (hpayload : ∀ j < m.wordCount r.index, ¬ m.IsSlot r.index j →
      m'.word (s.index + j) = m.word (r.index + j)) :
    Twin (Extended p r s) { h with memory := m } { h' with memory := m' } := by
  obtain ⟨xs, hxs, hr⟩ := hf.block
  obtain ⟨ys, hys, hs⟩ := hf'.block
  refine ht.write hxs hr hys hs hw hw' hk hheader hfit hfit' (fun x y hxy => ?_)
    (fun j hj => (hslots j hj).mono fun x y => .inl) hpayload
  obtain ⟨hx, hy⟩ := ht.initialised x y hxy
  refine iff_of_false ?_ ?_
  · rintro rfl
    exact hf.not_initialised ht.left.toLayout hx
  · rintro rfl
    exact hf'.not_initialised ht.right.toLayout hy

/-- Twins in which the reference slots of corresponding objects have been changed alike. -/
theorem Twin.setSlots {p : Reference → Reference → Prop} {h h' : Heap} (ht : Twin p h h')
    {r s : Reference} (hp : p r s) {m m' : Memory} (hsize : m.words.size = h.memory.words.size)
    (hmax : m.maxPages = h.memory.maxPages) (hsize' : m'.words.size = h'.memory.words.size)
    (hmax' : m'.maxPages = h'.memory.maxPages)
    (hout : ∀ i, (∀ j, h.memory.IsSlot r.index j → i ≠ r.index + j) →
      m.word i = h.memory.word i)
    (hout' : ∀ i, (∀ j, h.memory.IsSlot r.index j → i ≠ s.index + j) →
      m'.word i = h'.memory.word i)
    (hslots : ∀ j, h.memory.IsSlot r.index j →
      h.Linked p (m.word (r.index + j)) (m'.word (s.index + j))) :
    Twin p { h with memory := m } { h' with memory := m' } := by
  obtain ⟨hr, hs⟩ := ht.initialised r s hp
  obtain ⟨xs, hxs⟩ := ht.left.tiled
  obtain ⟨ys, hys⟩ := ht.right.tiled
  obtain ⟨n, hx, hn⟩ := hxs.block_of_initialised ht.left.toLayout hr
  obtain ⟨l, hy, hl⟩ := hys.block_of_initialised ht.right.toLayout hs
  obtain ⟨k, hk, -, hheader⟩ := ht.left.regular.kind_eq hr
  have hkeep {j : Nat} (hj : ¬ h.memory.IsSlot r.index j) :
      m.word (r.index + j) = h.memory.word (r.index + j) :=
    hout _ fun i hi heq => hj (by rwa [show j = i from by omega])
  have hkeep' {j : Nat} (hj : ¬ h.memory.IsSlot r.index j) :
      m'.word (s.index + j) = h'.memory.word (s.index + j) :=
    hout' _ fun i hi heq => hj (by rwa [show j = i from by omega])
  have htwo := ht.left.regular.two_le_size hr
  have hpayload (j : Nat) (_ : j < h.memory.wordCount r.index) := hkeep (j := j)
  have hheader' : m.word r.index = h.memory.word r.index := Memory.header_of_payload htwo hpayload
  have hcount : m.wordCount r.index = h.size r := Memory.wordCount_of_payload htwo hpayload
  have hslot (j : Nat) : m.IsSlot r.index j ↔ h.memory.IsSlot r.index j :=
    Memory.isSlot_of_payload htwo hpayload
  have hextended : Extended p r s = p := by
    funext x y
    exact propext ⟨fun hxy => hxy.elim id fun ⟨hx, hy⟩ => hx ▸ hy ▸ hp, .inl⟩
  have hw : h.Written r n m := ⟨hsize, hmax, fun i hi => hout i fun j hj heq => hi (by
    have hlt : j < h.size r := hj.lt
    omega)⟩
  have hw' : h'.Written s l m' := ⟨hsize', hmax', fun i hi => hout' i fun j hj heq => hi (by
    have hlt : j < h.size r := hj.lt
    have hsame := ht.size_eq hp
    omega)⟩
  have htwin := ht.write hxs hx hys hy hw hw' hk (hheader'.trans hheader) (hcount.trans_le hn)
    (by rw [hcount, ← ht.size_eq hp]; exact hl)
    (fun x y hxy => ⟨fun hxr => ht.functional x y s hxy (hxr ▸ hp),
      fun hys => ht.injective x r y hxy (hys ▸ hp)⟩)
    (fun j hj => (hslots j ((hslot j).mp hj)).mono fun x y => .inl)
    fun j hj hno => by
      rw [hkeep fun hj' => hno ((hslot j).mpr hj'), hkeep' fun hj' => hno ((hslot j).mpr hj')]
      exact ht.payload r s hp j (hcount ▸ hj) fun hj' => hno ((hslot j).mpr hj')
  rwa [hextended] at htwin

end Heap

end CopyingHeap
