import CopyingHeap.Proofs.Construct.Objects
import CopyingHeap.Proofs.Heap.Contract
import CopyingHeap.Proofs.Heap.Enumeration

/-!
Heaps in which every block is one object. An allocation adds a block that is none yet, and an object of
its size makes the heap packed again. Neither the words of the stack nor those that an object holds
behind its header and length matter, and a collection gives each object a block of its own size.
-/

namespace CopyingHeap

namespace Heap

/-- Every block is one object, but for those at `raw`. -/
def PackedBut (h : Heap) (raw : List Reference) : Prop :=
  ∃ xs, h.Tiled xs ∧ ∀ x ∈ xs, x.1 ∉ raw → h.Filled x

/-- Every block is one object. -/
def Packed (h : Heap) : Prop :=
  h.PackedBut []

theorem Filled.two_le {h : Heap} {x : Reference × Nat} (hx : h.Filled x) : 2 ≤ x.2 := by
  obtain ⟨k, -, hheader, hsize⟩ := hx
  rw [← hsize]
  exact Memory.two_le_wordCount hheader

theorem Filled.congr {h k : Heap} {x : Reference × Nat} (hx : h.Filled x)
    (h0 : k.memory.word x.1.index = h.memory.word x.1.index)
    (h1 : k.memory.word (x.1.index + 1) = h.memory.word (x.1.index + 1)) : k.Filled x := by
  obtain ⟨c, hc, hheader, hsize⟩ := hx
  refine ⟨c, hc, h0.trans hheader, ?_⟩
  rw [← hsize]
  exact Memory.wordCount_congr h0 fun _ _ _ => h1

namespace PackedBut

variable {h k : Heap} {raw : List Reference}

theorem congr (hp : h.PackedBut raw) (hk : ∃ ys, k.Tiled ys) (hspaces : k.spaces = h.spaces)
    (hbump : k.bump = h.bump)
    (hfilled : ∀ xs, h.Tiled xs → ∀ x ∈ xs, x.1 ∉ raw → h.Filled x → k.Filled x) :
    k.PackedBut raw := by
  obtain ⟨xs, hxs, hold⟩ := hp
  obtain ⟨ys, hys⟩ := hk
  obtain rfl := hxs.unique hys hspaces hbump
  exact ⟨xs, hys, fun x hx hraw => hfilled xs hxs x hx hraw (hold x hx hraw)⟩

theorem withRecent (hp : h.PackedBut raw) (n : Nat) : PackedBut { h with recent := n } raw := by
  obtain ⟨xs, hxs, hfilled⟩ := hp
  exact ⟨xs, hxs.congr rfl rfl (fun _ => rfl) fun _ => rfl, hfilled⟩

/-- An object of the size of its block leaves nothing of the block. -/
theorem install {r : Reference} {n : Nat} {m : Memory} {c : Kind} (hp : h.PackedBut [r])
    (hf : h.Fresh r n) (hw : h.Written r n m) (hc : c ≠ .symbol)
    (hheader : m.word r.index = c.header) (hcount : m.wordCount r.index = n) :
    Packed { h with memory := m } := by
  obtain ⟨xs, hxs, hr⟩ := hf.block
  obtain ⟨ys, hys, hfilled⟩ := hp
  obtain rfl := hxs.unique hys rfl rfl
  refine ⟨xs, hw.tiled hxs hr hc hheader hcount.le, ?_⟩
  intro x hx _
  by_cases hxr : x.1 = r
  · have hx' : x = (r, n) := by
      have hpos := hxs.nonempty x hx
      have hpos' := hxs.nonempty _ hr
      rcases hxs.tiles.separate hx hr with heq | hsep
      · exact heq
      · rw [hxr] at hsep
        dsimp only at hsep hpos'
        omega
    subst hx'
    exact ⟨c, hc, hheader, hcount⟩
  · have hold := hfilled x hx fun hraw => hxr (List.mem_singleton.mp hraw)
    have htwo := hold.two_le
    exact hold.congr (hw.block hxs hr hx hxr (j := 0) (by omega))
      (hw.block hxs hr hx hxr (j := 1) (by omega))

end PackedBut

namespace Packed

variable {h k : Heap}

/-- What an object holds behind its first two words does not say how long it is. -/
theorem update (hp : h.Packed) (hs : h.Sound) {r : Reference} (hr : h.Initialised r) {m : Memory}
    (hk : Sound { h with memory := m })
    (hword : ∀ i, ¬ (r.index + 2 ≤ i ∧ i < r.index + h.size r) → m.word i = h.memory.word i) :
    Packed { h with memory := m } := by
  apply PackedBut.congr hp hk.tiled rfl rfl
  intro xs hxs x hx _ hfilled
  obtain ⟨n, hblock, hle⟩ := hxs.block_of_initialised hs.toLayout hr
  have htwo := hfilled.two_le
  have hout (j : Nat) (hj : j < 2) :
      ¬ (r.index + 2 ≤ x.1.index + j ∧ x.1.index + j < r.index + h.size r) := by
    rcases hxs.tiles.separate hx hblock with rfl | hsep
    · dsimp only
      omega
    · dsimp only at hsep
      omega
  exact hfilled.congr (hword _ (hout 0 (by omega))) (hword _ (hout 1 (by omega)))

end Packed

theorem Collected.packed {h h' : Heap} {moves : List (Reference × Reference)} (hr : h.Regular)
    (hc : h.Collected moves h') : h'.Packed := by
  refine ⟨_, hc.tiled hr, ?_⟩
  intro x hx _
  obtain ⟨p, hp, rfl⟩ := List.mem_map.mp hx
  obtain ⟨k, hsymbol, -, hk⟩ := hr.kind_eq (hc.reachable hp).initialised
  exact ⟨k, hsymbol, (hc.mirrors.header_eq hr hp).trans hk, hc.mirrors.size_eq hr hp⟩

theorem Added.packedBut {h k : Heap} {r : Reference} {n : Nat} (ha : h.Added r n k) (hn : 0 < n)
    (hs : h.Sound) (hp : h.Packed) : k.PackedBut [r] := by
  obtain ⟨xs, hxs, hfilled⟩ := hp
  refine ⟨_, hxs.takeBlock hs hn ha.start ha.place ha.cursor ha.isSet ha.word, ?_⟩
  intro x hx hraw
  rcases List.mem_append.mp hx with hx | hx
  · have hold := hfilled x hx List.not_mem_nil
    have hbounds := hxs.bounds hs.toLayout hx
    have htwo := hold.two_le
    exact hold.congr (ha.word_below (by omega)) (ha.word_below (by omega))
  · rw [List.mem_singleton.mp hx] at hraw
    exact absurd (List.mem_singleton_self r) hraw

theorem Sound.packed_collect {h : Heap} (hs : h.Sound) :
    Ends h.collect (fun k => k.Sound ∧ k.Packed) fun _ => True := by
  apply hs.regular.collect.imp
  rintro k ⟨moves, hc⟩
  exact ⟨hc.sound hs, hc.packed hs.regular⟩

/-- The block that an allocation hands out is the only one that is no object. -/
theorem Sound.packed_alloc {h : Heap} (hs : h.Sound) (hp : h.Packed) (size : Nat) :
    Ends (h.alloc size) (fun x => ∃ r, x.1 = r.address ∧ x.2.PackedBut [r]) fun _ => True := by
  apply (alloc_added (P := fun s => s.Sound ∧ s.Packed) ⟨hs, hp⟩ (fun s hs => hs.1.toLayout)
    (fun s hs => hs.1.packed_collect) ?_ size).imp
  · rintro x ⟨s, r, n, ⟨hsound, hpacked⟩, hn, hr, ha, -⟩
    exact ⟨r, hr, ha.packedBut hn hsound hpacked⟩
  · rintro s n ⟨hsound, hpacked⟩
    exact ⟨(hsound.withCounters s.statistics n).sound, hpacked.withRecent n⟩

end Heap

end CopyingHeap
