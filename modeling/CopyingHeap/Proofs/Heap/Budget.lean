import CopyingHeap.Proofs.Heap.Balance

/-!
What a request costs. On the way to a block at most two collections and one growth are counted. Where the
block fits into the free bytes, these shrink by it and by nothing else. So a heap that has room for several
requests has, after one of them, room for the rest.
-/

namespace CopyingHeap

theorem Event.outstanding_le (n : Nat) (es : List Event) :
    Event.outstanding n es ≤ n + Event.handedOut es := by
  induction es with
  | nil => exact Nat.le_refl n
  | cons e es ih =>
    have hrest : Event.handedOut (e :: es) = e.bytes + Event.handedOut es := rfl
    rw [hrest]
    cases e with
    | handed size =>
      rw [Event.outstanding_handed, Event.bytes]
      omega
    | collected s t => exact Nat.zero_le _
    | grown =>
      rw [Event.outstanding, Event.bytes]
      omega

namespace Heap

/-- Every counter has room for more than `count` requests of `bytes` bytes each add to it. -/
structure AmpleFor (h : Heap) (count bytes : Nat) : Prop where
  recent : h.recent + count * bytes < Size.bound
  allocated : h.statistics.allocated + count * bytes < Size.bound
  growths : h.statistics.growths + count < Size.bound
  collections : h.statistics.collections + 2 * count < Size.bound
  roots : h.statistics.rootsTraced + count * 0x200000000 < Size.bound
  copies : ∀ c, h.statistics.objectsCopied.get c + count * 0x200000000 < Size.bound ∧
    h.statistics.bytesCopied.get c + count * 0x200000000 < Size.bound

theorem ampleFor_one {h : Heap} {bytes : Nat} : h.AmpleFor 1 bytes ↔ h.Ample bytes := by
  constructor
  · intro ha
    have hrecent := ha.recent
    have hallocated := ha.allocated
    rw [Nat.one_mul] at hrecent hallocated
    exact ⟨hrecent, hallocated, ha.growths, ha.collections, ha.roots, ha.copies⟩
  · intro ha
    have hrecent := ha.recent
    have hallocated := ha.allocated
    rw [← Nat.one_mul bytes] at hrecent hallocated
    exact ⟨hrecent, hallocated, ha.growths, ha.collections, ha.roots, ha.copies⟩

theorem AmpleFor.mono {h : Heap} {count more bytes : Nat} (ha : h.AmpleFor more bytes)
    (hle : count ≤ more) : h.AmpleFor count bytes := by
  have hbytes := Nat.mul_le_mul_right bytes hle
  have hcount := Nat.mul_le_mul_right 0x200000000 hle
  exact
    { recent := Nat.lt_of_le_of_lt (Nat.add_le_add_left hbytes _) ha.recent
      allocated := Nat.lt_of_le_of_lt (Nat.add_le_add_left hbytes _) ha.allocated
      growths := Nat.lt_of_le_of_lt (Nat.add_le_add_left hle _) ha.growths
      collections := by
        have hroom := ha.collections
        omega
      roots := Nat.lt_of_le_of_lt (Nat.add_le_add_left hcount _) ha.roots
      copies := fun c =>
        ⟨Nat.lt_of_le_of_lt (Nat.add_le_add_left hcount _) (ha.copies c).1,
          Nat.lt_of_le_of_lt (Nat.add_le_add_left hcount _) (ha.copies c).2⟩ }

/-- The counters of `k` are those of `h` after `n` collections, each of which counts no more roots,
objects and bytes than a whole memory has. -/
structure Collects (h : Heap) (n : Nat) (k : Heap) : Prop where
  allocated : k.statistics.allocated = h.statistics.allocated
  growths : k.statistics.growths = h.statistics.growths
  collections : k.statistics.collections = h.statistics.collections + n
  roots : k.statistics.rootsTraced ≤ h.statistics.rootsTraced + n * 0x100000000
  copies : ∀ c,
    k.statistics.objectsCopied.get c ≤ h.statistics.objectsCopied.get c + n * 0x100000000 ∧
      k.statistics.bytesCopied.get c ≤ h.statistics.bytesCopied.get c + n * 0x100000000

theorem Collects.refl (h : Heap) : h.Collects 0 h where
  allocated := rfl
  growths := rfl
  collections := rfl
  roots := by omega
  copies := fun _ => by omega

theorem Collects.collected {h k l : Heap} {n : Nat} (hn : h.Collects n k) (hk : k.Regular)
    {moves : List (Reference × Reference)} (hl : k.Collected moves l) : h.Collects (n + 1) l where
  allocated := by
    rw [hl.statistics]
    exact hn.allocated
  growths := by
    rw [hl.statistics]
    exact hn.growths
  collections := by
    rw [hl.statistics]
    exact congrArg (· + 1) hn.collections
  roots := by
    have hroots := hn.roots
    have hcount := k.rootCount_le
    have hbase := k.stack.base.toNat_lt
    rw [hl.statistics]
    dsimp only
    omega
  copies := by
    intro c
    have hcopies := hn.copies c
    have hle := hk.copies_le hl.nodup (fun r hr => (hl.mem_iff r).mp hr) c
    have hcounts := hl.counts c
    omega

/-- What a request for `bytes` bytes takes of the counters and of the free bytes. -/
structure Spends (h : Heap) (bytes : Nat) (k : Heap) : Prop where
  recent : k.recent ≤ h.recent + bytes
  allocated : k.statistics.allocated = h.statistics.allocated + bytes
  growths : k.statistics.growths ≤ h.statistics.growths + 1
  collections : k.statistics.collections ≤ h.statistics.collections + 2
  roots : k.statistics.rootsTraced ≤ h.statistics.rootsTraced + 0x200000000
  copies : ∀ c,
    k.statistics.objectsCopied.get c ≤ h.statistics.objectsCopied.get c + 0x200000000 ∧
      k.statistics.bytesCopied.get c ≤ h.statistics.bytesCopied.get c + 0x200000000
  room : ∀ more, h.HasRoom (bytes + more) → k.HasRoom more

/-- After one request the counters have room for the rest. -/
theorem Spends.ampleFor {h k : Heap} {count bytes : Nat} (hs : h.Spends bytes k)
    (ha : h.AmpleFor (count + 1) bytes) : k.AmpleFor count bytes where
  recent := by
    have hspent := hs.recent
    have hroom := ha.recent
    rw [Nat.succ_mul] at hroom
    omega
  allocated := by
    have hroom := ha.allocated
    rw [Nat.succ_mul] at hroom
    rw [hs.allocated]
    omega
  growths := by
    have hspent := hs.growths
    have hroom := ha.growths
    omega
  collections := by
    have hspent := hs.collections
    have hroom := ha.collections
    omega
  roots := by
    have hspent := hs.roots
    have hroom := ha.roots
    omega
  copies := by
    intro c
    have hspent := hs.copies c
    have hroom := ha.copies c
    omega

theorem Spends.hasRoom {h k : Heap} {count bytes : Nat} (hs : h.Spends bytes k)
    (hroom : h.HasRoom ((count + 1) * bytes)) : k.HasRoom (count * bytes) := by
  rw [Nat.succ_mul, Nat.add_comm] at hroom
  exact hs.room _ hroom

/-- A block that is taken from the free bytes leaves the others. -/
theorem Layout.hasRoom_of_alloc {h k : Heap} (hl : h.Layout) {size more : Nat} {a : Address}
    (hsize : size < 0x100000000) (hroom : h.HasRoom (Size.objectBytes size + more))
    (hk : h.alloc size = .ok (a, k)) : k.HasRoom more := by
  obtain ⟨bump, hb, htake⟩ := (hl.alloc_charged hsize (hroom.mono (Nat.le_add_right _ _))).of_ok hk
  have hhands := hands_of_takeBlock (h := { h with recent := h.recent + Size.objectBytes size }) hb htake
  have hoptions := options_of_takeBlock htake
  obtain ⟨free, hfree, hle⟩ := hroom.fits
  have hlimit : h.bump.limit.toNat = h.bump.cursor.toNat + free := Address.diff_eq_ok_iff.mp hfree
  have hcursor := hhands.cursor
  refine ⟨⟨free - Size.objectBytes size, ?_, by omega⟩, ?_⟩
  · rw [Heap.free, Bump.remaining, Address.diff_eq_ok_iff, hhands.limit]
    dsimp only at hcursor ⊢
    omega
  · rw [hoptions, hhands.recent, Nat.add_assoc]
    exact hroom.calm

/-- An allocation spends what it has asked for. -/
theorem Collects.spends {h s k : Heap} {r : Reference} {n l size : Nat} {a : Address} (hl : h.Layout)
    (hn : h.Collects n s) (hle : n ≤ 2) (hs : s.Supplied r l k) (hsize : size < 0x100000000)
    (hbytes : 4 * l = Size.objectBytes size) (hk : h.alloc size = .ok (a, k)) :
    h.Spends (Size.objectBytes size) k := by
  obtain ⟨growths, hg, hstatistics⟩ := hs.statistics
  have hroots := hn.roots
  have hrecent : k.recent ≤ h.recent + Size.objectBytes size := by
    obtain ⟨es, -, hnone, hcharged⟩ := (h.serves_alloc size).of_ok hk
    have hout := Event.outstanding_le h.recent es
    dsimp only at hcharged
    rw [hcharged, Event.outstanding_handed]
    omega
  rw [← hbytes] at hrecent ⊢
  refine
    { recent := hrecent
      allocated := ?_
      growths := ?_
      collections := ?_
      roots := ?_
      copies := ?_
      room := ?_ }
  · rw [hstatistics, hn.allocated]
  · rw [hstatistics, hn.growths]
    exact Nat.add_le_add_left hg _
  · rw [hstatistics, hn.collections]
    exact Nat.add_le_add_left hle _
  · rw [hstatistics]
    dsimp only
    omega
  · intro c
    have hcopies := hn.copies c
    rw [hstatistics]
    dsimp only
    omega
  · intro more hroom
    rw [hbytes] at hroom
    exact hl.hasRoom_of_alloc hsize hroom hk

/-- How an operation may end that needs `depth` words of the stack and makes `count` requests of `bytes`
bytes each: for want of memory, or since a counter overflows, and not if there was room for all of it. -/
structure RunsOut (h : Heap) (depth count bytes : Nat) (e : Fault) : Prop where
  cause : (∃ cause, e = .outOfMemory cause) ∨ e = .overflow ∧ ¬ h.AmpleFor count bytes
  short : ¬ (h.stack.limit.toNat + 4 * depth ≤ h.stack.sp.toNat ∧ h.HasRoom (count * bytes) ∧
    h.AmpleFor count bytes)

/-- What is too much for a part is too much for the whole. -/
theorem RunsOut.mono {h : Heap} {depth deeper count more bytes : Nat} {e : Fault}
    (he : h.RunsOut depth count bytes e) (hdepth : depth ≤ deeper) (hcount : count ≤ more) :
    h.RunsOut deeper more bytes e where
  cause := he.cause.imp_right (And.imp_right (mt fun ha => ha.mono hcount))
  short := fun ⟨hstack, hroom, hample⟩ =>
    he.short ⟨by omega, hroom.mono (Nat.mul_le_mul_right bytes hcount), hample.mono hcount⟩

/-- What is too much after one request is too much with it. -/
theorem Spends.runsOut {h k : Heap} {depth count bytes : Nat} {e : Fault} (hs : h.Spends bytes k)
    (hstack : k.stack = h.stack) (he : k.RunsOut depth count bytes e) :
    h.RunsOut depth (count + 1) bytes e where
  cause := he.cause.imp_right (And.imp_right (mt hs.ampleFor))
  short := fun ⟨hdepth, hroom, hample⟩ =>
    he.short ⟨hstack ▸ hdepth, hs.hasRoom hroom, hs.ampleFor hample⟩

theorem runsOut_looped {depth count bytes : Nat} (hdepth : depth ≤ 13) (hcount : count ≤ 0x10000)
    (hbytes : count * bytes ≤ 52) (e : Fault) : ¬ looped.RunsOut depth count bytes e := by
  have hbound : Size.bound = 0x10000000000000000 := rfl
  have hample : looped.AmpleFor count bytes :=
    { recent := by
        have hrecent : looped.recent = 12 := rfl
        omega
      allocated := by
        have hallocated : looped.statistics.allocated = 0 := rfl
        omega
      growths := by
        have hgrowths : looped.statistics.growths = 0 := rfl
        omega
      collections := by
        have hcollections : looped.statistics.collections = 0 := rfl
        omega
      roots := by
        have hroots : looped.statistics.rootsTraced = 0 := rfl
        omega
      copies := by
        intro c
        have hcopies : looped.statistics.objectsCopied.get c = 0 ∧
            looped.statistics.bytesCopied.get c = 0 := by
          cases c <;> decide
        omega }
  intro he
  refine he.short ⟨?_, hasRoom_looped hbytes, hample⟩
  have hstack : looped.stack.limit.toNat = 8 ∧ looped.stack.sp.toNat = 60 := by decide
  omega

end Heap

end CopyingHeap
