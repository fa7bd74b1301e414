import CopyingHeap.Proofs.Collection.Result
import CopyingHeap.Proofs.Collection.Tracing

/-!
What a collection adds to the counters, whatever lies in memory. A copy moves the cursor by the bytes that
it counts, and nothing else moves it. So the bytes copied are those that the collection reports as live,
even of a heap whose objects are damaged.
-/

namespace CopyingHeap

namespace Tally

/-- The sum of the counters, without a bound. -/
def sum (t : Tally) : Nat :=
  (Kind.all.map t.get).sum

theorem foldlM_add {ks : List Kind} {f : Kind → Nat} {a n : Nat} (ha : a < Size.bound) :
    ks.foldlM (fun sum k => Size.add sum (f k)) a = .ok n ↔
      n = a + (ks.map f).sum ∧ n < Size.bound := by
  induction ks generalizing a with
  | nil =>
    rw [List.foldlM_nil, List.map_nil, List.sum_nil]
    change Except.ok a = Except.ok n ↔ _
    rw [Except.ok.injEq]
    omega
  | cons k ks ih =>
    rw [List.foldlM_cons, List.map_cons, List.sum_cons, bind_eq_ok_iff]
    constructor
    · rintro ⟨b, hb, hn⟩
      obtain ⟨hlt, rfl⟩ := Size.add_eq_ok_iff.mp hb
      have hrest := (ih hlt).mp hn
      omega
    · rintro ⟨hn, hlt⟩
      have hfirst : a + f k < Size.bound := by omega
      exact ⟨a + f k, Size.add_eq_ok hfirst, (ih hfirst).mpr (by omega)⟩

theorem total_eq_ok_iff {t : Tally} {n : Nat} : t.total = .ok n ↔ n = t.sum ∧ n < Size.bound := by
  unfold total sum
  rw [foldlM_add (by decide), Nat.zero_add]

theorem sum_of_get {t u : Tally} {k : Kind} {n : Nat}
    (hu : ∀ l, u.get l = t.get l + if l = k then n else 0) : u.sum = t.sum + n := by
  unfold sum Kind.all
  simp only [List.map_cons, List.map_nil, List.sum_cons, List.sum_nil, hu]
  cases k <;> simp <;> omega

end Tally

namespace Evacuation

/-- Since the state with the counters `s` and the cursor `start`, the cursor has moved by the bytes that
have been counted, and no other counter has changed. -/
structure Counted (start : Address) (s : Statistics) (e : Evacuation) : Prop where
  start_le : start ≤ e.bump.cursor
  bytes : e.statistics.bytesCopied.sum + start.toNat = s.bytesCopied.sum + e.bump.cursor.toNat
  statistics : e.statistics = { s with
    objectsCopied := e.statistics.objectsCopied, bytesCopied := e.statistics.bytesCopied }

variable {source : Space} {start : Address} {s : Statistics} {e : Evacuation}

theorem reserve_spec (bump : Bump) (bytes : Nat) :
    Ends (reserve bump bytes) (fun x => x.2.cursor.toNat = bump.cursor.toNat + bytes)
      fun _ => True := by
  cases hreserve : reserve bump bytes with
  | error f => trivial
  | ok x => exact (Bump.alloc_eq_some_iff.mp (reserve_eq_ok_iff.mp hreserve)).2.2.1

namespace Counted

theorem copyWhole (he : e.Counted start s) (m : Memory) (r : Reference) (k : Kind) (bytes : Nat) :
    Ends (e.copyWhole m r k bytes) (fun x => x.2.1.Counted start s) fun _ => True := by
  obtain ⟨bump, bits, statistics⟩ := e
  apply (reserve_spec bump bytes).bind
  rintro ⟨a, bump'⟩ hcursor
  apply Ends.bind_forall
  intro m
  apply Ends.bind_forall
  intro target
  apply Ends.bind_forall
  intro m
  apply Ends.bind_forall
  intro bits
  apply Ends.bind (P := fun t => statistics.Copied t k bytes)
  · exact (Statistics.recordCopy_spec statistics k bytes).imp fun _ ht => ht
  · intro t ht
    have hstart := Address.le_iff.mp he.start_le
    have hbytes := he.bytes
    have hsum := Tally.sum_of_get fun l => (ht.1 l).2
    have hrest := he.statistics
    dsimp only at hcursor hbytes hstart hrest
    refine { start_le := ?_, bytes := ?_, statistics := ?_ }
    · rw [Address.le_iff]
      dsimp only
      omega
    · dsimp only
      omega
    · dsimp only
      rw [ht.2, hrest]

theorem keeps : (trace source).Keeps fun e _ => e.Counted start s :=
  keeps_of_copyWhole (fun _ m r k bytes he => copyWhole he m r k bytes) fun _ he => he

end Counted

end Evacuation

namespace Heap

/-- What a collection of `h` leaves in the accounts of `k`: the spaces have changed places, the bytes in
use are those reported as live, and that many have been counted as copied. -/
structure Settles (h k : Heap) : Prop where
  active_start : k.spaces.active.start = h.spaces.scratch.start
  active_extent : k.spaces.active.extent = h.spaces.scratch.extent
  scratch_start : k.spaces.scratch.start = h.spaces.active.start
  scratch_extent : k.spaces.scratch.extent = h.spaces.active.extent
  options : k.options = h.options
  recent : k.recent = 0
  allocated : k.statistics.allocated = h.statistics.allocated
  growths : k.statistics.growths = h.statistics.growths
  collections : k.statistics.collections = h.statistics.collections + 1
  cursor : k.bump.cursor.toNat = k.spaces.active.start.toNat + k.statistics.liveBytes
  limit : k.spaces.active.stop = .ok k.bump.limit
  cursor_le : k.bump.cursor ≤ k.bump.limit
  copied : k.statistics.bytesCopied.sum = h.statistics.bytesCopied.sum + k.statistics.liveBytes

theorem collect_settles (h : Heap) : Ends h.collect h.Settles fun _ => True := by
  rw [collect_eq]
  apply Ends.bind_forall
  intro stop
  apply Ends.bind_eq
  intro bump hspanning
  obtain ⟨-, rfl⟩ := Bump.spanning_eq_ok_iff.mp hspanning
  have hnothing : Evacuation.Counted h.spaces.scratch.start h.statistics
      ⟨⟨h.spaces.scratch.start, stop⟩, h.spaces.bits, h.statistics⟩ :=
    ⟨Address.le_iff.mpr (Nat.le_refl _), rfl, rfl⟩
  apply (Evacuation.traceRoots_keeps Evacuation.Counted.keeps hnothing _ _ _).bind
  rintro ⟨found, e, m⟩ he
  apply (Evacuation.close_keeps Evacuation.Counted.keeps he _).bind
  rintro ⟨e, m⟩ he
  apply (Space.release_spec h.source m e.bits _).bind
  rintro ⟨space, m, bits⟩ ⟨hspace, -⟩
  apply Ends.bind_eq
  intro liveBytes hlive
  apply Ends.bind ((Statistics.recordCollection_spec _ _ _).imp fun _ ht => ht.1)
  intro statistics hstatistics
  apply Ends.bind_eq
  intro limit hlimit
  apply Ends.bind_eq
  intro bump hbump
  obtain ⟨hle, rfl⟩ := Bump.spanning_eq_ok_iff.mp hbump
  dsimp only at he hspace hlive hstatistics hlimit hle
  rw [Address.diff_eq_ok_iff] at hlive
  have hbytes := he.bytes
  have hallocated := congrArg Statistics.allocated he.statistics
  have hgrowths := congrArg Statistics.growths he.statistics
  have hcollections := congrArg Statistics.collections he.statistics
  subst hspace hstatistics
  exact
    { active_start := rfl
      active_extent := rfl
      scratch_start := rfl
      scratch_extent := rfl
      options := rfl
      recent := rfl
      allocated := hallocated
      growths := hgrowths
      collections := congrArg (· + 1) hcollections
      cursor := hlive
      limit := hlimit
      cursor_le := hle
      copied := by dsimp only; omega }

end Heap

end CopyingHeap
