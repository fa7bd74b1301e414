import CopyingHeap.Proofs.Heap.Balance
import CopyingHeap.Proofs.Heap.Start
import CopyingHeap.Proofs.Program.Session

/-!
The accounts between two operations. The counters agree with the cursor and with the history of the heap,
for any program, even one that refers to objects that it does not know.
-/

namespace CopyingHeap

namespace Heap

theorem Upheld.perform {α : Type} {P : Heap → Prop} (hP : Upheld P) {k : Heap} (hk : P k)
    (read : α → Except Fault Value) (op : Operation α) :
    Ends (k.perform read op) (fun x => P x.2) fun _ => True := by
  cases op with
  | push v =>
    apply Ends.bind_forall
    intro v
    exact (hP.pushRoot hk v).bind fun _ hx => hx
  | pop =>
    exact (hP.popRoot hk).bind fun _ hx => hx
  | setRoot slot v =>
    apply Ends.bind_forall
    intro v
    exact (hP.setRoot hk slot v).bind fun _ hx => hx
  | enterFrame => exact hk
  | leaveFrame mark =>
    exact (hP.leaveFrame hk mark).bind fun _ hx => hx
  | alloc size =>
    exact (hP.alloc hk size).bind fun _ hx => hx
  | newArray vs =>
    apply Ends.bind_forall
    intro vs
    exact (hP.newArray hk vs).bind fun _ hx => hx
  | newFilledArray size v =>
    apply Ends.bind_forall
    intro v
    exact (hP.newFilledArray hk size v).bind fun _ hx => hx
  | copyArray v =>
    apply Ends.bind_forall
    intro v
    apply Ends.bind_forall
    intro r
    exact (hP.copyArray hk r).bind fun _ hx => hx
  | arraySet v i w =>
    apply Ends.bind_forall
    intro v
    apply Ends.bind_forall
    intro r
    apply Ends.bind_forall
    intro w
    exact (hP.changeMemory hk _).bind fun _ hx => hx
  | newString bs =>
    exact (hP.newString hk bs).bind fun _ hx => hx
  | copyString v =>
    apply Ends.bind_forall
    intro v
    apply Ends.bind_forall
    intro r
    exact (hP.copyString hk r).bind fun _ hx => hx
  | newInteger n =>
    exact (hP.newInteger hk n).bind fun _ hx => hx
  | newFloat bits =>
    exact (hP.newScalar hk .float bits).bind fun _ hx => hx
  | newChar c =>
    exact (hP.newScalar hk .char c.val).bind fun _ hx => hx
  | newListNode v w =>
    apply Ends.bind_forall
    intro v
    apply Ends.bind_forall
    intro w
    exact (hP.newListNode hk v w).bind fun _ hx => hx
  | newList vs =>
    apply Ends.bind_forall
    intro vs
    exact (hP.newList hk vs).bind fun _ hx => hx
  | collect =>
    exact (hP.collect hk).bind fun _ hx => hx

/-- The heaps that a program can reach by operations that do not fail, whatever their arguments are. -/
inductive Ran (start : Heap) : Heap → Prop where
  | start : Ran start start
  | step {h k : Heap} {op : Operation Value} {v : Option Value} :
      Ran start h → h.perform .ok op = .ok (v, k) → Ran start k

/-- Every session comes to such heaps only. -/
theorem Ran.of_run {start : Heap} {s t : Session} (hr : start.Ran s.heap)
    {ops : List (Operation Operand)} (hrun : (s.run ops).2 = .ok t) : start.Ran t.heap := by
  induction ops generalizing s with
  | nil =>
    cases hrun
    exact hr
  | cons op ops ih =>
    obtain ⟨u, hu, hrun⟩ := Session.run_cons_eq_ok hrun
    obtain ⟨op', v, -, hk⟩ := Session.exists_step hu
    exact ih (hr.step hk) hrun

theorem Ran.balances {start h : Heap} (hr : start.Ran h) : start.Balances h := by
  induction hr with
  | start => exact .refl start
  | step _ hk ih => exact ((upheld_balances start).perform ih .ok _).of_ok hk

/-- The accounts of a heap with the history `es`, from its start on. -/
structure Accounts (h : Heap) (es : List Event) : Prop where
  capacity : h.capacity = h.spaces.active.extent ∧ h.capacity = h.spaces.scratch.extent
  used_free : ∃ used free, h.used = .ok used ∧ h.free = .ok free ∧ used + free = h.capacity
  used : h.used = .ok (h.statistics.liveBytes + h.recent)
  recent : h.recent = Event.sinceCollection es
  allocated : h.statistics.allocated = Event.handedOut es
  collections : h.statistics.collections = es.countP Event.isCollection
  copied : ∀ s t n, .collected s t ∈ es → t.bytesCopied.total = .ok n →
    ∃ m, s.bytesCopied.total = .ok m ∧ n = m + t.liveBytes

theorem Unused.accounts_of_history {options : Options} {bytes : Nat} {start h : Heap}
    {es : List Event} (hs : start.Unused options bytes) (hes : start.History es h)
    (hrecent : h.recent = Event.outstanding start.recent es) :
    h.Accounts es := by
  have hspanned := hes.spanned hs.spanned
  have hbegin : start.bump.cursor.toNat =
      start.spaces.active.start.toNat + start.statistics.liveBytes + start.recent := by
    rw [hs.cursor, hs.statistics, hs.recent]
    rfl
  have hcursor := hes.cursor_eq hs.spanned hbegin
  rw [← hrecent] at hcursor
  have hused : h.used = .ok (h.statistics.liveBytes + h.recent) := by
    rw [Heap.used, Address.diff_eq_ok_iff]
    omega
  have hstart := Address.le_iff.mp hspanned.start_le
  have hle := Address.le_iff.mp hspanned.cursor_le
  have hlimit := hspanned.limit
  refine
    { capacity := ⟨rfl, hspanned.extent_eq.symm⟩
      used_free := ?_
      used := hused
      recent := ?_
      allocated := ?_
      collections := ?_
      copied := ?_ }
  · have hfree : h.free = .ok (h.bump.limit.toNat - h.bump.cursor.toNat) := by
      rw [Heap.free, Bump.remaining, Address.diff_eq_ok_iff]
      omega
    refine ⟨_, _, hused, hfree, ?_⟩
    unfold Heap.capacity
    omega
  · rw [hrecent, hs.recent, Event.outstanding_zero]
  · rw [hes.allocated_eq hs.spanned, hs.statistics]
    exact Nat.zero_add _
  · rw [hes.collections_eq hs.spanned, hs.statistics]
    exact Nat.zero_add _
  · intro s t n hmem ht
    obtain ⟨rfl, hlt⟩ := Tally.total_eq_ok_iff.mp ht
    have hgrown := hes.copied_eq hmem
    exact ⟨_, Tally.total_eq_ok_iff.mpr ⟨rfl, by omega⟩, hgrown⟩

/-- What one operation does to the accounts: the capacity changes only if a growth is counted, and
an allocation hands out the rounded size of its request, once. -/
structure Entry (h : Heap) (op : Operation Value) (k : Heap) : Prop where
  capacity_le : h.capacity ≤ k.capacity
  growths : k.capacity ≠ h.capacity → h.statistics.growths < k.statistics.growths
  allocated : ∀ size, op = .alloc size →
    k.statistics.allocated = h.statistics.allocated + Size.objectBytes size

theorem Spanned.entry {h : Heap} (hs : h.Spanned) (op : Operation Value) :
    Ends (h.perform .ok op) (fun x => h.Entry op x.2) fun _ => True := by
  apply ((upheld_balances h).perform (Balances.refl h) .ok op).with_eq.imp
  rintro ⟨v, k⟩ ⟨⟨es, hes, -⟩, hk⟩
  obtain ⟨hcapacity, hgrowths, hsame⟩ := hes.capacity_eq hs
  refine ⟨hcapacity, fun hne => ?_, ?_⟩
  · exact Nat.lt_of_le_of_ne hgrowths fun heq => hne (hsame heq.symm)
  · rintro size rfl
    obtain ⟨x, halloc, hx⟩ := bind_eq_ok_iff.mp hk
    cases hx
    obtain ⟨fs, hfs, hnone, -⟩ := (h.serves_alloc size).of_ok halloc
    rw [hfs.allocated_eq hs]
    have hsum : Event.handedOut (.handed size :: fs) = Size.objectBytes size + Event.handedOut fs :=
      rfl
    rw [hsum, hnone, Nat.add_zero]

/-- The accounts are right between any two operations, and each operation makes a right entry in them. -/
theorem Ran.accounts {options : Options} {m : Memory} {stackBase heapBase : Address} {bytes : Nat}
    {start h : Heap} (hb : build options m stackBase heapBase bytes = .ok start)
    (hr : start.Ran h) :
    (∃ es, start.History es h ∧ h.Accounts es) ∧
      ∀ op v k, h.perform .ok op = .ok (v, k) → h.Entry op k := by
  have hs := (unused_build options m stackBase heapBase bytes).of_ok hb
  obtain ⟨es, hes, hrecent⟩ := hr.balances
  refine ⟨⟨es, hes, hs.accounts_of_history hes hrecent⟩, ?_⟩
  intro op v k hk
  exact ((hes.spanned hs.spanned).entry op).of_ok hk

/-- The first collection copies the 32 bytes of three objects, and the second one the 52 bytes of four. -/
theorem Ran.accounts_blank : ∃ start s,
    build { Options.defaults with minGrowthBytes := 0 } blank (.ofNat 64) (.ofNat 64) 64 =
        .ok start ∧
      Session.run ⟨start, []⟩ Session.sample = (9, .ok s) ∧
      s.heap.statistics.collections = 2 ∧ s.heap.statistics.growths = 1 ∧
      s.heap.statistics.liveBytes = 52 ∧ s.heap.statistics.bytesCopied.total = .ok 84 ∧
      start.Ran s.heap ∧ (∃ es, start.History es s.heap ∧ s.heap.Accounts es) ∧
      ∀ op v k, s.heap.perform .ok op = .ok (v, k) → s.heap.Entry op k := by
  obtain ⟨start, s, hb, hrun, hcollections, hgrowths, hlive, hcopied, -⟩ := Session.run_sample_grown
  have hr : start.Ran s.heap := Ran.of_run (s := ⟨start, []⟩) .start (by rw [hrun])
  exact ⟨start, s, hb, hrun, hcollections, hgrowths, hlive, hcopied, hr, Ran.accounts hb hr⟩

end Heap

end CopyingHeap
