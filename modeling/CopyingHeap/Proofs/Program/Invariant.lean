import CopyingHeap.Proofs.Program.Session

/-!
The heaps that a program can reach. Whatever operations it performs on values that it may know, the
spaces stay in place, the start bits are those of the blocks that were handed out or evacuated, and
every object in them is whole. No object may lie at null, or writing to its elements writes anywhere.
-/

namespace CopyingHeap

namespace Heap

/-- What operations make of the heap `start`. Their arguments are immediates, null, symbols and
objects. -/
inductive Reached (start : Heap) : Heap → Prop where
  | start : Reached start start
  | step {h k : Heap} {op : Operation Value} {v : Option Value} :
      Reached start h → (∀ a ∈ op.operands, h.Knows a) → h.perform .ok op = .ok (v, k) →
      Reached start k

namespace Reached

variable {options : Options} {m : Memory} {stackBase heapBase : Address} {bytes : Nat}
  {start h : Heap}

theorem sound (hs : start.Sound) (hr : start.Reached h) : h.Sound ∧ start.Keeps h := by
  induction hr with
  | start => exact ⟨hs, Keeps.refl start⟩
  | step _ hop hk ih =>
    obtain ⟨hsound, hkeep⟩ := (ih.1.perform hop).of_ok hk
    exact ⟨hsound, ih.2.trans hkeep⟩

/-- A session that refers to no object by its address comes to such heaps only. -/
theorem of_run (hs : start.Sound) {ops : List (Operation Operand)}
    (hops : ∀ op ∈ ops, ∀ a ∈ op.operands, start.Names a) {t : Session}
    (hrun : (Session.run ⟨start, []⟩ ops).2 = .ok t) : start.Reached t.heap :=
  (Session.matches_self hs).holds_of_run hops (fun _ _ _ _ hr hknown _ hk => hr.step hknown hk)
    .start hrun

/-- The invariant of whole programs, on memory without a header at null. -/
theorem invariant (hm : m.Paged) (hb : build options m stackBase heapBase bytes = .ok start)
    (hraw : Kind.ofHeader? (m.word Reference.null.index) = none) (hr : start.Reached h) :
    h.Sound ∧ h.spaces.base = heapBase ∧ h.stack.base = stackBase ∧
      ∃ xs, Ledger start [] h xs ∧ h.Tiled xs ∧ h.Blocked (xs.map blockAt) := by
  have hbuilt := built_of_build hm hb
  obtain ⟨hs, hkeep⟩ := hr.sound (hbuilt.sound hraw)
  obtain ⟨limit, -, hstack, -⟩ := hbuilt.stack
  obtain ⟨xs, hxs, hledger⟩ := hkeep.blocks [] hbuilt.tiled
  refine ⟨hs, hkeep.spaces.trans hbuilt.base, hkeep.stack.trans (by rw [hstack]), xs, hledger, hxs,
    hxs.blocked hs.toLayout fun r hi j hj => hs.allows (hs.slots r hi j hj)⟩

/-- A raw block is lost in a collection, the spaces are grown, and another raw block lies behind the objects
in the end. -/
theorem invariant_blank : ∃ start s,
    build { Options.defaults with minGrowthBytes := 0 } blank (.ofNat 64) (.ofNat 64) 64 =
        .ok start ∧
      Session.run ⟨start, []⟩ (.alloc 12 :: Session.sample ++ [.alloc 12]) = (11, .ok s) ∧
      s.heap.statistics.collections = 3 ∧ s.heap.statistics.growths = 1 ∧
      s.heap.objects = .ok [.ofIndex 32, .ofIndex 37, .ofIndex 40, .ofIndex 42, .ofIndex 45] ∧
      s.heap.memory.kind? (.ofIndex 45) = .ok none ∧ start.Reached s.heap ∧
      s.heap.Sound ∧ s.heap.spaces.base = .ofNat 64 ∧ s.heap.stack.base = .ofNat 64 ∧
      ∃ xs, Ledger start [] s.heap xs ∧ s.heap.Tiled xs ∧ s.heap.Blocked (xs.map blockAt) := by
  obtain ⟨start, s, hb, hrun, hcollections, hgrowths, hobjects, hraw⟩ : ∃ start s,
      build { Options.defaults with minGrowthBytes := 0 } blank (.ofNat 64) (.ofNat 64) 64 =
          .ok start ∧
        Session.run ⟨start, []⟩ (.alloc 12 :: Session.sample ++ [.alloc 12]) = (11, .ok s) ∧
        s.heap.statistics.collections = 3 ∧ s.heap.statistics.growths = 1 ∧
        s.heap.objects = .ok [.ofIndex 32, .ofIndex 37, .ofIndex 40, .ofIndex 42, .ofIndex 45] ∧
        s.heap.memory.kind? (.ofIndex 45) = .ok none :=
    Session.exists_run (by decide +kernel)
  have hops : ∀ op ∈ (.alloc 12 :: Session.sample ++ [.alloc 12] : List (Operation Operand)),
      ∀ a ∈ op.operands, start.Names a := by
    simp [Session.sample, Operation.operands, Names]
  have hs : start.Sound := (built_of_build paged_blank hb).sound raw_blank
  have hr : start.Reached s.heap := of_run hs hops (by rw [hrun])
  exact ⟨start, s, hb, hrun, hcollections, hgrowths, hobjects, hraw, hr,
    invariant paged_blank hb raw_blank hr⟩

/-- A float is made at 64, where element 14 of an array at null would be, and that element is set. -/
theorem forged_headed : ∃ start k l v w,
    build .defaults headed (.ofNat 64) (.ofNat 64) 64 = .ok start ∧
      start.perform .ok (.newFloat 7 : Operation Value) = .ok (v, k) ∧
      k.perform .ok (.arraySet .null 14 (.bool false)) = .ok (w, l) ∧
      (∀ a ∈ (.arraySet .null 14 (.bool false) : Operation Value).operands, k.Knows a) ∧
      l.spaces.active.start = .ofNat 64 ∧ l.bump.cursor = .ofNat 72 ∧
      l.spaces.bits.isSet (.ofNat 64) = true ∧ l.Initialised (.ofIndex 16) ∧
      l.memory.kind (.ofIndex 16) = .ok .symbol ∧ l.memory.objectSize (.ofIndex 16) = .ok 16 := by
  have hrun : (build .defaults headed (.ofNat 64) (.ofNat 64) 64 >>= fun start =>
      start.perform .ok (.newFloat 7 : Operation Value) >>= fun x =>
        x.2.perform .ok (.arraySet .null 14 (.bool false)) >>= fun y =>
          .ok (decide (y.2.spaces.active.start = .ofNat 64 ∧ y.2.bump.cursor = .ofNat 72 ∧
            y.2.spaces.bits.isSet (.ofNat 64) = true ∧ y.2.Initialised (.ofIndex 16) ∧
            y.2.memory.kind (.ofIndex 16) = .ok .symbol ∧
            y.2.memory.objectSize (.ofIndex 16) = .ok 16))) = .ok true := by
    decide +kernel
  obtain ⟨start, hb, hrun⟩ := bind_eq_ok_iff.mp hrun
  obtain ⟨⟨v, k⟩, hk, hrun⟩ := bind_eq_ok_iff.mp hrun
  obtain ⟨⟨w, l⟩, hl, hrun⟩ := bind_eq_ok_iff.mp hrun
  refine ⟨start, k, l, v, w, hb, hk, hl, ?_, of_decide_eq_true (Except.ok.inj hrun)⟩
  exact List.forall_mem_cons.mpr ⟨knows_null k, List.forall_mem_singleton.mpr fun _ hr => nomatch hr⟩

/-- With a header at null, an object of the active space can become a symbol, and then no blocks fill the
space as they should. -/
theorem not_tiled_headed : headed.Paged ∧ ∃ start k l v w,
    build .defaults headed (.ofNat 64) (.ofNat 64) 64 = .ok start ∧
      start.perform .ok (.newFloat 7 : Operation Value) = .ok (v, k) ∧
      k.perform .ok (.arraySet .null 14 (.bool false)) = .ok (w, l) ∧ start.Reached l ∧
      l.Initialised (.ofIndex 16) ∧ l.memory.kind (.ofIndex 16) = .ok .symbol ∧
      ∀ xs, ¬ l.Tiled xs := by
  obtain ⟨start, k, l, v, w, hb, hk, hl, hnull, -, -, hset, hinit, hkind, -⟩ := forged_headed
  have hnone : ∀ a ∈ (.newFloat 7 : Operation Value).operands, start.Knows a := fun _ ha => nomatch ha
  have hreached : start.Reached l := .step (.step .start hnone hk) hnull hl
  refine ⟨paged_headed, start, k, l, v, w, hb, hk, hl, hreached, hinit, hkind, fun xs hxs => ?_⟩
  obtain ⟨x, hx, haddress⟩ := (hxs.starts _).mp hset
  have hx₁ : x.1 = .ofIndex 16 := Reference.ext_address haddress
  have hheader : l.memory.word x.1.index = Kind.symbol.header := by
    rw [hx₁]
    exact (Memory.kind_eq_ok_word hkind).2
  rcases hxs.filled x hx with ⟨hraw, -⟩ | ⟨c, hc, hheader', -⟩
  · rw [hheader, Kind.ofHeader?_header] at hraw
    nomatch hraw
  · rw [hheader] at hheader'
    exact hc (Kind.header_inj.mp hheader').symm

end Reached

end Heap

end CopyingHeap
