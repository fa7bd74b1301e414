import CopyingHeap.Proofs.Program.Session

/-!
Runs of a program. When and how often the heap is collected or grown, and where it lies, makes no
difference to a program: from heaps with one static segment and one stack it goes through the same
steps, and ends with the same object graph or at the same fault. This needs a null that is no object.
-/

namespace CopyingHeap

namespace Session

variable {s s' : Session}

/-- Whole runs go through the same steps and end alike, unless one is out of memory. -/
theorem Matches.run (hs : s.Matches s') {ops : List (Operation Operand)}
    (hops : ∀ op ∈ ops, ∀ a ∈ op.operands, s.heap.Names a)
    (hfault : ∀ f, (s.run ops).2 = .error f → ¬ f.Exhausted)
    (hfault' : ∀ f, (s'.run ops).2 = .error f → ¬ f.Exhausted) :
    (s'.run ops).1 = (s.run ops).1 ∧ Alike Matches (s.run ops).2 (s'.run ops).2 := by
  induction ops generalizing s s' with
  | nil => exact ⟨rfl, hs⟩
  | cons op ops ih =>
    obtain ⟨p, ht, hv⟩ := hs
    have hstep := step_alike ht hv (hops op List.mem_cons_self)
    unfold Session.run at hfault hfault' ⊢
    cases hx : s.step op with
    | error f =>
      rw [hx] at hstep hfault
      cases hx' : s'.step op with
      | error f' =>
        rw [hx'] at hstep
        exact ⟨rfl, hstep⟩
      | ok t' =>
        -- One session alone stops, so it is out of memory.
        rw [hx'] at hstep
        exact absurd hstep (hfault f rfl)
    | ok t =>
      rw [hx] at hstep hfault
      cases hx' : s'.step op with
      | error f' =>
        rw [hx'] at hstep hfault'
        exact absurd hstep (hfault' f' rfl)
      | ok t' =>
        rw [hx'] at hstep hfault'
        obtain ⟨hkeep, ht⟩ := hstep
        have hrest := ih ht (fun op hop a ha =>
          (hops op (List.mem_cons_of_mem _ hop) a ha).keep hkeep) hfault hfault'
        exact hrest.imp_left (congrArg (· + 1))

/-- A program ends alike on heaps that were built with one static segment and one stack, wherever they
lie and whatever their sizes and options are, unless memory or a counter runs out. No object may lie at
null, whose word is not checked when a heap is built. -/
theorem run_of_build {options options' : Options} {m m' : Memory}
    {stackBase heapBase heapBase' : Address} {bytes bytes' : Nat} {h h' : Heap} (hm : m.Paged)
    (hm' : m'.Paged) (hb : Heap.build options m stackBase heapBase bytes = .ok h)
    (hb' : Heap.build options' m' stackBase heapBase' bytes' = .ok h')
    (hsize : options'.stackSize = options.stackSize)
    (hraw : Kind.ofHeader? (m.word Reference.null.index) = none)
    (hstatic : ∀ i, 4 * i < h.stack.limit.toNat → m'.word i = m.word i)
    {ops : List (Operation Operand)} (hops : ∀ op ∈ ops, ∀ a ∈ op.operands, h.Names a)
    (hfault : ∀ f, (run ⟨h, []⟩ ops).2 = .error f → ¬ f.Exhausted)
    (hfault' : ∀ f, (run ⟨h', []⟩ ops).2 = .error f → ¬ f.Exhausted) :
    (run ⟨h', []⟩ ops).1 = (run ⟨h, []⟩ ops).1 ∧
      ((∃ t t' f, (run ⟨h, []⟩ ops).2 = .ok t ∧ (run ⟨h', []⟩ ops).2 = .ok t' ∧
          t.heap.SameGraph t'.heap f) ∨
        ∃ e e', (run ⟨h, []⟩ ops).2 = .error e ∧ (run ⟨h', []⟩ ops).2 = .error e' ∧
          e.SameKind e') := by
  have ht := (Heap.built_of_build hm hb).twin (Heap.built_of_build hm' hb') hsize hraw hstatic
  have hmatches : Matches ⟨h, []⟩ ⟨h', []⟩ := ⟨_, ht, .nil⟩
  obtain ⟨hcount, halike⟩ := hmatches.run hops hfault hfault'
  refine ⟨hcount, ?_⟩
  cases hx : (run ⟨h, []⟩ ops).2 with
  | ok t =>
    cases hx' : (run ⟨h', []⟩ ops).2 with
    | ok t' =>
      rw [hx, hx'] at halike
      obtain ⟨p, ht, -⟩ := halike
      obtain ⟨f, hf⟩ := ht.sameGraph
      exact .inl ⟨t, t', f, rfl, rfl, hf⟩
    | error e' =>
      rw [hx, hx'] at halike
      exact absurd halike (hfault' e' hx')
  | error e =>
    cases hx' : (run ⟨h', []⟩ ops).2 with
    | ok t' =>
      rw [hx, hx'] at halike
      exact absurd halike (hfault e hx)
    | error e' =>
      rw [hx, hx'] at halike
      have hkind := (halike.resolve_left (hfault e hx)).resolve_left (hfault' e' hx')
      exact .inr ⟨e, e', rfl, rfl, hkind⟩

/-- Both heaps have room for the objects of `sample`. The first one is collected when it is full, and
grown; the other one is collected whenever it allocates. -/
theorem run_of_build_blank : ∃ h h' t t' f,
    Heap.build { Options.defaults with minGrowthBytes := 0 } Heap.blank (.ofNat 64) (.ofNat 64) 64 =
        .ok h ∧
      Heap.build { Options.defaults with stressFactor := 0 } Heap.blank (.ofNat 64) (.ofNat 128) 256 =
        .ok h' ∧
      run ⟨h, []⟩ sample = (9, .ok t) ∧ run ⟨h', []⟩ sample = (9, .ok t') ∧
      (t.heap.statistics.collections = 2 ∧ t.heap.statistics.growths = 1) ∧
      (t'.heap.statistics.collections = 5 ∧ t'.heap.statistics.growths = 0) ∧
      t.heap.objects = .ok [.ofIndex 40, .ofIndex 45, .ofIndex 48, .ofIndex 50] ∧
      t'.heap.objects = .ok [.ofIndex 64, .ofIndex 69, .ofIndex 72, .ofIndex 74] ∧
      t.heap.SameGraph t'.heap f := by
  obtain ⟨h, t, hb, ht, hcollections, hgrowths, -, -, hobjects⟩ := run_sample_grown
  obtain ⟨h', t', hb', ht', hcollections', hgrowths', hobjects'⟩ : ∃ h' t',
      Heap.build { Options.defaults with stressFactor := 0 } Heap.blank (.ofNat 64) (.ofNat 128) 256 =
          .ok h' ∧
        run ⟨h', []⟩ sample = (9, .ok t') ∧
        t'.heap.statistics.collections = 5 ∧ t'.heap.statistics.growths = 0 ∧
        t'.heap.objects = .ok [.ofIndex 64, .ofIndex 69, .ofIndex 72, .ofIndex 74] :=
    exists_run (by decide +kernel)
  have hsame := run_of_build Heap.paged_blank Heap.paged_blank hb hb' rfl Heap.raw_blank
    (fun _ _ => rfl) (names_sample h) (fun f hf => by rw [ht] at hf; nomatch hf)
    (fun f hf => by rw [ht'] at hf; nomatch hf)
  rw [ht, ht'] at hsame
  obtain ⟨-, ⟨t₁, t₂, f, h₁, h₂, hf⟩ | ⟨e, -, he, -⟩⟩ := hsame
  · obtain rfl := Except.ok.inj h₁
    obtain rfl := Except.ok.inj h₂
    exact ⟨h, h', t, t', f, hb, hb', ht, ht', ⟨hcollections, hgrowths⟩,
      ⟨hcollections', hgrowths'⟩, hobjects, hobjects', hf⟩
  · nomatch he

/-- Writes to an element of null, which an empty list has for a result. -/
def forging : List (Operation Operand) :=
  [.newFloat 7, .push (.result 0), .newList [], .arraySet (.result 0) 14 (.value (.bool false))]

theorem names_forging (h : Heap) : ∀ op ∈ forging, ∀ a ∈ op.operands, h.Names a := by
  simp [forging, Operation.operands, Heap.Names, Value.object?]

/-- With a header at null, an operation can name an address, and it matters where the heap lies. The
write at 64 turns the float of the first heap into a symbol, and hits no object of the other one. -/
theorem not_sameGraph_headed : Heap.headed.Paged ∧ ∃ h h' t t',
    Heap.build .defaults Heap.headed (.ofNat 64) (.ofNat 64) 64 = .ok h ∧
      Heap.build .defaults Heap.headed (.ofNat 64) (.ofNat 128) 64 = .ok h' ∧
      (∀ op ∈ forging, ∀ a ∈ op.operands, h.Names a) ∧
      run ⟨h, []⟩ forging = (4, .ok t) ∧ run ⟨h', []⟩ forging = (4, .ok t') ∧
      t.heap.memory.kind (.ofIndex 16) = .ok .symbol ∧
      t'.heap.memory.kind (.ofIndex 32) = .ok .float ∧ ∀ f, ¬ t.heap.SameGraph t'.heap f := by
  obtain ⟨h, t, hb, ht, hstack, hload, hword, hinit, hkind⟩ : ∃ h t,
      Heap.build .defaults Heap.headed (.ofNat 64) (.ofNat 64) 64 = .ok h ∧
        run ⟨h, []⟩ forging = (4, .ok t) ∧ t.heap.stack = ⟨.ofNat 64, .ofNat 8, .ofNat 60⟩ ∧
        t.heap.memory.load (.ofNat 60) = .ok (Reference.ofIndex 16).word ∧
        t.heap.memory.word 15 = (Reference.ofIndex 16).word ∧ t.heap.Initialised (.ofIndex 16) ∧
        t.heap.memory.kind (.ofIndex 16) = .ok .symbol :=
    exists_run (by decide +kernel)
  obtain ⟨h', t', hb', ht', hword', hkind'⟩ : ∃ h' t',
      Heap.build .defaults Heap.headed (.ofNat 64) (.ofNat 128) 64 = .ok h' ∧
        run ⟨h', []⟩ forging = (4, .ok t') ∧
        t'.heap.memory.word 15 = (Reference.ofIndex 32).word ∧
        t'.heap.memory.kind (.ofIndex 32) = .ok .float :=
    exists_run (by decide +kernel)
  refine ⟨Heap.paged_headed, h, h', t, t', hb, hb', names_forging h, ht, ht', hkind, hkind',
    fun f hf => ?_⟩
  have hroot : t.heap.RootAt (.ofNat 60) (.ofIndex 16) := ⟨by rw [hstack]; decide, hload, hinit⟩
  -- The one root of each heap is its one object, so `f` takes the symbol to the float.
  have hmoved : f (.ofIndex 16) = .ofIndex 32 := by
    have hslot := hf.roots 15 (by rw [hstack]; decide) (by rw [hstack]; decide)
    rw [hword, hword', Heap.renamed_word (by decide) hinit] at hslot
    exact (Reference.word_inj.mp hslot).symm
  have hsame := hf.kind _ (.root hroot)
  rw [hmoved, hkind, hkind'] at hsame
  nomatch hsame

end Session

end CopyingHeap
