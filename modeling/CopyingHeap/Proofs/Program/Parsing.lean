import CopyingHeap.Proofs.Heap.Packed
import CopyingHeap.Proofs.Program.Lasting

/-!
Programs that make objects by the constructors only. The active space then holds one object after the
other, and can be read from its start to the cursor by their sizes alone; the start bits say the same.
Again no object may lie at null.
-/

namespace CopyingHeap

namespace Heap

theorem PackedBut.quiet {h k : Heap} {raw : List Reference} (hp : h.PackedBut raw) (hl : h.Layout)
    (hk : k.Sound) (hq : h.Quiet k) : k.PackedBut raw := by
  apply hp.congr hk.tiled hq.spaces hq.bump
  intro xs hxs x hx _ hfilled
  have hbounds := hxs.bounds hl hx
  have hbase := Address.le_iff.mp hl.spaces.base_le_active
  exact hfilled.congr (hq.word _ (by omega)) (hq.word _ (by omega))

/-- Making objects leaves a packed heap packed. -/
theorem lasting_packedBut : Lasting fun raw h => h.PackedBut raw where
  quiet := PackedBut.quiet
  alloc := fun hp hs => hs.packed_alloc hp
  install := fun hp _ hf hw hc hheader hcount => hp.install hf hw hc hheader hcount
  update := fun hp hs hr hk _ hword => Packed.update hp hs hr hk hword
  collect := fun _ hs => hs.packed_collect.imp fun _ hk => hk.2

/-- The heaps that a program can reach without raw allocations. Its arguments are immediates, null,
symbols and objects. -/
inductive Constructed (start : Heap) : Heap → Prop where
  | start : Constructed start start
  | step {h k : Heap} {op : Operation Value} {v : Option Value} :
      Constructed start h → (∀ size, op ≠ .alloc size) → (∀ a ∈ op.operands, h.Knows a) →
      h.perform .ok op = .ok (v, k) → Constructed start k

/-- The objects `rs` of a heap in the order of their addresses. The start bits list them, and so does a
walk over the active space from each header to the next. -/
structure Parses (h : Heap) (rs : List Reference) : Prop where
  objects : h.objects = .ok rs
  walk : h.memory.walk h.spaces.active.start h.bump.cursor = .ok rs
  increasing : rs.Pairwise fun r s => r.address < s.address
  isLive_iff : ∀ r, h.isLive r = true ↔ r ∈ rs
  kind : ∀ r ∈ rs, ∃ k, k ≠ .symbol ∧ h.memory.kind r = .ok k

theorem Packed.parses_of_layout {h : Heap} (hp : h.Packed) (hl : h.Layout) : ∃ rs, h.Parses rs := by
  obtain ⟨xs, hxs, hfilled⟩ := hp
  have hfilled' : ∀ x ∈ xs, h.Filled x := fun x hx => hfilled x hx List.not_mem_nil
  refine ⟨xs.map Prod.fst, ?_⟩
  refine
    { objects := hxs.objects_eq hl
      walk := hxs.walk_eq hl hfilled'
      increasing := ?_
      isLive_iff := fun _ => hxs.isLive_iff hl
      kind := ?_ }
  · apply hxs.increasing.imp
    intro r s hlt
    rw [Address.lt_iff, Reference.toNat_address, Reference.toNat_address]
    omega
  · intro r hr
    obtain ⟨x, hx, rfl⟩ := List.mem_map.mp hr
    obtain ⟨k, hsymbol, hheader, -⟩ := hfilled' x hx
    have hbounds := hxs.bounds hl hx
    have hpos := hxs.nonempty x hx
    have hinside := hl.cursor_inside
    exact ⟨k, hsymbol, Memory.kind_eq_ok (by omega) hheader⟩

namespace Constructed

variable {options : Options} {m : Memory} {stackBase heapBase : Address} {bytes : Nat}
  {start h : Heap}

theorem reached (hc : start.Constructed h) : start.Reached h := by
  induction hc with
  | start => exact .start
  | step _ _ hop hk ih => exact .step ih hop hk

theorem packed (hs : start.Sound) (hp : start.Packed) (hc : start.Constructed h) : h.Packed := by
  induction hc with
  | start => exact hp
  | step hc hraw hop hk ih => exact (lasting_packedBut.perform (hc.reached.sound hs).1 ih hop hraw).of_ok hk

/-- A session that refers to no object by its address, and asks for no raw block, comes to such heaps
only. -/
theorem of_run (hs : start.Sound) {ops : List (Operation Operand)}
    (hops : ∀ op ∈ ops, ∀ a ∈ op.operands, start.Names a) (hraw : ∀ size, .alloc size ∉ ops)
    {t : Session} (hrun : (Session.run ⟨start, []⟩ ops).2 = .ok t) : start.Constructed t.heap := by
  apply (Session.matches_self hs).holds_of_run hops (fun h k op v hc hknown hasked hk => ?_) .start hrun
  exact hc.step (fun size hsize => hraw size (hasked size hsize)) hknown hk

/-- Whatever a program constructs on memory without a header at null, the two enumerations agree. -/
theorem parses (hm : m.Paged) (hb : build options m stackBase heapBase bytes = .ok start)
    (hraw : Kind.ofHeader? (m.word Reference.null.index) = none) (hc : start.Constructed h) :
    ∃ rs, h.Parses rs := by
  have hbuilt := built_of_build hm hb
  have hs := hbuilt.sound hraw
  have hp : start.Packed := ⟨[], hbuilt.tiled, fun x hx => nomatch hx⟩
  exact (hc.packed hs hp).parses_of_layout (hc.reached.sound hs).1.toLayout

/-- The array, the list node, the float and the string, in the order in which the last collection has copied
them. -/
theorem parses_blank : ∃ start s,
    build { Options.defaults with minGrowthBytes := 0 } blank (.ofNat 64) (.ofNat 64) 64 =
        .ok start ∧
      Session.run ⟨start, []⟩ Session.sample = (9, .ok s) ∧
      s.heap.statistics.collections = 2 ∧ s.heap.statistics.growths = 1 ∧
      start.Constructed s.heap ∧
      s.heap.Parses [.ofIndex 40, .ofIndex 45, .ofIndex 48, .ofIndex 50] := by
  obtain ⟨start, s, hb, hrun, hcollections, hgrowths, -, -, hobjects⟩ := Session.run_sample_grown
  have hs : start.Sound := (built_of_build paged_blank hb).sound raw_blank
  have hraw : ∀ size, .alloc size ∉ Session.sample := by simp [Session.sample]
  have hc : start.Constructed s.heap := of_run hs (Session.names_sample start) hraw (by rw [hrun])
  obtain ⟨rs, hrs⟩ := Constructed.parses paged_blank hb raw_blank hc
  rw [hrs.objects, Except.ok.injEq] at hobjects
  exact ⟨start, s, hb, hrun, hcollections, hgrowths, hc, hobjects ▸ hrs⟩

/-- With a header at null, a float of eight bytes can become a symbol, whose bits are then its length. A
walk over the heap misses the cursor. -/
theorem not_parses_headed : headed.Paged ∧ ∃ start k l v w,
    build .defaults headed (.ofNat 64) (.ofNat 64) 64 = .ok start ∧
      start.perform .ok (.newFloat 7 : Operation Value) = .ok (v, k) ∧
      k.perform .ok (.arraySet .null 14 (.bool false)) = .ok (w, l) ∧ start.Constructed l ∧
      l.memory.walk l.spaces.active.start l.bump.cursor =
        .error (.scanMissedCursor (.ofNat 80) (.ofNat 72)) ∧ ∀ rs, ¬ l.Parses rs := by
  obtain ⟨start, k, l, v, w, hb, hk, hl, hnull, hstart, hcursor, -, -, -, hsize⟩ :=
    Reached.forged_headed
  have hnone : ∀ a ∈ (.newFloat 7 : Operation Value).operands, start.Knows a := fun _ ha => nomatch ha
  have hfloat : ∀ size, (.newFloat 7 : Operation Value) ≠ .alloc size := fun _ hop => nomatch hop
  have hset : ∀ size, (.arraySet .null 14 (.bool false) : Operation Value) ≠ .alloc size :=
    fun _ hop => nomatch hop
  have hc : start.Constructed l := .step (.step .start hfloat hnone hk) hset hnull hl
  have hwalk : l.memory.walk l.spaces.active.start l.bump.cursor =
      .error (.scanMissedCursor (.ofNat 80) (.ofNat 72)) := by
    rw [hstart, hcursor]
    exact Memory.walk_beyond (r := .ofIndex 16) hsize (by decide) (by decide) (by decide)
  refine ⟨paged_headed, start, k, l, v, w, hb, hk, hl, hc, hwalk, fun rs hrs => ?_⟩
  have hread := hrs.walk
  rw [hwalk] at hread
  nomatch hread

end Constructed

end Heap

end CopyingHeap
