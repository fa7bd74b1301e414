import CopyingHeap.Proofs.Heap.Start
import CopyingHeap.Proofs.Heap.Zeroing
import CopyingHeap.Proofs.Program.Lasting

/-!
Programs on heaps that zero what they release. A program that keeps its heap regular reads zero behind every
stale address, however often the heap has been collected and grown. One that refers to the inside of an
object may have a collection write outside both spaces.
-/

namespace CopyingHeap

/-- What reads zero is zero, and so is every word outside the memory. -/
theorem Memory.Paged.word_eq_zero {m : Memory} (hm : m.Paged) {base : Address}
    (hclear : ∀ a w, base ≤ a → m.load a = .ok w → w = 0) {i : Nat} (hi : base.toNat ≤ 4 * i) :
    m.word i = 0 := by
  by_cases hin : i < m.words.size
  · have hsize := hm.size_le
    apply hclear (Address.ofNat (4 * i))
    · rw [Address.le_iff, Address.toNat_ofNat]
      omega
    · exact load_word (by omega) hin
  · exact word_of_size_le (Nat.not_lt.mp hin)

namespace Heap

/-- Making objects is allocating, collecting, and writing into the blocks that have been handed out. -/
theorem lasting_tended (start : Heap) : Lasting fun _ h => start.Tended h where
  quiet := fun ht _ _ hq =>
    ht.write ⟨hq.spaces, hq.bump, hq.options, hq.size.ge, fun i hi _ => hq.word i hi⟩
  alloc := by
    intro h ht hs size
    apply (hs.alloc size).with_eq.imp
    rintro x ⟨⟨r, n, -, hr, -⟩, hx⟩
    exact ⟨r, hr, ht.alloc hs.regular hx⟩
  install := by
    intro h r n m c ht hl hf hw _ _ _
    obtain ⟨xs, hxs, hr⟩ := hf.block
    have hbounds := hxs.bounds hl hr
    refine ht.write ⟨rfl, rfl, rfl, hw.size.ge, ?_⟩
    intro i _ hout
    apply hw.outside
    unfold InUse at hout
    dsimp only at hbounds
    omega
  update := by
    intro h r m ht hs hr _ hsize hword
    refine ht.write ⟨rfl, rfl, rfl, hsize.ge, ?_⟩
    intro i _ hout
    have hwithin := hs.regular.index_within (hs.regular.isSet_of_initialised hr)
    have hend := (hs.regular.object_end hr).1
    apply hword
    unfold InUse at hout
    omega
  collect := by
    intro h ht hs
    apply hs.regular.collect.with_eq.imp
    rintro k ⟨-, hk⟩
    exact ht.collect hs.regular hk

/-- On memory that is zero from the base of the heap on, every stale address of a heap that zeroes what
it releases reads zero, as long as the heap is regular whenever it allocates or collects. What operations
do on sound heaps is no exception. -/
theorem tended_swept {options : Options} {m : Memory} {stackBase heapBase : Address} {bytes : Nat}
    {start : Heap} (hm : m.Paged) (hoptions : options.zeroOnRelease = true)
    (hclear : ∀ a w, heapBase ≤ a → m.load a = .ok w → w = 0)
    (hb : build options m stackBase heapBase bytes = .ok start) :
    (∀ h, start.Tended h → h.Swept) ∧
      ∀ h k (op : Operation Value) v, start.Tended h → h.Sound → (∀ a ∈ op.operands, h.Knows a) →
        h.perform .ok op = .ok (v, k) → start.Tended k := by
  have hunused := (unused_build options m stackBase heapBase bytes).of_ok hb
  have hstart : start.Zeroed :=
    (built_of_build hm hb).zeroed (hunused.options_eq ▸ hoptions) fun _ => hm.word_eq_zero hclear
  refine ⟨fun h ht => (ht.zeroed hstart).swept, ?_⟩
  intro h k op v ht hs hop hk
  cases op with
  | alloc size =>
    obtain ⟨x, hx, hk⟩ := bind_eq_ok_iff.mp hk
    cases hk
    exact ht.alloc hs.regular hx
  | _ => exact ((lasting_tended start).perform hs ht hop (fun _ hsize => nomatch hsize)).of_ok hk

/-- A block of eight bytes is handed out, and given up by a collection. -/
theorem tended_swept_blank : ∃ start k l,
    build { Options.defaults with zeroOnRelease := true } blank (.ofNat 64) (.ofNat 64) 64 =
        .ok start ∧
      start.perform .ok (.alloc 5 : Operation Value) = .ok (none, k) ∧ k.collect = .ok l ∧
      start.Tended l ∧ l.Swept := by
  have hrun : (build { Options.defaults with zeroOnRelease := true } blank (.ofNat 64) (.ofNat 64) 64 >>=
      fun start => start.alloc 5 >>= fun x => x.2.collect >>= fun _ => .ok ()) = .ok () := by
    decide +kernel
  obtain ⟨start, hb, hrun⟩ := bind_eq_ok_iff.mp hrun
  obtain ⟨⟨a, k⟩, halloc, hrun⟩ := bind_eq_ok_iff.mp hrun
  obtain ⟨l, hcollect, -⟩ := bind_eq_ok_iff.mp hrun
  have hclear : ∀ a w, Address.ofNat 64 ≤ a → blank.load a = .ok w → w = 0 := by
    intro a w _ hw
    obtain ⟨-, -, hword⟩ := Memory.load_eq_ok_word hw
    rw [hword, word_blank]
  obtain ⟨hswept, hperform⟩ := tended_swept paged_blank rfl hclear hb
  have hs : start.Sound := (built_of_build paged_blank hb).sound raw_blank
  have hfirst : start.perform .ok (.alloc 5 : Operation Value) = .ok (none, k) := perform_alloc halloc
  have hnone : ∀ a ∈ (.alloc 5 : Operation Value).operands, start.Knows a := fun _ ha => nomatch ha
  have hk : start.Tended k := hperform start k (.alloc 5) none .start hs hnone hfirst
  have hsound : k.Sound := ((hs.perform hnone).of_ok hfirst).1
  have hl : start.Tended l := hk.collect hsound.regular hcollect
  exact ⟨start, k, l, hb, hfirst, hcollect, hl, hswept l hl⟩

/-- Makes a list node whose head refers to the last word of the node itself, and collects while the node
is on the stack. The node lies at the end of the upper space, so that a block and an exchange of the
spaces come first. -/
def dangling : List (Operation Operand) :=
  [.collect, .alloc 8, .newListNode (.value (.object (.ofIndex 25))) (.value (.bool true)),
    .push (.result 0), .collect]

/-- A reference to the inside of an object may be followed. The word behind the released space is then
taken for the second word of an object, and is overwritten by its forwarding pointer. -/
theorem not_swept_dangling : ∃ start s,
    build { Options.defaults with zeroOnRelease := true } blank (.ofNat 64) (.ofNat 64) 40 =
        .ok start ∧
      Session.run ⟨start, []⟩ dangling = (5, .ok s) ∧ s.heap.spaces.base = .ofNat 64 ∧
      s.heap.bump.cursor = .ofNat 84 ∧ s.heap.memory.load (.ofNat 104) = .ok 76 ∧
      ¬ s.heap.Swept := by
  obtain ⟨start, s, hb, hs, hbase, hcursor, hw⟩ : ∃ start s,
      build { Options.defaults with zeroOnRelease := true } blank (.ofNat 64) (.ofNat 64) 40 =
          .ok start ∧
        Session.run ⟨start, []⟩ dangling = (5, .ok s) ∧ s.heap.spaces.base = .ofNat 64 ∧
        s.heap.bump.cursor = .ofNat 84 ∧ s.heap.memory.load (.ofNat 104) = .ok 76 :=
    Session.exists_run (by decide +kernel)
  refine ⟨start, s, hb, hs, hbase, hcursor, hw, ?_⟩
  intro hswept
  have hzero : (76 : Word) = 0 := by
    apply hswept.zero (.ofNat 104) 76 _ _ hw
    · rw [hbase]
      decide
    · rw [hcursor]
      rintro ⟨-, hlt⟩
      exact absurd hlt (by decide)
  exact absurd hzero (by decide)

end Heap

end CopyingHeap
