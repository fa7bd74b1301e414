import CopyingHeap.Proofs.Collection.Outline

/-!
The tracer of a collection spares the copy that is being traced: while the slots of the copy are traced,
more objects are copied, but all behind it.
-/

namespace CopyingHeap

namespace Heap

namespace Evacuated

variable {h : Heap} (hr : h.Regular) {moves more : List (Reference × Reference)} {slot scan : Nat}
  {e e' : Evacuation} {m m' : Memory} (he : h.Evacuated moves slot scan e m)
  {p : Reference × Reference} {j n : Nat}

include hr he

/-- As long as the scan pointer stays where it is, what is copied leaves the copies that there are. -/
theorem word_copy (he' : h.Evacuated (moves ++ more) slot scan e' m') (hp : p ∈ moves)
    (hj : j < h.size p.1) : m'.word (p.2.index + j) = m.word (p.2.index + j) := by
  have hp' := List.mem_append_left more hp
  by_cases hs : h.memory.IsSlot p.1.index j ∧ p.2.index + j < scan
  · have hcarried := he'.traced p hp' j hs.1 hs.2
    rcases he.traced p hp j hs.1 hs.2 with ⟨s, t, hst, hword, ht⟩ | ⟨hnames, hsame⟩
    · obtain ⟨t', hst', ht'⟩ := hr.carried_word (he.initialised hst) hword hcarried
      rw [ht, ht', he'.functional (List.mem_append_left more hst) hst']
    · rcases hcarried with ⟨s, t, hst, hword, -⟩ | ⟨-, hsame'⟩
      · rw [hword, hr.namesObject_word (he'.initialised hst)] at hnames
        nomatch hnames
      · rw [hsame, hsame']
  · rw [he.verbatim p hp j hj hs, he'.verbatim p hp' j hj hs]

/-- What a slot at the scan pointer refers to is traced without moving the scan pointer. -/
theorem trace_slot (hp : p ∈ moves) (hj : h.memory.IsSlot p.1.index j) (hscan : p.2.index + j = scan)
    {q : Reference} (hq : Word.target? (m.word scan) = some q) {x : Reference × Evacuation × Memory}
    (hx : Evacuation.trace h.source e m q = .ok x) :
    ∃ more, h.Evacuated (moves ++ more) slot scan x.2.1 x.2.2 := by
  obtain ⟨hword, hne⟩ := target?_eq_some_iff.mp hq
  rw [← hscan, he.verbatim p hp j hj.lt fun hs => by omega] at hword
  rcases he.slot_target hr hp hj hword hne with hreach | ⟨hout, -⟩
  · obtain ⟨more, hmore, -⟩ := (he.trace hr hreach).of_ok hx
    exact ⟨more, hmore⟩
  · rw [hr.trace_outside hout] at hx
    cases hx
    exact ⟨[], by rwa [List.append_nil]⟩

/-- The collection is at a slot of the copy whenever tracing its slots calls the tracer. -/
theorem at_slot (hp : p ∈ moves) (hj : ∀ i, j ≤ i → i < j + n → h.memory.IsSlot p.1.index i)
    (hscan : p.2.index + j = scan) {a : Address} {t : Evacuation} {l : Memory} {q : Reference}
    (hc : (Evacuation.trace h.source).Calls e m
      ((List.range' scan n).map fun i => Address.ofNat (4 * i)) a t l q) :
    ∃ more i, h.Evacuated (moves ++ more) slot (p.2.index + i) t l ∧ h.memory.IsSlot p.1.index i ∧
      Word.target? (l.word (p.2.index + i)) = some q := by
  induction n generalizing j scan moves e m with
  | zero => nomatch hc
  | succ n ih =>
    have hfirst := hj j (Nat.le_refl j) (by omega)
    have hin := he.scan_inside hr hp hfirst.lt hscan
    have hsize := hr.size_le
    have hmsize := he.size
    rw [List.range'_succ, List.map_cons] at hc
    cases hc with
    | first hw hq =>
      rw [Memory.load_word (by omega) hin.2.2, Except.ok.injEq] at hw
      refine ⟨[], j, ?_, hfirst, by rw [hscan, hw, hq]⟩
      rw [List.append_nil, hscan]
      exact he
    | later hslot hrest =>
      obtain ⟨more, he', -⟩ := (he.traceSlot hr hp hfirst hscan).of_ok hslot
      obtain ⟨more', i, hi⟩ := ih he' (List.mem_append_left more hp) (j := j + 1)
        (fun i h1 h2 => hj i (by omega) (by omega)) (by omega) hrest
      rw [List.append_assoc] at hi
      exact ⟨more ++ more', i, hi⟩

omit he in
/-- While the slots of the copy at the scan pointer are traced, no call of the tracer writes a word of it. -/
theorem spares (he : h.Evacuated moves slot p.2.index e m) (hp : p ∈ moves) :
    ∃ slots, m.referenceSlots p.2 = .ok slots ∧ (Evacuation.trace h.source).Spares e m slots.words
      ⟨p.2.address, Address.ofNat (4 * (p.2.index + h.size p.1))⟩ := by
  obtain ⟨k, hheader, h0, hcount, hend, hlength⟩ := he.copy_shape hr hp
  have hpaged : m.Paged := ⟨he.size ▸ he.maxPages ▸ hr.paged.pages, he.maxPages ▸ hr.paged.maximum⟩
  have hlies := hpaged.lies h0 (by rwa [hcount])
  obtain ⟨slots, hslots, -, hwords⟩ := hlies.slots_eq
  have hkind (i : Nat) : h.memory.IsSlot p.1.index i ↔ k.firstSlot ≤ i ∧
      i < k.firstSlot + k.slotCount (m.word (p.2.index + 1)).toNat := by
    rw [Memory.isSlot_iff hheader, Kind.isSlot_iff_between, hlength]
  have hle := k.slots_le (m.word (p.2.index + 1)).toNat
  rw [← Memory.wordCount_eq h0, hcount] at hle
  have hsize := hr.size_le
  have hmsize := he.size
  refine ⟨slots, hslots, fun a t l q hc x hx b hb => ?_⟩
  rw [hwords] at hc
  have hfirst := he.skip hr hp (j := 0) (n := k.firstSlot) (by omega) rfl fun i _ hi hs => by
    have := ((hkind i).mp hs).1
    omega
  obtain ⟨more, i, he', hi, hq⟩ := hfirst.at_slot hr hp (fun i h1 h2 => (hkind i).mpr ⟨h1, h2⟩) rfl hc
  have hp' := List.mem_append_left more hp
  obtain ⟨more', he''⟩ := he'.trace_slot hr hp' hi rfl hq hx
  obtain ⟨hlow, hhigh⟩ := hb
  rw [Address.le_iff, Reference.toNat_address] at hlow
  rw [Address.lt_iff, Address.toNat_ofNat] at hhigh
  have hword := he'.word_copy hr he'' hp' (j := b.toNat / 4 - p.2.index) (by omega)
  rw [show p.2.index + (b.toNat / 4 - p.2.index) = b.toNat / 4 from by omega] at hword
  refine Memory.load_congr fun _ => ?_
  rw [Memory.getElem?_eq_word (by rw [he''.size]; omega), Memory.getElem?_eq_word (by rw [he'.size]; omega),
    hword]

end Evacuated

end Heap

end CopyingHeap
