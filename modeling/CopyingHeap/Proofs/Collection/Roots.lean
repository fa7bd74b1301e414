import CopyingHeap.Proofs.Collection.Copying

/-!
Tracing the roots. A word of the stack is taken for a root exactly when it is the address of an object
of the heap as it was before the collection, whether that object has been copied meanwhile or not. A
raw block may hold any words but the forwarding marker, so it is never taken for an object.
-/

namespace CopyingHeap

namespace Heap

namespace Evacuated

variable {h : Heap} (hr : h.Regular) {moves : List (Reference × Reference)} {slot scan : Nat}
  {e : Evacuation} {m : Memory} (he : h.Evacuated moves slot scan e m) {r : Reference}

include hr he

theorem isSet_inside (hin : h.Inside r) :
    e.bits.isSet r.address = true ↔ h.spaces.bits.isSet r.address = true := by
  rw [he.starts]
  refine or_iff_left ?_
  rintro ⟨p, hp, hcopy⟩
  exact he.copy_not_inside hr hp (Reference.ext_address hcopy ▸ hin)

theorem isCopy_iff {a : Address} :
    e.isCopy h.spaces.scratch.start a = true ↔ ∃ p ∈ moves, p.2.address = a := by
  rw [Evacuation.isCopy, Bool.and_eq_true, Bool.and_eq_true, decide_eq_true_iff,
    decide_eq_true_iff, Address.le_iff, Address.lt_iff, he.starts]
  constructor
  · rintro ⟨⟨hlow, hhigh⟩, hset | hcopy⟩
    · -- The start bits from before all lie in the other space.
      have hwithin := hr.isSet_within hset
      have hcursor := he.cursor_le hr
      have hlimit := he.limit
      have hcl := Address.le_iff.mp hr.cursor_le
      have hlim := hr.limit
      rw [Address.le_iff, Address.lt_iff] at hwithin
      rcases hr.spaces.disjoint with hd | hd <;> omega
    · exact hcopy
  · rintro ⟨p, hp, rfl⟩
    have htwo := hr.two_le_size (he.initialised hp)
    have hb := he.copy_bounds hp (j := 0) (by omega)
    have hscratch := hr.scratch_start
    rw [Reference.toNat_address]
    exact ⟨⟨by omega, by omega⟩, .inr ⟨p, hp, rfl⟩⟩

theorem raw_word (hs : h.spaces.bits.isSet r.address = true) (hi : ¬ h.Initialised r) :
    m.word r.index = h.memory.word r.index := by
  have hwithin := hr.index_within hs
  have hstack := hr.stack_bounds
  have hcursor := he.cursor_le hr
  have hlimit := he.limit
  have hcl := Address.le_iff.mp hr.cursor_le
  have hlim := hr.limit
  have hscratch := hr.scratch_start
  refine he.frame _ (by omega) ?_ fun p hp => ?_
  · rcases hr.spaces.disjoint with hd | hd <;> omega
  · have hpi := he.initialised hp
    have htwo := hr.two_le_size hpi
    have hend := (hr.object_end hpi).2 r hs
    have hne : r.index ≠ p.1.index := fun heq => hi (Reference.index_inj.mp heq ▸ hpi)
    omega

theorem root?_of_initialised (hi : h.Initialised r) :
    Evacuation.root? h.source h.spaces.scratch.start e m r.word = .ok (some r) := by
  have hsize := hr.size_le
  have hmsize := he.size
  have htwo := hr.two_le_size hi
  have hend := hr.end_le_size hi
  have hset := (he.isSet_inside hr (hr.inside hi)).mpr (hr.isSet_of_initialised hi)
  have htarget : (Value.decode r.word).object? = some r := hr.target?_word hi
  rw [Evacuation.root?, htarget]
  dsimp only
  rw [hr.source_contains, ok_bind, decide_eq_true (hr.inside hi), hset, Memory.isForwarded,
    Memory.load_address (by omega), ok_bind]
  by_cases hold : r ∈ moves.map Prod.fst
  · obtain ⟨p, hp, rfl⟩ := List.mem_map.mp hold
    obtain ⟨h0, h1⟩ := he.forwarded p hp
    have hadd : p.1.address.add forwardingOffset = .ok (Address.ofNat (4 * (p.1.index + 1))) :=
      p.1.add_eq (j := 1) (by omega)
    have hcopy : e.isCopy h.spaces.scratch.start p.2.address = true :=
      (he.isCopy_iff hr).mpr ⟨p, hp, rfl⟩
    rw [h0, hadd, ok_bind, Memory.loadAddress, Memory.load_word (by omega) (by omega), ok_bind, h1]
    have hpointer : Address.mk p.2.word = p.2.address := rfl
    simp [hpointer, hcopy, pure, Except.pure]
  · obtain ⟨k, -, -, hheader⟩ := hr.kind_eq hi
    have h0 : m.word r.index = k.header :=
      (he.original hr hi hold (j := 0) (by omega)).trans hheader
    have hne : (k.header == forwardedHeader) = false :=
      beq_eq_false_iff_ne.mpr (header_ne_forwarded k)
    rw [h0, hne, Memory.kind?_eq_ok (by omega), h0, Kind.ofHeader?_header]
    rfl

theorem root?_eq_none {w : Word} (hnames : h.namesObject w = false) :
    Evacuation.root? h.source h.spaces.scratch.start e m w = .ok none := by
  rw [Evacuation.root?]
  cases htarget : (Value.decode w).object? with
  | none => rfl
  | some r =>
    have hi : ¬ h.Initialised r := fun hi => by
      rw [namesObject_iff.mpr ⟨r, htarget, hi⟩] at hnames
      cases hnames
    dsimp only
    rw [hr.source_contains, ok_bind]
    by_cases hin : h.Inside r
    · rw [decide_eq_true hin]
      by_cases hset : h.spaces.bits.isSet r.address = true
      · obtain ⟨hkind, hne⟩ := hr.raw hset hi
        have hw := he.raw_word hr hset hi
        have hlt := hr.index_lt_size hset
        rw [← he.size] at hlt
        rw [(he.isSet_inside hr hin).mpr hset, Memory.isForwarded, Memory.load_address hlt, ok_bind,
          hw, beq_eq_false_iff_ne.mpr hne, Memory.kind?_eq_ok hlt, hw, hkind]
        rfl
      · rw [Bool.eq_false_iff.mpr fun hs => hset ((he.isSet_inside hr hin).mp hs)]
        rfl
    · rw [decide_eq_false hin]
      rfl

/-- A word of the stack that has been traced stays as it is then. -/
theorem word_traced {more : List (Reference × Reference)} {slot' scan' i : Nat} {e' : Evacuation}
    {m' : Memory} (he' : h.Evacuated (moves ++ more) slot' scan' e' m') (hle : slot ≤ slot')
    (hsp : h.stack.sp.toNat ≤ 4 * i) (hbase : 4 * i < h.stack.base.toNat) (hi : i < slot) :
    m'.word i = m.word i := by
  have hafter := he'.stack_done i hsp hbase (by omega)
  rcases he.stack_done i hsp hbase hi with ⟨r, s, hrs, hw, hs⟩ | ⟨hnames, hs⟩
  · obtain ⟨t, hrt, ht⟩ := hr.carried_word (he.initialised hrs) hw hafter
    rw [ht, hs, he'.functional hrt (List.mem_append_left more hrs)]
  · rcases hafter with ⟨r, t, hrt, hw, -⟩ | ⟨-, ht⟩
    · rw [hw, hr.namesObject_word (he'.initialised hrt)] at hnames
      nomatch hnames
    · rw [ht, hs]

/-- One more word of the stack has been traced. -/
theorem nextSlot (hsp : h.stack.sp.toNat ≤ 4 * slot) (hbase : 4 * slot < h.stack.base.toNat)
    {m' : Memory} (hsize : m'.words.size = m.words.size) (hmax : m'.maxPages = m.maxPages)
    (hrest : ∀ i, i ≠ slot → m'.word i = m.word i)
    (hf : h.Carried (CopiedTo moves) (h.memory.word slot) (m'.word slot)) :
    h.Evacuated moves (slot + 1) scan e m' := by
  have hstack := hr.stack_bounds
  have hlow : 4 * slot < h.spaces.scratch.start.toNat := by omega
  have hcopy {p : Reference × Reference} (hp : p ∈ moves) {j : Nat} (hj : j < h.size p.1) :
      m'.word (p.2.index + j) = m.word (p.2.index + j) := by
    have hb := (he.copy_bounds hp hj).1
    have hscratch := hr.scratch_start
    exact hrest _ (by omega)
  refine
    { he with
      size := hsize.trans he.size
      maxPages := hmax.trans he.maxPages
      forwarded := fun p hp => ?_
      traced := fun p hp j hj hlt => hcopy hp hj.lt ▸ he.traced p hp j hj hlt
      verbatim := fun p hp j hj hno => (hcopy hp hj).trans (he.verbatim p hp j hj hno)
      stack_done := fun i h1 h2 h3 => ?_
      stack_rest := fun i h1 h2 h3 => ?_
      frame := fun i h1 h2 h3 => ?_ }
  · have htwo := hr.two_le_size (he.initialised hp)
    have h0 := he.apart hr (he.initialised hp) (j := 0) (by omega)
    rw [hrest _ (by omega), hrest _ (by omega)]
    exact he.forwarded p hp
  · by_cases heq : i = slot
    · rw [heq]
      exact hf
    · rw [hrest i heq]
      exact he.stack_done i h1 h2 (by omega)
  · rw [hrest i (by omega)]
    exact he.stack_rest i h1 h2 (by omega)
  · rw [hrest i (by omega)]
    exact he.frame i h1 h2 h3

theorem traceRoot (hsp : h.stack.sp.toNat ≤ 4 * slot) (hbase : 4 * slot < h.stack.base.toNat) :
    Ends (Evacuation.traceRoot h.source h.spaces.scratch.start e m (Address.ofNat (4 * slot)))
      (fun x => x.1 = (if h.namesObject (h.memory.word slot) then 1 else 0) ∧
        ∃ more, h.Evacuated (moves ++ more) (slot + 1) scan x.2.1 x.2.2 ∧
          ∀ p ∈ more, h.memory.word slot = p.1.word) h.CounterFault := by
  have hinside := hr.stack_inside hbase
  have hsize := hr.size_le
  have hmsize := he.size
  have hw := he.stack_rest slot hsp hbase (Nat.le_refl slot)
  rw [Evacuation.traceRoot, Memory.load_word (by omega) (by omega), ok_bind, hw]
  cases hnames : h.namesObject (h.memory.word slot) with
  | false =>
    -- The word is not accepted and stays, though it may be the address of a copy.
    rw [he.root?_eq_none hr hnames]
    refine ⟨rfl, [], ?_, fun p hp => absurd hp List.not_mem_nil⟩
    rw [List.append_nil]
    exact he.nextSlot hr hsp hbase rfl rfl (fun _ _ => rfl) (.inr ⟨hnames, hw⟩)
  | true =>
    obtain ⟨r, htarget, hi⟩ := namesObject_iff.mp hnames
    obtain ⟨hword, -⟩ := target?_eq_some_iff.mp htarget
    rw [hword, he.root?_of_initialised hr hi, ok_bind]
    refine Ends.bind (he.trace hr (.root (hr.rootAt hsp hbase hword hi)))
      fun ⟨t, e', m'⟩ ⟨more, he', hmem, hmore⟩ => ?_
    dsimp only at he' ⊢
    have hsize' := he'.size
    rw [Memory.store_word (by omega) (by omega), ok_bind]
    have hword' := Memory.word_withWord (m := m') (i := slot) (by omega) t.word
    refine ⟨rfl, more, he'.nextSlot hr hsp hbase (by simp) rfl
      (fun i hi => by rw [hword', if_neg hi]) (.inl ⟨r, t, hmem, hword, ?_⟩), fun p hp => ?_⟩
    · rw [hword', if_pos rfl]
    · rw [hmore p hp]

theorem traceRoots {n : Nat} (roots : Nat) (hsp : h.stack.sp.toNat ≤ 4 * slot)
    (hbase : 4 * (slot + n) ≤ h.stack.base.toNat) :
    Ends (Evacuation.traceRoots h.source h.spaces.scratch.start roots e m
        (Address.ofNat (4 * slot)) n)
      (fun x => x.1 = roots + (List.range' slot n).countP
          (fun i => h.namesObject (h.memory.word i)) ∧
        ∃ more, h.Evacuated (moves ++ more) (slot + n) scan x.2.1 x.2.2) h.CounterFault := by
  induction n generalizing slot roots e m moves with
  | zero =>
    refine ⟨rfl, [], ?_⟩
    rw [List.append_nil]
    exact he
  | succ n ih =>
    have hlimit := h.stack.base.toNat_lt
    have hnext := ofNat_next (i := slot) (by omega)
    rw [Evacuation.traceRoots, hnext]
    refine Ends.bind (he.traceRoot hr hsp (by omega)) fun ⟨found, e', m'⟩ ⟨hfound, more, he', _⟩ => ?_
    refine (ih he' (roots + found) (by omega) (by omega)).mono (fun x ⟨hx, more', hx'⟩ => ?_)
      fun f hf => hf
    dsimp only at hfound
    refine ⟨?_, more ++ more', ?_⟩
    · rw [hx, hfound, List.range'_succ, List.countP_cons]
      omega
    · rw [← List.append_assoc, show slot + (n + 1) = slot + 1 + n from by omega]
      exact hx'

end Evacuated

end Heap

end CopyingHeap
