import CopyingHeap.Proofs.Collection.Result

/-!
Collections of two memories in step. The memories agree but for some words that lie in no object and not in
the target space. A collection does not look at those words while it traces objects, so it does the same to both
memories, and leaves those words alone.
-/

namespace CopyingHeap

/-- `n` holds the words of `m`, but the words `g` in the places `D`. -/
structure Memory.Veiled (D : Nat → Prop) (g : Nat → Word) (n m : Memory) : Prop where
  size : n.words.size = m.words.size
  maxPages : n.maxPages = m.maxPages
  off : ∀ i, ¬ D i → n.word i = m.word i
  on : ∀ i, D i → n.word i = g i

namespace Memory.Veiled

variable {D : Nat → Prop} {g : Nat → Word} {n m : Memory} (hv : Veiled D g n m)

include hv

theorem withWord {i : Nat} (hi : ¬ D i) (hin : i < m.words.size) (w : Word) :
    Veiled D g (n.withWord i w) (m.withWord i w) where
  size := by simpa using hv.size
  maxPages := hv.maxPages
  off := by
    intro j hj
    rw [word_withWord (by rw [hv.size]; exact hin), word_withWord hin, hv.off j hj]
  on := by
    intro j hj
    have hne : j ≠ i := fun heq => hi (heq ▸ hj)
    rw [word_withWord (by rw [hv.size]; exact hin), if_neg hne, hv.on j hj]

theorem congr {g' : Nat → Word} (hg : ∀ i, D i → g' i = g i) : Veiled D g' n m where
  size := hv.size
  maxPages := hv.maxPages
  off := hv.off
  on := fun i hi => (hv.on i hi).trans (hg i hi).symm

/-- Writing one of the words that differ. -/
theorem withVeiled {g' : Nat → Word} {i : Nat} (hi : D i) (hin : i < m.words.size) {w : Word}
    (hw : g' i = w) (hg : ∀ j ≠ i, D j → g' j = g j) : Veiled D g' (n.withWord i w) m where
  size := by simpa using hv.size
  maxPages := hv.maxPages
  off := by
    intro j hj
    have hne : j ≠ i := fun heq => hj (heq ▸ hi)
    rw [word_withWord (by rw [hv.size]; exact hin), if_neg hne, hv.off j hj]
  on := by
    intro j hj
    rw [word_withWord (by rw [hv.size]; exact hin)]
    split
    · rename_i heq
      rw [heq, hw]
    · rename_i hne
      rw [hv.on j hj, hg j hne hj]

theorem store {a : Address} (ha : ¬ D (a.toNat / 4)) (w : Word) :
    InStep (Veiled D g) (n.store a w) (m.store a w) := by
  by_cases haligned : a.WordAligned
  · rw [store_eq n w haligned, store_eq m w haligned, hv.size]
    split
    · rename_i hin
      exact hv.withWord ha hin w
    · exact rfl
  · simp only [Memory.store, wordIndex, if_neg haligned]
    exact rfl

theorem withMove {r t : Reference} {count : Nat} (hcount : 2 ≤ count)
    (hr : r.index + count ≤ m.words.size) (ht : t.index + count ≤ m.words.size)
    (hsource : ∀ j < count, ¬ D (r.index + j)) (htarget : ∀ j < count, ¬ D (t.index + j)) :
    Veiled D g (n.withMove r t count) (m.withMove r t count) := by
  have hsize := hv.size
  have hn := word_withMove (m := n) (r := r) (t := t) (by omega) (by omega) hcount
  have hm := word_withMove (m := m) (r := r) (t := t) hr ht hcount
  have hfirst := hsource 0 (by omega)
  have hsecond := hsource 1 (by omega)
  refine
    { size := by simpa using hsize
      maxPages := hv.maxPages
      off := fun i hi => ?_
      on := fun i hi => ?_ }
  · rw [hn, hm, hv.off i hi]
    by_cases hin : t.index ≤ i ∧ i < t.index + count
    · rw [if_pos hin, if_pos hin, hv.off _ (hsource _ (by omega))]
    · rw [if_neg hin, if_neg hin]
  · have hne : ¬ (t.index ≤ i ∧ i < t.index + count) := fun hin => by
      apply htarget (i - t.index) (by omega)
      rwa [Nat.add_sub_cancel' hin.1]
    have hne0 : i ≠ r.index := fun heq => hfirst (heq ▸ hi)
    have hne1 : i ≠ r.index + 1 := fun heq => hsecond (heq ▸ hi)
    rw [hn, if_neg hne1, if_neg hne0, if_neg hne, hv.on i hi]

end Memory.Veiled

namespace Heap

/-- None of the words in `D` belongs to an object or lies in the target space. -/
structure Spares (h : Heap) (D : Nat → Prop) : Prop where
  object : ∀ r, h.Initialised r → ∀ j < h.size r, ¬ D (r.index + j)
  target : ∀ i, h.target ≤ i →
    4 * i < h.spaces.scratch.start.toNat + h.spaces.active.extent → ¬ D i

/-- The collections of both memories are in one state, and the memories differ as before. -/
def Alongside (D : Nat → Prop) (g : Nat → Word) (x y : Evacuation × Memory) : Prop :=
  x.1 = y.1 ∧ x.2.Veiled D g y.2

namespace Evacuated

variable {h : Heap} (hr : h.Regular) {D : Nat → Prop} (hD : h.Spares D)
  {moves : List (Reference × Reference)} {slot scan : Nat} {e : Evacuation} {n m : Memory}
  (he : h.Evacuated moves slot scan e m) {g : Nat → Word} (hv : n.Veiled D g m)

include hr hD he hv

theorem trace_veiled {r : Reference} (hi : h.Initialised r) :
    InStep (fun x y => x.1 = y.1 ∧ Alongside D g x.2 y.2)
      (Evacuation.trace h.source e n r) (Evacuation.trace h.source e m r) := by
  have htwo := hr.two_le_size hi
  have hend := hr.end_le_size hi
  have hmsize := he.size
  have hnsize := hv.size.trans he.size
  have h0 : n.word r.index = m.word r.index := hv.off _ (hD.object r hi 0 (by omega))
  have h1 : n.word (r.index + 1) = m.word (r.index + 1) := hv.off _ (hD.object r hi 1 (by omega))
  by_cases hold : r ∈ moves.map Prod.fst
  · obtain ⟨p, hp, rfl⟩ := List.mem_map.mp hold
    obtain ⟨hm0, hm1⟩ := he.forwarded p hp
    rw [hr.trace_forwarded (hr.inside hi) e hnsize (by omega) (h0.trans hm0) (h1.trans hm1),
      hr.trace_forwarded (hr.inside hi) e hmsize (by omega) hm0 hm1]
    exact ⟨rfl, rfl, hv⟩
  · have hm0 := he.original hr hi hold (j := 0) (by omega)
    have hm1 := he.original hr hi hold (j := 1) (by omega)
    obtain ⟨k, t, cursor, bits, -, hland, hcopy⟩ := he.copyObject_eq hr hi hold
    rw [hr.trace_intact hi e hnsize (h0.trans hm0), hr.trace_intact hi e hmsize hm0,
      hcopy n hnsize (h0.trans hm0) (h1.trans hm1), hcopy m hmsize hm0 hm1]
    refine InStep.bind_same fun statistics _ => ⟨rfl, rfl, ?_⟩
    have hstart := hland.start
    have hlow := hland.low
    have hroom := hland.room
    have hlimit := he.limit
    have hinside := hr.spaces.scratch_inside
    exact hv.withMove htwo (by omega) (by omega) (hD.object r hi)
      fun j hj => hD.target _ (by omega) (by omega)

theorem traceSlot_veiled {p : Reference × Reference} {j : Nat} (hp : p ∈ moves)
    (hj : h.memory.IsSlot p.1.index j) (hscan : p.2.index + j = scan) :
    InStep (Alongside D g)
      (Tracer.traceSlot (Evacuation.trace h.source) e n (Address.ofNat (4 * scan)))
      (Tracer.traceSlot (Evacuation.trace h.source) e m (Address.ofNat (4 * scan))) := by
  have hin := he.scan_inside hr hp hj.lt hscan
  have hcursor := he.cursor_le hr
  have hlimit := he.limit
  have hsize := hr.size_le
  have hmsize := he.size
  have hnsize := hv.size
  have hspared : ¬ D scan := hD.target scan hin.1 (by omega)
  have hw : m.word scan = h.memory.word (p.1.index + j) := by
    rw [← hscan]
    exact he.verbatim p hp j hj.lt fun hs => by omega
  rw [Tracer.traceSlot, Tracer.traceSlot, Memory.load_word (by omega) (by omega),
    Memory.load_word (by omega) hin.2.2, ok_bind, ok_bind, hv.off scan hspared]
  cases htarget : (Value.decode (m.word scan)).object? with
  | none => exact ⟨rfl, hv⟩
  | some r =>
    obtain ⟨hword, hne⟩ := target?_eq_some_iff.mp htarget
    have hkeep : InStep (fun x y => x.1 = y.1 ∧ Alongside D g x.2 y.2)
        (Evacuation.trace h.source e n r) (Evacuation.trace h.source e m r) := by
      rcases he.slot_target hr hp hj (hw ▸ hword) hne with hreach | ⟨hout, -⟩
      · exact he.trace_veiled hr hD hv hreach.initialised
      · rw [hr.trace_outside hout, hr.trace_outside hout]
        exact ⟨rfl, rfl, hv⟩
    refine hkeep.bind ?_
    rintro x y ⟨htarget', hstate, hv'⟩
    dsimp only
    rw [htarget', hstate]
    split
    · exact ⟨rfl, hv'⟩
    · refine (hv'.store (by rwa [toNat_ofNat_div (by omega)]) _).bind fun n' m' hv'' => ?_
      exact ⟨rfl, hv''⟩

theorem traceSlots_veiled {p : Reference × Reference} {j count : Nat} (hp : p ∈ moves)
    (hj : ∀ i, j ≤ i → i < j + count → h.memory.IsSlot p.1.index i) (hscan : p.2.index + j = scan) :
    InStep (Alongside D g)
      (Tracer.traceSlots (Evacuation.trace h.source) e n (Address.ofNat (4 * scan)) count)
      (Tracer.traceSlots (Evacuation.trace h.source) e m (Address.ofNat (4 * scan)) count) := by
  induction count generalizing j scan e n m moves with
  | zero => exact ⟨rfl, hv⟩
  | succ count ih =>
    have hfirst := hj j (Nat.le_refl j) (by omega)
    have hin := he.scan_inside hr hp hfirst.lt hscan
    have hsize := hr.size_le
    have hmsize := he.size
    have hnext := ofNat_next (i := scan) (by omega)
    rw [Tracer.traceSlots, Tracer.traceSlots, hnext]
    refine ((he.traceSlot_veiled hr hD hv hp hfirst hscan).and_ends
      (he.traceSlot hr hp hfirst hscan)).bind ?_
    rintro ⟨e₁, n'⟩ ⟨e₂, m'⟩ ⟨⟨hstate, hv'⟩, more, he', -⟩
    dsimp only at hstate hv' he' ⊢
    subst hstate
    exact ih he' hv' (List.mem_append_left more hp) (j := j + 1)
      (fun i h1 h2 => hj i (by omega) (by omega)) (by omega)

theorem traceObject_veiled {p : Reference × Reference} (hp : p ∈ moves) (hscan : p.2.index = scan) :
    InStep (fun x y => x.1 = y.1 ∧ Alongside D g x.2 y.2)
      (Tracer.traceObject (Evacuation.trace h.source) e n p.2)
      (Tracer.traceObject (Evacuation.trace h.source) e m p.2) := by
  obtain ⟨k, hheader, h0, hcount, hend, hslots⟩ := he.copy_shape hr hp
  have htwo := hr.two_le_size (he.initialised hp)
  have hsize := hr.size_le
  have hmsize := he.size
  have hnsize := hv.size
  have hcursor := he.cursor_le hr
  have hlimit := he.limit
  have hspared (j : Nat) (hj : j < h.size p.1) : n.word (p.2.index + j) = m.word (p.2.index + j) := by
    have hb := he.copy_bounds hp hj
    exact hv.off _ (hD.target _ hb.1 (by omega))
  have hn0 := hspared 0 (by omega)
  have hn1 := hspared 1 (by omega)
  have hncount : n.wordCount p.2.index = h.size p.1 := by
    rw [← hcount]
    exact Memory.wordCount_congr hn0 fun _ _ _ => hn1
  rw [Tracer.traceObject_eq _ _ (by omega) (hn0.trans h0) (by omega),
    Tracer.traceObject_eq _ _ (by omega) h0 (by omega), hn1, hslots, hncount, hcount, hscan]
  have hfirst := he.skip hr hp (j := 0) (n := k.firstSlot)
    (by have := k.slots_le (h.memory.word (p.1.index + 1)).toNat
        rw [Heap.size, Memory.wordCount_eq hheader]
        omega)
    (by omega) fun i _ h2 hs => by
      have := (Kind.isSlot_iff_between.mp ((Memory.isSlot_iff hheader).mp hs)).1
      omega
  refine (hfirst.traceSlots_veiled hr hD hv hp (j := k.firstSlot)
    (fun i h1 h2 => (Memory.isSlot_iff hheader).mpr (Kind.isSlot_iff_between.mpr ⟨h1, h2⟩))
    (by omega)).bind fun x y hxy => ?_
  exact ⟨rfl, hxy⟩

theorem close_veiled {done rest : List (Reference × Reference)} (hmoves : moves = done ++ rest)
    (hdone : Tiles (fun p => p.2.index) (fun p => h.size p.1) h.target done scan)
    {position : Address} (hposition : position.toNat = 4 * scan) :
    InStep (Alongside D g) (Evacuation.close h.source e n position)
      (Evacuation.close h.source e m position) := by
  -- As for one memory, by induction on the addresses above the scan pointer.
  induction hk : 0x100000000 - position.toNat using Nat.strongRecOn
    generalizing moves scan e n m done rest position with
  | _ k ih =>
    rw [Evacuation.close, Evacuation.close]
    by_cases hlt : position < e.bump.cursor
    · rw [if_pos hlt, if_pos hlt]
      rw [Address.lt_iff] at hlt
      obtain ⟨p, ahead, rfl, hp, hplace⟩ := he.next_copy hmoves hdone (by omega)
      have hof : Reference.ofAddress position = .ok p.2 := by
        refine Reference.ofAddress_eq_ok_iff.mpr (Address.ext_toNat ?_)
        rw [Reference.toNat_address, hplace, hposition]
      have htwo := hr.two_le_size (he.initialised hp)
      rw [hof, ok_bind, ok_bind]
      refine ((he.traceObject_veiled hr hD hv hp hplace).and_ends
        (he.traceObject hr hp hplace)).bind ?_
      rintro ⟨next, e₁, n'⟩ ⟨next', e₂, m'⟩ ⟨⟨hsame, hstate, hv'⟩, hnext, more, he'⟩
      dsimp only at hsame hstate hv' hnext he' ⊢
      subst hsame hstate
      have hadvance : position < next := by
        rw [Address.lt_iff]
        omega
      rw [dif_pos hadvance, dif_pos hadvance]
      have hlimit := next.toNat_lt
      have hsplit : moves ++ more = (done ++ [p]) ++ (ahead ++ more) := by simp [hmoves]
      exact ih _ (by omega) he' hv' hsplit (hdone.snoc hplace) hnext rfl
    · rw [if_neg hlt, if_neg hlt]
      split
      · exact ⟨rfl, hv⟩
      · exact rfl

end Evacuated

/-- The two memories stay as they are to each other when the emptied space is released. -/
theorem Layout.release_veiled {h : Heap} (hl : h.Layout) {D : Nat → Prop} {g : Nat → Word}
    {n m : Memory} (hv : n.Veiled D g m) (hm : m.words.size = h.memory.words.size) {bits : StartBits}
    (hb : bits.cells.size = h.spaces.bits.cells.size) (zero : Bool) :
    ∃ n' m' bits', h.source.release n bits zero = .ok ({ h.source with isFrom := false }, n', bits') ∧
      h.source.release m bits zero = .ok ({ h.source with isFrom := false }, m', bits') ∧
      (∀ i, m'.word i = if zero = true ∧ h.InSource i then 0 else m.word i) ∧
      n'.Veiled D (fun i => if zero = true ∧ h.InSource i then 0 else g i) m' := by
  obtain ⟨bits', -, -, hspace⟩ := hl.release hb zero
  obtain ⟨m', hrelease, hsize, hmax, hword⟩ := hspace m hm
  obtain ⟨n', hrelease', hsize', hmax', hword'⟩ := hspace n (hv.size.trans hm)
  refine ⟨n', m', bits', hrelease', hrelease, hword, ?_⟩
  exact
    { size := (hsize'.trans hv.size).trans hsize.symm
      maxPages := (hmax'.trans hv.maxPages).trans hmax.symm
      off := fun i hi => by rw [hword, hword', hv.off i hi]
      on := fun i hi => by rw [hword', hv.on i hi] }

end Heap

end CopyingHeap
