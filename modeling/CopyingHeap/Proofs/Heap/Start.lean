import CopyingHeap.Proofs.Heap.History

/-!
The accounts of a heap that has just been built, on whatever memory: both spaces are free, and nothing is
counted yet.
-/

namespace CopyingHeap

namespace Heap

/-- What is built has nothing in it, and nothing is accounted for. -/
structure Unused (options : Options) (bytes : Nat) (h : Heap) : Prop where
  options_eq : h.options = options
  spanned : h.Spanned
  capacity : h.capacity = Size.alignDown (bytes / 2) Size.wordBytes
  cursor : h.bump.cursor = h.spaces.active.start
  statistics : h.statistics = Statistics.initial
  recent : h.recent = 0

theorem split_eq_ok {base : Address} {extent : Nat} {s : Semispaces}
    (hs : Semispaces.split base extent = .ok s) : s.active.start = base ∧ s.active.extent = extent ∧
      s.scratch.extent = extent ∧ base.add extent = .ok s.scratch.start := by
  unfold Semispaces.split at hs
  split at hs
  · obtain ⟨middle, hmiddle, hs⟩ := bind_eq_ok_iff.mp hs
    obtain ⟨stop, -, hs⟩ := bind_eq_ok_iff.mp hs
    obtain ⟨bits, -, hs⟩ := bind_eq_ok_iff.mp hs
    cases hs
    exact ⟨rfl, rfl, rfl, hmiddle⟩
  · nomatch hs

theorem unused_build (options : Options) (m : Memory) (stackBase heapBase : Address) (bytes : Nat) :
    Ends (build options m stackBase heapBase bytes) (Unused options bytes) fun _ => True := by
  unfold build
  split
  · trivial
  split
  · trivial
  split
  · trivial
  generalize hbytes : Size.alignDown (bytes / 2) Size.wordBytes = extent
  dsimp only
  split
  · trivial
  rename_i heapStop hstop
  rw [Address.add?_eq_some_iff] at hstop
  have hlt := heapStop.toNat_lt
  apply Ends.bind_forall
  rintro (refusal | m)
  · trivial
  apply Ends.bind_eq
  intro spaces hsplit
  apply Ends.bind_eq
  intro stop hspaces
  apply Ends.bind_eq
  intro bump hbump
  apply Ends.bind_forall
  intro stack
  obtain ⟨hle, rfl⟩ := Bump.spanning_eq_ok_iff.mp hbump
  obtain ⟨hstart, hextent, hscratch, hmiddle⟩ := split_eq_ok hsplit
  have hmiddle := Address.add_eq_ok_iff.mp hmiddle
  have hlimit := Address.add_eq_ok_iff.mp hspaces
  rw [Nat.mod_eq_of_lt (by omega)] at hmiddle
  rw [hstart, hextent, Nat.mod_eq_of_lt (by omega)] at hlimit
  exact
    { options_eq := rfl
      spanned :=
        { extent_eq := hscratch.trans hextent.symm
          active_lt := by dsimp only; rw [hstart, hextent]; omega
          scratch_lt := by dsimp only; rw [hextent]; omega
          limit := by dsimp only; rw [hstart, hextent]; exact hlimit
          start_le := Nat.le_refl _
          cursor_le := hle }
      capacity := hextent.trans hbytes.symm
      cursor := rfl
      statistics := rfl
      recent := rfl }

end Heap

end CopyingHeap
