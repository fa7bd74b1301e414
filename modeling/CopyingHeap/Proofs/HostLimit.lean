import CopyingHeap.Proofs.Memory.Limit
import CopyingHeap.Proofs.SymbolTable

/-!
What happens at the limit of the host. A request for memory that the maximum does not allow is refused,
and nothing changes. There is one exception: the number of pages that is asked for has to be a count of
64 bits and the end of a symbol has to be an address, and a request beyond these is a fault.
-/

namespace CopyingHeap

open Effect

theorem Size.objectBytes_mod_four (bytes : Nat) : objectBytes bytes % 4 = 0 := by
  have hround : alignUp bytes 4 % 4 = 0 := alignDown_mod_four _
  unfold objectBytes minObjectBytes wordBytes
  omega

theorem Kind.size_mod_four {k : Kind} {length bytes : Nat} (h : k.size length = .ok bytes) :
    bytes % 4 = 0 := by
  cases k with
  | array | symbol | string =>
    obtain ⟨content, -, h⟩ := bind_eq_ok_iff.mp h
    cases h
    exact Size.objectBytes_mod_four _
  | integer | float | char | listNode =>
    cases h
    exact Size.objectBytes_mod_four _

namespace SymbolTable

variable {t t' : SymbolTable} {m m' : Memory} {name : String} {r : Reference}

/-- The tables that interning builds, each name in whatever memory it was given. -/
inductive Built : SymbolTable → Prop
  | start {start : Address} {t : SymbolTable} : startingAt start = .ok t → Built t
  | interned {t t' : SymbolTable} {m m' : Memory} {name : String} {r : Reference} :
    Built t → t.intern m name = .ok (.ok (r, t', m')) → Built t'

theorem startingAt_aligned {start : Address} (h : startingAt start = .ok t) : t.stop.WordAligned := by
  unfold startingAt at h
  split at h
  · rename_i hstart
    cases h
    exact hstart.1
  · cases h

theorem interning_overflow (hnew : t.find? name = none) (hwords : 4 * symbolWords name < 0x100000000)
    (hstop : 0x100000000 ≤ t.stop.toNat + 4 * symbolWords name) :
    (interning name).run (t, m) = .error .overflow (t, m) := by
  have hlen : (nameBytes name).length < 0x100000000 := by
    rw [symbolWords_eq] at hwords
    omega
  have hadd : t.stop.add (4 * symbolWords name) = .error .overflow :=
    Address.add_eq_error_iff.mpr ⟨by omega, rfl⟩
  unfold interning
  rw [run_get_bind]
  dsimp only
  rw [hnew]
  dsimp only
  rw [Kind.size_eq .symbol hlen, run_check_bind, ← symbolWords, hadd]
  rfl

theorem interning_refused (hm : m.Paged) (hnew : t.find? name = none)
    (hstop : t.stop.toNat + 4 * symbolWords name < 0x100000000)
    (hexceeds : m.maxPages < Memory.pagesFor (t.stop.toNat + 4 * symbolWords name)) :
    (interning name).run (t, m) = .ok (.error
      ⟨Memory.pagesFor (t.stop.toNat + 4 * symbolWords name), m.maxPages⟩) (t, m) := by
  have hlen : (nameBytes name).length < 0x100000000 := by
    rw [symbolWords_eq] at hstop
    omega
  obtain ⟨stop, hadd, hnat⟩ : ∃ stop, t.stop.add (4 * symbolWords name) = .ok stop ∧
      stop.toNat = t.stop.toNat + 4 * symbolWords name := Address.exists_add hstop
  rw [← hnat] at hexceeds ⊢
  unfold interning
  rw [run_get_bind]
  dsimp only
  rw [hnew]
  dsimp only
  rw [Kind.size_eq .symbol hlen, run_check_bind, ← symbolWords, hadd, run_check_bind,
    run_bind_ok _ (run_onSecond_ok t (Memory.ensuring_refused hm hexceeds))]
  rfl

/-- A refusal comes before the first change. -/
theorem interning_unchanged {refusal : GrowError} (hm : m.Paged)
    (h : t.intern m name = .ok (.error refusal)) :
    (interning name).run (t, m) = .ok (.error refusal) (t, m) := by
  unfold interning
  unfold intern at h
  rw [run_get_bind]
  dsimp only
  cases hfind : t.find? name with
  | some r =>
    rw [hfind] at h
    cases h
  | none =>
    rw [hfind] at h
    obtain ⟨bytes, hbytes, h⟩ := bind_eq_ok_iff.mp h
    obtain ⟨stop, hstop, h⟩ := bind_eq_ok_iff.mp h
    dsimp only
    rw [hbytes, run_check_bind, hstop, run_check_bind]
    rcases Nat.lt_or_ge m.maxPages (Memory.pagesFor stop.toNat) with hexceeds | hfits
    · rw [Memory.ensure_refused hm hexceeds] at h
      cases h
      rw [run_bind_ok _ (run_onSecond_ok t (Memory.ensuring_refused hm hexceeds))]
      rfl
    · rw [Memory.ensure_fits hm hfits, ok_bind] at h
      obtain ⟨n, -, h⟩ := bind_eq_ok_iff.mp h
      obtain ⟨symbol, -, h⟩ := bind_eq_ok_iff.mp h
      cases h

theorem interning_ok (h : t.intern m name = .ok (.ok (r, t', m'))) :
    (interning name).run (t, m) = .ok (.ok r) (t', m') :=
  of_granted ((intern_told t m name).symm.trans h)

namespace Built

theorem stop_aligned (ht : t.Built) : t.stop.WordAligned := by
  induction ht with
  | start h => exact startingAt_aligned h
  | @interned t t' m m' name r _ h ih =>
    unfold intern at h
    cases hfind : t.find? name with
    | some r =>
      rw [hfind] at h
      cases h
      exact ih
    | none =>
      rw [hfind] at h
      obtain ⟨bytes, hbytes, h⟩ := bind_eq_ok_iff.mp h
      obtain ⟨stop, hstop, h⟩ := bind_eq_ok_iff.mp h
      obtain ⟨grown, -, h⟩ := bind_eq_ok_iff.mp h
      cases grown with
      | error refusal => cases h
      | ok n =>
        obtain ⟨n', -, h⟩ := bind_eq_ok_iff.mp h
        obtain ⟨symbol, -, h⟩ := bind_eq_ok_iff.mp h
        cases h
        have hwords := Kind.size_mod_four hbytes
        rw [Address.add_eq_ok_iff] at hstop
        unfold Address.WordAligned at ih ⊢
        dsimp only
        omega

end Built

/-- A memory, and a table that has no symbol for the name, under the maximum of the host. -/
structure Limited (t : SymbolTable) (m : Memory) (name : String) : Prop where
  grow_fits : ∀ delta, m.pages + delta ≤ m.maxPages →
    m.grow delta = .ok (.ok (m.resize (m.pages + delta))) ∧
      (Memory.growing delta).run m = .ok (.ok m.pages) (m.resize (m.pages + delta))
  grow_refused : ∀ delta, m.maxPages < m.pages + delta → m.pages + delta < 0x10000000000000000 →
    m.grow delta = .ok (.error ⟨m.pages + delta, m.maxPages⟩) ∧
      (Memory.growing delta).run m = .ok (.error ⟨m.pages + delta, m.maxPages⟩) m
  grow_overflow : ∀ delta, 0x10000000000000000 ≤ m.pages + delta →
    m.grow delta = .error .overflow ∧ (Memory.growing delta).run m = .error .overflow m
  ensure_fits : ∀ a : Address, Memory.pagesFor a.toNat ≤ m.maxPages →
    m.ensure a = .ok (.ok (m.resize (max m.pages (Memory.pagesFor a.toNat)))) ∧
      (Memory.ensuring a).run m =
        .ok (.ok ()) (m.resize (max m.pages (Memory.pagesFor a.toNat)))
  ensure_refused : ∀ a : Address, m.maxPages < Memory.pagesFor a.toNat →
    m.ensure a = .ok (.error ⟨Memory.pagesFor a.toNat, m.maxPages⟩) ∧
      (Memory.ensuring a).run m = .ok (.error ⟨Memory.pagesFor a.toNat, m.maxPages⟩) m
  intern_iff : (∃ r t' m', t.intern m name = .ok (.ok (r, t', m'))) ↔
    t.stop.toNat + 4 * symbolWords name ≤ 0x10000 * m.maxPages
  intern_adds : ∀ r t' m', t.intern m name = .ok (.ok (r, t', m')) →
    t.Adds m name r t' m' ∧ (interning name).run (t, m) = .ok (.ok r) (t', m')
  intern_refused : 0x10000 * m.maxPages < t.stop.toNat + 4 * symbolWords name →
    t.stop.toNat + 4 * symbolWords name < 0x100000000 →
    t.intern m name = .ok (.error
        ⟨Memory.pagesFor (t.stop.toNat + 4 * symbolWords name), m.maxPages⟩) ∧
      (interning name).run (t, m) = .ok (.error
        ⟨Memory.pagesFor (t.stop.toNat + 4 * symbolWords name), m.maxPages⟩) (t, m)
  /-- The end of the symbol would not be an address. -/
  intern_overflow : 0x100000000 ≤ t.stop.toNat + 4 * symbolWords name →
    4 * symbolWords name < 0x100000000 →
    t.intern m name = .error .overflow ∧
      (interning name).run (t, m) = .error .overflow (t, m)
  intern_unchanged : ∀ refusal, t.intern m name = .ok (.error refusal) →
    (interning name).run (t, m) = .ok (.error refusal) (t, m)

theorem intern_of_refused {refusal : GrowError}
    (h : (interning name).run (t, m) = .ok (.error refusal) (t', m')) :
    t.intern m name = .ok (.error refusal) := by
  rw [intern_told, h]
  rfl

theorem intern_iff (hm : m.Paged) (ht : t.stop.WordAligned) (hnew : t.find? name = none) :
    (∃ r t' m', t.intern m name = .ok (.ok (r, t', m'))) ↔
      t.stop.toNat + 4 * symbolWords name ≤ 0x10000 * m.maxPages := by
  refine ⟨fun ⟨r, t', m', h⟩ => Nat.le_of_not_lt fun hexceeds => ?_, exists_intern hm ht⟩
  have hadds := adds_of_intern hm hnew h
  have hstop := hadds.stop
  have hlt := t'.stop.toNat_lt
  have hrefused := intern_of_refused (interning_refused hm hnew (by omega)
    (by unfold Memory.pagesFor; omega))
  rw [h] at hrefused
  cases hrefused

/-- A request that the host does not allow is refused and changes nothing. It is a fault if the number of
pages leaves 64 bits or the symbol the address space. -/
theorem Built.limited (ht : t.Built) (hm : m.Paged) (hnew : t.find? name = none) :
    t.Limited m name where
  grow_fits := fun delta h => by
    have hrun := Memory.growing_fits hm h
    refine ⟨?_, hrun⟩
    rw [Memory.grow_told, hrun]
    rfl
  grow_refused := fun delta hexceeds hcount => by
    have hrun := Memory.growing_refused hexceeds hcount
    refine ⟨?_, hrun⟩
    rw [Memory.grow_told, hrun]
    rfl
  grow_overflow := fun delta hcount => by
    have hrun := Memory.growing_overflow hcount
    refine ⟨?_, hrun⟩
    rw [Memory.grow_told, hrun]
    rfl
  ensure_fits := fun a h => ⟨Memory.ensure_fits hm h, Memory.ensuring_fits hm h⟩
  ensure_refused := fun a h => ⟨Memory.ensure_refused hm h, Memory.ensuring_refused hm h⟩
  intern_iff := intern_iff hm ht.stop_aligned hnew
  intern_adds := fun r t' m' h => ⟨adds_of_intern hm hnew h, interning_ok h⟩
  intern_refused := fun hexceeds hstop => by
    have hrun := interning_refused hm hnew hstop (by unfold Memory.pagesFor; omega)
    exact ⟨intern_of_refused hrun, hrun⟩
  intern_overflow := fun hstop hwords => by
    have hrun := interning_overflow (m := m) hnew hwords hstop
    refine ⟨?_, hrun⟩
    rw [intern_told, hrun]
    rfl
  intern_unchanged := fun refusal h => interning_unchanged hm h

/-- A memory of one page that may not grow, and a segment so near the end of the address space that no
symbol fits. -/
theorem limited_blank :
    Built ⟨.ofNat 0xFFFFFFF4, .ofNat 0xFFFFFFF4, []⟩ ∧ Heap.blank.Paged ∧
      Heap.blank.grow 1 = .ok (.error ⟨2, 1⟩) ∧
      Heap.blank.grow 0xFFFFFFFFFFFFFFFF = .error .overflow ∧
      Heap.blank.ensure (.ofNat 0x10001) = .ok (.error ⟨2, 1⟩) ∧
      intern ⟨.ofNat 0xFFFFFFF4, .ofNat 0xFFFFFFF4, []⟩ Heap.blank "q" = .error .overflow := by
  have hstart : startingAt (.ofNat 0xFFFFFFF4) =
      .ok ⟨.ofNat 0xFFFFFFF4, .ofNat 0xFFFFFFF4, []⟩ := rfl
  have hbuilt := Built.start hstart
  have hpages : Heap.blank.pages = 1 := by
    rw [Heap.paged_blank.pages_eq, Heap.size_blank]
  have hwords : symbolWords "q" = 3 := by decide +kernel
  have hlimited : Limited _ Heap.blank "q" := hbuilt.limited Heap.paged_blank rfl
  have hgrow := (hlimited.grow_refused 1 (by rw [hpages]; decide) (by rw [hpages]; decide)).1
  rw [hpages] at hgrow
  refine ⟨hbuilt, Heap.paged_blank, hgrow, (hlimited.grow_overflow _ (by rw [hpages])).1,
    (hlimited.ensure_refused _ (by decide)).1, (hlimited.intern_overflow ?_ ?_).1⟩
  · rw [hwords]
    decide
  · rw [hwords]
    decide

end SymbolTable

end CopyingHeap
