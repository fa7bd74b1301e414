import CopyingHeap.Proofs.Effect
import CopyingHeap.Proofs.Memory.Growth

/-!
The limit of a memory. A growth succeeds exactly if the maximum allows it, and a refusal leaves the
memory as it was. The number of pages asked for is a count of 64 bits, so a growth beyond that faults;
growing up to an address never does.
-/

namespace CopyingHeap

open Effect

namespace Memory

/-- The number of pages that the first `bytes` bytes take. -/
def pagesFor (bytes : Nat) : Nat :=
  (bytes + 0xFFFF) / 0x10000

variable {m : Memory} {delta : Nat} {a : Address}

theorem Paged.resize_pages (h : m.Paged) : m.resize m.pages = m := by
  have hpages := h.pages_eq
  have hsize := h.size_le
  have hnone : Size.ofPages m.pages / Size.wordBytes - m.words.size = 0 := by
    unfold Size.ofPages Size.pageBytes Size.wordBytes Size.bound
    omega
  cases m
  dsimp only [resize] at hnone ⊢
  rw [hnone, Array.replicate_zero, Array.append_empty]

theorem Paged.size_eq (h : m.Paged) : m.words.size = 0x4000 * m.pages := by
  have hpages := h.pages_eq
  obtain ⟨p, hp, -⟩ := h.pages
  omega

theorem Paged.size_resize {pages : Nat} (h : m.Paged) (hle : m.pages ≤ pages)
    (hmax : pages ≤ m.maxPages) : (m.resize pages).words.size = 0x4000 * pages := by
  have hsize := h.size_eq
  have hbound := h.maximum
  rw [Memory.size_resize, Size.ofPages, Size.pageBytes, Size.wordBytes, Size.bound]
  omega

theorem Paged.pages_le (h : m.Paged) : m.pages ≤ m.maxPages := by
  have hsize := h.size_eq
  obtain ⟨p, hp, hle⟩ := h.pages
  omega

theorem growing_fits (h : m.Paged) (hfits : m.pages + delta ≤ m.maxPages) :
    (growing delta).run m = .ok (.ok m.pages) (m.resize (m.pages + delta)) := by
  have hmax := h.maximum
  unfold growing
  rw [run_get_bind, Size.add_eq_ok (by omega), run_check_bind, if_neg (Nat.not_lt.mpr hfits)]
  rfl

theorem growing_refused (hexceeds : m.maxPages < m.pages + delta)
    (hcount : m.pages + delta < 0x10000000000000000) :
    (growing delta).run m = .ok (.error ⟨m.pages + delta, m.maxPages⟩) m := by
  unfold growing
  rw [run_get_bind, Size.add_eq_ok hcount, run_check_bind, if_pos hexceeds]
  rfl

theorem growing_overflow (hcount : 0x10000000000000000 ≤ m.pages + delta) :
    (growing delta).run m = .error .overflow m := by
  unfold growing
  rw [run_get_bind, Size.add_eq_error hcount]
  rfl

/-- A growth that returns has fitted, or it has been refused and changed nothing. -/
theorem growing_cases (h : m.Paged) {answer : Except GrowError Nat} {n : Memory}
    (hrun : (growing delta).run m = .ok answer n) :
    (m.pages + delta ≤ m.maxPages ∧ answer = .ok m.pages ∧ n = m.resize (m.pages + delta)) ∨
    (m.maxPages < m.pages + delta ∧ answer = .error ⟨m.pages + delta, m.maxPages⟩ ∧ n = m) := by
  rcases Nat.lt_or_ge m.maxPages (m.pages + delta) with hexceeds | hfits
  · rcases Nat.lt_or_ge (m.pages + delta) 0x10000000000000000 with hcount | hcount
    · rw [growing_refused hexceeds hcount] at hrun
      cases hrun
      exact .inr ⟨hexceeds, rfl, rfl⟩
    · rw [growing_overflow hcount] at hrun
      nomatch hrun
  · rw [growing_fits h hfits] at hrun
    cases hrun
    exact .inl ⟨hfits, rfl, rfl⟩

theorem pagesUp_toNat (a : Address) : Size.pagesUp a.toNat = .ok (pagesFor a.toNat) := by
  have ha := a.toNat_lt
  rw [Size.pagesUp, Size.pageBytes, Size.add_eq_ok (by omega)]
  rfl

theorem Paged.stop_le (h : m.Paged) : a ≤ m.stop ↔ pagesFor a.toNat ≤ m.pages := by
  have hsize := h.size_eq
  rw [Address.le_iff, toNat_stop h, pagesFor]
  omega

theorem ensuring_fits (h : m.Paged) (hfits : pagesFor a.toNat ≤ m.maxPages) :
    (ensuring a).run m = .ok (.ok ()) (m.resize (max m.pages (pagesFor a.toNat))) := by
  unfold ensuring
  rw [run_get_bind]
  by_cases hstop : a ≤ m.stop
  · rw [if_pos hstop, Nat.max_eq_left (h.stop_le.mp hstop), h.resize_pages]
    rfl
  · have hpages := mt h.stop_le.mpr hstop
    rw [if_neg hstop, pagesUp_toNat, run_check_bind, run_bind_ok _ (growing_fits h (by omega)),
      Nat.max_eq_right (by omega), Nat.add_sub_cancel' (by omega)]
    rfl

theorem ensuring_refused (h : m.Paged) (hexceeds : m.maxPages < pagesFor a.toNat) :
    (ensuring a).run m = .ok (.error ⟨pagesFor a.toNat, m.maxPages⟩) m := by
  have ha := a.toNat_lt
  have hle := h.pages_le
  have hstop : ¬ a ≤ m.stop := mt h.stop_le.mp (by omega)
  have hsum : m.pages + (pagesFor a.toNat - m.pages) = pagesFor a.toNat := by omega
  have hcount : pagesFor a.toNat < 0x10000000000000000 := by
    unfold pagesFor
    omega
  unfold ensuring
  rw [run_get_bind, if_neg hstop, pagesUp_toNat, run_check_bind,
    run_bind_ok _ (growing_refused (by omega) (by omega)), hsum]
  rfl

theorem ensuring_cases (h : m.Paged) {answer : Except GrowError Unit} {n : Memory}
    (hrun : (ensuring a).run m = .ok answer n) :
    (pagesFor a.toNat ≤ m.maxPages ∧ answer = .ok () ∧
      n = m.resize (max m.pages (pagesFor a.toNat))) ∨
    (m.maxPages < pagesFor a.toNat ∧ answer = .error ⟨pagesFor a.toNat, m.maxPages⟩ ∧ n = m) := by
  rcases Nat.lt_or_ge m.maxPages (pagesFor a.toNat) with hexceeds | hfits
  · rw [ensuring_refused h hexceeds] at hrun
    cases hrun
    exact .inr ⟨hexceeds, rfl, rfl⟩
  · rw [ensuring_fits h hfits] at hrun
    cases hrun
    exact .inl ⟨hfits, rfl, rfl⟩

theorem ensure_fits (h : m.Paged) (hfits : pagesFor a.toNat ≤ m.maxPages) :
    m.ensure a = .ok (.ok (m.resize (max m.pages (pagesFor a.toNat)))) := by
  rw [ensure_told, ensuring_fits h hfits]
  rfl

theorem ensure_refused (h : m.Paged) (hexceeds : m.maxPages < pagesFor a.toNat) :
    m.ensure a = .ok (.error ⟨pagesFor a.toNat, m.maxPages⟩) := by
  rw [ensure_told, ensuring_refused h hexceeds]
  rfl

end Memory

end CopyingHeap
