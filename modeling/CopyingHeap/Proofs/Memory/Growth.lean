import CopyingHeap.Proofs.Memory.Words

/-!
Growth of a memory, word by word. What lies beyond the end of a memory reads as zero, and so do new
pages: growing changes no word.
-/

namespace CopyingHeap

namespace Memory

variable {m : Memory}

theorem Paged.bytes_eq (h : m.Paged) : m.bytes = 4 * m.words.size := by
  have hs := h.size_le
  rw [bytes, Size.ofWords_eq (by omega)]

theorem Paged.pages_eq (h : m.Paged) : m.pages = m.words.size / 0x4000 := by
  rw [Memory.pages, h.bytes_eq, Size.pageBytes]
  omega

theorem Paged.limitPages (h : m.Paged) (n : Nat) : (m.limitPages n).Paged := by
  obtain ⟨p, hp, hle⟩ := h.pages
  have hmax := h.maximum
  have hpages := h.pages_eq
  refine ⟨⟨p, hp, ?_⟩, ?_⟩
  · show p ≤ max m.pages (min n m.maxPages)
    omega
  · show max m.pages (min n m.maxPages) ≤ 0xFFFF
    omega

theorem word_of_size_le {i : Nat} (h : m.words.size ≤ i) : m.word i = 0 := by
  simp [word, h]

theorem word_resize (m : Memory) (pages i : Nat) : (m.resize pages).word i = m.word i := by
  rcases Nat.lt_or_ge i m.words.size with hi | hi
  · exact word_eq_of_getElem? ((getElem?_resize hi).trans (getElem?_eq_word hi))
  · rw [word_of_size_le hi]
    rcases Nat.lt_or_ge i (m.resize pages).words.size with hj | hj
    · exact word_eq_of_getElem? (getElem?_resize_new hi hj)
    · exact word_of_size_le hj

/-- Growing a memory up to an address beyond its end fails only if the host refuses. -/
theorem Paged.ensure (h : m.Paged) (a : Address) :
    (∃ refusal, m.ensure a = .ok (.error refusal) ∧ 4 * m.words.size < a.toNat) ∨
      ∃ n, m.ensure a = .ok (.ok n) ∧ n.Paged ∧ a.toNat ≤ 4 * n.words.size ∧
        m.words.size ≤ n.words.size ∧ ∀ i, n.word i = m.word i := by
  have hsize := h.size_le
  have hpages := h.pages_eq
  obtain ⟨p, hp, hle⟩ := h.pages
  have hmax := h.maximum
  have ha := a.toNat_lt
  unfold Memory.ensure
  by_cases hstop : a ≤ m.stop
  · rw [if_pos hstop]
    rw [Address.le_iff, toNat_stop h] at hstop
    exact .inr ⟨m, rfl, h, hstop, Nat.le_refl _, fun _ => rfl⟩
  · rw [if_neg hstop]
    rw [Address.le_iff, toNat_stop h] at hstop
    have hup : Size.pagesUp a.toNat = .ok ((a.toNat + 0x10000 - 1) / 0x10000) := by
      rw [Size.pagesUp, Size.pageBytes, Size.add_eq_ok (by omega)]
      rfl
    rw [hup, ok_bind, grow, Size.add_eq_ok (by omega), ok_bind]
    split
    · exact .inl ⟨_, rfl, Nat.not_le.mp hstop⟩
    · rename_i hfits
      have hnew : (m.resize (m.pages + ((a.toNat + 0x10000 - 1) / 0x10000 - m.pages))).words.size =
          0x4000 * ((a.toNat + 0x10000 - 1) / 0x10000) := by
        rw [size_resize, Size.ofPages, Size.pageBytes, Size.wordBytes, Size.bound]
        omega
      refine .inr ⟨_, rfl, ⟨⟨_, hnew, ?_⟩, ?_⟩, ?_, ?_, word_resize m _⟩
      · rw [maxPages_resize]
        omega
      · rw [maxPages_resize]
        exact hmax
      · rw [hnew]
        omega
      · rw [hnew]
        omega

end Memory

end CopyingHeap
