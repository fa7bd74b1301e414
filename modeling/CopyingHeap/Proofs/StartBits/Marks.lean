import CopyingHeap.Proofs.StartBits

/-!
Start bits over a run of changes. A bit is set exactly if its address has been set and not been cleared
since, and clearing a range leaves the bitmap that clearing the words of the range one by one does.
-/

namespace CopyingHeap

namespace StartBits

/-- A change to a bitmap. -/
inductive Change where
  | set (a : Address)
  | clear (a : Address)
  | clearRange (start stop : Address)
  | ensureCovers (bytes : Nat)
  deriving DecidableEq

namespace Change

def apply (c : Change) (b : StartBits) : Except Fault StartBits :=
  match c with
  | set a => b.set a
  | clear a => b.clear a
  | clearRange start stop => b.clearRange start stop
  | ensureCovers bytes => b.ensureCovers bytes

def Clears (a : Address) : Change → Prop
  | clear x => x = a
  | clearRange start stop => start ≤ a ∧ a < stop
  | set _ | ensureCovers _ => False

instance (a : Address) : (c : Change) → Decidable (c.Clears a)
  | clear x => inferInstanceAs (Decidable (x = a))
  | clearRange start stop => inferInstanceAs (Decidable (start ≤ a ∧ a < stop))
  | set _ | ensureCovers _ => .isFalse id

/-- The number of cells after the change, if there are `n` before it. -/
def cells (n : Nat) : Change → Nat
  | ensureCovers bytes => max n ((bytes + 255) / 256)
  | set _ | clear _ | clearRange _ _ => n

/-- The change has to do with the first `n` cells only. A range also ends a page below the end of the
address space, so that the end of each of its cells is an address. -/
def Inside (n : Nat) : Change → Prop
  | set a | clear a => a.WordAligned ∧ a.toNat < 256 * n
  | clearRange start stop =>
    start.WordAligned ∧ stop.toNat ≤ 256 * n ∧ stop.toNat ≤ 0xFFFF0000
  | ensureCovers bytes => bytes ≤ 0x100000000

instance (n : Nat) : (c : Change) → Decidable (c.Inside n)
  | set _ | clear _ | clearRange _ _ => inferInstanceAs (Decidable (_ ∧ _))
  | ensureCovers bytes => inferInstanceAs (Decidable (bytes ≤ 0x100000000))

end Change

/-- Makes the changes in turn. -/
def applyAll (b : StartBits) (cs : List Change) : Except Fault StartBits :=
  cs.foldlM (fun b c => c.apply b) b

/-- Every change has to do only with the cells that there are when it is made, `n` of them at first. -/
def AllInside : Nat → List Change → Prop
  | _, [] => True
  | n, c :: cs => c.Inside n ∧ AllInside (c.cells n) cs

instance decidableAllInside : (n : Nat) → (cs : List Change) → Decidable (AllInside n cs)
  | _, [] => .isTrue trivial
  | n, c :: cs =>
    have := decidableAllInside (c.cells n) cs
    inferInstanceAs (Decidable (_ ∧ _))

/-- The address has been set, and not been cleared since. -/
def Marked (cs : List Change) (a : Address) : Prop :=
  ∃ before after, cs = before ++ .set a :: after ∧ ∀ c ∈ after, ¬ c.Clears a

variable {b : StartBits} {a : Address}

theorem marked_cons {c : Change} {cs : List Change} :
    Marked (c :: cs) a ↔ (c = .set a ∧ ∀ d ∈ cs, ¬ d.Clears a) ∨ Marked cs a := by
  constructor
  · rintro ⟨_ | ⟨d, before⟩, after, heq, hafter⟩
    · obtain ⟨rfl, rfl⟩ := List.cons.inj heq
      exact .inl ⟨rfl, hafter⟩
    · obtain ⟨rfl, rfl⟩ := List.cons.inj heq
      exact .inr ⟨before, after, rfl, hafter⟩
  · rintro (⟨rfl, hcs⟩ | ⟨before, after, rfl, hafter⟩)
    · exact ⟨[], cs, rfl, hcs⟩
    · exact ⟨c :: before, after, rfl, hafter⟩

theorem not_marked_nil : ¬ Marked [] a := by
  rintro ⟨before, after, heq, -⟩
  simp at heq

instance decidableMarked : (cs : List Change) → Decidable (Marked cs a)
  | [] => .isFalse not_marked_nil
  | _ :: cs =>
    have := decidableMarked cs
    decidable_of_iff _ marked_cons.symm

/-- One change inside the cells is made, and adds or removes the addresses that it names. -/
theorem Change.apply_eq_ok {c : Change} (h : c.Inside b.cells.size) :
    ∃ d, c.apply b = .ok d ∧ d.cells.size = c.cells b.cells.size ∧
      ∀ x, d.isSet x = true ↔ c = .set x ∨ b.isSet x = true ∧ ¬ c.Clears x := by
  cases c with
  | set a =>
    obtain ⟨ha, hlt⟩ := h
    obtain ⟨d, hd, hsize, hset⟩ := set_eq_ok (n := 256 * b.cells.size) (Nat.le_refl _) hlt ha
    refine ⟨d, hd, hsize, fun x => ?_⟩
    rw [hset, Change.set.injEq, or_comm, @eq_comm _ a x]
    exact or_congr_right (and_iff_left id).symm
  | clear a =>
    obtain ⟨ha, hlt⟩ := h
    obtain ⟨d, hd, hsize, hset⟩ := clear_eq_ok (n := 256 * b.cells.size) (Nat.le_refl _) hlt ha
    refine ⟨d, hd, hsize, fun x => ?_⟩
    rw [hset, Change.Clears, Ne, @eq_comm _ x a]
    exact (or_iff_right nofun).symm
  | clearRange start stop =>
    obtain ⟨ha, hle, hpage⟩ := h
    obtain ⟨d, hd, hsize, hset⟩ := clearRange_spec hle hpage (Nat.le_refl _) ha
    refine ⟨d, hd, hsize, fun x => ?_⟩
    rw [hset]
    exact (or_iff_right nofun).symm
  | ensureCovers bytes =>
    refine ⟨_, ensureCovers_eq h, size_extend b _, fun x => ?_⟩
    rw [isSet_extend]
    exact (and_iff_left id).symm.trans (or_iff_right nofun).symm

/-- A change never leaves more cells than the address space has. -/
theorem Change.cells_le {c : Change} {n : Nat} (hn : n ≤ 0x1000000) (h : c.Inside n) :
    c.cells n ≤ 0x1000000 := by
  cases c with
  | ensureCovers bytes =>
    change bytes ≤ 0x100000000 at h
    change max n ((bytes + 255) / 256) ≤ 0x1000000
    omega
  | set a => exact hn
  | clear a => exact hn
  | clearRange start stop => exact hn

/-- Changes inside the cells are all made. A bit is then set if it was marked on the way, or was set
before and never cleared. -/
theorem applyAll_eq_ok {cs : List Change} (hsmall : b.cells.size ≤ 0x1000000)
    (h : AllInside b.cells.size cs) :
    ∃ d, b.applyAll cs = .ok d ∧ d.cells.size ≤ 0x1000000 ∧
      ∀ x, d.isSet x = true ↔ Marked cs x ∨ b.isSet x = true ∧ ∀ c ∈ cs, ¬ c.Clears x := by
  induction cs generalizing b with
  | nil =>
    refine ⟨b, rfl, hsmall, fun x => ?_⟩
    simp [not_marked_nil]
  | cons c cs ih =>
    obtain ⟨hc, hcs⟩ := h
    obtain ⟨b', hb', hsize, hset⟩ := Change.apply_eq_ok hc
    obtain ⟨d, hd, hdsmall, hmarked⟩ := ih (hsize ▸ Change.cells_le hsmall hc) (hsize ▸ hcs)
    refine ⟨d, ?_, hdsmall, fun x => ?_⟩
    · rw [applyAll, List.foldlM_cons, hb', ok_bind]
      exact hd
    · rw [hmarked, hset, marked_cons, List.forall_mem_cons, or_and_right, and_assoc, ← or_assoc,
        @or_comm (Marked cs x)]

/-- Two bitmaps of cells in the address space are equal if the same bits are set. -/
theorem ext_isSet {c : StartBits} (hsize : c.cells.size = b.cells.size)
    (hsmall : b.cells.size ≤ 0x1000000) (h : ∀ x, c.isSet x = true ↔ b.isSet x = true) : c = b := by
  obtain ⟨bs⟩ := b
  obtain ⟨cs⟩ := c
  dsimp only at hsize hsmall
  congr 1
  apply Array.ext hsize
  intro i hi hi'
  apply BitVec.eq_of_getLsbD_eq
  intro j hj
  have hword := (Address.toNat_ofNat (256 * i + 4 * j)).trans (Nat.mod_eq_of_lt (by omega))
  generalize Address.ofNat (256 * i + 4 * j) = a at hword
  have haligned : a.WordAligned := by
    unfold Address.WordAligned
    omega
  have hcell : cellIndex a = i := by
    unfold cellIndex
    omega
  have hbit : bitIndex a = j := by
    unfold bitIndex
    omega
  have hsame := h a
  rw [isSet_eq_true_iff, isSet_eq_true_iff, and_iff_right haligned, and_iff_right haligned, hcell, hbit,
    ← Bool.eq_iff_iff] at hsame
  simpa [Array.getD_eq_getD_getElem?, hi, hi'] using hsame

/-- The addresses of the words that start in the range, whose start is aligned. -/
def wordStarts (start stop : Address) : List Address :=
  (List.range' (start.toNat / 4) (start.wordsBetween stop)).map fun i => .ofNat (4 * i)

theorem mem_wordStarts {start stop : Address} (hstart : start.WordAligned) :
    a ∈ wordStarts start stop ↔ a.WordAligned ∧ start ≤ a ∧ a < stop := by
  have hlt := stop.toNat_lt
  have hstarts := start.toNat_lt
  unfold Address.WordAligned at hstart
  rw [wordStarts, Address.wordsBetween, mem_words (by omega), Address.le_iff, Address.lt_iff]
  refine and_congr_right fun ha => ?_
  unfold Address.WordAligned at ha
  omega

theorem pairwise_wordStarts (start stop : Address) : (wordStarts start stop).Pairwise (· < ·) := by
  have hstart := start.toNat_lt
  have hstop := stop.toNat_lt
  apply pairwise_words
  unfold Address.wordsBetween
  omega

/-- Clearing bits one by one removes exactly their addresses. -/
theorem clearEach_eq_ok {as : List Address}
    (h : ∀ a ∈ as, a.WordAligned ∧ a.toNat < 256 * b.cells.size) :
    ∃ c, as.foldlM clear b = .ok c ∧ c.cells.size = b.cells.size ∧
      ∀ x, c.isSet x = true ↔ b.isSet x = true ∧ x ∉ as := by
  induction as generalizing b with
  | nil => exact ⟨b, rfl, rfl, fun x => by simp⟩
  | cons a as ih =>
    obtain ⟨⟨ha, hlt⟩, has⟩ := List.forall_mem_cons.mp h
    obtain ⟨c, hc, hsize, hclear⟩ := clear_eq_ok (n := 256 * b.cells.size) (Nat.le_refl _) hlt ha
    obtain ⟨d, hd, hdsize, hrest⟩ := ih (b := c) (hsize ▸ has)
    refine ⟨d, ?_, hdsize.trans hsize, fun x => ?_⟩
    · rw [List.foldlM_cons, hc, ok_bind]
      exact hd
    · rw [hrest, hclear, List.mem_cons, not_or, and_assoc]

/-- Whole cells and single bits make no difference: clearing a range is clearing its words in turn. -/
theorem clearRange_eq_clearEach {start stop : Address} (hsmall : b.cells.size ≤ 0x1000000)
    (hstart : start.WordAligned) (hstop : stop.toNat ≤ 256 * b.cells.size)
    (hpage : stop.toNat ≤ 0xFFFF0000) :
    ∃ c, b.clearRange start stop = .ok c ∧ (wordStarts start stop).foldlM clear b = .ok c ∧
      ∀ x, c.isSet x = true ↔ b.isSet x = true ∧ ¬ (start ≤ x ∧ x < stop) := by
  obtain ⟨c, hc, hsize, hset⟩ := clearRange_spec hstop hpage (Nat.le_refl _) hstart
  have hinside : ∀ a ∈ wordStarts start stop, a.WordAligned ∧ a.toNat < 256 * b.cells.size := by
    intro a ha
    obtain ⟨haligned, -, hlt⟩ := (mem_wordStarts hstart).mp ha
    exact ⟨haligned, Nat.lt_of_lt_of_le (Address.lt_iff.mp hlt) hstop⟩
  obtain ⟨d, hd, hdsize, hdset⟩ := clearEach_eq_ok hinside
  have hdc : d = c := by
    apply ext_isSet (hdsize.trans hsize.symm) (hsize ▸ hsmall)
    intro x
    rw [hdset, hset, mem_wordStarts hstart]
    refine and_congr_right fun hx => ?_
    rw [and_iff_right (isSet_eq_true_iff.mp hx).1]
  exact ⟨c, hc, hdc ▸ hd, hset⟩

/-- The bitmap holds the addresses that the changes have marked, and no others. Clearing a range removes
its addresses, along whichever path; covering more memory adds cells and changes no bit. -/
structure Tracks (b : StartBits) (cs : List Change) : Prop where
  isSet_iff : ∀ a, b.isSet a = true ↔ Marked cs a
  inside : ∀ a, b.isSet a = true → a.WordAligned ∧ cellIndex a < b.cells.size
  clearRange : ∀ start stop, (Change.clearRange start stop).Inside b.cells.size →
    ∃ c, b.clearRange start stop = .ok c ∧ (wordStarts start stop).foldlM clear b = .ok c ∧
      ∀ a, c.isSet a = true ↔ b.isSet a = true ∧ ¬ (start ≤ a ∧ a < stop)
  ensureCovers : ∀ bytes, bytes ≤ 0x100000000 → ∃ c, b.ensureCovers bytes = .ok c ∧
    (∀ a, c.isSet a = b.isSet a) ∧ ∀ a : Address, a.toNat < bytes → cellIndex a < c.cells.size

/-- From a bitmap for the first `bytes` bytes, changes inside the cells are all made, without a fault,
and the bitmap tracks them. -/
theorem covering_tracks {bytes : Nat} (hbytes : bytes ≤ 0x100000000) {cs : List Change}
    (h : AllInside ((bytes + 255) / 256) cs) :
    ∃ b c, covering bytes = .ok b ∧ b.applyAll cs = .ok c ∧ c.Tracks cs := by
  have hb : covering bytes = .ok ((⟨#[]⟩ : StartBits).extend ((bytes + 255) / 256)) :=
    ensureCovers_eq hbytes
  have hsize := size_extend ⟨#[]⟩ ((bytes + 255) / 256)
  rw [Array.size_empty, Nat.zero_max] at hsize
  have hempty (a : Address) := (isSet_extend ⟨#[]⟩ ((bytes + 255) / 256) a).trans (isSet_empty a)
  generalize StartBits.extend ⟨#[]⟩ ((bytes + 255) / 256) = b at hb hsize hempty
  obtain ⟨c, hc, hsmall, hset⟩ := applyAll_eq_ok (b := b) (by omega) (hsize ▸ h)
  refine ⟨b, c, hb, hc, ?_⟩
  exact
    { isSet_iff := fun a => by
        rw [hset, hempty]
        exact or_iff_left fun hno => nomatch hno.1
      inside := fun a ha => ⟨(isSet_eq_true_iff.mp ha).1, cellIndex_lt_of_isSet ha⟩
      clearRange := fun start stop ⟨hstart, hstop, hpage⟩ =>
        clearRange_eq_clearEach hsmall hstart hstop hpage
      ensureCovers := fun more hmore => by
        refine ⟨_, ensureCovers_eq hmore, fun a => isSet_extend c _ a, fun a ha => ?_⟩
        rw [size_extend]
        unfold cellIndex
        omega }

/-- A range that starts and ends inside a cell, with a whole cell between. -/
theorem covering_tracks_three :
    let cs : List Change := [.set (.ofNat 508), .set (.ofNat 516), .ensureCovers 2000,
      .set (.ofNat 1536), .set (.ofNat 252), .clearRange (.ofNat 252) (.ofNat 516)]
    AllInside 3 cs ∧ ∃ b c, covering 520 = .ok b ∧ b.applyAll cs = .ok c ∧
      c.isSet (.ofNat 508) = false ∧ c.isSet (.ofNat 252) = false ∧
      c.isSet (.ofNat 516) = true ∧ c.isSet (.ofNat 1536) = true := by
  intro cs
  have hinside : AllInside 3 cs := by decide
  have hbytes : 520 ≤ 0x100000000 := by decide
  obtain ⟨b, c, hb, hc, ht⟩ := covering_tracks hbytes hinside
  refine ⟨hinside, b, c, hb, hc, ?_, ?_, ?_, ?_⟩
  · rw [Bool.eq_false_iff, Ne, ht.isSet_iff]
    decide
  · rw [Bool.eq_false_iff, Ne, ht.isSet_iff]
    decide
  · rw [ht.isSet_iff]
    decide
  · rw [ht.isSet_iff]
    decide

end StartBits

end CopyingHeap
