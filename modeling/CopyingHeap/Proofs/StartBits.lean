import CopyingHeap.Proofs.Outcome
import CopyingHeap.StartBits

/-!
Start bits as a set of addresses. Every operation inside the covered part of memory succeeds and
changes the set as its name says; clearing a range removes exactly the addresses in it, whether whole
cells or single bits are cleared.
-/

namespace CopyingHeap

namespace StartBits

/-- Are there cells for the first `bytes` bytes of memory? -/
def Covers (b : StartBits) (bytes : Nat) : Prop :=
  bytes ≤ 256 * b.cells.size

variable {b c : StartBits} {a : Address}

theorem checkAligned_eq_ok (ha : a.WordAligned) : checkAligned a = .ok () :=
  checkAligned_eq_ok_iff.mpr ha

theorem cellIndex_lt {n : Nat} (h : b.Covers n) (ha : a.toNat < n) :
    cellIndex a < b.cells.size := by
  unfold Covers at h
  unfold cellIndex
  omega

/-- A set bit lies in a cell of the bitmap. -/
theorem cellIndex_lt_of_isSet (h : b.isSet a = true) : cellIndex a < b.cells.size := by
  obtain ⟨-, hbit⟩ := isSet_eq_true_iff.mp h
  rcases Nat.lt_or_ge (cellIndex a) b.cells.size with hlt | hout
  · exact hlt
  · rw [Array.getD_eq_getD_getElem?, Array.getElem?_eq_none hout] at hbit
    simp at hbit

/-- The words with these indices start at the aligned addresses between two bounds. -/
theorem mem_words {i n : Nat} (h : i + n ≤ 0x40000000) :
    a ∈ (List.range' i n).map (fun j => Address.ofNat (4 * j)) ↔
      a.WordAligned ∧ 4 * i ≤ a.toNat ∧ a.toNat < 4 * (i + n) := by
  rw [List.mem_map, Address.WordAligned]
  constructor
  · rintro ⟨j, hj, rfl⟩
    rw [List.mem_range'_1] at hj
    rw [Address.toNat_ofNat]
    omega
  · rintro ⟨ha, hlo, hhi⟩
    refine ⟨a.toNat / 4, ?_, ?_⟩
    · rw [List.mem_range'_1]
      omega
    · apply Address.ext_toNat
      rw [Address.toNat_ofNat]
      omega

theorem pairwise_words {i n : Nat} (h : i + n ≤ 0x40000000) :
    ((List.range' i n).map fun j => Address.ofNat (4 * j)).Pairwise (· < ·) := by
  rw [List.pairwise_map]
  apply List.Pairwise.imp_of_mem _ List.pairwise_lt_range'
  intro j k hj hk hlt
  rw [List.mem_range'_1] at hj hk
  rw [Address.lt_iff, Address.toNat_ofNat, Address.toNat_ofNat]
  omega

theorem size_updateCell {i : Nat} {f : BitVec 64 → BitVec 64} (h : b.updateCell i f = .ok c) :
    c.cells.size = b.cells.size := by
  obtain ⟨_, rfl⟩ := updateCell_eq_ok_iff.mp h
  simp

theorem size_set (h : b.set a = .ok c) : c.cells.size = b.cells.size := by
  obtain ⟨_, -, hc⟩ := bind_eq_ok_iff.mp h
  exact size_updateCell hc

theorem size_clear (h : b.clear a = .ok c) : c.cells.size = b.cells.size := by
  obtain ⟨_, -, hc⟩ := bind_eq_ok_iff.mp h
  exact size_updateCell hc

theorem updateCell_eq_ok {i : Nat} (f : BitVec 64 → BitVec 64) (h : i < b.cells.size) :
    ∃ c, b.updateCell i f = .ok c :=
  ⟨_, updateCell_eq_ok_iff.mpr ⟨h, rfl⟩⟩

theorem set_eq_ok {n : Nat} (hb : b.Covers n) (hn : a.toNat < n) (ha : a.WordAligned) :
    ∃ c, b.set a = .ok c ∧ c.cells.size = b.cells.size ∧
      ∀ x, c.isSet x = true ↔ b.isSet x = true ∨ x = a := by
  obtain ⟨c, hc⟩ := updateCell_eq_ok (· ||| BitVec.twoPow 64 (bitIndex a)) (cellIndex_lt hb hn)
  have hset : b.set a = .ok c := by
    rw [set, checkAligned_eq_ok ha, ok_bind, hc]
  refine ⟨c, hset, size_updateCell hc, fun x => ?_⟩
  rw [isSet_set hset, Bool.or_eq_true, decide_eq_true_iff]

theorem clear_eq_ok {n : Nat} (hb : b.Covers n) (hn : a.toNat < n) (ha : a.WordAligned) :
    ∃ c, b.clear a = .ok c ∧ c.cells.size = b.cells.size ∧
      ∀ x, c.isSet x = true ↔ b.isSet x = true ∧ x ≠ a := by
  obtain ⟨c, hc⟩ := updateCell_eq_ok (· &&& ~~~ BitVec.twoPow 64 (bitIndex a)) (cellIndex_lt hb hn)
  have hclear : b.clear a = .ok c := by
    rw [clear, checkAligned_eq_ok ha, ok_bind, hc]
  refine ⟨c, hclear, size_updateCell hc, fun x => ?_⟩
  rw [isSet_clear hclear, Bool.and_eq_true, decide_eq_true_iff]

theorem isSet_updateCell_zero {i : Nat} (h : b.updateCell i (fun _ => 0) = .ok c) (x : Address) :
    c.isSet x = true ↔ b.isSet x = true ∧ cellIndex x ≠ i := by
  rw [isSet_eq_true_iff, isSet_eq_true_iff, cell_updateCell h]
  by_cases hx : cellIndex x = i
  · simp [hx]
  · simp [hx]

/-- The bits are those of `b` without the addresses from `start` up to `stop`. -/
def Cleared (b c : StartBits) (start stop : Address) : Prop :=
  c.cells.size = b.cells.size ∧
    ∀ x, c.isSet x = true ↔ b.isSet x = true ∧ ¬ (start ≤ x ∧ x < stop)

theorem Cleared.head {d : StartBits} {start next stop : Address} (hcd : Cleared c d next stop)
    (hsize : c.cells.size = b.cells.size) (hle : start.toNat ≤ next.toNat)
    (hstop : next.toNat ≤ stop.toNat ∨
      ∀ x, b.isSet x = true → next.toNat ≤ x.toNat ∨ x.toNat < stop.toNat)
    (hbc : ∀ x, c.isSet x = true ↔ b.isSet x = true ∧ ¬ (start ≤ x ∧ x < next)) :
    Cleared b d start stop := by
  refine ⟨hcd.1.trans hsize, fun x => ?_⟩
  rw [hcd.2, hbc, and_assoc]
  refine and_congr_right fun hx => ?_
  simp only [Address.le_iff, Address.lt_iff]
  rcases hstop with h | h
  · omega
  · have := h x hx
    omega

theorem clearRange_step {start stop cellStop next : Address} (h : start < stop)
    (ha : start.WordAligned)
    (hcell : (Address.ofNat (cellIndex start * cellBytes)).add cellBytes = .ok cellStop)
    (hnext : start.add Size.wordBytes = .ok next) :
    b.clearRange start stop =
      if start = Address.ofNat (cellIndex start * cellBytes) ∧ cellStop ≤ stop then
        b.updateCell (cellIndex start) (fun _ => 0) >>= fun b => b.clearRange cellStop stop
      else b.clear start >>= fun b => b.clearRange next stop := by
  rw [clearRange, dif_pos h, checkAligned_eq_ok ha, ok_bind]
  dsimp only
  split
  · rename_i hf
    rw [hcell] at hf
    cases hf
  · rename_i hf
    rw [hcell, Except.ok.injEq] at hf
    subst hf
    split
    · rfl
    · congr 1
      funext b
      split
      · rename_i hf
        rw [hnext] at hf
        cases hf
      · rename_i hf
        rw [hnext, Except.ok.injEq] at hf
        subst hf
        rfl

theorem toNat_cellStart (a : Address) :
    (Address.ofNat (cellIndex a * cellBytes)).toNat = a.toNat / 256 * 256 := by
  have ha := a.toNat_lt
  unfold cellIndex cellBytes
  exact Address.toNat_ofNat_of_lt (by omega)

/-- A whole cell that starts the range is cleared, and then the rest of the range. -/
theorem Cleared.cell {d : StartBits} {start past stop : Address} (hcd : Cleared c d past stop)
    (hstart : start.toNat = start.toNat / 256 * 256) (hpast : past.toNat = start.toNat + 256)
    (hle : past ≤ stop) (hc : b.updateCell (cellIndex start) (fun _ => 0) = .ok c) :
    Cleared b d start stop := by
  rw [Address.le_iff] at hle
  refine hcd.head (size_updateCell hc) (by omega) (.inl hle) fun x => ?_
  rw [isSet_updateCell_zero hc]
  refine and_congr_right fun _ => ?_
  rw [Address.le_iff, Address.lt_iff]
  unfold cellIndex
  omega

/-- The word that starts the range is cleared, and then the rest of the range. -/
theorem Cleared.word {d : StartBits} {start next stop : Address} (hcd : Cleared c d next stop)
    (hlt : start < stop) (ha : start.WordAligned) (hnext : next.toNat = start.toNat + 4)
    (hsize : c.cells.size = b.cells.size)
    (hc : ∀ x, c.isSet x = true ↔ b.isSet x = true ∧ x ≠ start) : Cleared b d start stop := by
  rw [Address.lt_iff] at hlt
  unfold Address.WordAligned at ha
  -- The last word may reach past the end of the range; only its start counts.
  have hword (x : Address) (hx : b.isSet x = true) : x.toNat % 4 = 0 :=
    (isSet_eq_true_iff.mp hx).1
  refine hcd.head hsize (by omega) (.inr fun x hx => ?_) fun x => ?_
  · have hx := hword x hx
    omega
  · rw [hc]
    refine and_congr_right fun hx => ?_
    have hx := hword x hx
    rw [Ne, ← Address.toNat_inj, Address.le_iff, Address.lt_iff]
    omega

theorem clearRange_spec {start stop : Address} {n : Nat} (hb : b.Covers n) (hn : n ≤ 0xFFFF0000)
    (hstop : stop.toNat ≤ n) (ha : start.WordAligned) :
    ∃ c, b.clearRange start stop = .ok c ∧ Cleared b c start stop := by
  -- Each round clears a cell or a word, and the induction is on the bytes of the range that are left.
  induction h : stop.toNat - start.toNat using Nat.strongRecOn generalizing b start with
  | _ k ih =>
    by_cases hlt : start < stop
    · have hltNat := Address.lt_iff.mp hlt
      have hcell := toNat_cellStart start
      obtain ⟨past, hpast, hpastNat⟩ := Address.exists_add
        (a := .ofNat (cellIndex start * cellBytes)) (n := 256) (by omega)
      obtain ⟨next, hnext, hnextNat⟩ := Address.exists_add (a := start) (n := 4) (by omega)
      rw [clearRange_step hlt ha hpast hnext]
      split
      · rename_i hw
        obtain ⟨hw, hle⟩ := hw
        have hstart := congrArg Address.toNat hw
        obtain ⟨c, hc⟩ := updateCell_eq_ok (b := b) (fun _ => 0)
          (cellIndex_lt hb (by omega : start.toNat < n))
        have hcovers : c.Covers n := by
          rw [Covers, size_updateCell hc]
          exact hb
        have haligned : past.WordAligned := by
          unfold Address.WordAligned
          omega
        obtain ⟨d, hd, hcd⟩ := ih _ (by omega) hcovers haligned rfl
        rw [hc, ok_bind]
        exact ⟨d, hd, hcd.cell (by omega) (by omega) hle hc⟩
      · obtain ⟨c, hc, hsize, hiff⟩ := clear_eq_ok hb (by omega : start.toNat < n) ha
        have hcovers : c.Covers n := by
          rw [Covers, hsize]
          exact hb
        have haligned : next.WordAligned := by
          unfold Address.WordAligned at ha ⊢
          omega
        obtain ⟨d, hd, hcd⟩ := ih _ (by omega) hcovers haligned rfl
        rw [hc, ok_bind]
        exact ⟨d, hd, hcd.word hlt ha hnextNat hsize hiff⟩
    · rw [clearRange, dif_neg hlt]
      refine ⟨b, rfl, rfl, fun x => ?_⟩
      rw [Address.lt_iff] at hlt
      simp only [Address.le_iff, Address.lt_iff]
      refine ⟨fun hx => ⟨hx, by omega⟩, And.left⟩

/-- Clearing a range, wherever it lies and whatever it ends inside of, adds no cells and removes none. -/
theorem size_clearRange (b : StartBits) (start stop : Address) :
    Ends (b.clearRange start stop) (fun c => c.cells.size = b.cells.size) fun _ => True := by
  induction h : stop.toNat - start.toNat using Nat.strongRecOn generalizing b start with
  | _ k ih =>
    rw [clearRange]
    split
    · rename_i hlt
      rw [Address.lt_iff] at hlt
      apply Ends.bind_forall
      intro u
      dsimp only
      split
      · trivial
      · rename_i cellStop hcell
        have hpast := Address.lt_of_add hcell (by decide)
        split
        · rename_i hw
          rw [← hw.1] at hpast
          apply Ends.bind_eq
          intro c hc
          exact (ih _ (by omega) c cellStop rfl).imp fun d hd => hd.trans (size_updateCell hc)
        · apply Ends.bind_eq
          intro c hc
          split
          · trivial
          · rename_i next hnext
            have hstep := Address.lt_of_add hnext (by decide)
            exact (ih _ (by omega) c next rfl).imp fun d hd => hd.trans (size_clear hc)
    · rfl

theorem cellCount_eq {n : Nat} (h : n ≤ 0x100000000) : cellCount n = .ok ((n + 255) / 256) := by
  rw [cellCount, Size.wordBytes, Size.alignUp_four (by omega), Size.add_eq_ok (by omega), ok_bind]
  exact congrArg Except.ok (by omega)

theorem ensureCovers_eq {n : Nat} (h : n ≤ 0x100000000) :
    b.ensureCovers n = .ok (b.extend ((n + 255) / 256)) := by
  rw [ensureCovers, cellCount_eq h, ok_bind]
  rfl

theorem size_extend (b : StartBits) (n : Nat) : (b.extend n).cells.size = max b.cells.size n := by
  cases b
  simp [extend]
  omega

theorem ensureCovers_spec {n : Nat} (h : n < 0x100000000) :
    ∃ c, b.ensureCovers n = .ok c ∧ c.Covers n ∧ b.cells.size ≤ c.cells.size ∧
      ∀ x, c.isSet x = b.isSet x := by
  refine ⟨_, ensureCovers_eq (Nat.le_of_lt h), ?_, ?_, fun x => isSet_extend b _ x⟩
  · rw [Covers, size_extend]
    omega
  · rw [size_extend]
    omega

theorem isSet_empty (x : Address) : (⟨#[]⟩ : StartBits).isSet x = false := by
  simp [isSet]

end StartBits

end CopyingHeap
