import CopyingHeap.Proofs.StartBits

/-!
Listing the set bits of a range. The start of the range is rounded up to a word, within 32 bits, and its
end down, so a range between aligned addresses lists exactly the addresses in it. `setBetween_exact` says
for which other ranges it does.
-/

namespace CopyingHeap

namespace StartBits

variable {b : StartBits} {start stop a : Address}

theorem pairwise_setBetween :
    (b.setBetween start stop).Pairwise fun a c => a.toNat < c.toNat := by
  have hstop := stop.toNat_lt
  have hup := (start.alignUp Size.wordBytes).toNat_lt
  exact (pairwise_words (by omega)).filter _

/-- The words listed are those with their bit set that lie wholly between the two roundings. -/
theorem mem_setBetween_iff : a ∈ b.setBetween start stop ↔
    b.isSet a = true ∧ start.alignUp Size.wordBytes ≤ a ∧ a.toNat + 4 ≤ stop.toNat := by
  have hup := Address.toNat_alignUp_four start
  have hlt := stop.toNat_lt
  rw [setBetween, List.mem_filter, and_comm, Size.wordBytes, mem_words (by omega), Address.le_iff]
  refine and_congr_right fun hset => ?_
  have ha := (isSet_eq_true_iff.mp hset).1
  have hcell := cellIndex_lt_of_isSet hset
  rw [and_iff_right ha]
  unfold Address.WordAligned at ha
  unfold cellIndex at hcell
  omega

/-- The last address at which a word starts. -/
def lastWord : Address :=
  .ofNat 0xFFFFFFFC

theorem le_lastWord (ha : a.WordAligned) : a ≤ lastWord := by
  have hlt := a.toNat_lt
  unfold Address.WordAligned at ha
  rw [Address.le_iff, lastWord, Address.toNat_ofNat]
  omega

/-- An aligned address is not below the start exactly if it is not below the start rounded up, unless the
rounding leaves the address space: it wraps to address zero. -/
theorem alignUp_le_iff (ha : a.WordAligned) :
    start.alignUp Size.wordBytes ≤ a ↔ start ≤ a ∨ lastWord < start := by
  have hup := Address.toNat_alignUp_four start
  have hlt := start.toNat_lt
  have hle := a.toNat_lt
  unfold Address.WordAligned at ha
  rw [Size.wordBytes, Address.le_iff, Address.le_iff, Address.lt_iff, hup, lastWord, Address.toNat_ofNat]
  omega

theorem mem_setBetween {a : Address} (hstart : start.WordAligned) (hstop : stop.WordAligned) :
    a ∈ b.setBetween start stop ↔ b.isSet a = true ∧ start ≤ a ∧ a < stop := by
  rw [mem_setBetween_iff]
  refine and_congr_right fun hset => ?_
  have ha := (isSet_eq_true_iff.mp hset).1
  have hlast := Address.le_iff.mp (le_lastWord hstart)
  rw [alignUp_le_iff ha, Address.lt_iff, Address.lt_iff, or_iff_left (Nat.not_lt.mpr hlast)]
  refine and_congr_right fun _ => ?_
  unfold Address.WordAligned at ha hstop
  omega

/-- The range has an end that its last word reaches over, and the bit of this word is set. -/
def CutsWord (b : StartBits) (start stop : Address) : Prop :=
  ∃ a, b.isSet a = true ∧ start ≤ a ∧ a < stop ∧ stop.toNat < a.toNat + 4

/-- The listed addresses are in increasing order. They are the set bits of the words that lie wholly in the
range; of a range that starts behind the last word they are all those that end in time, since the start
then wraps to address zero. So the list is that of the set bits in the range unless the end cuts off a
word with its bit set, or the start has wrapped and there is anything to list. -/
theorem setBetween_exact (b : StartBits) (start stop : Address) :
    (b.setBetween start stop).Pairwise (· < ·) ∧
    (∀ a, a ∈ b.setBetween start stop ↔
      b.isSet a = true ∧ (start ≤ a ∨ lastWord < start) ∧ a.toNat + 4 ≤ stop.toNat) ∧
    ((∀ a, a ∈ b.setBetween start stop ↔ b.isSet a = true ∧ start ≤ a ∧ a < stop) ↔
      ¬ b.CutsWord start stop ∧ (lastWord < start → b.setBetween start stop = [])) := by
  have hmem (a : Address) : a ∈ b.setBetween start stop ↔
      b.isSet a = true ∧ (start ≤ a ∨ lastWord < start) ∧ a.toNat + 4 ≤ stop.toNat := by
    rw [mem_setBetween_iff]
    refine and_congr_right fun hset => ?_
    rw [alignUp_le_iff (isSet_eq_true_iff.mp hset).1]
  refine ⟨pairwise_setBetween, hmem, fun hexact => ⟨?_, fun hwrap => ?_⟩, ?_⟩
  · rintro ⟨a, hset, hstart, hstop, hcut⟩
    obtain ⟨-, -, hend⟩ := (hmem a).mp ((hexact a).mpr ⟨hset, hstart, hstop⟩)
    omega
  · rw [List.eq_nil_iff_forall_not_mem]
    intro a ha
    obtain ⟨hset, hstart, -⟩ := (hexact a).mp ha
    have hlast := Address.le_iff.mp (le_lastWord (isSet_eq_true_iff.mp hset).1)
    rw [Address.lt_iff] at hwrap
    rw [Address.le_iff] at hstart
    omega
  · rintro ⟨hcut, hwrap⟩ a
    constructor
    · intro ha
      obtain ⟨hset, hstart | hlast, hend⟩ := (hmem a).mp ha
      · exact ⟨hset, hstart, Address.lt_iff.mpr (by omega)⟩
      · rw [hwrap hlast] at ha
        nomatch ha
    · rintro ⟨hset, hstart, hstop⟩
      refine (hmem a).mpr ⟨hset, .inl hstart, Nat.le_of_not_lt fun hend => ?_⟩
      exact hcut ⟨a, hset, hstart, hstop, hend⟩

-- The word at 16 reaches over the end of the first range; the start of the second one wraps.
example : (⟨#[0x10]⟩ : StartBits).setBetween (.ofNat 16) (.ofNat 18) = [] := by decide

example : (⟨#[0x10]⟩ : StartBits).setBetween (.ofNat 0xFFFFFFFD) (.ofNat 0xFFFFFFFF) = [.ofNat 16] := by
  decide

end StartBits

end CopyingHeap
