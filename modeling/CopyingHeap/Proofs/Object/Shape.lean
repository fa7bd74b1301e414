import CopyingHeap.Object.Array
import CopyingHeap.Proofs.Memory.Words

/-!
The shape of objects in words: how many words an object takes and which of them are reference slots.
Both are read off its first two words. The sizes and slots that are computed in bytes and addresses
agree with them for every object that lies in memory.
-/

namespace CopyingHeap

namespace Kind

/-- The words of an object of this kind whose second word is the number `second`. -/
def wordCount (k : Kind) (second : Nat) : Nat :=
  match k with
  | array => 2 + second
  | symbol | string => 2 + (second + 3) / 4
  | integer | float | char => 2
  | listNode => 3

/-- Is word `j` of such an object a reference slot? -/
def IsSlot (k : Kind) (second j : Nat) : Prop :=
  match k with
  | array => 2 ≤ j ∧ j < 2 + second
  | listNode => j = 1 ∨ j = 2
  | _ => False

instance (k : Kind) (second j : Nat) : Decidable (k.IsSlot second j) := by
  cases k <;> unfold IsSlot <;> infer_instance

theorem two_le_wordCount (k : Kind) (n : Nat) : 2 ≤ k.wordCount n := by
  cases k <;> simp only [wordCount] <;> omega

theorem IsSlot.pos {k : Kind} {n j : Nat} (h : k.IsSlot n j) : 0 < j := by
  cases k <;> simp only [IsSlot] at h <;> omega

theorem IsSlot.lt {k : Kind} {n j : Nat} (h : k.IsSlot n j) : j < k.wordCount n := by
  cases k <;> simp only [IsSlot] at h <;> simp only [wordCount] <;> omega

theorem wordCount_congr {k : Kind} {n l : Nat} (h : k.hasLength = true → n = l) :
    k.wordCount n = k.wordCount l := by
  cases k <;> simp_all [hasLength, wordCount]

theorem isSlot_congr {k : Kind} {n l j : Nat} (h : k.hasLength = true → n = l) :
    k.IsSlot n j ↔ k.IsSlot l j := by
  cases k <;> simp_all [hasLength, IsSlot]

/-- A length is never in a reference slot. -/
theorem not_isSlot_one {k : Kind} {n : Nat} (h : k.hasLength = true) : ¬ k.IsSlot n 1 := by
  cases k <;> simp_all [hasLength, IsSlot]

theorem size_eq (k : Kind) {n : Nat} (h : n < 0x100000000) : k.size n = .ok (4 * k.wordCount n) := by
  have hbytes (b : Nat) (hb : b < 0x1000000000000) (h8 : 8 ≤ b) :
      Size.objectBytes b = 4 * ((b + 3) / 4) := by
    rw [Size.objectBytes_eq (by omega)]
    omega
  cases k <;> simp only [size, wordCount, contentOffset, pure, Except.pure]
  case array =>
    rw [Size.ofWords_eq (by omega), Size.add_eq_ok (by omega), ok_bind, hbytes _ (by omega) (by omega)]
    exact congrArg Except.ok (by omega)
  case symbol | string =>
    rw [Size.add_eq_ok (by omega), ok_bind, hbytes _ (by omega) (by omega)]
    exact congrArg Except.ok (by omega)
  all_goals rw [hbytes _ (by omega) (by omega)]

theorem ofHeader?_header (k : Kind) : ofHeader? k.header = some k :=
  ofHeader?_eq_some_iff.mpr rfl

end Kind

namespace Memory

/-- The words of the object that starts at word `i`, zero if no object does. -/
def wordCount (m : Memory) (i : Nat) : Nat :=
  match Kind.ofHeader? (m.word i) with
  | some k => k.wordCount (m.word (i + 1)).toNat
  | none => 0

/-- Is word `j` of the object that starts at word `i` a reference slot? -/
def IsSlot (m : Memory) (i j : Nat) : Prop :=
  ∃ k : Kind, m.word i = k.header ∧ k.IsSlot (m.word (i + 1)).toNat j

/-- The word at `a` is a reference slot of the object. -/
def HasSlot (m : Memory) (r : Reference) (a : Address) : Prop :=
  a.WordAligned ∧ ∃ slots, m.referenceSlots r = .ok slots ∧ slots.Contains a

variable {m : Memory} {k : Kind} {i j : Nat} {r : Reference}

theorem wordCount_eq (h : m.word i = k.header) :
    m.wordCount i = k.wordCount (m.word (i + 1)).toNat := by
  rw [wordCount, h, Kind.ofHeader?_header]

theorem two_le_wordCount (h : m.word i = k.header) : 2 ≤ m.wordCount i := by
  rw [wordCount_eq h]
  exact k.two_le_wordCount _

theorem isSlot_iff (h : m.word i = k.header) :
    m.IsSlot i j ↔ k.IsSlot (m.word (i + 1)).toNat j := by
  refine ⟨fun ⟨l, hl, hj⟩ => ?_, fun hj => ⟨k, h, hj⟩⟩
  rw [h, Kind.header_inj] at hl
  exact hl ▸ hj

theorem IsSlot.pos (h : m.IsSlot i j) : 0 < j :=
  let ⟨_, _, hj⟩ := h
  hj.pos

theorem IsSlot.lt (h : m.IsSlot i j) : j < m.wordCount i := by
  obtain ⟨k, hk, hj⟩ := h
  rw [wordCount_eq hk]
  exact hj.lt

theorem wordCount_congr {n : Memory} {p : Nat} (h0 : n.word p = m.word i)
    (h1 : ∀ k : Kind, m.word i = k.header → k.hasLength = true → n.word (p + 1) = m.word (i + 1)) :
    n.wordCount p = m.wordCount i := by
  unfold wordCount
  rw [h0]
  cases hk : Kind.ofHeader? (m.word i) with
  | none => rfl
  | some k =>
    have hw := (Kind.ofHeader?_eq_some_iff.mp hk).symm
    exact Kind.wordCount_congr fun hl => by rw [h1 k hw hl]

theorem isSlot_congr {n : Memory} {p : Nat} (h0 : n.word p = m.word i)
    (h1 : ∀ k : Kind, m.word i = k.header → k.hasLength = true → n.word (p + 1) = m.word (i + 1)) :
    n.IsSlot p j ↔ m.IsSlot i j := by
  unfold IsSlot
  rw [h0]
  exact exists_congr fun k => and_congr_right fun hw =>
    Kind.isSlot_congr fun hl => by rw [h1 k hw hl]

theorem not_isSlot_zero : ¬ m.IsSlot i 0 :=
  fun h => absurd h.pos (Nat.lt_irrefl 0)

section Payload

-- The words of an object that are no reference slots stand at `p` in another memory.
variable {n : Memory} {p : Nat} (htwo : 2 ≤ m.wordCount i)
  (hp : ∀ j < m.wordCount i, ¬ m.IsSlot i j → n.word (p + j) = m.word (i + j))

include htwo hp

theorem header_of_payload : n.word p = m.word i :=
  hp 0 (by omega) not_isSlot_zero

theorem length_of_payload (hk : m.word i = k.header) (hl : k.hasLength = true) :
    n.word (p + 1) = m.word (i + 1) :=
  hp 1 (by omega) fun hj => Kind.not_isSlot_one hl ((isSlot_iff hk).mp hj)

theorem wordCount_of_payload : n.wordCount p = m.wordCount i :=
  wordCount_congr (header_of_payload htwo hp) fun _ => length_of_payload htwo hp

theorem isSlot_of_payload : n.IsSlot p j ↔ m.IsSlot i j :=
  isSlot_congr (header_of_payload htwo hp) fun _ => length_of_payload htwo hp

end Payload

theorem kind_eq_ok (hs : r.index < m.words.size) (h : m.word r.index = k.header) :
    m.kind r = .ok k := by
  rw [kind_eq_ok_iff, load_address hs, h]

theorem kind_eq_ok_word (h : m.kind r = .ok k) :
    r.index < m.words.size ∧ m.word r.index = k.header := by
  obtain ⟨-, hs, hw⟩ := load_eq_ok_word (kind_eq_ok_iff.mp h)
  exact ⟨hs, hw.symm⟩

theorem exists_header_of_isOk (h : (m.kind r).isOk = true) :
    ∃ k : Kind, m.word r.index = k.header := by
  cases hk : m.kind r with
  | error f =>
    rw [hk] at h
    nomatch h
  | ok k => exact ⟨k, (kind_eq_ok_word hk).2⟩

theorem kind?_eq_ok (hs : r.index < m.words.size) :
    m.kind? r = .ok (Kind.ofHeader? (m.word r.index)) := by
  rw [kind?_eq_ok_iff]
  exact ⟨_, load_address hs, rfl⟩

theorem eight_le_of_sizeAs {bytes : Nat} (h : m.sizeAs r k = .ok bytes) : 8 ≤ bytes := by
  have hsize {n : Nat} (hn : n < 0x100000000) (he : k.size n = .ok bytes) : 8 ≤ bytes := by
    rw [Kind.size_eq k hn, Except.ok.injEq] at he
    have := k.two_le_wordCount n
    omega
  unfold sizeAs at h
  split at h
  · obtain ⟨n, hn, he⟩ := bind_eq_ok_iff.mp h
    obtain ⟨a, -, hn⟩ := bind_eq_ok_iff.mp hn
    obtain ⟨w, -, hn⟩ := bind_eq_ok_iff.mp hn
    injection hn with hn
    exact hsize (hn ▸ w.toNat_lt) he
  · exact hsize (by decide) h

theorem elementAddress_eq {n : Nat} (h : r.index + 2 + n < 0x40000000) :
    elementAddress r n = .ok (Address.ofNat (4 * (r.index + 2 + n))) := by
  have hstart : r.address.add contentOffset = .ok (Address.ofNat (4 * (r.index + 2))) :=
    r.add_eq (j := 2) (by omega)
  rw [elementAddress, hstart, ok_bind, Size.ofWords_eq (by omega), Address.add_eq_ok_iff,
    Address.toNat_ofNat, Address.toNat_ofNat]
  omega

/-- The length is read behind the header, if that is an address in memory. -/
theorem length_eq_ok (hb : r.index + 1 < 0x40000000) (hi : r.index + 1 < m.words.size) :
    m.length r = .ok (m.word (r.index + 1)).toNat := by
  have ha := r.add_eq (j := 1) hb
  rw [length, lengthOffset, ha, ok_bind, load_word hb hi, ok_bind]
  rfl

theorem sizeAs_eq_ok (hb : r.index + 1 < 0x40000000) (hi : r.index + 1 < m.words.size) :
    m.sizeAs r k = .ok (4 * k.wordCount (m.word (r.index + 1)).toNat) := by
  unfold sizeAs
  split
  · rw [length_eq_ok hb hi, ok_bind, Kind.size_eq k (UInt32.toNat_lt _)]
  · rename_i h
    rw [Kind.size_eq k (by decide), Kind.wordCount_congr fun hl => absurd hl h]

section Slots

variable (h : m.word r.index = k.header) (hb : r.index + m.wordCount r.index < 0x40000000)
  (hi : r.index + m.wordCount r.index ≤ m.words.size)

include h hb hi

theorem referenceSlots_eq_ok :
    ∃ first past, m.referenceSlots r =
        .ok ⟨Address.ofNat (4 * (r.index + first)), Address.ofNat (4 * (r.index + past))⟩ ∧
      first ≤ m.wordCount r.index ∧ past ≤ m.wordCount r.index ∧
      ∀ j, m.IsSlot r.index j ↔ first ≤ j ∧ j < past := by
  have htwo := k.two_le_wordCount (m.word (r.index + 1)).toNat
  rw [wordCount_eq h] at hb hi ⊢
  simp only [isSlot_iff h]
  have hk := kind_eq_ok (m := m) (r := r) (by omega) h
  simp only [referenceSlots, hk, ok_bind]
  cases k with
  | array =>
    simp only [Kind.wordCount] at hb hi ⊢
    have hlength := length_eq_ok (m := m) (r := r) (by omega) (by omega)
    generalize hl : (m.word (r.index + 1)).toNat = l at *
    have hstart : r.address.add contentOffset = .ok (Address.ofNat (4 * (r.index + 2))) :=
      r.add_eq (j := 2) (by omega)
    refine ⟨2, 2 + l, ?_, by omega, by omega, fun j => Iff.rfl⟩
    rw [hstart, ok_bind, hlength, ok_bind, Size.ofWords_eq (by omega),
      Address.add_eq_ok_iff (b := Address.ofNat (4 * (r.index + (2 + l)))) |>.mpr]
    · rfl
    · rw [Address.toNat_ofNat, Address.toNat_ofNat]
      omega
  | listNode =>
    simp only [Kind.wordCount] at hb hi ⊢
    have hhead : r.address.add headOffset = .ok (Address.ofNat (4 * (r.index + 1))) :=
      r.add_eq (j := 1) (by omega)
    have htail : r.address.add tailOffset = .ok (Address.ofNat (4 * (r.index + 2))) :=
      r.add_eq (j := 2) (by omega)
    refine ⟨1, 3, ?_, by omega, by omega, fun j => by simp only [Kind.IsSlot]; omega⟩
    rw [hhead, ok_bind, htail, ok_bind,
      Address.add_eq_ok_iff (b := Address.ofNat (4 * (r.index + 3))) |>.mpr]
    · rfl
    · rw [Address.toNat_ofNat, Address.toNat_ofNat, Size.wordBytes]
      omega
  | _ =>
    refine ⟨0, 0, ?_, by omega, by omega, fun j => by simp [Kind.IsSlot]⟩
    rw [Nat.add_zero, ← Reference.toNat_address, Address.ofNat_toNat]
    rfl

theorem hasSlot_iff_isSlot {a : Address} :
    m.HasSlot r a ↔ ∃ j, m.IsSlot r.index j ∧ a = Address.ofNat (4 * (r.index + j)) := by
  obtain ⟨first, past, hslots, hfirst, hpast, hiff⟩ := referenceSlots_eq_ok h hb hi
  constructor
  · rintro ⟨ha, slots, he, hc⟩
    rw [hslots, Except.ok.injEq] at he
    subst he
    obtain ⟨hlo, hhi⟩ := hc
    rw [Address.le_iff, Address.toNat_ofNat] at hlo
    rw [Address.lt_iff, Address.toNat_ofNat] at hhi
    unfold Address.WordAligned at ha
    refine ⟨a.toNat / 4 - r.index, (hiff _).mpr (by omega), Address.ext_toNat ?_⟩
    rw [Address.toNat_ofNat]
    omega
  · rintro ⟨j, hj, rfl⟩
    obtain ⟨hlo, hhi⟩ := (hiff j).mp hj
    refine ⟨wordAligned_ofNat _, _, hslots, ?_, ?_⟩
    · rw [Address.le_iff, Address.toNat_ofNat, Address.toNat_ofNat]
      omega
    · rw [Address.lt_iff, Address.toNat_ofNat, Address.toNat_ofNat]
      omega

end Slots

section InMemory

variable (hs : m.words.size ≤ 0x3FFFC000)

include hs

theorem length_eq (hi : r.index + 1 < m.words.size) :
    m.length r = .ok (m.word (r.index + 1)).toNat :=
  length_eq_ok (by omega) hi

theorem sizeAs_eq (hi : r.index + 1 < m.words.size) :
    m.sizeAs r k = .ok (4 * k.wordCount (m.word (r.index + 1)).toNat) :=
  sizeAs_eq_ok (by omega) hi

theorem objectSize_eq (hi : r.index + 1 < m.words.size) (h : m.word r.index = k.header) :
    m.objectSize r = .ok (4 * m.wordCount r.index) := by
  rw [objectSize, kind_eq_ok (by omega) h, ok_bind, sizeAs_eq hs hi, wordCount_eq h]

theorem hasSlot_iff (h : m.word r.index = k.header)
    (hi : r.index + m.wordCount r.index ≤ m.words.size) {a : Address} :
    m.HasSlot r a ↔ ∃ j, m.IsSlot r.index j ∧ a = Address.ofNat (4 * (r.index + j)) :=
  hasSlot_iff_isSlot h (by omega) hi

end InMemory

end Memory

end CopyingHeap
