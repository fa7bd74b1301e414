import CopyingHeap.Value

/-!
The tagged encoding. A value fits if its payload has at most 30 bits. Encoding is defined on the values
that fit and nowhere else, decoding inverts it, and every word decodes to a value that fits. The one value
with more than one word is true: any payload but zero stands for it, and encoding picks one.
-/

namespace CopyingHeap

theorem toInt_toInt32 (w : Word) : w.toInt32.toInt =
    if w.toNat < 0x80000000 then (w.toNat : Int) else (w.toNat : Int) - 0x100000000 := by
  rw [← Int32.toInt_toBitVec, UInt32.toBitVec_toInt32, BitVec.toInt_eq_toNat_cond]
  simp only [UInt32.toNat_toBitVec]
  split <;> split <;> omega

theorem toNat_toUInt32 (n : Int32) : (n.toUInt32.toNat : Int) = n.toInt % 0x100000000 := by
  have h := toInt_toInt32 n.toUInt32
  have hlt := n.toUInt32.toNat_lt
  rw [Int32.toInt32_toUInt32] at h
  split at h <;> omega

namespace Tag

theorem ofWord_eq_pointer {w : Word} : ofWord w = .pointer ↔ w.toNat % 4 = 0 := by
  unfold ofWord
  split <;> simp_all

theorem ofWord_eq_int {w : Word} : ofWord w = .int ↔ w.toNat % 4 = 1 := by
  unfold ofWord
  split <;> simp_all

theorem ofWord_eq_bool {w : Word} : ofWord w = .bool ↔ w.toNat % 4 = 2 := by
  unfold ofWord
  split <;> simp_all

theorem ofWord_eq_func {w : Word} : ofWord w = .func ↔ w.toNat % 4 = 3 := by
  have h := Nat.mod_lt w.toNat (by decide : 0 < 4)
  unfold ofWord
  split <;> simp_all
  omega

end Tag

namespace Value

/-- Does the payload have at most 30 bits, as a signed number for an integer? -/
def Fits : Value → Prop
  | int n => -0x20000000 ≤ n.toInt ∧ n.toInt < 0x20000000
  | func index => index.toNat < 0x40000000
  | bool _ => True
  | object _ => True

/-- The word that stands for the same value as `w` and that encoding writes. -/
def canonical (w : Word) : Word :=
  if Tag.ofWord w = .bool ∧ w ≠ falseWord ∧ w ≠ trueWord then trueWord else w

theorem fitsInt_iff {n : Int32} : FitsInt n ↔ (int n).Fits := by
  simp only [FitsInt, Fits, minInt, maxInt]
  omega

theorem canonical_of_ne {w : Word} (h : w.toNat % 4 ≠ 2) : canonical w = w :=
  if_neg fun hw => h (Tag.ofWord_eq_bool.mp hw.1)

theorem canonical_canonical (w : Word) : canonical (canonical w) = canonical w := by
  by_cases h : Tag.ofWord w = .bool ∧ w ≠ falseWord ∧ w ≠ trueWord
  · have htrue : canonical w = trueWord := if_pos h
    rw [htrue]
    rfl
  · have hself : canonical w = w := if_neg h
    rw [hself, hself]

theorem decode_pointer {w : Word} (h : w.toNat % 4 = 0) : decode w = object ⟨⟨w⟩, h⟩ :=
  dif_pos h

theorem decode_int {w : Word} (h : w.toNat % 4 = 1) :
    decode w = int (Int32.ofInt (w.toInt32.toInt / 4)) := by
  have ha : ¬ (Address.mk w).WordAligned := fun ha => by
    have := h.symm.trans ha
    omega
  rw [decode, dif_neg ha, if_pos h]

theorem decode_bool {w : Word} (h : w.toNat % 4 = 2) : decode w = bool (w.toNat / 4 != 0) := by
  have ha : ¬ (Address.mk w).WordAligned := fun ha => by
    have := h.symm.trans ha
    omega
  rw [decode, dif_neg ha, if_neg (by omega), if_pos h]

theorem decode_func {w : Word} (h : w.toNat % 4 = 3) :
    decode w = func (UInt32.ofNat (w.toNat / 4)) := by
  have ha : ¬ (Address.mk w).WordAligned := fun ha => by
    have := h.symm.trans ha
    omega
  rw [decode, dif_neg ha, if_neg (by omega), if_neg (by omega)]

/-- A word says of itself what kind of value it is. -/
theorem tag_decode (w : Word) : (decode w).tag = Tag.ofWord w := by
  cases h : Tag.ofWord w with
  | pointer => rw [decode_pointer (Tag.ofWord_eq_pointer.mp h), tag]
  | int => rw [decode_int (Tag.ofWord_eq_int.mp h), tag]
  | bool => rw [decode_bool (Tag.ofWord_eq_bool.mp h), tag]
  | func => rw [decode_func (Tag.ofWord_eq_func.mp h), tag]

/-- A shift to the right by two bits leaves 30, with the sign kept. -/
theorem toInt_payload (w : Word) :
    (Int32.ofInt (w.toInt32.toInt / 4)).toInt = w.toInt32.toInt / 4 ∧
      -0x20000000 ≤ w.toInt32.toInt / 4 ∧ w.toInt32.toInt / 4 < 0x20000000 := by
  have hw := w.toNat_lt
  have hsigned := toInt_toInt32 w
  have hbounds : -0x20000000 ≤ w.toInt32.toInt / 4 ∧ w.toInt32.toInt / 4 < 0x20000000 := by
    split at hsigned <;> omega
  exact ⟨Int32.toInt_ofInt_of_le (by omega) (by omega), hbounds⟩

theorem fits_decode (w : Word) : (decode w).Fits := by
  have hw := w.toNat_lt
  cases h : Tag.ofWord w with
  | pointer =>
    rw [decode_pointer (Tag.ofWord_eq_pointer.mp h)]
    trivial
  | int =>
    obtain ⟨hpayload, hbounds⟩ := toInt_payload w
    rw [decode_int (Tag.ofWord_eq_int.mp h), Fits, hpayload]
    exact hbounds
  | bool =>
    rw [decode_bool (Tag.ofWord_eq_bool.mp h)]
    trivial
  | func =>
    rw [decode_func (Tag.ofWord_eq_func.mp h), Fits,
      UInt32.toNat_ofNat_of_lt' (show w.toNat / 4 < 0x100000000 by omega)]
    omega

/-- The bits that the shift to the left drops are copies of the sign. -/
theorem encode_decode_int {w : Word} (h : w.toNat % 4 = 1) : (decode w).encode = .ok w := by
  have hw := w.toNat_lt
  have hsigned := toInt_toInt32 w
  have hfits := fits_decode w
  rw [decode_int h] at hfits ⊢
  rw [encode, if_pos (fitsInt_iff.mpr hfits)]
  refine congrArg Except.ok (UInt32.toNat_inj.mp ?_)
  have hword := toNat_toUInt32 (Int32.ofInt (w.toInt32.toInt / 4))
  rw [(toInt_payload w).1] at hword
  simp only [UInt32.toNat_add, UInt32.toNat_mul, UInt32.reduceToNat]
  split at hsigned <;> omega

theorem encode_decode_bool {w : Word} (h : w.toNat % 4 = 2) :
    (decode w).encode = .ok (canonical w) := by
  rw [decode_bool h, encode, boolWord, canonical]
  by_cases hfalse : w = falseWord
  · rw [hfalse]
    rfl
  · have hpayload : (w.toNat / 4 != 0) = true := bne_iff_ne.mpr fun hzero =>
      hfalse (UInt32.toNat_inj.mp (show w.toNat = 2 by omega))
    rw [if_pos hpayload]
    by_cases htrue : w = trueWord
    · rw [if_neg (fun hw => hw.2.2 htrue), htrue]
    · rw [if_pos ⟨Tag.ofWord_eq_bool.mpr h, hfalse, htrue⟩]

theorem encode_decode_func {w : Word} (h : w.toNat % 4 = 3) : (decode w).encode = .ok w := by
  have hw := w.toNat_lt
  have hindex : (UInt32.ofNat (w.toNat / 4)).toNat = w.toNat / 4 :=
    UInt32.toNat_ofNat_of_lt' (show w.toNat / 4 < 0x100000000 by omega)
  rw [decode_func h, encode, if_pos (by rw [hindex, maxFunction]; omega)]
  refine congrArg Except.ok (UInt32.toNat_inj.mp ?_)
  simp only [UInt32.toNat_add, UInt32.toNat_mul, UInt32.reduceToNat, hindex]
  omega

/-- Encoding undoes decoding, but for booleans. -/
theorem encode_decode (w : Word) : (decode w).encode = .ok (canonical w) := by
  cases h : Tag.ofWord w with
  | pointer =>
    have haligned := Tag.ofWord_eq_pointer.mp h
    rw [decode_pointer haligned, canonical_of_ne (by omega)]
    rfl
  | int =>
    have hint := Tag.ofWord_eq_int.mp h
    rw [encode_decode_int hint, canonical_of_ne (by omega)]
  | bool => exact encode_decode_bool (Tag.ofWord_eq_bool.mp h)
  | func =>
    have hfunc := Tag.ofWord_eq_func.mp h
    rw [encode_decode_func hfunc, canonical_of_ne (by omega)]

theorem exists_decode_int {n : Int32} (hn : (int n).Fits) :
    ∃ w, encode (int n) = .ok w ∧ decode w = int n := by
  have hword := toNat_toUInt32 n
  have hn' : -0x20000000 ≤ n.toInt ∧ n.toInt < 0x20000000 := hn
  refine ⟨n.toUInt32 * 4 + 1, if_pos (fitsInt_iff.mpr hn), ?_⟩
  have hnat : (n.toUInt32 * 4 + 1).toNat = (n.toUInt32.toNat * 4 + 1) % 0x100000000 := by
    simp only [UInt32.toNat_add, UInt32.toNat_mul, UInt32.reduceToNat]
    omega
  have hsigned := toInt_toInt32 (n.toUInt32 * 4 + 1)
  rw [decode_int (by omega)]
  have hpayload : (n.toUInt32 * 4 + 1).toInt32.toInt / 4 = n.toInt := by
    split at hsigned <;> omega
  rw [hpayload, Int32.ofInt_toInt]

theorem exists_decode_func {index : UInt32} (hindex : (func index).Fits) :
    ∃ w, encode (func index) = .ok w ∧ decode w = func index := by
  have hindex' : index.toNat < 0x40000000 := hindex
  refine ⟨index * 4 + 3, if_pos (by rw [maxFunction]; omega), ?_⟩
  have hnat : (index * 4 + 3).toNat = index.toNat * 4 + 3 := by
    simp only [UInt32.toNat_add, UInt32.toNat_mul, UInt32.reduceToNat]
    omega
  rw [decode_func (by omega), hnat]
  refine congrArg func (UInt32.toNat_inj.mp ?_)
  rw [UInt32.toNat_ofNat_of_lt' (show (index.toNat * 4 + 3) / 4 < 0x100000000 by omega)]
  omega

/-- Decoding undoes encoding. -/
theorem exists_encode {v : Value} (hv : v.Fits) : ∃ w, v.encode = .ok w ∧ decode w = v := by
  cases v with
  | int n => exact exists_decode_int hv
  | bool b => cases b <;> exact ⟨_, rfl, rfl⟩
  | func index => exact exists_decode_func hv
  | object r => exact ⟨r.word, rfl, decode_word r⟩

theorem encode_wideInt {n : Int32} (hn : ¬ (int n).Fits) :
    encode (int n) = .error (.wideInteger n) :=
  if_neg fun h => hn (fitsInt_iff.mp h)

theorem encode_wideFunc {index : UInt32} (hindex : ¬ (func index).Fits) :
    encode (func index) = .error (.wideFunction index) :=
  if_neg fun h => hindex (show index.toNat < 0x40000000 by rw [maxFunction] at h; omega)

theorem encode_isOk_iff {v : Value} : v.encode.isOk = true ↔ v.Fits := by
  constructor
  · intro h
    refine Classical.byContradiction fun hv => ?_
    cases v with
    | int n =>
      rw [encode_wideInt hv] at h
      nomatch h
    | func index =>
      rw [encode_wideFunc hv] at h
      nomatch h
    | _ => exact hv trivial
  · intro hv
    obtain ⟨w, hw, -⟩ := exists_encode hv
    rw [hw]
    rfl

/-- The words that encoding writes are the canonical ones, each for the value it decodes to. -/
theorem encode_eq_ok_iff {v : Value} {w : Word} :
    v.encode = .ok w ↔ decode w = v ∧ canonical w = w := by
  constructor
  · intro hw
    obtain ⟨w', hw', hdecode⟩ := exists_encode (encode_isOk_iff.mp (by rw [hw]; rfl))
    obtain rfl : w = w' := Except.ok.inj (hw.symm.trans hw')
    refine ⟨hdecode, ?_⟩
    have hcanonical := encode_decode w
    rw [hdecode, hw] at hcanonical
    exact (Except.ok.inj hcanonical).symm
  · rintro ⟨rfl, hw⟩
    rw [encode_decode, hw]

theorem object?_decode {w : Word} {r : Reference} :
    (decode w).object? = some r ↔ w ≠ 0 ∧ w.toNat % 4 = 0 ∧ r.address = ⟨w⟩ := by
  rw [object?_eq_some_iff]
  constructor
  · rintro ⟨hw, hr⟩
    have htag := tag_decode w
    rw [hw] at htag
    have haligned := Tag.ofWord_eq_pointer.mp htag.symm
    rw [decode_pointer haligned] at hw
    cases hw
    exact ⟨fun hzero => hr (Reference.ext_address (congrArg Address.mk hzero)), haligned, rfl⟩
  · rintro ⟨hzero, haligned, hr⟩
    refine ⟨?_, fun hnull => ?_⟩
    · rw [decode_pointer haligned]
      exact congrArg object (Reference.ext_address hr.symm)
    · rw [hnull] at hr
      exact hzero (congrArg Address.word hr).symm

theorem isImmediate_decode_iff {w : Word} :
    (decode w).isImmediate = true ↔ w.toNat % 4 ≠ 0 := by
  rw [Ne, ← Tag.ofWord_eq_pointer, ← tag_decode]
  cases decode w <;> simp [isImmediate, tag]

/-- Values that fit and words say the same, up to the words for true: encoding and decoding are inverse,
the tag in the word is the tag of the value, what does not fit is refused, and just the words that are
addresses are taken for references. -/
theorem encoding_roundTrips :
    (∀ v : Value, v.Fits → ∃ w, v.encode = .ok w ∧ decode w = v ∧ Tag.ofWord w = v.tag) ∧
    (∀ n, ¬ (int n).Fits → encode (int n) = .error (.wideInteger n)) ∧
    (∀ index, ¬ (func index).Fits → encode (func index) = .error (.wideFunction index)) ∧
    (∀ n v, ofInt? n = some v ↔ v = int n ∧ ∃ w, encode (int n) = .ok w) ∧
    (∀ u v : Value, u.Fits → v.Fits → u.encode = v.encode → u = v) ∧
    (∀ w, (decode w).Fits ∧ (decode w).tag = Tag.ofWord w ∧
      (decode w).encode = .ok (canonical w) ∧
      (decode (canonical w)).encode = .ok (canonical w)) ∧
    (∀ w r, (decode w).object? = some r ↔ w ≠ 0 ∧ w.toNat % 4 = 0 ∧ r.address = ⟨w⟩) ∧
    (∀ w, (decode w).isImmediate = true ↔ w.toNat % 4 ≠ 0) := by
  refine ⟨fun v hv => ?_, fun n => encode_wideInt, fun index => encode_wideFunc, fun n v => ?_,
    fun u v hu hv huv => ?_, fun w => ⟨fits_decode w, tag_decode w, encode_decode w, ?_⟩,
    fun w r => object?_decode, fun w => isImmediate_decode_iff⟩
  · obtain ⟨w, hw, hdecode⟩ := exists_encode hv
    refine ⟨w, hw, hdecode, ?_⟩
    rw [← hdecode, tag_decode]
  · rw [ofInt?]
    by_cases hn : FitsInt n
    · obtain ⟨w, hw, -⟩ := exists_encode (fitsInt_iff.mp hn)
      rw [if_pos hn, Option.some.injEq]
      exact ⟨fun h => ⟨h.symm, w, hw⟩, fun h => h.1.symm⟩
    · rw [if_neg hn, encode_wideInt (fun h => hn (fitsInt_iff.mpr h))]
      simp
  · obtain ⟨w, hw, hdecode⟩ := exists_encode hu
    exact hdecode.symm.trans (encode_eq_ok_iff.mp (huv.symm.trans hw)).1
  · rw [encode_decode, canonical_canonical]

end Value

end CopyingHeap
