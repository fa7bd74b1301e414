import CopyingHeap.Proofs.Construct.Copied
import CopyingHeap.Proofs.Effect

/-!
Setting a reference slot of an object. No block starts inside the object and no other object reaches
into it, so nothing else changes: every other object, the static data, the stack and the start bits are
as they were. Arrays are therefore maps that do not share elements.
-/

namespace CopyingHeap

namespace Heap

/-- The heap with another word at place `j` of an object. -/
def withSlot (h : Heap) (a : Reference) (j : Nat) (w : Word) : Heap :=
  { h with memory := h.memory.withWord (a.index + j) w }

namespace Regular

variable {h : Heap} (hr : h.Regular) {a r : Reference} (ha : h.Initialised a) {j : Nat}
  (hj : h.memory.IsSlot a.index j) (w : Word)

include hr ha hj

theorem word_withSlot :
    (h.withSlot a j w).memory.word (a.index + j) = w := by
  have hlt : j < h.size a := hj.lt
  have hend := hr.end_le_size ha
  rw [withSlot, Memory.word_withWord (by omega), if_pos rfl]

theorem word_withSlot_start (hset : h.spaces.bits.isSet r.address = true) :
    (h.withSlot a j w).memory.word r.index = h.memory.word r.index := by
  have hpos := hj.pos
  have hlt : j < h.size a := hj.lt
  refine Memory.word_withWord_ne _ (fun heq => ?_) w
  have hend := (hr.object_end ha).2 r hset (by omega)
  omega

theorem word_withSlot_other (hi : h.Initialised r) (hne : r ≠ a) {l : Nat} (hl : l < h.size r) :
    (h.withSlot a j w).memory.word (r.index + l) = h.memory.word (r.index + l) := by
  have hlt : j < h.size a := hj.lt
  have hseparate := hr.separate hi ha hne
  exact Memory.word_withWord_ne _ (by omega) w

/-- In no object does a word change that is not a slot. -/
theorem payload_withSlot (hi : h.Initialised r) {l : Nat} (hl : l < h.size r)
    (hslot : ¬ h.memory.IsSlot r.index l) :
    (h.withSlot a j w).memory.word (r.index + l) = h.memory.word (r.index + l) := by
  by_cases hra : r = a
  · subst hra
    refine Memory.word_withWord_ne _ (fun heq => hslot ?_) w
    rwa [Nat.add_left_cancel heq]
  · exact hr.word_withSlot_other ha hj w hi hra hl

theorem size_withSlot (hi : h.Initialised r) : (h.withSlot a j w).size r = h.size r :=
  Memory.wordCount_of_payload (hr.two_le_size hi) fun _ hl => hr.payload_withSlot ha hj w hi hl

theorem isSlot_withSlot (hi : h.Initialised r) {l : Nat} :
    (h.withSlot a j w).memory.IsSlot r.index l ↔ h.memory.IsSlot r.index l :=
  Memory.isSlot_of_payload (hr.two_le_size hi) fun _ hl => hr.payload_withSlot ha hj w hi hl

theorem header_withSlot (hi : h.Initialised r) :
    (h.withSlot a j w).memory.word r.index = h.memory.word r.index :=
  Memory.header_of_payload (hr.two_le_size hi) fun _ hl => hr.payload_withSlot ha hj w hi hl

omit hr ha hj in
theorem size_words_withSlot : (h.withSlot a j w).memory.words.size = h.memory.words.size :=
  Memory.size_withWord ..

omit ha hj in
theorem layout_withSlot : (h.withSlot a j w).Layout :=
  hr.toLayout.withMemory (size_words_withSlot w) rfl

theorem initialised_withSlot : (h.withSlot a j w).Initialised r ↔ h.Initialised r := by
  have hin (hset : h.spaces.bits.isSet r.address = true) := hr.index_within hset
  rw [(hr.layout_withSlot w).initialised_iff_isSet hin, hr.initialised_iff]
  refine and_congr_right fun hset => ?_
  rw [hr.word_withSlot_start ha hj w hset]

theorem allows_withSlot {x : Word} : (h.withSlot a j w).Allows x ↔ h.Allows x := by
  refine forall_congr' fun s => imp_congr_right fun _ => or_congr_right ?_
  exact hr.initialised_withSlot ha hj w

theorem lies_withSlot (hi : h.Initialised r) {c : Kind} (hc : h.memory.word r.index = c.header) :
    (h.withSlot a j w).memory.Lies r c := by
  have hsize : (h.withSlot a j w).memory.wordCount r.index = h.size r :=
    hr.size_withSlot ha hj w hi
  refine (hr.layout_withSlot w).paged.lies ((hr.header_withSlot ha hj w hi).trans hc) ?_
  rw [hsize, size_words_withSlot w]
  exact hr.end_le_size hi

theorem kind_withSlot (hi : h.Initialised r) :
    (h.withSlot a j w).memory.kind r = h.memory.kind r := by
  obtain ⟨c, -, hkind, hc⟩ := hr.kind_eq hi
  rw [hkind, (hr.lies_withSlot ha hj w hi hc).kind_eq]

theorem objectSize_withSlot (hi : h.Initialised r) :
    (h.withSlot a j w).memory.objectSize r = h.memory.objectSize r := by
  obtain ⟨c, -, -, hc⟩ := hr.kind_eq hi
  have hlies := hr.lies_withSlot ha hj w hi hc
  have hinside := hlies.inside
  have htwo := hlies.two_le
  have hsize : (h.withSlot a j w).memory.wordCount r.index = h.size r :=
    hr.size_withSlot ha hj w hi
  rw [hr.objectSize hi, Memory.objectSize_eq (hr.layout_withSlot w).size_le (by omega) hlies.header,
    hsize]

/-- An object may refer to whatever a heap allows. -/
theorem withSlot (hw : h.Allows w) : (h.withSlot a j w).Regular where
  toLayout := hr.layout_withSlot w
  blocks := by
    obtain ⟨blocks, hb⟩ := hr.blocks
    have hcursor := hr.cursor_inside
    refine ⟨blocks, ⟨hb.within, hb.disjoint, hb.starts, fun b hmem r hstart => ?_⟩⟩
    have hset : h.spaces.bits.isSet r.address = true := (hb.starts _).mpr ⟨b, hmem, hstart.symm⟩
    have hheader := hr.word_withSlot_start ha hj w hset
    have hindex := hr.index_lt_size hset
    have hstop := Address.le_iff.mp (hb.within b hmem).2.2
    have hsize := size_words_withSlot (h := h) (a := a) (j := j) w
    rcases hb.filled b hmem r hstart with ⟨x, hx, hnone, hne⟩ | hholds
    · rw [Memory.load_address hindex, Except.ok.injEq] at hx
      refine .inl ⟨x, ?_, hnone, hne⟩
      rw [Memory.load_address (hsize ▸ hindex), hheader, hx]
    · obtain ⟨c, hsymbol, hc, hend, hslots⟩ := (holds_iff hr.size_le (by omega)).mp hholds
      have hi : h.Initialised r := hr.initialised_iff.mpr ⟨hset, c, hc⟩
      refine .inr ((holds_iff (hsize ▸ hr.size_le) (by omega)).mpr
        ⟨c, hsymbol, hheader.trans hc, ?_, fun l hl => ?_⟩)
      · rw [hr.size_withSlot ha hj w hi]
        exact hend
      · rw [hr.allows_withSlot ha hj w]
        have hl' := (hr.isSlot_withSlot ha hj w hi).mp hl
        by_cases heq : r.index + l = a.index + j
        · rw [heq, hr.word_withSlot ha hj w]
          exact hw
        · have hkeep : (h.withSlot a j w).memory.word (r.index + l) = h.memory.word (r.index + l) :=
            Memory.word_withWord_ne _ heq w
          rw [hkeep]
          exact hslots l hl'

end Regular

/-- A live array with `size` elements. -/
structure LiveArray (h : Heap) (a : Reference) (size : Nat) : Prop where
  initialised : h.Initialised a
  kind : h.memory.kind a = .ok .array
  arraySize : h.memory.arraySize a = .ok size

namespace LiveArray

variable {h : Heap} (hr : h.Regular) {a : Reference} {size i : Nat} (ha : h.LiveArray a size)

include hr ha

theorem lies : h.memory.Lies a .array :=
  hr.paged.lies (Memory.kind_eq_ok_word ha.kind).2 (hr.end_le_size ha.initialised)

theorem length_eq : (h.memory.word (a.index + 1)).toNat = size := by
  have hsize := ha.arraySize
  rwa [(ha.lies hr).arraySize_eq, Except.ok.injEq] at hsize

theorem isSlot (hi : i < size) : h.memory.IsSlot a.index (2 + i) := by
  have hlength := ha.length_eq hr
  rw [Memory.isSlot_iff (Memory.kind_eq_ok_word ha.kind).2]
  simp only [Kind.IsSlot]
  omega

omit hr in
theorem checkIndex_error (hi : size ≤ i) :
    h.memory.checkIndex a i = .error (.indexOutOfBounds i a.address size) := by
  rw [Memory.checkIndex, ha.arraySize, ok_bind, if_neg (Nat.not_lt.mpr hi)]
  rfl

omit hr in
theorem get_error (hi : size ≤ i) :
    h.memory.arrayGet a i = .error (.indexOutOfBounds i a.address size) := by
  rw [Memory.arrayGet, ha.checkIndex_error hi, error_bind]

omit hr in
theorem set_error (hi : size ≤ i) (v : Value) :
    h.memory.arraySet a i v = .error (.indexOutOfBounds i a.address size) := by
  rw [Memory.arraySet, ha.checkIndex_error hi, error_bind]

section

variable {c : Reference} (hc : h.Initialised c) {j : Nat} (hj : h.memory.IsSlot c.index j) (w : Word)

include hc hj

theorem lies_withSlot : (h.withSlot c j w).memory.Lies a .array :=
  hr.lies_withSlot hc hj w ha.initialised (ha.lies hr).header

theorem length_withSlot : ((h.withSlot c j w).memory.word (a.index + 1)).toNat = size := by
  have htwo := hr.two_le_size ha.initialised
  rw [hr.payload_withSlot hc hj w ha.initialised (by omega), ha.length_eq hr]
  rw [Memory.isSlot_iff (ha.lies hr).header]
  exact Kind.not_isSlot_one rfl

/-- Setting a reference slot keeps the array, though perhaps not its elements. -/
theorem withSlot : (h.withSlot c j w).LiveArray a size where
  initialised := (hr.initialised_withSlot hc hj w).mpr ha.initialised
  kind := (ha.lies_withSlot hr hc hj w).kind_eq
  arraySize := by rw [(ha.lies_withSlot hr hc hj w).arraySize_eq, ha.length_withSlot hr hc hj w]

theorem get_withSlot {i : Nat} (hi : i < size) : (h.withSlot c j w).memory.arrayGet a i =
    .ok (Value.decode ((h.withSlot c j w).memory.word (a.index + (2 + i)))) :=
  (ha.lies_withSlot hr hc hj w).arrayGet_eq (by rwa [ha.length_withSlot hr hc hj w])

end

end LiveArray

/-- Element `i` of the array `a` has become `v`, and nothing else has changed. -/
structure Assigned (h : Heap) (a : Reference) (i : Nat) (v : Value) (k : Heap) : Prop where
  /-- The spaces with their start bits, the cursor and the stack pointer stay. -/
  rest : k = { h with memory := k.memory }
  only : ∀ x, x ≠ a.index + (2 + i) → k.memory.word x = h.memory.word x
  memory_size : k.memory.words.size = h.memory.words.size
  maxPages : k.memory.maxPages = h.memory.maxPages
  get_eq : k.memory.arrayGet a i = .ok v
  get_other : ∀ b size, h.LiveArray b size → ∀ j, b ≠ a ∨ j ≠ i →
    k.memory.arrayGet b j = h.memory.arrayGet b j
  liveArray : ∀ b size, h.LiveArray b size → k.LiveArray b size
  initialised_iff : ∀ r, k.Initialised r ↔ h.Initialised r
  kind_eq : ∀ r, h.Initialised r → k.memory.kind r = h.memory.kind r
  objectSize_eq : ∀ r, h.Initialised r → k.memory.objectSize r = h.memory.objectSize r
  other : ∀ r, h.Initialised r → r ≠ a → ∀ l < h.size r,
    k.memory.word (r.index + l) = h.memory.word (r.index + l)
  /-- The static data and the stack lie below the heap. -/
  below : ∀ x, 4 * x < h.spaces.base.toNat → k.memory.word x = h.memory.word x
  wellFormed : h.Accepts v → k.WellFormed

theorem LiveArray.assigned {h : Heap} (hw : h.WellFormed) {a : Reference} {size i : Nat}
    (ha : h.LiveArray a size) (hi : i < size) {v : Value} {w : Word} (hv : v.encode = .ok w) :
    h.Assigned a i v (h.withSlot a (2 + i) w) := by
  have hr := hw.toRegular
  have hslot := ha.isSlot hr hi
  have hset := ha.initialised
  exact
    { rest := rfl
      only := fun x hx => Memory.word_withWord_ne _ hx w
      memory_size := Regular.size_words_withSlot w
      maxPages := rfl
      get_eq := by
        rw [ha.get_withSlot hr hset hslot w hi, hr.word_withSlot hset hslot w,
          (Value.encode_eq_ok_iff.mp hv).1]
      get_other := fun b n hb j hne => by
        rcases Nat.lt_or_ge j n with hlt | hge
        · have hkeep : (h.withSlot a (2 + i) w).memory.word (b.index + (2 + j)) =
              h.memory.word (b.index + (2 + j)) := by
            by_cases hba : b = a
            · subst hba
              have hji : j ≠ i := hne.resolve_left fun hbb => hbb rfl
              have hword : b.index + (2 + j) ≠ b.index + (2 + i) := by omega
              exact Memory.word_withWord_ne _ hword w
            · exact hr.word_withSlot_other hset hslot w hb.initialised hba
                (hb.isSlot hr hlt).lt
          rw [hb.get_withSlot hr hset hslot w hlt, hkeep,
            (hb.lies hr).arrayGet_eq (by rwa [hb.length_eq hr])]
        · rw [hb.get_error hge, (hb.withSlot hr hset hslot w).get_error hge]
      liveArray := fun b n hb => hb.withSlot hr hset hslot w
      initialised_iff := fun r => hr.initialised_withSlot hset hslot w
      kind_eq := fun r => hr.kind_withSlot hset hslot w
      objectSize_eq := fun r => hr.objectSize_withSlot hset hslot w
      other := fun r hi hne l hl => hr.word_withSlot_other hset hslot w hi hne hl
      below := fun x hx => by
        have hindex := hr.index_within (hr.isSet_of_initialised hset)
        have hbase := Address.le_iff.mp hr.spaces.base_le_active
        exact Memory.word_withWord_ne _ (by omega) w
      wellFormed := fun hx =>
        { hr.withSlot hset hslot w (hx.allows hv) with
          reserved := hw.reserved
          limit_le := hw.limit_le } }

/-- Arrays are independent maps: setting an element changes it and nothing else, and an index that is out
of bounds changes nothing. -/
theorem WellFormed.arraySet_independent {h : Heap} (hw : h.WellFormed) {a : Reference} {size : Nat}
    (ha : h.LiveArray a size) (i : Nat) (v : Value) :
    (i < size → ∀ w, v.encode = .ok w → ∃ k, h.changeMemory (·.arraySet a i v) = .ok k ∧
      h.Assigned a i v k ∧ (Memory.settingElement a i v).run h.memory = .ok () k.memory) ∧
    (size ≤ i → h.memory.arrayGet a i = .error (.indexOutOfBounds i a.address size) ∧
      h.memory.arraySet a i v = .error (.indexOutOfBounds i a.address size) ∧
      (Memory.settingElement a i v).run h.memory =
        .error (.indexOutOfBounds i a.address size) h.memory) := by
  refine ⟨fun hi w hv => ?_, fun hi => ?_⟩
  · have hset := (ha.lies hw.toRegular).arraySet_eq (by rwa [ha.length_eq hw.toRegular]) hv
    refine ⟨h.withSlot a (2 + i) w, ?_, ha.assigned hw hi hv, Memory.settingElement_ok hset⟩
    rw [changeMemory_eq, hset]
    rfl
  · have herror := ha.set_error hi v
    exact ⟨ha.get_error hi, herror, Memory.settingElement_error herror⟩

/-- An array whose only element is the array itself, until that is set to a number. -/
theorem arraySet_nested : nested.WellFormed ∧ nested.LiveArray (.ofIndex 16) 1 ∧
    (∃ k, nested.changeMemory (·.arraySet (.ofIndex 16) 0 (.int 7)) = .ok k ∧
      k.memory.arrayGet (.ofIndex 16) 0 = .ok (.int 7) ∧ k.WellFormed) ∧
    (Memory.settingElement (.ofIndex 16) 1 (.int 7)).run nested.memory =
      .error (.indexOutOfBounds 1 (.ofNat 64) 1) nested.memory := by
  have hlive : nested.LiveArray (.ofIndex 16) 1 :=
    ⟨initialised_nested.mpr rfl, kind_nested, arrayOf_nested.size⟩
  obtain ⟨hset, -⟩ := wellFormed_nested.arraySet_independent hlive 0 (.int 7)
  obtain ⟨k, hk, hassigned, -⟩ := hset Nat.one_pos _ rfl
  obtain ⟨-, houtside⟩ := wellFormed_nested.arraySet_independent hlive 1 (.int 7)
  exact ⟨wellFormed_nested, hlive, ⟨k, hk, hassigned.get_eq, hassigned.wellFormed
    (nested.accepts_int (Value.fitsInt_iff.mp (by decide)))⟩, (houtside (Nat.le_refl 1)).2.2⟩

end Heap

end CopyingHeap
