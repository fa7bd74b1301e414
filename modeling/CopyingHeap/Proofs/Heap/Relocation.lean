import CopyingHeap.Proofs.Heap.Roots
import CopyingHeap.Proofs.Heap.Isomorphism
import CopyingHeap.Proofs.Value

/-!
Values whose objects move. One map gives the place of everything that the stack or the values reach, and a
word of the stack that stands for a value stands for the same value afterwards. Such relocations compose,
if what the first one keeps is reached where the second one starts.
-/

namespace CopyingHeap

namespace Heap

/-- A value that can be kept: it fits into a word, and the object it refers to, if any, is one of the
heap or lies below it. -/
structure Accepts (h : Heap) (v : Value) : Prop where
  fits : v.Fits
  target : ∀ r, v.object? = some r → r.address < h.spaces.base ∨ h.Initialised r

/-- The objects that the stack or one of the values reaches. -/
inductive ReachableWith (h : Heap) (vs : List Value) : Reference → Prop where
  | root {slot : Address} {r : Reference} : h.RootAt slot r → ReachableWith h vs r
  | value {r : Reference} : .object r ∈ vs → h.Initialised r → ReachableWith h vs r
  | step {r s : Reference} : ReachableWith h vs r → h.PointsTo r s → ReachableWith h vs s

/-- The value after objects have moved. -/
def relocated (h : Heap) (f : Reference → Reference) : Value → Value
  | .object r => if h.Initialised r then .object (f r) else .object r
  | v => v

/-- What the stack and the values reached in `h` lies in `k`, where `f` gives the places, and the words
of the stack stand for the same values. Stray addresses on the stack are left out: they may have become
roots in between. -/
structure Relocates (h : Heap) (vs : List Value) (f : Reference → Reference) (k : Heap) : Prop where
  stack : k.stack = h.stack
  injective : Set.InjOn f {r | h.ReachableWith vs r}
  initialised : ∀ r, h.ReachableWith vs r → k.Initialised (f r)
  kind : ∀ r, h.ReachableWith vs r → k.memory.kind (f r) = h.memory.kind r
  objectSize : ∀ r, h.ReachableWith vs r → k.memory.objectSize (f r) = h.memory.objectSize r
  slots : ∀ r, h.ReachableWith vs r → ∀ j, h.memory.IsSlot r.index j →
    k.memory.word ((f r).index + j) = h.renamed f (h.memory.word (r.index + j))
  payload : ∀ r, h.ReachableWith vs r → ∀ j < h.size r, ¬ h.memory.IsSlot r.index j →
    k.memory.word ((f r).index + j) = h.memory.word (r.index + j)
  roots : ∀ i, h.stack.sp.toNat ≤ 4 * i → 4 * i < h.stack.base.toNat →
    h.Allows (h.memory.word i) → k.memory.word i = h.renamed f (h.memory.word i)

/-- What has been reached is relocated, in a heap above the same base. A stray address on the stack stays
what it is, or it has become the reference to an object that has come to lie there. -/
structure Restores (h : Heap) (vs : List Value) (f : Reference → Reference) (k : Heap) : Prop extends
    h.Relocates vs f k where
  base : k.spaces.base = h.spaces.base
  base_le : k.spaces.base ≤ k.spaces.active.start
  strays : ∀ i, h.stack.sp.toNat ≤ 4 * i → 4 * i < h.stack.base.toNat →
    ¬ h.Allows (h.memory.word i) →
      k.memory.word i = h.memory.word i ∨ ∃ s, k.Initialised s ∧ k.memory.word i = s.word

/-- The object that the value refers to, if it is one of the heap, is reached. -/
def Reaches (h : Heap) (vs : List Value) (v : Value) : Prop :=
  ∀ r, v = .object r → h.Initialised r → h.ReachableWith vs r

theorem ReachableWith.initialised {h : Heap} {vs : List Value} {r : Reference}
    (hr : h.ReachableWith vs r) : h.Initialised r := by
  cases hr with
  | root hroot => exact hroot.2.2
  | value _ hi => exact hi
  | step _ hedge => exact hedge.2

theorem ReachableWith.reachable {h : Heap} {r : Reference} (hr : h.ReachableWith [] r) :
    h.Reachable r := by
  induction hr with
  | root hroot => exact .root hroot
  | value hmem => exact absurd hmem List.not_mem_nil
  | step _ hedge ih => exact ih.step hedge

theorem reaches_of_mem {h : Heap} {vs : List Value} {v : Value} (hv : v ∈ vs) : h.Reaches vs v := by
  rintro r rfl hi
  exact .value hv hi

namespace Regular

variable {h : Heap} (hr : h.Regular) {vs : List Value}

include hr

theorem reaches_decode {w : Word}
    (hreach : ∀ r : Reference, w = r.word → h.Initialised r → h.ReachableWith vs r) :
    h.Reaches vs (Value.decode w) := by
  intro r hv hi
  have htarget : Word.target? w = some r := Value.object?_eq_some_iff.mpr ⟨hv, hr.ne_null hi⟩
  exact hreach r (target?_eq_some_iff.mp htarget).1 hi

/-- What a word of the stack refers to is reached. -/
theorem reaches_word {i : Nat} (hsp : h.stack.sp.toNat ≤ 4 * i) (hstop : 4 * i < h.stack.base.toNat) :
    h.Reaches vs (Value.decode (h.memory.word i)) :=
  hr.reaches_decode fun _ hw hi => .root (hr.rootAt hsp hstop hw hi)

theorem reaches_root {slot : RootSlot} {v : Value} (hslot : h.root slot = .ok v) :
    h.Reaches vs v := by
  obtain ⟨hholds, ha, rfl⟩ := hr.toLayout.root_eq_ok_iff.mp hslot
  obtain ⟨hsp, hstop⟩ := hholds.index ha
  exact hr.reaches_word hsp hstop

/-- What a reference slot refers to is reached if its object is. -/
theorem reaches_slot {r : Reference} (hreach : h.ReachableWith vs r) {j : Nat}
    (hj : h.memory.IsSlot r.index j) : h.Reaches vs (Value.decode (h.memory.word (r.index + j))) :=
  hr.reaches_decode fun _ hw hi =>
    hreach.step ((hr.pointsTo_iff hreach.initialised).mpr ⟨⟨j, hj, hw⟩, hi⟩)

end Regular

theorem accepts_decode_iff {h : Heap} {w : Word} : h.Accepts (Value.decode w) ↔ h.Allows w :=
  ⟨fun hv => hv.target, fun hw => ⟨Value.fits_decode w, hw⟩⟩

theorem Accepts.allows {h : Heap} {v : Value} (hv : h.Accepts v) {w : Word}
    (hw : v.encode = .ok w) : h.Allows w := by
  rw [← (Value.encode_eq_ok_iff.mp hw).1] at hv
  exact accepts_decode_iff.mp hv

theorem accepts_null (h : Heap) : h.Accepts .null where
  fits := trivial
  target := fun _ htarget => nomatch htarget

theorem accepts_object {h : Heap} {r : Reference} (hi : h.Initialised r) : h.Accepts (.object r) where
  fits := trivial
  target := by
    intro s htarget
    obtain ⟨heq, -⟩ := Value.object?_eq_some_iff.mp htarget
    cases heq
    exact .inr hi

theorem relocated_object {h : Heap} {r : Reference} (hi : h.Initialised r)
    (f : Reference → Reference) : h.relocated f (.object r) = .object (f r) :=
  if_pos hi

theorem relocated_id (h : Heap) (v : Value) : h.relocated id v = v := by
  unfold relocated
  cases v with
  | object r =>
    dsimp only
    split <;> rfl
  | _ => rfl

theorem Regular.relocated_null {h : Heap} (hr : h.Regular) (f : Reference → Reference) :
    h.relocated f .null = .null :=
  if_neg fun hi => hr.ne_null hi rfl

/-- A word that has been renamed stands for the relocated value. -/
theorem Regular.decode_renamed {h : Heap} (hr : h.Regular) (f : Reference → Reference) (w : Word) :
    Value.decode (h.renamed f w) = h.relocated f (Value.decode w) := by
  cases hnames : h.namesObject w with
  | true =>
    obtain ⟨r, htarget, hi⟩ := namesObject_iff.mp hnames
    obtain ⟨rfl, -⟩ := target?_eq_some_iff.mp htarget
    rw [hr.renamed_word hi, Value.decode_word, Value.decode_word, relocated_object hi]
  | false =>
    rw [renamed_of_namesObject_eq_false f hnames]
    cases hv : Value.decode w with
    | object r =>
      refine (if_neg fun hi => ?_).symm
      have htarget : Word.target? w = some r :=
        Value.object?_eq_some_iff.mpr ⟨hv, hr.ne_null hi⟩
      rw [Bool.eq_false_iff, Ne, namesObject_iff] at hnames
      exact hnames ⟨r, htarget, hi⟩
    | _ => rfl

/-- The word of a value becomes that of the relocated value. -/
theorem Regular.encode_relocated {h : Heap} (hr : h.Regular) {v : Value} {w : Word}
    (hw : v.encode = .ok w) (f : Reference → Reference) :
    (h.relocated f v).encode = .ok (h.renamed f w) := by
  have htarget := Value.target?_of_encode hw
  cases v with
  | object r =>
    injection hw with hw
    subst hw
    by_cases hi : h.Initialised r
    · rw [relocated_object hi, hr.renamed_word hi]
      rfl
    · have hstays : h.relocated f (.object r) = .object r := if_neg hi
      have hnames : h.namesObject r.word = false := by
        rw [Bool.eq_false_iff, Ne, namesObject_iff]
        rintro ⟨s, hs, hinit⟩
        obtain ⟨hword, -⟩ := target?_eq_some_iff.mp hs
        exact hi (Reference.word_inj.mp hword ▸ hinit)
      rw [hstays, renamed_of_namesObject_eq_false f hnames]
      rfl
  | _ =>
    rw [renamed, htarget]
    exact hw

theorem Regular.restores_refl {h : Heap} (hr : h.Regular) (vs : List Value) : h.Restores vs id h where
  stack := rfl
  injective := Function.injective_id.injOn
  initialised := fun _ hreach => hreach.initialised
  kind := fun _ _ => rfl
  objectSize := fun _ _ => rfl
  slots := fun _ _ _ _ => (h.renamed_id _).symm
  payload := fun _ _ _ _ _ => rfl
  roots := fun _ _ _ _ => (h.renamed_id _).symm
  base := rfl
  base_le := hr.spaces.base_le_active
  strays := fun _ _ _ _ => .inl rfl

/-- The objects of `k` lie in `l` in their places, and the words on the stack are the same. -/
structure Includes (k l : Heap) : Prop extends k.Intact l where
  stack : l.stack = k.stack
  base : l.spaces.base = k.spaces.base
  base_le : l.spaces.base ≤ l.spaces.active.start
  initialised : ∀ s, k.Initialised s → l.Initialised s
  roots : ∀ i, k.stack.sp.toNat ≤ 4 * i → 4 * i < k.stack.base.toNat →
    l.memory.word i = k.memory.word i

namespace Restores

variable {h k l : Heap} {vs us : List Value} {f g : Reference → Reference} (hr : h.Regular)
  (hi : h.Restores vs f k)

include hi

/-- No object comes to lie below the heap. -/
theorem not_below {r : Reference} (hreach : h.ReachableWith vs r) :
    ¬ (f r).address < h.spaces.base := by
  have hstart := (Layout.index_live (hi.initialised r hreach).1).1
  have hbase := Address.le_iff.mp hi.base_le
  rw [← hi.base, Address.lt_iff, Reference.toNat_address]
  omega

include hr

theorem ne_null {r : Reference} (hreach : h.ReachableWith vs r) : f r ≠ Reference.null := by
  have hnot := hi.not_below hreach
  have hreserved := hr.spaces.reserved
  have hzero : Reference.null.address.toNat = 0 := rfl
  intro hnull
  rw [hnull, Address.lt_iff] at hnot
  unfold Size.reservedBytes at hreserved
  omega

theorem size_eq {r : Reference} (hreach : h.ReachableWith vs r) : k.size (f r) = h.size r :=
  Memory.wordCount_of_payload (hr.two_le_size hreach.initialised) (hi.payload r hreach)

theorem isSlot_iff {r : Reference} (hreach : h.ReachableWith vs r) {j : Nat} :
    k.memory.IsSlot (f r).index j ↔ h.memory.IsSlot r.index j :=
  Memory.isSlot_of_payload (hr.two_le_size hreach.initialised) (hi.payload r hreach)

/-- The value in a reference slot is there afterwards, where its object has gone. -/
theorem decode_slot {r : Reference} (hreach : h.ReachableWith vs r) {j : Nat}
    (hj : h.memory.IsSlot r.index j) : Value.decode (k.memory.word ((f r).index + j)) =
      h.relocated f (Value.decode (h.memory.word (r.index + j))) := by
  rw [hi.slots r hreach j hj, hr.decode_renamed]

/-- Equal values stay equal, and distinct ones distinct. -/
theorem injOn_relocated : Set.InjOn (h.relocated f) {v | h.Accepts v ∧ h.Reaches vs v} := by
  -- A reference to no object of the heap is not taken for one to an object that has moved.
  have hstray {r s : Reference} (hv : h.Accepts (.object s)) (hs : ¬ h.Initialised s)
      (hreach : h.ReachableWith vs r) : f r ≠ s := by
    rintro rfl
    have htarget := Value.object?_eq_some_iff.mpr ⟨rfl, hi.ne_null hr hreach⟩
    rcases hv.target (f r) htarget with hbelow | hinit
    · exact hi.not_below hreach hbelow
    · exact hs hinit
  rintro v ⟨hv, hrv⟩ u ⟨hu, hru⟩ heq
  cases v with
  | object r =>
    cases u with
    | object s =>
      by_cases hinit : h.Initialised r <;> by_cases hinit' : h.Initialised s
      · rw [relocated_object hinit, relocated_object hinit', Value.object.injEq] at heq
        rw [hi.injective (hrv r rfl hinit) (hru s rfl hinit') heq]
      · have hstays : h.relocated f (.object s) = .object s := if_neg hinit'
        rw [relocated_object hinit, hstays, Value.object.injEq] at heq
        exact absurd heq (hstray hu hinit' (hrv r rfl hinit))
      · have hstays : h.relocated f (.object r) = .object r := if_neg hinit
        rw [relocated_object hinit', hstays, Value.object.injEq] at heq
        exact absurd heq.symm (hstray hv hinit (hru s rfl hinit'))
      · have hstays : h.relocated f (.object r) = .object r := if_neg hinit
        have hstays' : h.relocated f (.object s) = .object s := if_neg hinit'
        rwa [hstays, hstays'] at heq
    | _ =>
      unfold relocated at heq
      dsimp only at heq
      split at heq <;> nomatch heq
  | _ =>
    cases u with
    | object s =>
      unfold relocated at heq
      dsimp only at heq
      split at heq <;> nomatch heq
    | _ => exact heq

/-- A word that may be kept may be kept where its object has gone. -/
theorem allows {w : Word} (hw : h.Allows w) (hreach : h.Reaches vs (Value.decode w)) :
    k.Allows (h.renamed f w) := by
  cases hnames : h.namesObject w with
  | true =>
    obtain ⟨r, htarget, hinit⟩ := namesObject_iff.mp hnames
    obtain ⟨rfl, -⟩ := target?_eq_some_iff.mp htarget
    rw [hr.renamed_word hinit]
    exact (accepts_object (hi.initialised r (hreach r (Value.decode_word r) hinit))).allows rfl
  | false =>
    rw [renamed_of_namesObject_eq_false f hnames]
    intro s hs
    rw [hi.base]
    refine (hw s hs).imp_right fun hinit => ?_
    rw [Bool.eq_false_iff, Ne, namesObject_iff] at hnames
    exact absurd ⟨s, hs, hinit⟩ hnames

theorem accepts {v : Value} (hv : h.Accepts v) (hreach : h.Reaches vs v) :
    k.Accepts (h.relocated f v) := by
  obtain ⟨w, -, rfl⟩ := Value.exists_encode hv.fits
  rw [← hr.decode_renamed]
  exact accepts_decode_iff.mpr (hi.allows hr (accepts_decode_iff.mp hv) hreach)

/-- A value in a slot of the stack is read back where its object has gone. -/
theorem root {slot : RootSlot} {v : Value} (hslot : h.root slot = .ok v) (hv : h.Accepts v)
    (hin : slot.address.toNat / 4 < k.memory.words.size) : k.root slot = .ok (h.relocated f v) := by
  obtain ⟨hholds, ha, rfl⟩ := hr.toLayout.root_eq_ok_iff.mp hslot
  obtain ⟨hsp, hstop⟩ := hholds.index ha
  rw [root_eq_ok (hi.stack ▸ hholds) ha hin, hi.roots _ hsp hstop (accepts_decode_iff.mp hv),
    hr.decode_renamed]

/-- Making more objects moves none. -/
theorem extend (hk : k.Regular) (hl : k.Includes l) : h.Restores vs f l where
  stack := hl.stack.trans hi.stack
  injective := hi.injective
  initialised := fun r hreach => hl.initialised _ (hi.initialised r hreach)
  kind := fun r hreach => (hl.kind_eq hk (hi.initialised r hreach)).trans (hi.kind r hreach)
  objectSize := fun r hreach =>
    (hl.objectSize_eq hk (hi.initialised r hreach)).trans (hi.objectSize r hreach)
  slots := by
    intro r hreach j hj
    have hlt : j < k.size (f r) := (hi.size_eq hr hreach).symm ▸ hj.lt
    rw [hl.word _ (hi.initialised r hreach) j hlt]
    exact hi.slots r hreach j hj
  payload := by
    intro r hreach j hj hno
    have hlt : j < k.size (f r) := (hi.size_eq hr hreach).symm ▸ hj
    rw [hl.word _ (hi.initialised r hreach) j hlt]
    exact hi.payload r hreach j hj hno
  roots := by
    intro i hsp hstop hw
    rw [hl.roots i (hi.stack ▸ hsp) (hi.stack ▸ hstop)]
    exact hi.roots i hsp hstop hw
  base := hl.base.trans hi.base
  base_le := hl.base_le
  strays := by
    intro i hsp hstop hw
    rw [hl.roots i (hi.stack ▸ hsp) (hi.stack ▸ hstop)]
    refine (hi.strays i hsp hstop hw).imp_right ?_
    rintro ⟨s, hs, hword⟩
    exact ⟨s, hl.initialised s hs, hword⟩

variable (hk : k.Regular)

include hk

theorem renamed_renamed {w : Word} (hw : h.Allows w) (hreach : h.Reaches vs (Value.decode w)) :
    k.renamed g (h.renamed f w) = h.renamed (g ∘ f) w := by
  apply hr.renamed_renamed hk hi.base hw
  rintro r rfl hinit
  exact hi.initialised r (hreach r (Value.decode_word r) hinit)

theorem relocated_relocated {v : Value} (hv : h.Accepts v) (hreach : h.Reaches vs v) :
    k.relocated g (h.relocated f v) = h.relocated (g ∘ f) v := by
  obtain ⟨w, -, rfl⟩ := Value.exists_encode hv.fits
  rw [← hr.decode_renamed, ← hk.decode_renamed, ← hr.decode_renamed,
    hi.renamed_renamed hr hk (accepts_decode_iff.mp hv) hreach]

/-- What has been reached is reached in its new place, if the values are. -/
theorem reachableWith (hvs : ∀ v ∈ vs, k.Reaches us (h.relocated f v)) {r : Reference}
    (hreach : h.ReachableWith vs r) : k.ReachableWith us (f r) := by
  induction hreach with
  | @root slot r hroot =>
    have hinit := hi.initialised r (.root hroot)
    obtain ⟨i, hsp, hstop, hw⟩ := hroot.index
    have hallows : h.Allows (h.memory.word i) := by
      rw [hw]
      exact (accepts_object hroot.2.2).allows rfl
    have hword := hi.roots i hsp hstop hallows
    rw [hw, hr.renamed_word hroot.2.2] at hword
    exact .root (hk.rootAt (hi.stack ▸ hsp) (hi.stack ▸ hstop) hword hinit)
  | @value r hmem hinit =>
    exact hvs _ hmem (f r) (relocated_object hinit f) (hi.initialised r (.value hmem hinit))
  | @step r s hreach hedge ih =>
    obtain ⟨⟨j, hj, hw⟩, hs⟩ := (hr.pointsTo_iff hreach.initialised).mp hedge
    have hword := hi.slots r hreach j hj
    rw [hw, hr.renamed_word hs] at hword
    refine ih.step ((hk.pointsTo_iff ih.initialised).mpr ⟨⟨j, ?_, hword⟩, ?_⟩)
    · exact (hi.isSlot_iff hr hreach).mpr hj
    · exact hi.initialised s (hreach.step hedge)

/-- Relocations compose, if what the first one keeps is reached where the second one starts. -/
theorem trans (hg : k.Restores us g l) (hvs : ∀ v ∈ vs, k.Reaches us (h.relocated f v)) :
    h.Restores vs (g ∘ f) l := by
  have hreached {r : Reference} (hreach : h.ReachableWith vs r) := hi.reachableWith hr hk hvs hreach
  refine
    { stack := hg.stack.trans hi.stack
      injective := hg.injective.comp hi.injective fun _ hreach => hreached hreach
      initialised := fun r hreach => hg.initialised _ (hreached hreach)
      kind := fun r hreach => (hg.kind _ (hreached hreach)).trans (hi.kind r hreach)
      objectSize := fun r hreach =>
        (hg.objectSize _ (hreached hreach)).trans (hi.objectSize r hreach)
      slots := ?_
      payload := ?_
      roots := ?_
      base := hg.base.trans hi.base
      base_le := hg.base_le
      strays := ?_ }
  · intro r hreach j hj
    have hallows := hr.allows hreach.initialised hj
    rw [← hi.renamed_renamed hr hk hallows (hr.reaches_slot hreach hj), ← hi.slots r hreach j hj]
    exact hg.slots (f r) (hreached hreach) j ((hi.isSlot_iff hr hreach).mpr hj)
  · intro r hreach j hj hno
    rw [← hi.payload r hreach j hj hno]
    apply hg.payload (f r) (hreached hreach) j
    · rwa [hi.size_eq hr hreach]
    · rwa [hi.isSlot_iff hr hreach]
  · intro i hsp hstop hw
    have hreach : h.Reaches vs (Value.decode (h.memory.word i)) := hr.reaches_word hsp hstop
    have hword := hi.roots i hsp hstop hw
    rw [← hi.renamed_renamed hr hk hw hreach, ← hword]
    exact hg.roots i (hi.stack ▸ hsp) (hi.stack ▸ hstop) (hword ▸ hi.allows hr hw hreach)
  · intro i hsp hstop hw
    have hsp' : k.stack.sp.toNat ≤ 4 * i := hi.stack ▸ hsp
    have hstop' : 4 * i < k.stack.base.toNat := hi.stack ▸ hstop
    -- Once the word refers to an object, it keeps doing so.
    have hobject {s : Reference} (hs : k.Initialised s) (hword : k.memory.word i = s.word) :
        ∃ t, l.Initialised t ∧ l.memory.word i = t.word := by
      refine ⟨g s, hg.initialised s (.root (hk.rootAt hsp' hstop' hword hs)), ?_⟩
      have hallows : k.Allows (k.memory.word i) := by
        rw [hword]
        exact (accepts_object hs).allows rfl
      rw [hg.roots i hsp' hstop' hallows, hword, hk.renamed_word hs]
    rcases hi.strays i hsp hstop hw with hsame | ⟨s, hs, hword⟩
    · by_cases hallows : k.Allows (k.memory.word i)
      · unfold Allows at hw
        push Not at hw
        obtain ⟨s, htarget, hbelow, -⟩ := hw
        have hword := (target?_eq_some_iff.mp htarget).1
        refine .inr (hobject ((hallows s (hsame ▸ htarget)).resolve_left ?_) (hsame.trans hword))
        rwa [hi.base]
      · rw [← hsame]
        exact hg.strays i hsp' hstop' hallows
    · exact .inr (hobject hs hword)

end Restores

end Heap

end CopyingHeap
