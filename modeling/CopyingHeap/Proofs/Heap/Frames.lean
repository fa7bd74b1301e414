import CopyingHeap.Proofs.Heap.Budget
import CopyingHeap.Proofs.Heap.Relocation
import CopyingHeap.Proofs.Heap.Stack

/-!
Frames. Values are pushed into slots of the stack, where a collection finds and updates them, and popped all
at once. With the frame on the stack the heap reaches what the values refer to; when the frame is left, they
are known to the caller only, who has read them back.
-/

namespace CopyingHeap

namespace Heap

/-- `k` is `h` with more words on the stack. -/
structure Lowered (h k : Heap) : Prop where
  eq : k = h.restacked k.stack.sp k.memory
  restacks : h.Restacks k.stack.sp k.memory
  limit_le : h.stack.limit ≤ k.stack.sp
  sp_le : k.stack.sp ≤ h.stack.sp
  word : ∀ i, h.stack.sp.toNat ≤ 4 * i → 4 * i < h.stack.base.toNat →
    k.memory.word i = h.memory.word i

theorem WellFormed.lowered_self {h : Heap} (hw : h.WellFormed) : h.Lowered h where
  eq := rfl
  restacks := ⟨hw.stack.sp_aligned, hw.stack.sp_le, .inl hw.limit_le, rfl, rfl, fun _ _ => rfl⟩
  limit_le := hw.limit_le
  sp_le := Address.le_iff.mpr (Nat.le_refl _)
  word := fun _ _ _ => rfl

theorem Pushed.lowered {h k : Heap} {w : Word} (hp : h.Pushed w k) (hl : h.Layout) : h.Lowered k where
  eq := by
    rw [hp.memory_eq]
    exact hp.eq
  restacks := by
    rw [hp.memory_eq]
    exact hp.restacks
  limit_le := hp.limit_le hl
  sp_le := by
    have hsp := hp.sp_eq
    exact Address.le_iff.mpr (by omega)
  word := by
    intro i hsp _
    have hsp' := hp.sp_eq
    exact hp.word_ne hl (by omega)

namespace Lowered

variable {h k l : Heap} (hk : h.Lowered k)

include hk

theorem stack_eq : k.stack = { h.stack with sp := k.stack.sp } :=
  congrArg Heap.stack hk.eq

theorem base_eq : k.stack.base = h.stack.base := by
  rw [hk.stack_eq]

theorem spaces_eq : k.spaces = h.spaces := by
  rw [hk.eq]
  rfl

theorem statistics_eq : k.statistics = h.statistics := by
  rw [hk.eq]
  rfl

theorem trans (hl : k.Lowered l) : h.Lowered l where
  eq := by
    rw [hl.eq, hk.eq]
    rfl
  restacks := by
    have hstack := hk.stack_eq
    refine ⟨hl.restacks.sp_aligned, ?_, ?_, ?_, ?_, ?_⟩
    · rw [← hk.base_eq]
      exact hl.restacks.sp_le
    · have hlimit := hl.limit_le
      rw [hstack] at hlimit
      exact .inl hlimit
    · exact hl.restacks.size.trans hk.restacks.size
    · exact hl.restacks.maxPages.trans hk.restacks.maxPages
    · intro i hi
      have houter := hl.restacks.outside i
      rw [hstack] at houter
      rw [houter hi, hk.restacks.outside i hi]
  limit_le := by
    have hlimit := hl.limit_le
    rw [hk.stack_eq] at hlimit
    exact hlimit
  sp_le := by
    have h1 := Address.le_iff.mp hk.sp_le
    have h2 := Address.le_iff.mp hl.sp_le
    exact Address.le_iff.mpr (by omega)
  word := by
    intro i hsp hstop
    have hle := Address.le_iff.mp hk.sp_le
    rw [hl.word i (by omega) (hk.base_eq ▸ hstop), hk.word i hsp hstop]

theorem wellFormed (hw : h.WellFormed) : k.WellFormed := by
  rw [hk.eq]
  exact hk.restacks.wellFormed hw hk.limit_le

/-- What is asked of the free bytes and of the counters is asked of them without the frame. -/
theorem hasRoom_iff {bytes : Nat} : k.HasRoom bytes ↔ h.HasRoom bytes := by
  rw [hk.eq]
  exact ⟨fun hroom => ⟨hroom.fits, hroom.calm⟩, fun hroom => ⟨hroom.fits, hroom.calm⟩⟩

theorem ampleFor_iff {count bytes : Nat} : k.AmpleFor count bytes ↔ h.AmpleFor count bytes := by
  rw [hk.eq]
  exact ⟨fun ha => { ha with }, fun ha => { ha with }⟩

/-- What a part of an operation needs is needed on top of the words that have been pushed. -/
theorem runsOut (words : Nat) {depth count bytes : Nat} {e : Fault}
    (hsp : k.stack.sp.toNat + 4 * words = h.stack.sp.toNat) (he : k.RunsOut depth count bytes e) :
    h.RunsOut (words + depth) count bytes e where
  cause := by
    rw [← hk.ampleFor_iff]
    exact he.cause
  short := by
    rintro ⟨hdepth, hroom, hample⟩
    refine he.short ⟨?_, hk.hasRoom_iff.mpr hroom, hk.ampleFor_iff.mpr hample⟩
    rw [hk.stack_eq]
    dsimp only
    omega

theorem spends {bytes : Nat} (hl : k.Spends bytes l) (m : Memory) (stack : ShadowStack) :
    h.Spends bytes { l with memory := m, stack } := by
  rw [hk.eq] at hl
  exact
    { hl with
      room := fun more hroom => by
        have hleft := hl.room more ⟨hroom.fits, hroom.calm⟩
        exact ⟨hleft.fits, hleft.calm⟩ }

/-- The frame is left at the height at which it was entered. -/
theorem leaveFrame_eq (hw : h.WellFormed) (hstack : l.stack = k.stack) :
    l.leaveFrame h.enterFrame = .ok { l with stack := h.stack } :=
  Heap.leaveFrame_eq hw.stack.sp_le (hstack.trans hk.stack_eq) hk.sp_le

/-- Leaving the frame keeps a heap well formed. -/
theorem wellFormed_popped (hw : h.WellFormed) (hl : l.WellFormed) (hstack : l.stack = k.stack) :
    WellFormed { l with stack := h.stack } := by
  have heq : { l with stack := h.stack } = l.restacked h.stack.sp l.memory := by
    unfold restacked
    rw [hstack, hk.stack_eq]
  have hbase : l.stack.base = h.stack.base := by rw [hstack, hk.base_eq]
  have hlimit : l.stack.limit = h.stack.limit := by rw [hstack, hk.stack_eq]
  have hrestacks : l.Restacks h.stack.sp l.memory :=
    ⟨hw.stack.sp_aligned, hbase ▸ hw.stack.sp_le, .inl (hlimit ▸ hw.limit_le), rfl, rfl, fun _ _ => rfl⟩
  rw [heq]
  exact hrestacks.wellFormed hl (hlimit ▸ hw.limit_le)

/-- The frame stays on the stack while objects move. -/
theorem carried (hstack : l.stack = k.stack) : Lowered { l with stack := h.stack } l where
  eq := by
    have hframe := hk.stack_eq
    rw [← hstack] at hframe
    unfold restacked
    dsimp only
    rw [← hframe]
  restacks := by
    have hrestacks := hk.restacks
    rw [← hstack] at hrestacks
    exact ⟨hrestacks.sp_aligned, hrestacks.sp_le, hrestacks.limit_le, rfl, rfl, fun _ _ => rfl⟩
  limit_le := hstack ▸ hk.limit_le
  sp_le := hstack ▸ hk.sp_le
  word := fun _ _ _ => rfl

/-- A word of the frame may be overwritten. -/
theorem withWord {slot : RootSlot} (hslot : k.stack.Holds slot) (ha : slot.address.WordAligned)
    (hbelow : slot.address < h.stack.sp) (w : Word) :
    h.Lowered { k with memory := k.memory.withWord (slot.address.toNat / 4) w } := by
  have hrestacks := hk.restacks
  obtain ⟨hsp, hstop⟩ := hslot.index ha
  rw [hk.base_eq] at hstop
  have hlimit := Address.le_iff.mp hk.limit_le
  have hlt := Address.lt_iff.mp hbelow
  refine ⟨?_, ⟨hrestacks.sp_aligned, hrestacks.sp_le, hrestacks.limit_le, ?_, hrestacks.maxPages, ?_⟩,
    hk.limit_le, hk.sp_le, ?_⟩
  · generalize k.memory.withWord (slot.address.toNat / 4) w = m
    exact congrArg (fun x : Heap => { x with memory := m }) hk.eq
  · exact (Memory.size_withWord ..).trans hrestacks.size
  · intro i hi
    exact (Memory.word_withWord_ne _ (by omega) w).trans (hrestacks.outside i hi)
  · intro i hlo hhi
    exact (Memory.word_withWord_ne _ (by omega) w).trans (hk.word i hlo hhi)

variable (hr : h.Regular)

include hr

theorem regular : k.Regular := by
  rw [hk.eq]
  exact hk.restacks.regular hr

theorem initialised_iff {r : Reference} : k.Initialised r ↔ h.Initialised r := by
  rw [hk.eq]
  exact hk.restacks.initialised_iff hr.toLayout

theorem intact : h.Intact k where
  small := (hk.regular hr).size_le
  size_le := hk.restacks.size.ge
  word := fun _ hi j _ => hk.restacks.object hr.toLayout hi j

theorem renamed_eq (f : Reference → Reference) (w : Word) : k.renamed f w = h.renamed f w := by
  unfold renamed
  cases Word.target? w with
  | none => rfl
  | some r =>
    dsimp only
    simp only [hk.initialised_iff hr]

theorem relocated_eq (f : Reference → Reference) (v : Value) :
    k.relocated f v = h.relocated f v := by
  unfold relocated
  cases v with
  | object r =>
    dsimp only
    simp only [hk.initialised_iff hr]
  | _ => rfl

theorem allows_iff {w : Word} : k.Allows w ↔ h.Allows w := by
  unfold Allows
  simp only [hk.initialised_iff hr, hk.spaces_eq]

theorem accepts_iff {v : Value} : k.Accepts v ↔ h.Accepts v := by
  constructor
  · intro hv
    refine ⟨hv.fits, fun r htarget => ?_⟩
    rw [← hk.initialised_iff hr, ← hk.spaces_eq]
    exact hv.target r htarget
  · intro hv
    refine ⟨hv.fits, fun r htarget => ?_⟩
    rw [hk.initialised_iff hr, hk.spaces_eq]
    exact hv.target r htarget

/-- The slots that were there before hold what they did. -/
theorem root {slot : RootSlot} {v : Value} (hslot : h.root slot = .ok v) : k.root slot = .ok v := by
  obtain ⟨hholds, ha, rfl⟩ := hr.toLayout.root_eq_ok_iff.mp hslot
  obtain ⟨hsp, hstop⟩ := hholds.index ha
  have hlow : k.stack.Holds slot := by
    rw [hk.stack_eq]
    exact ⟨Address.le_iff.mpr (Nat.le_trans (Address.le_iff.mp hk.sp_le) (Address.le_iff.mp hholds.1)),
      hholds.2⟩
  rw [(hk.regular hr).toLayout.root_eq_ok_iff, hk.word _ hsp hstop]
  exact ⟨hlow, ha, rfl⟩

variable {vs us : List Value} {r : Reference}

/-- What a value reaches is reached from the stack, once it has been pushed. -/
theorem reachableWith (hvs : ∀ v ∈ vs, k.Reaches us v) (hreach : h.ReachableWith vs r) :
    k.ReachableWith us r := by
  have hk' := hk.regular hr
  have hle := Address.le_iff.mp hk.sp_le
  induction hreach with
  | @root slot r hroot =>
    obtain ⟨i, hsp, hstop, hw⟩ := hroot.index
    rw [← hk.word i hsp hstop] at hw
    exact .root (hk'.rootAt (by omega) (hk.base_eq ▸ hstop) hw ((hk.initialised_iff hr).mpr hroot.2.2))
  | value hmem hi => exact hvs _ hmem _ rfl ((hk.initialised_iff hr).mpr hi)
  | step hreach hedge ih =>
    obtain ⟨⟨j, hj, hw⟩, hs⟩ := (hr.pointsTo_iff hreach.initialised).mp hedge
    have hintact := hk.intact hr
    refine ih.step ((hk'.pointsTo_iff ih.initialised).mpr ⟨⟨j, ?_, ?_⟩, ?_⟩)
    · exact (hintact.isSlot_iff hr hreach.initialised).mpr hj
    · rw [hintact.word _ hreach.initialised j hj.lt, hw]
    · exact (hk.initialised_iff hr).mpr hs

/-- What was relocated with the frame on the stack is relocated when the frame has been left. -/
theorem restores {f : Reference → Reference} (hvs : ∀ v ∈ vs, k.Reaches us v)
    (hi : k.Restores us f l) : h.Restores vs f { l with stack := h.stack } where
  stack := rfl
  injective := hi.injective.mono fun _ hreach => hk.reachableWith hr hvs hreach
  initialised := fun _ hreach => hi.initialised _ (hk.reachableWith hr hvs hreach)
  kind := by
    intro r hreach
    rw [← (hk.intact hr).kind_eq hr hreach.initialised]
    exact hi.kind r (hk.reachableWith hr hvs hreach)
  objectSize := by
    intro r hreach
    rw [← (hk.intact hr).objectSize_eq hr hreach.initialised]
    exact hi.objectSize r (hk.reachableWith hr hvs hreach)
  slots := by
    intro r hreach j hj
    have hintact := hk.intact hr
    rw [← hk.renamed_eq hr, ← hintact.word r hreach.initialised j hj.lt]
    exact hi.slots r (hk.reachableWith hr hvs hreach) j
      ((hintact.isSlot_iff hr hreach.initialised).mpr hj)
  payload := by
    intro r hreach j hj hno
    have hintact := hk.intact hr
    rw [← hintact.word r hreach.initialised j hj]
    refine hi.payload r (hk.reachableWith hr hvs hreach) j ?_ ?_
    · rwa [hintact.size_eq hr hreach.initialised]
    · rwa [hintact.isSlot_iff hr hreach.initialised]
  roots := by
    intro i hsp hstop hw
    have hle := Address.le_iff.mp hk.sp_le
    have hsame := hk.word i hsp hstop
    rw [← hk.renamed_eq hr, ← hsame]
    refine hi.roots i (by omega) (hk.base_eq ▸ hstop) ?_
    rwa [hsame, hk.allows_iff hr]
  base := hi.base.trans (congrArg Semispaces.base hk.spaces_eq)
  base_le := hi.base_le
  strays := by
    intro i hsp hstop hw
    have hle := Address.le_iff.mp hk.sp_le
    have hsame := hk.word i hsp hstop
    rw [← hsame]
    refine hi.strays i (by omega) (hk.base_eq ▸ hstop) ?_
    rwa [hsame, hk.allows_iff hr]

end Lowered

/-- The values have been pushed on the stack, each into its own slot. -/
structure Stacked (h : Heap) (vs : List Value) (slots : List RootSlot) (k : Heap) : Prop extends
    h.Lowered k where
  roots : List.Forall₂ (fun slot v => k.root slot = .ok v) slots vs
  nodup : slots.Nodup
  below : ∀ slot ∈ slots, slot.address < h.stack.sp

/-- A slot of the stack can be written. -/
theorem Layout.setRoot_eq {h : Heap} (hl : h.Layout) {slot : RootSlot} {u v : Value} {w : Word}
    (hslot : h.root slot = .ok u) (hw : v.encode = .ok w) : h.setRoot slot v =
      .ok { h with memory := h.memory.withWord (slot.address.toNat / 4) w } := by
  obtain ⟨hholds, ha, -⟩ := hl.root_eq_ok_iff.mp hslot
  have hinside := hl.stack_inside (hholds.index ha).2
  rw [setRoot, hw, ok_bind]
  unfold changeMemory ShadowStack.store
  dsimp only
  rw [if_pos hholds, Memory.store_eq_ok ha hinside, ok_bind]
  rfl

namespace Stacked

variable {h k l : Heap} {vs us : List Value} {slots ss : List RootSlot} (hk : h.Stacked vs slots k)
  (hr : h.Regular)

include hk hr

/-- What is in a slot is reached from the stack. -/
theorem reaches {v : Value} (hv : v ∈ vs) : k.Reaches us v := by
  obtain ⟨i, hi, rfl⟩ := List.getElem_of_mem hv
  exact (hk.regular hr).reaches_root (hk.roots.get (hk.roots.length_eq ▸ hi) hi)

theorem append (hl : k.Stacked us ss l) : h.Stacked (vs ++ us) (slots ++ ss) l where
  toLowered := hk.toLowered.trans hl.toLowered
  roots := by
    have hkept := hk.roots.imp fun _ _ hslot => hl.root (hk.regular hr) hslot
    exact List.rel_append hkept hl.roots
  nodup := by
    refine hk.nodup.append hl.nodup fun slot hslot hlow => ?_
    -- The slots of the second frame lie below those of the first.
    obtain ⟨i, hi, rfl⟩ := List.getElem_of_mem hslot
    have hroot := hk.roots.get hi (hk.roots.length_eq ▸ hi)
    have hholds := ((hk.regular hr).toLayout.root_eq_ok_iff.mp hroot).1
    have hle := Address.le_iff.mp hholds.1
    have hlt := Address.lt_iff.mp (hl.below _ hlow)
    exact Nat.not_lt.mpr hle hlt
  below := by
    intro slot hslot
    have hle := Address.le_iff.mp hk.sp_le
    rcases List.mem_append.mp hslot with hslot | hslot
    · exact hk.below slot hslot
    · have hlt := Address.lt_iff.mp (hl.below slot hslot)
      exact Address.lt_iff.mpr (by omega)

omit hr in
theorem reverse : h.Stacked vs.reverse slots.reverse k where
  toLowered := hk.toLowered
  roots := List.forall₂_reverse_iff.mpr hk.roots
  nodup := List.nodup_reverse.mpr hk.nodup
  below := fun slot hslot => hk.below slot (List.mem_reverse.mp hslot)

/-- After an operation the values wait in their slots, where their objects have gone. -/
theorem carried {f : Reference → Reference} (hl : l.Regular) (hi : k.Restores us f l)
    (hvs : ∀ v ∈ vs, h.Accepts v) :
    Stacked { l with stack := h.stack } (vs.map (h.relocated f)) slots l where
  toLowered := hk.toLowered.carried hi.stack
  roots := by
    rw [List.forall₂_map_right_iff, List.forall₂_iff_get]
    refine ⟨hk.roots.length_eq, fun i hlt hlt' => ?_⟩
    have hslot := hk.roots.get hlt hlt'
    obtain ⟨hholds, ha, -⟩ := (hk.regular hr).toLayout.root_eq_ok_iff.mp hslot
    have hinside := hl.toLayout.stack_inside (hi.stack ▸ (hholds.index ha).2)
    rw [← hk.relocated_eq hr]
    exact hi.root (hk.regular hr) hslot ((hk.accepts_iff hr).mpr (hvs _ (List.get_mem ..))) hinside
  nodup := hk.nodup
  below := hk.below

omit hk in
/-- A slot that is no longer needed may be overwritten. -/
theorem overwritten {v : Value} {slot : RootSlot} (hk : h.Stacked (v :: vs) (slot :: slots) k)
    (w : Word) : h.Stacked vs slots
      { k with memory := k.memory.withWord (slot.address.toNat / 4) w } := by
  obtain ⟨hroot, hroots⟩ := List.forall₂_cons.mp hk.roots
  obtain ⟨hnew, hnodup⟩ := List.nodup_cons.mp hk.nodup
  obtain ⟨hholds, ha, -⟩ := (hk.regular hr).toLayout.root_eq_ok_iff.mp hroot
  have hlow : h.Lowered { k with memory := k.memory.withWord (slot.address.toNat / 4) w } :=
    hk.toLowered.withWord hholds ha (hk.below slot List.mem_cons_self) w
  refine ⟨hlow, ?_, hnodup, fun s hs => hk.below s (List.mem_cons_of_mem _ hs)⟩
  rw [List.forall₂_iff_get] at hroots ⊢
  refine ⟨hroots.1, fun i hi hi' => ?_⟩
  obtain ⟨hholds', ha', hv⟩ := (hk.regular hr).toLayout.root_eq_ok_iff.mp (hroots.2 i hi hi')
  refine (hlow.regular hr).toLayout.root_eq_ok_iff.mpr ⟨hholds', ha', ?_⟩
  rw [hv, Memory.word_withWord_ne]
  intro hindex
  have haddress : (slots.get ⟨i, hi⟩).address = slot.address := by
    unfold Address.WordAligned at ha ha'
    exact Address.ext_toNat (by omega)
  have hslot : slots.get ⟨i, hi⟩ = slot := congrArg RootSlot.mk haddress
  exact hnew (hslot ▸ List.get_mem ..)

end Stacked

/-- Why pushing `words` words fails: the stack is too small for them. -/
def Overflows (h : Heap) (words : Nat) (e : Fault) : Prop :=
  (∃ cause, e = .outOfMemory cause) ∧ h.stack.sp.toNat < h.stack.limit.toNat + 4 * words

theorem Overflows.runsOut {h : Heap} {words : Nat} {e : Fault} (he : h.Overflows words e)
    (count bytes : Nat) : h.RunsOut words count bytes e where
  cause := .inl he.1
  short := fun hroom => absurd hroom.1 (Nat.not_le.mpr he.2)

namespace WellFormed

variable {h : Heap} (hw : h.WellFormed)

include hw

theorem stacked_nil : h.Stacked [] [] h where
  toLowered := hw.lowered_self
  roots := .nil
  nodup := List.nodup_nil
  below := fun _ hslot => absurd hslot List.not_mem_nil

/-- A value is pushed, or the stack is full. -/
theorem pushRoot {v : Value} (hv : v.Fits) :
    Ends (h.pushRoot v)
      (fun x => h.Stacked [v] [x.1] x.2 ∧ x.2.stack.sp.toNat + 4 = h.stack.sp.toNat)
      (h.Overflows 1) := by
  have hl := hw.toLayout
  obtain ⟨w, hencode, rfl⟩ := Value.exists_encode hv
  rcases hl.pushRoot hw.limit_le_base hencode with ⟨hfull, hpush⟩ | ⟨k, hp, hpush⟩
  · rw [hpush]
    exact ⟨⟨_, rfl⟩, hfull⟩
  · rw [hpush]
    have hlow := hp.lowered hl
    obtain ⟨hslot, hlt⟩ := hp.slot hl
    have hroot : k.root ⟨k.stack.sp⟩ = .ok (Value.decode w) := by
      rw [(hlow.regular hw.toRegular).toLayout.root_eq_ok_iff, hp.word_top hl]
      exact ⟨hp.holds hl, hp.restacks.sp_aligned, rfl⟩
    have hsp := hp.sp_eq
    refine ⟨⟨hlow, .cons hroot .nil, List.nodup_singleton _, ?_⟩, hsp.symm⟩
    intro slot hmem
    rw [List.mem_singleton.mp hmem, Address.lt_iff]
    dsimp only
    omega

/-- Values are pushed one after the other, as long as the stack has room for them. -/
theorem pushRoots {vs : List Value} (hvs : ∀ v ∈ vs, v.Fits) :
    Ends (h.pushRoots vs)
      (fun x => h.Stacked vs x.1 x.2 ∧ x.2.stack.sp.toNat + 4 * vs.length = h.stack.sp.toNat)
      (h.Overflows vs.length) := by
  induction vs generalizing h with
  | nil => exact ⟨hw.stacked_nil, rfl⟩
  | cons v vs ih =>
    rw [List.length_cons]
    refine Ends.bind ((hw.pushRoot (hvs v List.mem_cons_self)).mono (fun _ hx => hx) ?_) ?_
    · rintro e ⟨hcause, hfull⟩
      exact ⟨hcause, by omega⟩
    rintro ⟨slot, k⟩ ⟨hk, hsp⟩
    dsimp only at hk hsp ⊢
    have hrest := ih (hk.wellFormed hw) fun u hu => hvs u (List.mem_cons_of_mem _ hu)
    refine Ends.bind (hrest.mono (fun _ hx => hx) ?_) ?_
    · rintro e ⟨hcause, hfull⟩
      rw [hk.stack_eq] at hfull
      exact ⟨hcause, by dsimp only at hfull; omega⟩
    rintro ⟨slots, l⟩ ⟨hl, hsp'⟩
    refine ⟨hk.append hw.toRegular hl, ?_⟩
    dsimp only at hsp' ⊢
    omega

end WellFormed

end Heap

end CopyingHeap
