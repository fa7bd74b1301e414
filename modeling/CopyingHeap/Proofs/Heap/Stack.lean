import CopyingHeap.Proofs.Heap.Roots

/-!
The operations on the stack. On twins they end alike: they fail at once, or give corresponding values
and leave twins.
-/

namespace CopyingHeap

namespace Heap

theorem Paired.keep {h k : Heap} {p : Reference → Reference → Prop} {v v' : Value}
    (hv : h.Paired p v v') (hk : h.Keeps k) : k.Paired p v v' :=
  hv.congr hk.limit hk.static

theorem Restacks.keeps {h : Heap} (hs : h.Sound) {sp : Address} {m : Memory}
    (hr : h.Restacks sp m) : h.Keeps (h.restacked sp m) := by
  obtain ⟨xs, hxs⟩ := hs.tiled
  exact .of_same rfl rfl rfl rfl (fun _ => hr.static) ⟨xs, hr.tiled hs.toLayout hxs⟩

/-- The twins that a step makes of twins, with the static segment kept. -/
def Follow (h : Heap) (p : Reference → Reference → Prop) (k k' : Heap) : Prop :=
  Twin p k k' ∧ h.Keeps k

theorem restacks_word {h : Heap} {i : Nat} (hi : h.stack.limit.toNat ≤ 4 * i)
    (hbase : 4 * i < h.stack.base.toNat) {sp : Address} (hsp : sp.WordAligned)
    (hle : sp ≤ h.stack.base) (hlimit : h.stack.limit ≤ sp ∨ sp = h.stack.base) (w : Word) :
    h.Restacks sp (h.memory.withWord i w) where
  sp_aligned := hsp
  sp_le := hle
  limit_le := hlimit
  size := Memory.size_withWord ..
  maxPages := rfl
  outside := fun j hj => by
    refine Memory.word_withWord_ne _ ?_ w
    rintro rfl
    exact hj ⟨hi, hbase⟩

/-- The top of the stack may come down to an aligned address. -/
theorem Sound.restacks_sp {h : Heap} (hs : h.Sound) {sp : Address} (hsp : sp.WordAligned)
    (hle : sp ≤ h.stack.base) (hge : h.stack.sp ≤ sp) : h.Restacks sp h.memory where
  sp_aligned := hsp
  sp_le := hle
  limit_le := by
    rcases hs.stack.limit_le with h1 | h1
    · rw [Address.le_iff] at *
      exact .inl (h1.trans hge)
    · refine .inr (Address.ext_toNat ?_)
      rw [Address.le_iff] at hle hge
      rw [← h1] at hle ⊢
      omega
  size := rfl
  maxPages := rfl
  outside := fun _ _ => rfl

/-- Whatever words lie on the stack of a well-formed heap, the heap is well formed. -/
theorem Restacks.wellFormed {h : Heap} (hw : h.WellFormed) {sp : Address} {m : Memory}
    (hr : h.Restacks sp m) (hle : h.stack.limit ≤ sp) : (h.restacked sp m).WellFormed :=
  { hr.regular hw.toRegular with reserved := hw.reserved, limit_le := hle }

theorem pushRoot_eq (h : Heap) (v : Value) : h.pushRoot v =
    v.encode >>= fun w => h.stack.push h.memory w >>= fun x =>
      match x with
      | .error cause => .error (.outOfMemory cause)
      | .ok (slot, stack, memory) =>
        .ok (slot, ⟨memory, stack, h.spaces, h.bump, h.options, h.statistics, h.recent⟩) :=
  rfl

theorem Layout.push {h : Heap} (hl : h.Layout) (hlimit : h.stack.limit ≤ h.spaces.base) (w : Word) :
    (h.stack.sp.toNat < h.stack.limit.toNat + 4 ∧
      h.stack.push h.memory w = .ok (.error .stackOverflow)) ∨
    ∃ sp, h.stack.sp.toNat = sp.toNat + 4 ∧
      h.Restacks sp (h.memory.withWord (sp.toNat / 4) w) ∧
      h.stack.push h.memory w =
        .ok (.ok (⟨sp⟩, { h.stack with sp }, h.memory.withWord (sp.toNat / 4) w)) := by
  rw [Address.le_iff] at hlimit
  have hb := hl.stack_bounds
  have hbase := Address.le_iff.mp hl.spaces.base_le_active
  have hinside := hl.spaces.active_inside
  have hsize := hl.size_le
  obtain ⟨past, hadd, hpast⟩ :=
    Address.exists_add (a := h.stack.limit) (n := 4) (by omega)
  rw [ShadowStack.push, Size.wordBytes, hadd, ok_bind]
  by_cases hfull : h.stack.sp < past
  · rw [if_pos hfull]
    rw [Address.lt_iff] at hfull
    exact .inl ⟨by omega, rfl⟩
  · rw [if_neg hfull]
    rw [Address.lt_iff] at hfull
    obtain ⟨sp, hsub, hsp⟩ := Address.exists_sub (a := h.stack.sp) (n := 4) (by omega)
    have haligned : sp.WordAligned := by
      unfold Address.WordAligned
      omega
    refine .inr ⟨sp, by omega, ?_, ?_⟩
    · refine restacks_word (by omega) (by omega) haligned ?_ (.inl ?_) w <;>
        rw [Address.le_iff] <;> omega
    · rw [hsub, ok_bind, Memory.store_eq_ok haligned (hl.stack_inside (by omega)), ok_bind]
      rfl

/-- The word `w` has been pushed on the stack. -/
structure Pushed (h : Heap) (w : Word) (k : Heap) : Prop where
  sp_eq : h.stack.sp.toNat = k.stack.sp.toNat + 4
  restacks : h.Restacks k.stack.sp (h.memory.withWord (k.stack.sp.toNat / 4) w)
  eq : k = h.restacked k.stack.sp (h.memory.withWord (k.stack.sp.toNat / 4) w)

theorem Layout.pushRoot {h : Heap} (hl : h.Layout) (hlimit : h.stack.limit ≤ h.spaces.base)
    {v : Value} {w : Word} (hv : v.encode = .ok w) :
    (h.stack.sp.toNat < h.stack.limit.toNat + 4 ∧
      h.pushRoot v = .error (.outOfMemory .stackOverflow)) ∨
    ∃ k, h.Pushed w k ∧ h.pushRoot v = .ok (⟨k.stack.sp⟩, k) := by
  rw [pushRoot_eq, hv, ok_bind]
  rcases hl.push hlimit w with ⟨hfull, hx⟩ | ⟨sp, hsp, hr, hx⟩ <;> rw [hx, ok_bind]
  · exact .inl ⟨hfull, rfl⟩
  · exact .inr ⟨h.restacked sp (h.memory.withWord (sp.toNat / 4) w), ⟨hsp, hr, rfl⟩, rfl⟩

namespace Pushed

variable {h k : Heap} {w : Word} (hp : h.Pushed w k)

include hp

theorem stack_eq : k.stack = { h.stack with sp := k.stack.sp } :=
  congrArg Heap.stack hp.eq

theorem base_eq : k.stack.base = h.stack.base := by
  rw [hp.stack_eq]

theorem memory_eq : k.memory = h.memory.withWord (k.stack.sp.toNat / 4) w :=
  congrArg Heap.memory hp.eq

variable (hl : h.Layout)

include hl

/-- The slot that has been pushed is a word of the stack. -/
theorem slot : 4 * (k.stack.sp.toNat / 4) = k.stack.sp.toNat ∧
    k.stack.sp.toNat < h.stack.base.toNat := by
  have haligned := hp.restacks.sp_aligned
  have hle := Address.le_iff.mp hl.stack.sp_le
  have hsp := hp.sp_eq
  unfold Address.WordAligned at haligned
  omega

theorem holds : k.stack.Holds ⟨k.stack.sp⟩ := by
  have hlt : k.stack.sp < k.stack.base := by
    rw [hp.base_eq]
    exact Address.lt_iff.mpr (hp.slot hl).2
  exact ⟨Address.le_iff.mpr (Nat.le_refl _), hlt⟩

theorem word_top : k.memory.word (k.stack.sp.toNat / 4) = w := by
  obtain ⟨hslot, hlt⟩ := hp.slot hl
  have hin := hl.stack_inside (i := k.stack.sp.toNat / 4) (by omega)
  rw [congrFun (congrArg Memory.word hp.memory_eq) _, Memory.word_withWord hin, if_pos rfl]

theorem word_ne {i : Nat} (hi : k.stack.sp.toNat ≠ 4 * i) : k.memory.word i = h.memory.word i := by
  obtain ⟨hslot, -⟩ := hp.slot hl
  rw [congrFun (congrArg Memory.word hp.memory_eq) i, Memory.word_withWord_ne _ (by omega)]

theorem limit_le : h.stack.limit ≤ k.stack.sp := by
  have hlt := (hp.slot hl).2
  refine hp.restacks.limit_le.resolve_right fun heq => ?_
  rw [heq] at hlt
  omega

end Pushed

/-- A frame is left at the height at which it was entered. -/
theorem leaveFrame_eq {h k : Heap} {sp : Address} (hbase : h.stack.sp ≤ h.stack.base)
    (hstack : k.stack = { h.stack with sp }) (hle : sp ≤ h.stack.sp) :
    k.leaveFrame h.enterFrame = .ok { k with stack := h.stack } := by
  have hreset : k.stack.reset h.enterFrame = .ok h.stack := by
    rw [hstack]
    exact ShadowStack.reset_eq_ok_iff.mpr ⟨⟨hle, hbase⟩, rfl⟩
  rw [leaveFrame, hreset]
  rfl

theorem Sound.pushRoot_object {h k : Heap} (hs : h.Sound) {r : Reference} {slot : RootSlot}
    (hk : h.pushRoot (.object r) = .ok (slot, k)) :
    k.root slot = .ok (.object r) ∧ ∃ sp m, h.Restacks sp m ∧ k = h.restacked sp m := by
  have hencode : Value.encode (.object r) = .ok r.word := rfl
  rcases hs.toLayout.pushRoot hs.limit_le hencode with ⟨-, hx⟩ | ⟨l, hp, hx⟩ <;> rw [hx] at hk
  · nomatch hk
  · cases hk
    obtain ⟨hslot, hlt⟩ := hp.slot hs.toLayout
    refine ⟨?_, _, _, hp.restacks, hp.eq⟩
    rw [root_eq_ok (hp.holds hs.toLayout) hp.restacks.sp_aligned ?_, hp.word_top hs.toLayout,
      Value.decode_word]
    rw [hp.memory_eq, Memory.size_withWord]
    exact hs.stack_inside (by dsimp only; omega)

namespace Twin

variable {p : Reference → Reference → Prop} {h h' : Heap} (ht : Twin p h h') {v v' : Value}

include ht

theorem pushRoot (hv : h.Paired p v v') :
    Alike (fun x x' => ∃ slot k k', x = (slot, k) ∧ x' = (slot, k') ∧ h.Follow p k k')
      (h.pushRoot v) (h'.pushRoot v') := by
  rw [pushRoot_eq, pushRoot_eq]
  refine hv.encode.bind fun w w' hw => ?_
  rcases ht.left.toLayout.push ht.left.limit_le w with ⟨hfull, hx⟩ | ⟨sp, hsp, hr, hx⟩
  · rcases ht.right.toLayout.push ht.right.limit_le w' with ⟨-, hx'⟩ | ⟨sp', hsp', hr', -⟩
    · rw [hx, hx']
      exact alike_error rfl
    · have hlimit := hr'.limit_le
      have hle := Address.le_iff.mp ht.left.stack.sp_le
      rw [ht.stack] at hlimit hsp'
      rw [Address.le_iff] at hlimit
      rcases hlimit with hlimit | hlimit
      · omega
      · rw [hlimit] at hsp'
        omega
  · rcases ht.right.toLayout.push ht.right.limit_le w' with ⟨hfull, -⟩ | ⟨sp', hsp', hr', hx'⟩
    · have hlimit := hr.limit_le
      have hle := Address.le_iff.mp ht.left.stack.sp_le
      rw [ht.stack] at hfull
      rw [Address.le_iff] at hlimit
      rcases hlimit with hlimit | hlimit
      · omega
      · rw [hlimit] at hsp
        omega
    · rw [ht.stack] at hsp'
      obtain rfl : sp' = sp := Address.ext_toNat (by omega)
      rw [hx, hx']
      refine ⟨_, _, _, rfl, rfl, ht.restack hr hr' fun i h1 h2 => ?_, hr.keeps ht.left⟩
      have hin := ht.left.stack_inside h2
      have hin' := ht.right.stack_inside (ht.stack ▸ h2)
      have haligned := hr.sp_aligned
      unfold Address.WordAligned at haligned
      by_cases hi : i = sp'.toNat / 4
      · subst hi
        rw [Memory.word_withWord hin, if_pos rfl, Memory.word_withWord hin', if_pos rfl]
        exact hw
      · rw [Memory.word_withWord_ne _ hi, Memory.word_withWord_ne _ hi]
        exact ht.roots i (by omega) h2

theorem pushRoots {vs vs' : List Value} (hvs : List.Forall₂ (h.Paired p) vs vs') :
    Alike (fun x x' => ∃ slots k k', x = (slots, k) ∧ x' = (slots, k') ∧ h.Follow p k k')
      (h.pushRoots vs) (h'.pushRoots vs') := by
  induction vs generalizing h h' vs' with
  | nil =>
    cases hvs
    exact ⟨[], h, h', rfl, rfl, ht, Keeps.refl h⟩
  | cons v vs ih =>
    cases hvs with | @cons _ v' _ vs' hv hvs => ?_
    refine (ht.pushRoot hv).bind ?_
    rintro _ _ ⟨slot, k, k', rfl, rfl, hk, hkeep⟩
    have hvs' : List.Forall₂ (k.Paired p) vs vs' := hvs.imp fun _ _ hv => hv.keep hkeep
    refine (ih hk hvs').bind ?_
    rintro _ _ ⟨slots, l, l', rfl, rfl, hl, hkeep'⟩
    exact ⟨slot :: slots, l, l', rfl, rfl, hl, hkeep.trans hkeep'⟩

theorem popRoot :
    Alike (fun x x' => h.Paired p x.1 x'.1 ∧ h.Follow p x.2 x'.2) h.popRoot h'.popRoot := by
  have hb := ht.left.stack_bounds
  unfold Heap.popRoot ShadowStack.pop
  rw [ht.stack]
  by_cases hlt : h.stack.sp < h.stack.base
  · rw [if_pos hlt, if_pos hlt]
    rw [Address.lt_iff] at hlt
    have hbase : 4 * (h.stack.sp.toNat / 4) < h.stack.base.toNat := by omega
    have hlimit := h.stack.base.toNat_lt
    obtain ⟨sp, hadd, hsp⟩ := Address.exists_add (a := h.stack.sp) (n := 4) (by omega)
    have haligned : sp.WordAligned := by
      unfold Address.WordAligned
      omega
    have hle : sp ≤ h.stack.base := Address.le_iff.mpr (by omega)
    have hge : h.stack.sp ≤ sp := Address.le_iff.mpr (by omega)
    have hr := ht.left.restacks_sp haligned hle hge
    have hr' : h'.Restacks sp h'.memory :=
      ht.right.restacks_sp haligned (by rw [ht.stack]; exact hle) (by rw [ht.stack]; exact hge)
    rw [Memory.load_eq_ok ht.left.stack.sp_aligned (ht.left.stack_inside hbase),
      Memory.load_eq_ok (m := h'.memory) ht.left.stack.sp_aligned
        (ht.right.stack_inside (by rw [ht.stack]; exact hbase)), ok_bind, ok_bind, Size.wordBytes, hadd]
    refine ⟨(ht.roots _ (by omega) hbase).decode, ?_, hr.keeps ht.left⟩
    have htwin := ht.restack hr hr' fun i h1 h2 => ht.roots i (by omega) h2
    unfold restacked at htwin
    rw [ht.stack] at htwin
    exact htwin
  · rw [if_neg hlt, if_neg hlt]
    exact alike_error rfl

theorem root (slot : RootSlot) :
    Alike (h.Paired p) (h.root slot) (h'.root slot) := by
  unfold Heap.root ShadowStack.load
  rw [ht.stack]
  by_cases hholds : h.stack.Holds slot
  · rw [if_pos hholds, if_pos hholds]
    by_cases ha : slot.address.WordAligned
    · obtain ⟨hle, hlt⟩ := hholds.index ha
      rw [Memory.load_eq_ok ha (ht.left.stack_inside hlt),
        Memory.load_eq_ok ha (ht.right.stack_inside (by rw [ht.stack]; exact hlt))]
      exact (ht.roots _ hle hlt).decode
    · rw [Memory.load, Memory.load, Memory.wordIndex, if_neg ha]
      exact alike_error rfl
  · rw [if_neg hholds, if_neg hholds]
    exact alike_error rfl

theorem setRoot (slot : RootSlot) (hv : h.Paired p v v') :
    Alike (h.Follow p) (h.setRoot slot v) (h'.setRoot slot v') := by
  refine hv.encode.bind fun w w' hw => ?_
  dsimp only
  unfold changeMemory ShadowStack.store
  dsimp only
  rw [ht.stack]
  by_cases hholds : h.stack.Holds slot
  · rw [if_pos hholds, if_pos hholds]
    by_cases ha : slot.address.WordAligned
    · obtain ⟨hle, hlt⟩ := hholds.index ha
      have hlimit : h.stack.limit.toNat ≤ h.stack.sp.toNat := by
        rcases ht.left.stack.limit_le with h1 | h1
        · exact Address.le_iff.mp h1
        · rw [h1] at hle
          omega
      have hin := ht.left.stack_inside hlt
      have hlt' : 4 * (slot.address.toNat / 4) < h'.stack.base.toNat := by
        rw [ht.stack]
        exact hlt
      have hin' := ht.right.stack_inside hlt'
      have hr := restacks_word (by omega) hlt ht.left.stack.sp_aligned ht.left.stack.sp_le
        ht.left.stack.limit_le w
      have hr' := restacks_word (by rw [ht.stack]; omega) hlt'
        ht.right.stack.sp_aligned ht.right.stack.sp_le ht.right.stack.limit_le w'
      rw [ht.stack] at hr'
      rw [Memory.store_eq_ok ha hin, Memory.store_eq_ok ha hin']
      refine ⟨?_, hr.keeps ht.left⟩
      have htwin := ht.restack hr hr' fun i h1 h2 => by
        by_cases hi : i = slot.address.toNat / 4
        · subst hi
          rw [Memory.word_withWord hin, if_pos rfl, Memory.word_withWord hin', if_pos rfl]
          exact hw
        · rw [Memory.word_withWord_ne _ hi, Memory.word_withWord_ne _ hi]
          exact ht.roots i h1 h2
      unfold restacked at htwin
      rw [ht.stack] at htwin
      exact htwin
    · rw [Memory.store, Memory.store, Memory.wordIndex, if_neg ha]
      exact alike_error rfl
  · rw [if_neg hholds, if_neg hholds]
    exact alike_error rfl

/-- Leaving a frame also keeps the memory, and the blocks that have just been handed out. -/
theorem leaveFrame {mark : StackMark} (hmark : mark.address.WordAligned) :
    Alike (fun k k' => h.Follow p k k' ∧ (k.memory = h.memory ∧ k'.memory = h'.memory) ∧
      ∀ r n, (h.Fresh r n → k.Fresh r n) ∧ (h'.Fresh r n → k'.Fresh r n))
      (h.leaveFrame mark) (h'.leaveFrame mark) := by
  unfold Heap.leaveFrame ShadowStack.reset
  rw [ht.stack]
  by_cases hle : h.stack.sp ≤ mark.address ∧ mark.address ≤ h.stack.base
  · rw [if_pos hle]
    have hr := ht.left.restacks_sp hmark hle.2 hle.1
    have hr' : h'.Restacks mark.address h'.memory :=
      ht.right.restacks_sp hmark (by rw [ht.stack]; exact hle.2) (by rw [ht.stack]; exact hle.1)
    have hge := Address.le_iff.mp hle.1
    have htwin := ht.restack hr hr' fun i h1 h2 => ht.roots i (by omega) h2
    have hfresh (r : Reference) (n : Nat) (hf : h'.Fresh r n) :
        (h'.restacked mark.address h'.memory).Fresh r n := hr'.fresh ht.right.toLayout hf
    unfold restacked at htwin hfresh
    rw [ht.stack] at htwin hfresh
    exact ⟨⟨htwin, hr.keeps ht.left⟩, ⟨rfl, rfl⟩,
      fun r n => ⟨hr.fresh ht.left.toLayout, hfresh r n⟩⟩
  · rw [if_neg hle]
    exact alike_error rfl

/-- The mark of the present frame is one that a later one can be left by. -/
theorem enterFrame : h'.enterFrame = h.enterFrame ∧ h.enterFrame.address.WordAligned :=
  ⟨congrArg ShadowStack.mark ht.stack, ht.left.stack.sp_aligned⟩

end Twin

end Heap

end CopyingHeap
