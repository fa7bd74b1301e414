import CopyingHeap.Proofs.Heap.Build
import CopyingHeap.Proofs.Heap.Frames

/-!
The room of the shadow stack. A program pushes as many roots as there are words between the top of the
stack and its limit, and the next push overflows. On a new heap these are the words that the stack size
asks for, less those in the reserved bytes; of the size the low 32 bits count.
-/

namespace CopyingHeap

/-- An accepted setting of the stack size is a whole number of words, and not zero. -/
theorem Options.validStackSize_of_set? {o p : Options} {text : String}
    (h : o.set? "stack_size" text = some p) : validStackSize p.stackSize = true := by
  obtain ⟨n, hn, rfl⟩ := Option.map_eq_some_iff.mp h
  exact (Option.filter_eq_some_iff.mp hn).2

/-- The words of a stack of `bytes` bytes below a base, off the reserved bytes. -/
def ShadowStack.wordsBelow (base : Address) (bytes : Nat) : Nat :=
  min bytes (base.toNat - Size.reservedBytes) / 4

namespace Heap

/-- The number of roots that the stack has room for. -/
def rootsLeft (h : Heap) : Nat :=
  (h.stack.sp.toNat - h.stack.limit.toNat) / 4

section Room

variable {h : Heap} (hw : h.WellFormed) {vs : List Value}

include hw

theorem WellFormed.pushRoots_fit (hvs : ∀ v ∈ vs, v.Fits) (hle : vs.length ≤ h.rootsLeft) :
    ∃ slots k, h.pushRoots vs = .ok (slots, k) ∧ h.Stacked vs slots k := by
  rcases (hw.pushRoots hvs).cases with ⟨⟨slots, k⟩, hpush, hk, -⟩ | ⟨e, -, -, hfull⟩
  · exact ⟨slots, k, hpush, hk⟩
  · have hlimit := Address.le_iff.mp hw.limit_le
    unfold rootsLeft at hle
    omega

theorem WellFormed.pushRoots_overflow (hlong : h.rootsLeft < vs.length)
    (hvs : ∀ v ∈ vs.take (h.rootsLeft + 1), v.Fits) :
    h.pushRoots vs = .error (.outOfMemory .stackOverflow) := by
  -- A push that succeeds takes one word of the room, and leaves one value less to push.
  induction vs generalizing h with
  | nil => exact absurd hlong (Nat.not_lt_zero _)
  | cons v vs ih =>
    rw [List.take_succ_cons, List.forall_mem_cons] at hvs
    rw [List.length_cons] at hlong
    obtain ⟨hv, hvs⟩ := hvs
    obtain ⟨w, hencode, -⟩ := Value.exists_encode hv
    rcases hw.toLayout.pushRoot hw.limit_le_base hencode with ⟨-, hpush⟩ | ⟨k, hp, hpush⟩
    · rw [Heap.pushRoots, hpush]
      rfl
    · have hlow := hp.lowered hw.toLayout
      have hsp := hp.sp_eq
      have hlimit := Address.le_iff.mp hlow.limit_le
      have hleft : h.rootsLeft = k.rootsLeft + 1 := by
        unfold rootsLeft
        rw [hlow.stack_eq]
        dsimp only
        omega
      have hrest := ih (hlow.wellFormed hw) (by omega) (hleft ▸ hvs)
      rw [Heap.pushRoots, hpush, ok_bind]
      dsimp only
      rw [hrest]
      rfl

end Room

namespace Built

variable {options : Options} {m : Memory} {stackBase heapBase : Address} {h : Heap}
  (hb : h.Built options m stackBase heapBase)

include hb

/-- The stack of a new heap is empty, and begins where its size says. -/
theorem stack_eq : ∃ limit, h.stack = ⟨stackBase, limit, stackBase⟩ ∧
    limit.toNat = (max (stackBase.toNat - options.stackSize % 0x100000000) 8 + 3) / 4 * 4 ∧
    stackBase.WordAligned := by
  obtain ⟨limit, hbelow, hstack, -⟩ := hb.stack
  have haligned : stackBase.WordAligned := by
    have hbase := hb.layout.stack.base_aligned
    rwa [hstack] at hbase
  obtain ⟨limit', hbelow', hlimit⟩ := ShadowStack.below_eq_ok haligned options.stackSize
  rw [hbelow', Except.ok.injEq] at hbelow
  exact ⟨limit', hbelow.symm, hlimit, haligned⟩

theorem wellFormed (hreserved : Size.reservedBytes ≤ stackBase.toNat) : h.WellFormed := by
  obtain ⟨limit, hstack, hlimit, haligned⟩ := hb.stack_eq
  unfold Address.WordAligned at haligned
  unfold Size.reservedBytes at hreserved
  have hregular : h.Regular :=
    hb.tiled.regular hb.layout fun r hr => absurd hr (hb.not_initialised r)
  refine { hregular with reserved := ?_, limit_le := ?_ }
  · rw [hstack]
    unfold Size.reservedBytes
    dsimp only
    omega
  · rw [hstack, Address.le_iff]
    dsimp only
    omega

end Built

/-- On a new heap, if its stack has a base off the reserved bytes and an accepted size, as many roots can be
pushed as there are words of that size below the base, whatever the values are; with one more the stack
overflows. Of the size the low 32 bits count. That makes no difference to sizes that are addresses, nor to
those whose low bits alone reach down to the reserved bytes. -/
theorem build_takes_roots {o options : Options} {text : String}
    (hset : o.set? "stack_size" text = some options) {m : Memory} (hm : m.Paged)
    {stackBase heapBase : Address} {bytes : Nat} {h : Heap}
    (hb : build options m stackBase heapBase bytes = .ok h)
    (hreserved : Size.reservedBytes ≤ stackBase.toNat) :
    let size := options.stackSize % 0x100000000
    let room := ShadowStack.wordsBelow stackBase size
    h.stack.base = stackBase ∧ h.stack.sp = stackBase ∧
      h.stack.limit.toNat = max Size.reservedBytes (stackBase.toNat - size) ∧
      (∀ vs : List Value, (∀ v ∈ vs, v.Fits) → vs.length ≤ room →
        ∃ slots k, h.pushRoots vs = .ok (slots, k) ∧
          List.Forall₂ (fun slot v => k.root slot = .ok v) slots vs) ∧
      (∀ vs : List Value, room < vs.length → (∀ v ∈ vs.take (room + 1), v.Fits) →
        h.pushRoots vs = .error (.outOfMemory .stackOverflow)) ∧
      (room = ShadowStack.wordsBelow stackBase options.stackSize ↔
        options.stackSize < 0x100000000 ∨ stackBase.toNat ≤ Size.reservedBytes + size) := by
  intro size room
  have hbuilt := built_of_build hm hb
  have hw := hbuilt.wellFormed hreserved
  have hvalid := Options.validStackSize_of_set? hset
  obtain ⟨limit, hstack, hlimit, haligned⟩ := hbuilt.stack_eq
  have hlt := stackBase.toNat_lt
  unfold Size.reservedBytes at *
  unfold Address.WordAligned at haligned
  have hwords : 4 ≤ options.stackSize ∧ options.stackSize % 4 = 0 := by
    simpa [Options.validStackSize] using hvalid
  have hlow : limit.toNat = max 8 (stackBase.toNat - size) := by
    omega
  have hleft : h.rootsLeft = room := by
    unfold rootsLeft room ShadowStack.wordsBelow Size.reservedBytes
    rw [hstack]
    dsimp only
    omega
  refine ⟨by rw [hstack], by rw [hstack], by rwa [hstack], fun vs hvs hle => ?_, fun vs hlong hvs => ?_, ?_⟩
  · obtain ⟨slots, k, hpush, hk⟩ := hw.pushRoots_fit hvs (hleft ▸ hle)
    exact ⟨slots, k, hpush, hk.roots⟩
  · exact hw.pushRoots_overflow (hleft ▸ hlong) (hleft ▸ hvs)
  · unfold room ShadowStack.wordsBelow Size.reservedBytes
    omega

/-- Of a size of `2 ^ 32 + 8` two roots are left, where the words below the base are fourteen. -/
theorem build_takes_two_roots :
    let options := { Options.defaults with stackSize := 0x100000008 }
    Options.defaults.set? "stack_size" "4294967304" = some options ∧
      ShadowStack.wordsBelow (.ofNat 64) options.stackSize = 14 ∧
      ∃ h, build options blank (.ofNat 64) (.ofNat 64) 40 = .ok h ∧ h.stack.limit = .ofNat 56 ∧
        (∃ slots k, h.pushRoots [.null, .bool true] = .ok (slots, k)) ∧
        h.pushRoots [.null, .bool true, .int 1] = .error (.outOfMemory .stackOverflow) := by
  intro options
  have hset : Options.defaults.set? "stack_size" "4294967304" = some options := by decide
  have haligned : (Address.ofNat 64).WordAligned ∧ (Address.ofNat 64).WordAligned := by decide
  have hroom : (Address.ofNat 64).toNat + 40 ≤ 0x10000 := by decide
  have hint : (Value.int 1).Fits := Value.fitsInt_iff.mp (by decide)
  have hvalues : ∀ v ∈ [Value.null, .bool true, .int 1], v.Fits :=
    List.forall_mem_cons.mpr
      ⟨trivial, List.forall_mem_cons.mpr ⟨trivial, List.forall_mem_singleton.mpr hint⟩⟩
  obtain ⟨h, hb⟩ := exists_build_blank options haligned (by decide) (by decide) hroom
  obtain ⟨-, -, hlimit, hfit, hover, -⟩ := build_takes_roots hset paged_blank hb (by decide)
  obtain ⟨slots, k, hpush, -⟩ := hfit [.null, .bool true]
    (fun v hv => hvalues v (List.mem_of_mem_take (i := 2) hv)) (by decide)
  refine ⟨hset, by decide, h, hb, Address.ext_toNat (hlimit.trans (by decide)), ⟨slots, k, hpush⟩, ?_⟩
  exact hover _ (by decide) fun v hv => hvalues v (List.mem_of_mem_take hv)

end Heap

end CopyingHeap
