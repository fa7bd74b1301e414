import CopyingHeap.Proofs.Heap.Ledger

/-!
What every operation of a program keeps. The blocks fill the used part of the active space, and every
word that a program can read as a value, on the stack or in a reference slot, is an immediate, null, a
symbol of the static data or the address of an object.
-/

namespace CopyingHeap

namespace Heap

/-- A symbol of the static data, which ends at the limit of the stack. -/
def IsSymbol (h : Heap) (r : Reference) : Prop :=
  h.memory.word r.index = Kind.symbol.header ∧ 4 * (r.index + h.size r) ≤ h.stack.limit.toNat

/-- An immediate, null or a symbol. No operation changes what such a word stands for. -/
def Fixed (h : Heap) (w : Word) : Prop :=
  ∀ r, Word.target? w = some r → h.IsSymbol r

/-- An immediate, null, a symbol or the address of an object. -/
def Admits (h : Heap) (w : Word) : Prop :=
  ∀ r, Word.target? w = some r → h.IsSymbol r ∨ h.Initialised r

/-- The invariant of a heap between two operations of a program. -/
structure Sound (h : Heap) : Prop extends h.Layout where
  base_aligned : h.spaces.base.WordAligned
  reserved : Size.reservedBytes ≤ h.stack.limit.toNat
  limit_le : h.stack.limit ≤ h.spaces.base
  null_raw : Kind.ofHeader? (h.memory.word Reference.null.index) = none
  tiled : ∃ xs, h.Tiled xs
  slots : ∀ r, h.Initialised r → ∀ j, h.memory.IsSlot r.index j →
    h.Admits (h.memory.word (r.index + j))
  roots : ∀ i, h.stack.sp.toNat ≤ 4 * i → 4 * i < h.stack.base.toNat → h.Admits (h.memory.word i)

theorem Fixed.admits {h : Heap} {w : Word} (hw : h.Fixed w) : h.Admits w :=
  fun r hr => .inl (hw r hr)

theorem fixed_of_target?_eq_none {h : Heap} {w : Word} (hw : Word.target? w = none) : h.Fixed w :=
  fun r hr => by
    rw [hw] at hr
    nomatch hr

theorem IsSymbol.index_le {h : Heap} {r : Reference} (hs : h.IsSymbol r) :
    4 * (r.index + 2) ≤ h.stack.limit.toNat := by
  have htwo : 2 ≤ h.size r := Memory.two_le_wordCount hs.1
  have hend := hs.2
  omega

theorem IsSymbol.below {h : Heap} {r : Reference} (hs : h.IsSymbol r)
    (hle : h.stack.limit ≤ h.spaces.base) : r.address < h.spaces.base := by
  have h1 := hs.index_le
  rw [Address.le_iff] at hle
  rw [Address.lt_iff, Reference.toNat_address]
  omega

theorem IsSymbol.inside {h : Heap} {r : Reference} (hs : h.IsSymbol r) (hl : h.Layout)
    (hle : h.stack.limit ≤ h.spaces.base) : r.index + h.size r ≤ h.memory.words.size := by
  have h1 := hs.2
  have h2 := Address.le_iff.mp hl.spaces.base_le_active
  have h3 := hl.spaces.active_inside
  rw [Address.le_iff] at hle
  omega

theorem IsSymbol.congr {h h' : Heap} {r : Reference} (hs : h.IsSymbol r)
    (hlimit : h'.stack.limit = h.stack.limit)
    (hw : ∀ i, 4 * i < h.stack.limit.toNat → h'.memory.word i = h.memory.word i) :
    h'.IsSymbol r := by
  have hle := hs.index_le
  have h0 : h'.memory.word r.index = h.memory.word r.index := hw _ (by omega)
  have hsize : h'.size r = h.size r :=
    Memory.wordCount_congr h0 fun _ _ _ => hw _ (by omega)
  exact ⟨h0.trans hs.1, by rw [hsize, hlimit]; exact hs.2⟩

theorem Fixed.congr {h h' : Heap} {w : Word} (hf : h.Fixed w)
    (hlimit : h'.stack.limit = h.stack.limit)
    (hw : ∀ i, 4 * i < h.stack.limit.toNat → h'.memory.word i = h.memory.word i) :
    h'.Fixed w :=
  fun r hr => (hf r hr).congr hlimit hw

theorem Admits.congr {h h' : Heap} {w : Word} (ha : h.Admits w)
    (hlimit : h'.stack.limit = h.stack.limit)
    (hw : ∀ i, 4 * i < h.stack.limit.toNat → h'.memory.word i = h.memory.word i)
    (hi : ∀ r, h.Initialised r → h'.Initialised r) : h'.Admits w :=
  fun r hr => (ha r hr).imp (fun hs => hs.congr hlimit hw) (hi r)

namespace Sound

variable {h : Heap} (hs : h.Sound) {r : Reference} {w : Word}

include hs

theorem symbol_below (hr : h.IsSymbol r) : r.address < h.spaces.base :=
  hr.below hs.limit_le

theorem allows (ha : h.Admits w) : h.Allows w :=
  fun r hr => (ha r hr).imp_left hs.symbol_below

theorem regular : h.Regular := by
  obtain ⟨xs, hxs⟩ := hs.tiled
  exact hxs.regular hs.toLayout fun r hr j hj => hs.allows (hs.slots r hr j hj)

theorem not_isSymbol (hr : h.Initialised r) : ¬ h.IsSymbol r :=
  fun hsym => hs.regular.not_below hr (hs.symbol_below hsym)

theorem not_fixed (hr : h.Initialised r) : ¬ h.Fixed r.word :=
  fun hf => hs.not_isSymbol hr (hf r (hs.regular.target?_word hr))

theorem fixed_iff (ha : h.Admits w) : h.Fixed w ↔ h.namesObject w = false := by
  rw [Bool.eq_false_iff, Ne, namesObject_iff]
  constructor
  · rintro hf ⟨r, hr, hi⟩
    exact hs.not_isSymbol hi (hf r hr)
  · exact fun hno r hr => (ha r hr).resolve_right fun hi => hno ⟨r, hr, hi⟩

/-- A change that keeps the static data leaves a sound heap, if its blocks and its roots are sound. -/
theorem rebuild {h' : Heap} (hl : h'.Layout) (hbase : h'.spaces.base = h.spaces.base)
    (hlimit : h'.stack.limit = h.stack.limit)
    (hstatic : ∀ i, 4 * i < h.stack.limit.toNat → h'.memory.word i = h.memory.word i)
    (htiled : ∃ xs, h'.Tiled xs)
    (hslots : ∀ r, h'.Initialised r → ∀ j, h'.memory.IsSlot r.index j →
      h'.Admits (h'.memory.word (r.index + j)))
    (hroots : ∀ i, h'.stack.sp.toNat ≤ 4 * i → 4 * i < h'.stack.base.toNat →
      h'.Admits (h'.memory.word i)) : h'.Sound :=
  { hl with
    base_aligned := hbase ▸ hs.base_aligned
    reserved := hlimit ▸ hs.reserved
    limit_le := hlimit ▸ hbase ▸ hs.limit_le
    null_raw := by
      have hreserved := hs.reserved
      rw [hstatic _ (Nat.lt_of_lt_of_le (by decide) hreserved)]
      exact hs.null_raw
    tiled := htiled
    slots := hslots
    roots := hroots }

end Sound

end Heap

end CopyingHeap
