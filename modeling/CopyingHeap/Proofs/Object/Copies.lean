import CopyingHeap.Proofs.Object.Equality
import Mathlib.Data.List.Forall2

/-!
Equality does not depend on where objects lie. If the objects of one memory have copies in another, each
its own, then a comparison of values has the same outcome as the comparison of their copies. Identity is
no exception: different objects have different copies.
-/

namespace CopyingHeap

/-- A reference becomes the one that `p` relates it to, and any other word stays. -/
inductive Word.Moved (p : Reference → Reference → Prop) : Word → Word → Prop where
  | reference {r s : Reference} (h : p r s) : Moved p r.word s.word
  | other {w : Word} (h : Word.target? w = none) : Moved p w w

inductive Value.Moved (p : Reference → Reference → Prop) : Value → Value → Prop where
  | object {r s : Reference} (h : p r s) : Moved p (.object r) (.object s)
  | other {v : Value} (h : v.object? = none) : Moved p v v

inductive Layer.Moved (p : Reference → Reference → Prop) : Layer → Layer → Prop where
  | number (x : Number) : Moved p (.number x) (.number x)
  | text (bytes : List UInt8) : Moved p (.text bytes) (.text bytes)
  | char (c : Char) : Moved p (.char c) (.char c)
  | array {vs vs' : List Value} (h : List.Forall₂ (Value.Moved p) vs vs') :
      Moved p (.array vs) (.array vs')
  | node {v v' w w' : Value} (hhead : Value.Moved p v v') (htail : Value.Moved p w w') :
      Moved p (.node v w) (.node v' w')
  | atom : Moved p .atom .atom

variable {p : Reference → Reference → Prop}

theorem Word.Moved.decode {w w' : Word} (h : Word.Moved p w w') :
    Value.Moved p (Value.decode w) (Value.decode w') := by
  cases h with
  | reference h =>
    rw [Value.decode_word, Value.decode_word]
    exact .object h
  | other h => exact .other h

section Compare

variable {q q' : Value → Value → Except Fault Bool}
  (hq : ∀ {a a' b b'}, Value.Moved p a a' → Value.Moved p b b' → q' a' b' = q a b)

include hq

theorem allPairs_moved {as as' bs bs' : List Value} (ha : List.Forall₂ (Value.Moved p) as as')
    (hb : List.Forall₂ (Value.Moved p) bs bs') : allPairs q' as' bs' = allPairs q as bs := by
  induction ha generalizing bs bs' with
  | nil => cases hb <;> rfl
  | cons hfirst _ ih =>
    cases hb with
    | nil => rfl
    | cons hfirst' hrest' => rw [allPairs, allPairs, hq hfirst hfirst', ih hrest']

/-- If the parts compare as their copies do, so do the layers. -/
theorem Layer.compare_moved {x x' y y' : Layer} (hx : x.Moved p x') (hy : y.Moved p y') :
    x'.compare q' y' = x.compare q y := by
  cases hx with
  | number | text | char | atom => cases hy <;> rfl
  | array hvs =>
    cases hy with
    | array hws =>
      rw [compare, compare, hvs.length_eq, hws.length_eq, allPairs_moved hq hvs hws]
    | _ => rfl
  | node hhead htail =>
    cases hy with
    | node hhead' htail' => rw [compare, compare, hq hhead hhead', hq htail htail']
    | _ => rfl

end Compare

namespace Memory

/-- The objects that `p` relates are whole and have the same words, but for references, which become
references to related objects. Every object has one copy, and every copy is of one object. -/
structure Copies (m : Memory) (p : Reference → Reference → Prop) (n : Memory) : Prop where
  whole : ∀ r s, p r s → m.Whole r ∧ n.Whole s
  ne_null : ∀ r s, p r s → r ≠ Reference.null ∧ s ≠ Reference.null
  functional : ∀ r s t, p r s → p r t → s = t
  injective : ∀ r s t, p r t → p s t → r = s
  slots : ∀ r s, p r s → ∀ j, m.IsSlot r.index j →
    Word.Moved p (m.word (r.index + j)) (n.word (s.index + j))
  payload : ∀ r s, p r s → ∀ j < m.wordCount r.index, ¬ m.IsSlot r.index j →
    n.word (s.index + j) = m.word (r.index + j)

theorem layer_congr {v : Value} (hv : v.object? = none) (m n : Memory) : n.layer v = m.layer v := by
  unfold layer
  cases v with
  | int n => rfl
  | bool b => rfl
  | func i => rfl
  | object r =>
    dsimp only
    rw [hv]

/-- The same words hold the same bytes. -/
theorem bytes_congr {m n : Memory} {i k : Nat} (count : Nat)
    (hword : ∀ j < (count + 3) / 4, n.word (k + j) = m.word (i + j)) :
    (List.range' (4 * k) count).map (byteAt n.words) =
      (List.range' (4 * i) count).map (byteAt m.words) := by
  apply List.ext_getElem
  · rw [List.length_map, List.length_map, List.length_range', List.length_range']
  · intro j hj _
    rw [List.length_map, List.length_range'] at hj
    rw [List.getElem_map, List.getElem_map, List.getElem_range', List.getElem_range', Nat.one_mul,
      byteAt, byteAt, Nat.mul_add_div (by decide), Nat.mul_add_div (by decide), Nat.mul_add_mod,
      Nat.mul_add_mod]
    exact congrArg (byteOf · (j % 4)) (hword (j / 4) (by omega))

namespace Copies

variable {m n : Memory} (hc : m.Copies p n) {r s : Reference} {k : Kind} {a a' b b' v v' : Value}

include hc

/-- A copy is an object of the same kind and length. -/
theorem lies (hp : p r s) (hk : m.Lies r k) : n.Lies s k := by
  have hheader := header_of_payload hk.two_le (hc.payload r s hp)
  obtain ⟨l, hl⟩ := (hc.whole r s hp).2.lies
  have hkind : l.header = k.header := hl.header.symm.trans (hheader.trans hk.header)
  exact Kind.header_inj.mp hkind ▸ hl

theorem second_eq (hp : p r s) (hk : m.Lies r k) (hslot : ∀ i, ¬ k.IsSlot i 1) :
    n.word (s.index + 1) = m.word (r.index + 1) := by
  have htwo := hk.two_le
  refine hc.payload r s hp 1 (by omega) fun h => ?_
  exact hslot _ ((isSlot_iff hk.header).mp h)

theorem slot_moved (hp : p r s) (hk : m.Lies r k) {j : Nat}
    (hj : k.IsSlot (m.word (r.index + 1)).toNat j) :
    Value.Moved p (Value.decode (m.word (r.index + j))) (Value.decode (n.word (s.index + j))) :=
  (hc.slots r s hp j ((isSlot_iff hk.header).mpr hj)).decode

theorem elements_moved (hp : p r s) (hk : m.Lies r .array) :
    (m.layerAs r .array).Moved p (n.layerAs s .array) := by
  rw [layerAs, layerAs, hc.second_eq hp hk fun i h => absurd h.1 (by decide)]
  apply Layer.Moved.array
  rw [List.forall₂_map_left_iff, List.forall₂_map_right_iff, List.forall₂_same]
  intro i hi
  rw [List.mem_range'_1] at hi
  exact hc.slot_moved hp hk ⟨by omega, by omega⟩

theorem text_moved (hp : p r s) (hk : m.Lies r .string) :
    (m.layerAs r .string).Moved p (n.layerAs s .string) := by
  have hcount : m.wordCount r.index = 2 + ((m.word (r.index + 1)).toNat + 3) / 4 :=
    wordCount_eq hk.header
  have hword (j : Nat) (hj : j < ((m.word (r.index + 1)).toNat + 3) / 4) :
      n.word (s.index + 2 + j) = m.word (r.index + 2 + j) := by
    rw [Nat.add_assoc, Nat.add_assoc]
    exact hc.payload r s hp (2 + j) (by omega) fun h => (isSlot_iff hk.header).mp h
  rw [layerAs, layerAs, hc.second_eq hp hk fun _ => id, bytes_congr _ hword]
  exact .text _

/-- The copy of an object has the layer of the object, up to the places of its parts. -/
theorem layerAs_moved (hp : p r s) (hk : m.Lies r k) :
    (m.layerAs r k).Moved p (n.layerAs s k) := by
  cases k with
  | array => exact hc.elements_moved hp hk
  | string => exact hc.text_moved hp hk
  | symbol => exact .atom
  | integer | float =>
    rw [layerAs, layerAs, hc.second_eq hp hk fun _ => id]
    exact .number _
  | char =>
    rw [layerAs, layerAs, hc.second_eq hp hk fun _ => id]
    exact .char _
  | listNode => exact .node (hc.slot_moved hp hk (.inl rfl)) (hc.slot_moved hp hk (.inr rfl))

theorem object? (hp : p r s) :
    (Value.object r).object? = some r ∧ (Value.object s).object? = some s := by
  obtain ⟨hr, hs⟩ := hc.ne_null r s hp
  exact ⟨Value.object?_eq_some_iff.mpr ⟨rfl, hr⟩, Value.object?_eq_some_iff.mpr ⟨rfl, hs⟩⟩

theorem layer_moved (hv : v.Moved p v') : (m.layer v).Moved p (n.layer v') := by
  cases hv with
  | other hv =>
    rw [layer_congr hv m n]
    rcases layer_of_object?_eq_none (m := m) hv with hlayer | ⟨x, hlayer⟩
    · rw [hlayer]
      exact .atom
    · rw [hlayer]
      exact .number x
  | @object r s hp =>
    obtain ⟨hr, hs⟩ := hc.object? hp
    obtain ⟨k, hk⟩ := (hc.whole r s hp).1.lies
    rw [layer_eq hr hk, layer_eq hs (hc.lies hp hk)]
    exact hc.layerAs_moved hp hk

theorem readable (hv : v.Moved p v') : m.Readable v ∧ n.Readable v' := by
  cases hv with
  | other hv =>
    constructor
    · intro r hr
      rw [hv] at hr
      nomatch hr
    · intro r hr
      rw [hv] at hr
      nomatch hr
  | @object r s hp =>
    obtain ⟨hr, hs⟩ := hc.object? hp
    obtain ⟨hwhole, hwhole'⟩ := hc.whole r s hp
    constructor
    · intro t ht
      exact Option.some.inj (hr.symm.trans ht) ▸ hwhole
    · intro t ht
      exact Option.some.inj (hs.symm.trans ht) ▸ hwhole'

/-- Copies are identical if and only if the values are. -/
theorem eq_iff (ha : a.Moved p a') (hb : b.Moved p b') : a' = b' ↔ a = b := by
  cases ha with
  | @object r s hp =>
    cases hb with
    | @object t u hp' =>
      rw [Value.object.injEq, Value.object.injEq]
      constructor
      · rintro rfl
        exact hc.injective r t s hp hp'
      · rintro rfl
        exact hc.functional r s u hp hp'
    | other hb =>
      obtain ⟨hr, hs⟩ := hc.object? hp
      constructor
      · rintro rfl
        nomatch hs.symm.trans hb
      · rintro rfl
        nomatch hr.symm.trans hb
  | other ha =>
    cases hb with
    | @object t u hp' =>
      obtain ⟨ht, hu⟩ := hc.object? hp'
      constructor
      · rintro rfl
        nomatch hu.symm.trans ha
      · rintro rfl
        nomatch ht.symm.trans ha
    | other hb => exact Iff.rfl

/-- Two values compare as their copies do, down to every depth. -/
theorem equalWithin_eq (depth : Nat) (ha : a.Moved p a') (hb : b.Moved p b') :
    n.equalWithin depth a' b' = m.equalWithin depth a b := by
  induction depth generalizing a a' b b' with
  | zero => rfl
  | succ depth ih =>
    rw [equalWithin_succ (hc.readable ha).1 (hc.readable hb).1,
      equalWithin_succ (hc.readable ha).2 (hc.readable hb).2,
      Layer.compare_moved ih (hc.layer_moved ha) (hc.layer_moved hb)]
    exact if_congr (hc.eq_iff ha hb) rfl rfl

theorem equal_eq (hsize : n.words.size = m.words.size) (ha : a.Moved p a') (hb : b.Moved p b') :
    n.equal a' b' = m.equal a b := by
  unfold equal comparisonDepth
  rw [hsize]
  exact hc.equalWithin_eq _ ha hb

theorem sameSymbol_eq (ha : a.Moved p a') (hb : b.Moved p b') :
    n.sameSymbol a' b' = m.sameSymbol a b := by
  cases ha with
  | other ha =>
    unfold sameSymbol
    rw [ha]
  | @object r s hp =>
    cases hb with
    | other hb =>
      unfold sameSymbol
      rw [hb]
      cases hr : (Value.object r).object? <;> cases hs : (Value.object s).object? <;> rfl
    | @object t u hp' =>
      have hsame : s = u ↔ r = t := by
        have h := hc.eq_iff (.object hp) (.object hp')
        rwa [Value.object.injEq, Value.object.injEq] at h
      obtain ⟨k, hk⟩ := (hc.whole r s hp).1.lies
      unfold sameSymbol
      rw [(hc.object? hp).1, (hc.object? hp).2, (hc.object? hp').1, (hc.object? hp').2]
      dsimp only
      rw [hk.kind?_eq, (hc.lies hp hk).kind?_eq]
      exact if_congr hsame rfl rfl

end Copies

/-- The outcomes of the three comparisons of two values. -/
structure Compares (m : Memory) (a b : Value) (same symbol : Bool) : Prop where
  equal : m.equal a b = .ok same
  notEqual : m.notEqual a b = .ok (!same)
  sameSymbol : m.sameSymbol a b = .ok symbol

/-- Every comparison of values without cycles has an outcome. -/
theorem Acyclic.exists_compares {m : Memory} {a b : Value} (ha : m.Acyclic a) (hb : m.Acyclic b) :
    ∃ x y, m.Compares a b x y := by
  obtain ⟨x, hx, -⟩ := equal_spec ha hb
  have hsymbol : ∃ y, m.sameSymbol a b = .ok y := by
    by_cases hsame : a = b
    · unfold sameSymbol
      rw [← hsame]
      cases hr : a.object? with
      | none => exact ⟨false, rfl⟩
      | some r =>
        obtain ⟨k, hk⟩ := (ha.readable r hr).lies
        dsimp only
        rw [if_pos rfl, hk.kind?_eq]
        exact ⟨_, rfl⟩
    · exact ⟨false, sameSymbol_of_ne hsame⟩
  obtain ⟨y, hy⟩ := hsymbol
  exact ⟨x, y, hx, notEqual_eq hx, hy⟩

/-- Copies compare as the values do. -/
theorem Copies.compares {m n : Memory} (hc : m.Copies p n) (hsize : n.words.size = m.words.size)
    {a a' b b' : Value} {x y : Bool} (ha : a.Moved p a') (hb : b.Moved p b')
    (h : m.Compares a b x y) : n.Compares a' b' x y := by
  have hequal := (hc.equal_eq hsize ha hb).trans h.equal
  exact ⟨hequal, notEqual_eq hequal, (hc.sameSymbol_eq ha hb).trans h.sameSymbol⟩

end Memory

end CopyingHeap
