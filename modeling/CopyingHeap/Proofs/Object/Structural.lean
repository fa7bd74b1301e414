import CopyingHeap.Proofs.Object.Equality

/-!
Comparing values decides structural equality. The relation is stated by what the accessors of objects read,
without any order in which a comparison goes about it; one step of a comparison and one step of the relation
agree on every pair of layers, so the two agree on values that unfold to finite trees.
-/

namespace CopyingHeap

namespace Memory

/-- Structural equality: the least relation between values by which each is equal to itself, two numbers
are equal if they are the same exact number and no NaN, and two strings, characters, arrays or list nodes
if they have the same bytes, the same code point, or parts that are equal one by one. -/
inductive Same (m : Memory) : Value → Value → Prop where
  | identical (v : Value) : Same m v v
  | number {a b : Value} {x : Number} :
      m.number? a = .ok (some x) → m.number? b = .ok (some x) → x ≠ .nan → Same m a b
  | text {a b : Value} {r s : Reference} {bytes : List UInt8} :
      a.object? = some r → b.object? = some s → m.kind r = .ok .string → m.kind s = .ok .string →
      m.textBytes r = .ok bytes → m.textBytes s = .ok bytes → Same m a b
  | char {a b : Value} {r s : Reference} {c : Char} :
      a.object? = some r → b.object? = some s →
      m.charValue r = .ok c → m.charValue s = .ok c → Same m a b
  | array {a b : Value} {r s : Reference} {xs ys : List Value} :
      a.object? = some r → b.object? = some s → m.ArrayOf r xs → m.ArrayOf s ys →
      xs.length = ys.length →
      (∀ i (hi : i < xs.length) (hj : i < ys.length), Same m xs[i] ys[i]) → Same m a b
  | node {a b x x' y y' : Value} {r s : Reference} :
      a.object? = some r → b.object? = some s → m.listHead r = .ok x → m.listHead s = .ok y →
      m.listTail r = .ok x' → m.listTail s = .ok y' → Same m x y → Same m x' y' → Same m a b

variable {m : Memory} {r : Reference} {k : Kind} {v a b : Value}

section Layer

variable (hv : m.Readable v)

include hv

theorem layer_number_iff {x : Number} : m.layer v = .number x ↔ m.number? v = .ok (some x) := by
  rw [number?_eq_ok hv, Except.ok.injEq]
  cases m.layer v <;> simp [Layer.number?]

/-- A layer that is no atom and no number is that of an object. -/
theorem layer_object_iff {l : Layer} (hatom : l ≠ .atom) (hnumber : ∀ x, l ≠ .number x) :
    m.layer v = l ↔ ∃ r k, v.object? = some r ∧ m.Lies r k ∧ m.layerAs r k = l := by
  constructor
  · intro hl
    cases hobject : v.object? with
    | none =>
      rcases layer_of_object?_eq_none hobject with hlayer | ⟨x, hlayer⟩
      · exact absurd (hl.symm.trans hlayer) hatom
      · exact absurd (hl.symm.trans hlayer) (hnumber x)
    | some r =>
      obtain ⟨k, hk⟩ := (hv r hobject).lies
      exact ⟨r, k, rfl, hk, (layer_eq hobject hk).symm.trans hl⟩
  · rintro ⟨r, k, hobject, hk, hl⟩
    exact (layer_eq hobject hk).trans hl

theorem layer_text_iff {bytes : List UInt8} : m.layer v = .text bytes ↔
    ∃ r, v.object? = some r ∧ m.kind r = .ok .string ∧ m.textBytes r = .ok bytes := by
  rw [layer_object_iff hv (by simp) (by simp)]
  constructor
  · rintro ⟨r, k, hobject, hk, hl⟩
    cases k with
    | string =>
      injection hl with hl
      exact ⟨r, hobject, hk.kind_eq, (hk.textBytes_eq (.inl rfl)).trans (congrArg Except.ok hl)⟩
    | _ => nomatch hl
  · rintro ⟨r, hobject, hstring, hbytes⟩
    obtain ⟨k, hk⟩ := (hv r hobject).lies
    have hkind := hk.kind_eq.symm.trans hstring
    injection hkind with hkind
    subst hkind
    have hread := (hk.textBytes_eq (.inl rfl)).symm.trans hbytes
    injection hread with hread
    exact ⟨r, _, hobject, hk, congrArg Layer.text hread⟩

theorem layer_char_iff {c : Char} : m.layer v = .char c ↔
    ∃ r, v.object? = some r ∧ m.charValue r = .ok c := by
  rw [layer_object_iff hv (by simp) (by simp)]
  have hread {r : Reference} (hk : m.Lies r .char) :
      m.charValue r = .ok (charOfWord (m.word (r.index + 1))) := by
    rw [charValue, hk.scalar_eq]
    rfl
  constructor
  · rintro ⟨r, k, hobject, hk, hl⟩
    cases k with
    | char =>
      injection hl with hl
      exact ⟨r, hobject, (hread hk).trans (congrArg Except.ok hl)⟩
    | _ => cases hl
  · rintro ⟨r, hobject, hc⟩
    obtain ⟨k, hk⟩ := (hv r hobject).lies
    cases k with
    | char =>
      have hc' := (hread hk).symm.trans hc
      injection hc' with hc'
      exact ⟨r, _, hobject, hk, congrArg Layer.char hc'⟩
    | _ =>
      unfold charValue scalar at hc
      rw [hk.kind?_eq, ok_bind, if_neg (by decide)] at hc
      cases hc

theorem layer_array_iff {xs : List Value} : m.layer v = .array xs ↔
    ∃ r, v.object? = some r ∧ m.ArrayOf r xs := by
  rw [layer_object_iff hv (by simp) (by simp)]
  constructor
  · rintro ⟨r, k, hobject, hk, hl⟩
    cases k with
    | array =>
      injection hl with hl
      exact ⟨r, hobject, hl ▸ hk.arrayOf⟩
    | _ => nomatch hl
  · rintro ⟨r, hobject, hxs⟩
    obtain ⟨k, hk⟩ := (hv r hobject).lies
    cases k with
    | array => exact ⟨r, _, hobject, hk, congrArg Layer.array (hk.arrayOf.unique hxs)⟩
    | _ =>
      have hsize := hxs.size
      unfold arraySize at hsize
      rw [hk.kind?_eq, ok_bind, if_neg (by decide)] at hsize
      nomatch hsize

theorem layer_node_iff {head tail : Value} : m.layer v = .node head tail ↔
    ∃ r, v.object? = some r ∧ m.listHead r = .ok head ∧ m.listTail r = .ok tail := by
  rw [layer_object_iff hv (by simp) (by simp)]
  constructor
  · rintro ⟨r, k, hobject, hk, hl⟩
    cases k with
    | listNode =>
      injection hl with hhead htail
      exact ⟨r, hobject, hk.listHead_eq.trans (congrArg Except.ok hhead),
        hk.listTail_eq.trans (congrArg Except.ok htail)⟩
    | _ => nomatch hl
  · rintro ⟨r, hobject, hhead, htail⟩
    obtain ⟨k, hk⟩ := (hv r hobject).lies
    cases k with
    | listNode =>
      have hhead' := hk.listHead_eq.symm.trans hhead
      have htail' := hk.listTail_eq.symm.trans htail
      injection hhead' with hhead'
      injection htail' with htail'
      exact ⟨r, _, hobject, hk, congrArg₂ Layer.node hhead' htail'⟩
    | _ =>
      unfold listHead checkListNode at hhead
      rw [hk.kind?_eq, ok_bind, if_neg (by decide)] at hhead
      nomatch hhead

end Layer

/-- Two values that are not identical are structurally equal if and only if their layers agree. -/
theorem same_iff_agree (ha : m.Readable a) (hb : m.Readable b) (hne : a ≠ b) :
    m.Same a b ↔ (m.layer a).Agree m.Same (m.layer b) := by
  constructor
  · intro hsame
    cases hsame with
    | identical => exact absurd rfl hne
    | number hx hy hnan =>
      rw [(layer_number_iff ha).mpr hx, (layer_number_iff hb).mpr hy]
      exact ⟨hnan, rfl⟩
    | text hr hs hkind hkind' hx hy =>
      rw [(layer_text_iff ha).mpr ⟨_, hr, hkind, hx⟩, (layer_text_iff hb).mpr ⟨_, hs, hkind', hy⟩]
      rfl
    | char hr hs hx hy =>
      rw [(layer_char_iff ha).mpr ⟨_, hr, hx⟩, (layer_char_iff hb).mpr ⟨_, hs, hy⟩]
      rfl
    | array hr hs hx hy hlength hparts =>
      rw [(layer_array_iff ha).mpr ⟨_, hr, hx⟩, (layer_array_iff hb).mpr ⟨_, hs, hy⟩]
      exact List.forall₂_iff_get.mpr ⟨hlength, hparts⟩
    | node hr hs hx hy hx' hy' hhead htail =>
      rw [(layer_node_iff ha).mpr ⟨_, hr, hx, hx'⟩, (layer_node_iff hb).mpr ⟨_, hs, hy, hy'⟩]
      exact ⟨hhead, htail⟩
  · intro hagree
    cases hx : m.layer a with
    | number x =>
      cases hy : m.layer b with
      | number y =>
        rw [hx, hy] at hagree
        obtain ⟨hnan, rfl⟩ := hagree
        exact .number ((layer_number_iff ha).mp hx) ((layer_number_iff hb).mp hy) hnan
      | _ => exact (hx ▸ hy ▸ hagree).elim
    | text bytes =>
      cases hy : m.layer b with
      | text bytes' =>
        rw [hx, hy] at hagree
        obtain rfl : bytes = bytes' := hagree
        obtain ⟨r, hr, hkind, hread⟩ := (layer_text_iff ha).mp hx
        obtain ⟨s, hs, hkind', hread'⟩ := (layer_text_iff hb).mp hy
        exact .text hr hs hkind hkind' hread hread'
      | _ => exact (hx ▸ hy ▸ hagree).elim
    | char c =>
      cases hy : m.layer b with
      | char d =>
        rw [hx, hy] at hagree
        obtain rfl : c = d := hagree
        obtain ⟨r, hr, hread⟩ := (layer_char_iff ha).mp hx
        obtain ⟨s, hs, hread'⟩ := (layer_char_iff hb).mp hy
        exact .char hr hs hread hread'
      | _ => exact (hx ▸ hy ▸ hagree).elim
    | array xs =>
      cases hy : m.layer b with
      | array ys =>
        rw [hx, hy] at hagree
        obtain ⟨hlength, hparts⟩ := List.forall₂_iff_get.mp hagree
        obtain ⟨r, hr, hread⟩ := (layer_array_iff ha).mp hx
        obtain ⟨s, hs, hread'⟩ := (layer_array_iff hb).mp hy
        exact .array hr hs hread hread' hlength hparts
      | _ => exact (hx ▸ hy ▸ hagree).elim
    | node head tail =>
      cases hy : m.layer b with
      | node head' tail' =>
        rw [hx, hy] at hagree
        obtain ⟨hhead, htail⟩ := hagree
        obtain ⟨r, hr, hread, hread'⟩ := (layer_node_iff ha).mp hx
        obtain ⟨s, hs, hread₂, hread₂'⟩ := (layer_node_iff hb).mp hy
        exact .node hr hs hread hread₂ hread' hread₂' hhead htail
      | _ => exact (hx ▸ hy ▸ hagree).elim
    | atom =>
      rw [hx] at hagree
      exact hagree.elim

/-- Two arrays with the same elements are equal, whatever the elements are. -/
theorem equal_of_arrayOf (hm : m.Paged) {s : Reference} {xs : List Value} (hr : m.Lies r .array)
    (hs : m.Lies s .array) (hr0 : r ≠ Reference.null) (hs0 : s ≠ Reference.null)
    (hx : m.ArrayOf r xs) (hy : m.ArrayOf s xs) : m.equal (.object r) (.object s) = .ok true := by
  have hreadable {r : Reference} (hr : m.Lies r .array) : m.Readable (.object r) := by
    intro t ht
    obtain ⟨heq, -⟩ := Value.object?_eq_some_iff.mp ht
    cases heq
    exact hr.whole hm
  have hlayer {r : Reference} (hr : m.Lies r .array) (hr0 : r ≠ Reference.null)
      (hx : m.ArrayOf r xs) : m.layer (.object r) = .array xs :=
    (layer_array_iff (hreadable hr)).mpr ⟨r, Value.object?_eq_some_iff.mpr ⟨rfl, hr0⟩, hx⟩
  have hpos : 0 < m.words.size := Nat.zero_lt_of_lt hr.index_lt
  obtain ⟨depth, hdepth⟩ := Nat.exists_eq_add_one.mpr (Nat.mul_pos hpos hpos)
  rw [equal, comparisonDepth, equalWithin_succ (hreadable hr) (hreadable hs), hlayer hr hr0 hx,
    hlayer hs hs0 hy, hdepth]
  split
  · rfl
  · rw [Layer.compare, if_pos rfl]
    apply allPairs_self
    intro v _
    rw [equalWithin, if_pos rfl]

/-- Down to a depth at which both values have ended, a comparison decides structural equality. -/
theorem equalWithin_same {depth : Nat} (ha : m.Grounded depth a) (hb : m.Grounded depth b) :
    ∃ x, m.equalWithin depth a b = .ok x ∧ (x = true ↔ m.Same a b) := by
  induction depth generalizing a b with
  | zero => exact absurd ha id
  | succ depth ih =>
    obtain ⟨hread, hparts⟩ := ha
    obtain ⟨hread', hparts'⟩ := hb
    rw [equalWithin_succ hread hread']
    by_cases hsame : a = b
    · rw [if_pos hsame]
      exact ⟨true, rfl, by simp [hsame, Same.identical]⟩
    · rw [if_neg hsame]
      obtain ⟨x, hx, hiff⟩ :=
        Layer.compare_agree fun v hv w hw => ih (hparts v hv) (hparts' w hw)
      exact ⟨x, hx, hiff.trans (same_iff_agree hread hread' hsame).symm⟩

/-- On values without cycles every comparison ends, however deep it is allowed to go, and its outcome says
whether they are structurally equal. -/
theorem equal_decides_same (ha : m.Acyclic a) (hb : m.Acyclic b) :
    ∃ x, m.equal a b = .ok x ∧ m.notEqual a b = .ok (!x) ∧ (x = true ↔ m.Same a b) ∧
      ∀ depth, m.words.size < depth → m.equalWithin depth a b = .ok x := by
  obtain ⟨x, hx, hiff⟩ := equalWithin_same ha.grounded hb.grounded
  refine ⟨x, hx, notEqual_eq hx, hiff, fun depth hlt => ?_⟩
  obtain ⟨y, hy, hiff'⟩ := equalWithin_same (ha.grounded_of_lt hlt) (hb.grounded_of_lt hlt)
  rw [hy, Bool.eq_iff_iff.mpr (hiff'.trans hiff.symm)]

/-- The one is in the word itself in one list, and a float in the other. -/
theorem equal_decides_same_ones :
    ones.Acyclic (.object (.ofIndex 6)) ∧ ones.Acyclic (.object (.ofIndex 12)) ∧
      ones.Same (.object (.ofIndex 6)) (.object (.ofIndex 12)) ∧
      ones.equal (.object (.ofIndex 6)) (.object (.ofIndex 12)) = .ok true := by
  have hacyclic {r : Reference} (hr : r = .ofIndex 6 ∨ r = .ofIndex 9 ∨ r = .ofIndex 12) :
      ones.Acyclic (.object r) := by
    apply acyclic_ones
    intro s hs
    exact Value.eq_of_object?_object hs ▸ amongOnes_node hr
  have ha := hacyclic (.inl rfl)
  have hb := hacyclic (.inr (.inr rfl))
  have hone : ones.Same (.int 1) (.object (.ofIndex 4)) :=
    .number (x := .ofInt 1) rfl (by decide) (by decide)
  have hsame : ones.Same (.object (.ofIndex 6)) (.object (.ofIndex 12)) :=
    .node rfl rfl rfl rfl rfl rfl hone (.identical .null)
  obtain ⟨x, hx, -, hiff, -⟩ := equal_decides_same ha hb
  exact ⟨ha, hb, hsame, hiff.mpr hsame ▸ hx⟩

end Memory

end CopyingHeap
