import CopyingHeap.Proofs.Object.Layer
import Mathlib.Data.List.Nodup
import Mathlib.Data.List.Perm.Subperm
import Mathlib.Logic.Relation

/-!
Equality of values is an equivalence relation. A value whose objects form no cycle unfolds to a finite
tree, in which symbols and NaN floats stand for themselves, and two such values are equal if and only if
they have the same tree. No path through the objects is longer than the memory, so the bound on the
depth of a comparison is never met.
-/

namespace CopyingHeap

/-- What is left of a value when its objects are unfolded: numbers, bytes and characters without the
place they are kept at, and what is equal only to itself. -/
inductive Content where
  | number (x : Number)
  | text (bytes : List UInt8)
  | char (c : Char)
  | array (elements : List Content)
  | node (head tail : Content)
  | itself (v : Value)

/-- The content of a value with this layer, where `f` gives the contents of the parts. -/
def Layer.content (f : Value → Content) (v : Value) : Layer → Content
  | number x => if x = .nan then .itself v else .number x
  | text bytes => .text bytes
  | char c => .char c
  | array elements => .array (elements.map f)
  | node head tail => .node (f head) (f tail)
  | atom => .itself v

namespace Memory

/-- The content of a value down to a depth. -/
def content (m : Memory) : Nat → Value → Content
  | 0, v => .itself v
  | depth + 1, v => (m.layer v).content (m.content depth) v

/-- Every object of the value down to the depth is whole, and there is none below. -/
def Grounded (m : Memory) : Nat → Value → Prop
  | 0, _ => False
  | depth + 1, v => m.Readable v ∧ ∀ w ∈ (m.layer v).parts, m.Grounded depth w

/-- A reference slot of the object at `r` holds a reference to `s`. -/
def Leads (m : Memory) (r s : Reference) : Prop :=
  ∃ slot w, m.HasSlot r slot ∧ m.load slot = .ok w ∧ Word.target? w = some s

/-- No object that the value leads to leads back to itself. -/
def NoCycle (m : Memory) (v : Value) : Prop :=
  ∀ r s, v.object? = some r → Relation.ReflTransGen m.Leads r s →
    ¬ Relation.TransGen m.Leads s s

/-- The objects that the value leads to are whole, and they form no cycle. -/
structure Acyclic (m : Memory) (v : Value) : Prop where
  whole : ∀ r s, v.object? = some r → Relation.ReflTransGen m.Leads r s → m.Whole s
  noCycle : m.NoCycle v

end Memory

/-- Values that are not identical have the same content if their layers agree in the contents of the
parts. -/
theorem Layer.content_eq_iff {f : Value → Content} {a b : Value} (hne : a ≠ b) {x y : Layer} :
    x.content f a = y.content f b ↔ x.Agree (fun v w => f v = f w) y := by
  have hforall (vs ws : List Value) :
      vs.map f = ws.map f ↔ List.Forall₂ (fun v w => f v = f w) vs ws := by
    rw [← List.forall₂_eq_eq_eq, List.forall₂_map_left_iff, List.forall₂_map_right_iff]
  cases x with
  | number x =>
    by_cases hx : x = .nan <;> cases y with
    | number y => by_cases hy : y = .nan <;> simp [content, Agree, hx, hy, hne]
    | _ => simp [content, Agree, hx, hne]
  | array xs =>
    cases y with
    | number y => by_cases hy : y = .nan <;> simp [content, Agree, hy]
    | array ys => simp [content, Agree, hforall]
    | _ => simp [content, Agree]
  | _ =>
    cases y with
    | number y => by_cases hy : y = .nan <;> simp [content, Agree, hy, hne]
    | _ => simp [content, Agree, hne]

namespace Memory

variable {m : Memory} {a b c v : Value} {depth : Nat}

/-- Two values are equal if and only if they have the same content. -/
theorem equalWithin_spec (ha : m.Grounded depth a) (hb : m.Grounded depth b) :
    ∃ x, m.equalWithin depth a b = .ok x ∧ (x = true ↔ m.content depth a = m.content depth b) := by
  induction depth generalizing a b with
  | zero => exact absurd ha id
  | succ depth ih =>
    obtain ⟨hread, hparts⟩ := ha
    obtain ⟨hread', hparts'⟩ := hb
    rw [equalWithin_succ hread hread']
    by_cases hsame : a = b
    · rw [if_pos hsame]
      exact ⟨true, rfl, by simp [hsame]⟩
    · rw [if_neg hsame]
      obtain ⟨x, hx, hiff⟩ :=
        Layer.compare_agree fun v hv w hw => ih (hparts v hv) (hparts' w hw)
      exact ⟨x, hx, hiff.trans (Layer.content_eq_iff hsame).symm⟩

theorem parts_of_object?_eq_none (hv : v.object? = none) : (m.layer v).parts = [] := by
  rcases layer_of_object?_eq_none hv with hlayer | ⟨x, hlayer⟩
  · rw [hlayer]
    rfl
  · rw [hlayer]
    rfl

theorem leads_iff {r s : Reference} {k : Kind} (h : m.Lies r k) :
    m.Leads r s ↔ ∃ j, m.IsSlot r.index j ∧ Word.target? (m.word (r.index + j)) = some s := by
  constructor
  · rintro ⟨slot, w, hslot, hload, hw⟩
    obtain ⟨j, hj, rfl⟩ := h.hasSlot_iff.mp hslot
    rw [h.load_word hj.lt, Except.ok.injEq] at hload
    exact ⟨j, hj, hload ▸ hw⟩
  · rintro ⟨j, hj, hw⟩
    exact ⟨_, _, h.hasSlot_iff.mpr ⟨j, hj, rfl⟩, h.load_word hj.lt, hw⟩

/-- The parts of a value that are objects are what its object leads to. -/
theorem leads_of_mem_parts {r s : Reference} (hv : v.object? = some r) (hr : m.Whole r)
    {w : Value} (hw : w ∈ (m.layer v).parts) (hs : w.object? = some s) : m.Leads r s := by
  obtain ⟨k, hk⟩ := hr.lies
  have hword {j : Nat} (hj : k.IsSlot (m.word (r.index + 1)).toNat j)
      (heq : w = Value.decode (m.word (r.index + j))) : m.Leads r s := by
    refine (leads_iff hk).mpr ⟨j, (isSlot_iff hk.header).mpr hj, ?_⟩
    rw [Word.target?, ← heq, hs]
  rw [layer_eq hv hk] at hw
  cases k with
  | array =>
    obtain ⟨i, hi, rfl⟩ := List.mem_map.mp hw
    rw [List.mem_range'_1] at hi
    exact hword (j := 2 + i) ⟨by omega, by omega⟩ rfl
  | listNode =>
    rcases List.mem_cons.mp hw with heq | hw
    · exact hword (.inl rfl) heq
    · exact hword (.inr rfl) (List.mem_singleton.mp hw)
  | symbol | string | integer | float | char => exact absurd hw List.not_mem_nil

theorem Acyclic.readable (h : m.Acyclic v) : m.Readable v :=
  fun r hr => h.whole r r hr .refl

/-- A part that is an object is one step away from the object of the value. -/
theorem Readable.part (h : m.Readable v) {w : Value} (hw : w ∈ (m.layer v).parts) {s : Reference}
    (hs : w.object? = some s) : ∃ r, v.object? = some r ∧ m.Leads r s := by
  cases hr : v.object? with
  | none =>
    rw [parts_of_object?_eq_none hr] at hw
    exact absurd hw List.not_mem_nil
  | some r => exact ⟨r, rfl, leads_of_mem_parts hr (h r hr) hw hs⟩

theorem Acyclic.part (h : m.Acyclic v) {w : Value} (hw : w ∈ (m.layer v).parts) :
    m.Acyclic w where
  whole := by
    intro s t hs hst
    obtain ⟨r, hr, hleads⟩ := h.readable.part hw hs
    exact h.whole r t hr (hst.head hleads)
  noCycle := by
    intro s t hs hst
    obtain ⟨r, hr, hleads⟩ := h.readable.part hw hs
    exact h.noCycle r t hr (hst.head hleads)

/-- A list of different objects in memory is no longer than the memory. -/
theorem length_le_size {path : List Reference} (hnodup : path.Nodup)
    (hin : ∀ r ∈ path, r.index < m.words.size) : path.length ≤ m.words.size := by
  have hindex : (path.map Reference.index).Nodup :=
    List.Nodup.map (fun _ _ heq => Reference.index_inj.mp heq) hnodup
  have hsubset : path.map Reference.index ⊆ List.range m.words.size := by
    intro i hi
    obtain ⟨r, hr, rfl⟩ := List.mem_map.mp hi
    exact List.mem_range.mpr (hin r hr)
  have hle := (List.subperm_of_subset hindex hsubset).length_le
  rwa [List.length_map, List.length_range] at hle

/-- The objects above a value and its own object: none of them leads back to itself. -/
theorem Acyclic.nodup_cons (h : m.Acyclic v) {r : Reference} (hv : v.object? = some r)
    {path : List Reference} (hnodup : path.Nodup)
    (habove : ∀ q ∈ path, Relation.TransGen m.Leads q r) : (r :: path).Nodup := by
  refine List.nodup_cons.mpr ⟨fun hmem => ?_, hnodup⟩
  exact h.noCycle r r hv .refl (habove r hmem)

/-- Below a path of different objects no more objects follow than there is room for in memory. -/
theorem Acyclic.grounded_below (h : m.Acyclic v) (path : List Reference) {room : Nat}
    (hroom : m.words.size < path.length + room) (hnodup : path.Nodup)
    (hin : ∀ q ∈ path, q.index < m.words.size)
    (habove : ∀ q ∈ path, ∀ r, v.object? = some r → Relation.TransGen m.Leads q r) :
    m.Grounded room v := by
  induction room generalizing v path with
  | zero =>
    have hle := length_le_size hnodup hin
    omega
  | succ room ih =>
    refine ⟨h.readable, ?_⟩
    cases hv : v.object? with
    | none =>
      rw [parts_of_object?_eq_none hv]
      exact fun w hw => absurd hw List.not_mem_nil
    | some r =>
      obtain ⟨k, hk⟩ := (h.readable r hv).lies
      have hcons := h.nodup_cons hv hnodup fun q hq => habove q hq r hv
      intro w hw
      refine ih (h.part hw) (r :: path) ?_ hcons
        (List.forall_mem_cons.mpr ⟨hk.index_lt, hin⟩) ?_
      · rw [List.length_cons]
        omega
      · intro q hq s hs
        have hleads := leads_of_mem_parts hv (h.readable r hv) hw hs
        rcases List.mem_cons.mp hq with rfl | hq
        · exact .single hleads
        · exact (habove q hq r hv).tail hleads

/-- No value without cycles has more objects one below the other than there are words in memory. -/
theorem Acyclic.grounded_of_lt (h : m.Acyclic v) (hlt : m.words.size < depth) : m.Grounded depth v := by
  apply h.grounded_below []
  · rwa [List.length_nil, Nat.zero_add]
  · exact List.nodup_nil
  · exact fun q hq => absurd hq List.not_mem_nil
  · exact fun q hq => absurd hq List.not_mem_nil

/-- The bound on the depth of a comparison is enough for every value without cycles. -/
theorem Acyclic.grounded (h : m.Acyclic v) : m.Grounded m.comparisonDepth v := by
  apply h.grounded_of_lt
  have hsquare := Nat.le_mul_self m.words.size
  unfold comparisonDepth
  omega

theorem equal_spec (ha : m.Acyclic a) (hb : m.Acyclic b) :
    ∃ x, m.equal a b = .ok x ∧
      (x = true ↔ m.content m.comparisonDepth a = m.content m.comparisonDepth b) :=
  equalWithin_spec ha.grounded hb.grounded

theorem equal_eq_true_iff (ha : m.Acyclic a) (hb : m.Acyclic b) :
    m.equal a b = .ok true ↔
      m.content m.comparisonDepth a = m.content m.comparisonDepth b := by
  obtain ⟨x, hx, hiff⟩ := equal_spec ha hb
  rw [hx, Except.ok.injEq, hiff]

theorem notEqual_eq {x : Bool} (h : m.equal a b = .ok x) : m.notEqual a b = .ok (!x) := by
  rw [notEqual, h]
  rfl

/-- Numbers are equal if they are the same exact number, whatever they are kept in; a NaN is equal only
to the value that it is. -/
theorem equal_numbers (ha : m.Acyclic a) (hb : m.Acyclic b) {x y : Number}
    (hx : m.number? a = .ok (some x)) (hy : m.number? b = .ok (some y)) :
    m.equal a b = .ok true ↔ a = b ∨ (x ≠ .nan ∧ x = y) := by
  rw [number?_eq_ok ha.readable, Except.ok.injEq] at hx
  rw [number?_eq_ok hb.readable, Except.ok.injEq] at hy
  have hlayer {v : Value} {z : Number} (hz : (m.layer v).number? = some z) :
      m.layer v = .number z := by
    cases hv : m.layer v with
    | number z' =>
      rw [hv] at hz
      exact congrArg Layer.number (Option.some.inj hz)
    | text | char | array | node | atom =>
      rw [hv] at hz
      nomatch hz
  unfold equal comparisonDepth
  rw [equalWithin_succ ha.readable hb.readable, hlayer hx, hlayer hy]
  by_cases hsame : a = b
  · simp [hsame]
  · simp [hsame, Layer.compare, Number.equals_eq_true_iff]

/-- List nodes with the same head and the same tail are equal. -/
theorem equal_nodes (ha : m.Acyclic a) (hb : m.Acyclic b) {head tail : Value}
    (hnode : m.layer a = .node head tail) (hnode' : m.layer b = .node head tail) :
    m.equal a b = .ok true := by
  apply (equal_eq_true_iff ha hb).mpr
  unfold comparisonDepth content
  rw [hnode, hnode']
  rfl

/-- Values that are not identical are never one symbol. -/
theorem sameSymbol_of_ne (hne : a ≠ b) : m.sameSymbol a b = .ok false := by
  unfold sameSymbol
  cases hr : a.object? with
  | none => rfl
  | some r =>
    cases hs : b.object? with
    | none => rfl
    | some s =>
      obtain ⟨rfl, -⟩ := Value.object?_eq_some_iff.mp hr
      obtain ⟨rfl, -⟩ := Value.object?_eq_some_iff.mp hs
      dsimp only
      rw [if_neg fun heq => hne (congrArg Value.object heq)]
      rfl

/-- On values without cycles equality is an equivalence relation, and every comparison ends. Numbers
compare by what they are. -/
theorem equal_equivalence (ha : m.Acyclic a) (hb : m.Acyclic b) (hc : m.Acyclic c) :
    m.equal a a = .ok true ∧
      (∃ x, m.equal a b = .ok x ∧ m.equal b a = .ok x ∧ m.notEqual a b = .ok (!x)) ∧
      (m.equal a b = .ok true → m.equal b c = .ok true → m.equal a c = .ok true) ∧
      ∀ x y, m.number? a = .ok (some x) → m.number? b = .ok (some y) →
        (m.equal a b = .ok true ↔ a = b ∨ (x ≠ .nan ∧ x = y)) := by
  refine ⟨(equal_eq_true_iff ha ha).mpr rfl, ?_, ?_, ?_⟩
  · obtain ⟨x, hx, hiff⟩ := equal_spec ha hb
    obtain ⟨y, hy, hiff'⟩ := equal_spec hb ha
    have hxy : y = x := by
      rw [Bool.eq_iff_iff, hiff, hiff']
      exact eq_comm
    exact ⟨x, hx, hxy ▸ hy, notEqual_eq hx⟩
  · intro hab hbc
    rw [equal_eq_true_iff ha hb] at hab
    rw [equal_eq_true_iff hb hc] at hbc
    exact (equal_eq_true_iff ha hc).mpr (hab.trans hbc)
  · intro x y hx hy
    exact equal_numbers ha hb hx hy

/-- Objects that lead only to objects below them form no cycle. -/
theorem acyclic_of_descending (among : Reference → Prop) (hwhole : ∀ r, among r → m.Whole r)
    (hstep : ∀ r s, among r → m.Leads r s → among s ∧ s.index < r.index)
    (hv : ∀ r, v.object? = some r → among r) : m.Acyclic v := by
  have hpath {r s : Reference} (hr : among r) (hrs : Relation.ReflTransGen m.Leads r s) :
      among s := by
    induction hrs with
    | refl => exact hr
    | tail _ hlast ih => exact (hstep _ _ ih hlast).1
  have hbelow {r s : Reference} (hr : among r) (hrs : Relation.TransGen m.Leads r s) :
      s.index < r.index := by
    induction hrs with
    | single hlast => exact (hstep _ _ hr hlast).2
    | tail hfirst hlast ih =>
      have hlast' := (hstep _ _ (hpath hr hfirst.to_reflTransGen) hlast).2
      omega
  constructor
  · intro r s hr hrs
    exact hwhole s (hpath (hv r hr) hrs)
  · intro r s hr hrs hcycle
    exact absurd (hbelow (hpath (hv r hr) hrs) hcycle) (Nat.lt_irrefl _)

/-- One as a boxed integer and as a float, and three lists of a single one: in the word itself, boxed,
and as a float. -/
def ones : Memory :=
  ⟨#[0, 0, 4, 1, 5, 0x3F800000, 7, 5, 0, 7, 8, 0, 7, 16, 0], 1⟩

/-- The objects of `ones`, with their kinds. -/
def AmongOnes (r : Reference) : Prop :=
  (r = .ofIndex 2 ∧ ones.Lies r .integer) ∨ (r = .ofIndex 4 ∧ ones.Lies r .float) ∨
    ((r = .ofIndex 6 ∨ r = .ofIndex 9 ∨ r = .ofIndex 12) ∧ ones.Lies r .listNode)

theorem amongOnes_number : AmongOnes (.ofIndex 2) ∧ AmongOnes (.ofIndex 4) := by
  constructor
  · exact .inl ⟨rfl, rfl, by decide, by decide⟩
  · exact .inr (.inl ⟨rfl, rfl, by decide, by decide⟩)

theorem amongOnes_node {r : Reference} (hr : r = .ofIndex 6 ∨ r = .ofIndex 9 ∨ r = .ofIndex 12) :
    AmongOnes r := by
  refine .inr (.inr ⟨hr, ?_⟩)
  rcases hr with rfl | rfl | rfl
  · exact ⟨rfl, by decide, by decide⟩
  · exact ⟨rfl, by decide, by decide⟩
  · exact ⟨rfl, by decide, by decide⟩

theorem leads_ones {r s : Reference} (hr : AmongOnes r) (h : ones.Leads r s) :
    AmongOnes s ∧ s.index < r.index := by
  rcases hr with ⟨-, hk⟩ | ⟨-, hk⟩ | ⟨hr, hk⟩
  · obtain ⟨j, hj, -⟩ := (leads_iff hk).mp h
    exact absurd ((isSlot_iff hk.header).mp hj) id
  · obtain ⟨j, hj, -⟩ := (leads_iff hk).mp h
    exact absurd ((isSlot_iff hk.header).mp hj) id
  · obtain ⟨j, hj, htarget⟩ := (leads_iff hk).mp h
    have hedge : s = .ofIndex 2 ∨ s = .ofIndex 4 := by
      rcases (isSlot_iff hk.header).mp hj with rfl | rfl <;> rcases hr with rfl | rfl | rfl
      · nomatch htarget
      · exact .inl (Option.some.inj htarget).symm
      · exact .inr (Option.some.inj htarget).symm
      · nomatch htarget
      · nomatch htarget
      · nomatch htarget
    have hsix : 6 ≤ r.index := by rcases hr with rfl | rfl | rfl <;> decide
    rcases hedge with rfl | rfl
    · exact ⟨amongOnes_number.1, Nat.lt_of_lt_of_le (by decide) hsix⟩
    · exact ⟨amongOnes_number.2, Nat.lt_of_lt_of_le (by decide) hsix⟩

theorem acyclic_ones {v : Value} (hv : ∀ r, v.object? = some r → AmongOnes r) : ones.Acyclic v := by
  apply acyclic_of_descending AmongOnes
  · rintro r (⟨rfl, -⟩ | ⟨rfl, -⟩ | ⟨rfl | rfl | rfl, -⟩)
    · exact ⟨8, rfl, rfl⟩
    · exact ⟨8, rfl, rfl⟩
    · exact ⟨12, rfl, rfl⟩
    · exact ⟨12, rfl, rfl⟩
    · exact ⟨12, rfl, rfl⟩
  · intro r s hr hrs
    exact leads_ones hr hrs
  · exact hv

theorem equal_ones :
    ones.Acyclic (.object (.ofIndex 6)) ∧ ones.Acyclic (.object (.ofIndex 9)) ∧
      ones.Acyclic (.object (.ofIndex 12)) ∧
      ones.equal (.object (.ofIndex 6)) (.object (.ofIndex 12)) = .ok true := by
  have hacyclic {r : Reference} (hr : r = .ofIndex 6 ∨ r = .ofIndex 9 ∨ r = .ofIndex 12) :
      ones.Acyclic (.object r) := by
    apply acyclic_ones
    intro s hs
    exact Value.eq_of_object?_object hs ▸ amongOnes_node hr
  have ha := hacyclic (.inl rfl)
  have hb := hacyclic (.inr (.inl rfl))
  have hc := hacyclic (.inr (.inr rfl))
  refine ⟨ha, hb, hc, ?_⟩
  exact (equal_equivalence ha hb hc).2.2.1 rfl rfl

/-- Both zeros are one number. -/
example : Number.ofFloatBits 0x80000000 = Number.ofFloatBits 0 := by decide

end Memory

end CopyingHeap
