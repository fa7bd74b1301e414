import CopyingHeap.Object.Equality
import CopyingHeap.Proofs.Object.Whole
import Mathlib.Data.List.Forall2

/-!
What a comparison sees of a value before it looks at its parts. One step of a comparison is a comparison
of two such layers, whatever the objects and wherever they lie.
-/

namespace CopyingHeap

/-- The outermost layer of a value. An atom is equal to nothing but itself. -/
inductive Layer where
  | number (x : Number)
  | text (bytes : List UInt8)
  | char (c : Char)
  | array (elements : List Value)
  | node (head tail : Value)
  | atom

namespace Layer

def number? : Layer → Option Number
  | number x => some x
  | _ => none

/-- The values that a comparison goes on with. -/
def parts : Layer → List Value
  | array elements => elements
  | node head tail => [head, tail]
  | _ => []

end Layer

/-- Does `p` hold of all pairs of elements at one place in two lists of one length? The first pair that
fails ends the test. -/
def allPairs (p : Value → Value → Except Fault Bool) : List Value → List Value → Except Fault Bool
  | [], [] => .ok true
  | a :: as, b :: bs => do
    if ← p a b then allPairs p as bs else return false
  | _, _ => .ok false

/-- The comparison of two layers, with `p` to compare their parts. -/
def Layer.compare (p : Value → Value → Except Fault Bool) : Layer → Layer → Except Fault Bool
  | number x, number y => .ok (x.equals y)
  | text xs, text ys => .ok (xs == ys)
  | char c, char d => .ok (c == d)
  | array xs, array ys => if xs.length = ys.length then allPairs p xs ys else .ok false
  | node x xs, node y ys => do
    if ← p x y then p xs ys else return false
  | _, _ => .ok false

/-- Two layers agree, if `R` relates values that are equal: the numbers are one exact number, the bytes
and characters are the same, and the parts are related. -/
def Layer.Agree (R : Value → Value → Prop) : Layer → Layer → Prop
  | number x, number y => x ≠ .nan ∧ x = y
  | text xs, text ys => xs = ys
  | char c, char d => c = d
  | array xs, array ys => List.Forall₂ R xs ys
  | node x xs, node y ys => R x y ∧ R xs ys
  | _, _ => False

section Compare

variable {p : Value → Value → Except Fault Bool} {R : Value → Value → Prop}

theorem allPairs_agree {as bs : List Value}
    (hp : ∀ a ∈ as, ∀ b ∈ bs, ∃ x, p a b = .ok x ∧ (x = true ↔ R a b)) :
    ∃ x, allPairs p as bs = .ok x ∧ (x = true ↔ List.Forall₂ R as bs) := by
  induction as generalizing bs with
  | nil =>
    cases bs with
    | nil => exact ⟨true, rfl, by simp⟩
    | cons b bs => exact ⟨false, rfl, by simp⟩
  | cons a as ih =>
    cases bs with
    | nil => exact ⟨false, rfl, by simp⟩
    | cons b bs =>
      obtain ⟨x, hx, hiff⟩ := hp a List.mem_cons_self b List.mem_cons_self
      rw [allPairs, hx, ok_bind, List.forall₂_cons, ← hiff]
      cases x with
      | false => exact ⟨false, rfl, by simp⟩
      | true =>
        obtain ⟨y, hy, hrest⟩ := ih fun c hc d hd =>
          hp c (List.mem_cons_of_mem a hc) d (List.mem_cons_of_mem b hd)
        exact ⟨y, hy, by simpa using hrest⟩

theorem allPairs_self {as : List Value} (hp : ∀ a ∈ as, p a a = .ok true) :
    allPairs p as as = .ok true := by
  induction as with
  | nil => rfl
  | cons a as ih =>
    rw [allPairs, hp a List.mem_cons_self, ok_bind, if_pos rfl]
    exact ih fun c hc => hp c (List.mem_cons_of_mem a hc)

/-- If the comparison of the parts decides `R`, then that of the layers decides whether they agree. -/
theorem Layer.compare_agree {x y : Layer}
    (hp : ∀ v ∈ x.parts, ∀ w ∈ y.parts, ∃ z, p v w = .ok z ∧ (z = true ↔ R v w)) :
    ∃ z, x.compare p y = .ok z ∧ (z = true ↔ x.Agree R y) := by
  cases x with
  | number x =>
    cases y with
    | number y => exact ⟨_, rfl, Number.equals_eq_true_iff⟩
    | _ => exact ⟨false, rfl, by simp [Agree]⟩
  | text xs =>
    cases y with
    | text ys => exact ⟨_, rfl, by simp [Agree]⟩
    | _ => exact ⟨false, rfl, by simp [Agree]⟩
  | char c =>
    cases y with
    | char d => exact ⟨_, rfl, by simp [Agree]⟩
    | _ => exact ⟨false, rfl, by simp [Agree]⟩
  | array xs =>
    cases y with
    | array ys =>
      rw [compare, Agree]
      by_cases hlength : xs.length = ys.length
      · rw [if_pos hlength]
        exact allPairs_agree hp
      · rw [if_neg hlength]
        exact ⟨false, rfl, iff_of_false Bool.false_ne_true fun hall => hlength hall.length_eq⟩
    | _ => exact ⟨false, rfl, by simp [Agree]⟩
  | node head tail =>
    cases y with
    | node head' tail' =>
      obtain ⟨z, hz, hhead⟩ := hp head (by simp [parts]) head' (by simp [parts])
      obtain ⟨t, ht, htail⟩ := hp tail (by simp [parts]) tail' (by simp [parts])
      rw [compare, hz, ok_bind, Agree, ← hhead, ← htail]
      cases z with
      | false => exact ⟨false, rfl, by simp⟩
      | true => exact ⟨t, ht, by simp⟩
    | _ => exact ⟨false, rfl, by simp [Agree]⟩
  | atom =>
    cases y with
    | _ => exact ⟨false, rfl, by simp [Agree]⟩

end Compare

namespace Memory

/-- The layer of an object of kind `k`. -/
def layerAs (m : Memory) (r : Reference) : Kind → Layer
  | .array => .array ((List.range' 0 (m.word (r.index + 1)).toNat).map fun i =>
      Value.decode (m.word (r.index + (2 + i))))
  | .symbol => .atom
  | .string => .text ((List.range' (4 * (r.index + 2)) (m.word (r.index + 1)).toNat).map
      (byteAt m.words))
  | .integer => .number (.ofInt (m.word (r.index + 1)).toInt32.toInt)
  | .float => .number (.ofFloatBits (m.word (r.index + 1)))
  | .char => .char (charOfWord (m.word (r.index + 1)))
  | .listNode => .node (Value.decode (m.word (r.index + 1))) (Value.decode (m.word (r.index + 2)))

def layer (m : Memory) (v : Value) : Layer :=
  match v with
  | .int n => .number (.ofInt n.toInt)
  | v =>
    match v.object? with
    | none => .atom
    | some r =>
      match Kind.ofHeader? (m.word r.index) with
      | none => .atom
      | some k => m.layerAs r k

/-- The value is no reference, or there is a whole object behind it. -/
def Readable (m : Memory) (v : Value) : Prop :=
  ∀ r, v.object? = some r → m.Whole r

variable {m : Memory} {r s : Reference} {k l : Kind} {v a b : Value}

theorem layer_eq (hv : v.object? = some r) (h : m.Lies r k) : m.layer v = m.layerAs r k := by
  obtain ⟨rfl, -⟩ := Value.object?_eq_some_iff.mp hv
  unfold layer
  dsimp only
  rw [hv]
  dsimp only
  rw [h.header, Kind.ofHeader?_header]

theorem number?_eq_ok (hv : m.Readable v) : m.number? v = .ok (m.layer v).number? := by
  cases hobject : v.object? with
  | none =>
    unfold number? layer
    cases v with
    | int n => rfl
    | bool b => rfl
    | func i => rfl
    | object r =>
      dsimp only
      rw [hobject]
      rfl
  | some r =>
    obtain ⟨k, hk⟩ := (hv r hobject).lies
    rw [layer_eq hobject hk]
    obtain ⟨rfl, -⟩ := Value.object?_eq_some_iff.mp hobject
    unfold number?
    dsimp only
    rw [hobject]
    dsimp only
    rw [hk.kind?_eq, ok_bind]
    cases k with
    | integer =>
      dsimp only
      rw [integerValue, hk.scalar_eq]
      rfl
    | float =>
      dsimp only
      rw [floatBits, hk.scalar_eq]
      rfl
    | array | symbol | string | char | listNode => rfl

/-- A test of all indices is a test of the lists of what is found at them. -/
theorem allFrom_eq {p : Value → Value → Except Fault Bool} {q : Nat → Except Fault Bool}
    {f g : Nat → Value} {i count : Nat}
    (hq : ∀ j, i ≤ j → j < i + count → q j = p (f j) (g j)) :
    allFrom q i count = allPairs p ((List.range' i count).map f) ((List.range' i count).map g) := by
  induction count generalizing i with
  | zero => rfl
  | succ count ih =>
    have hfirst := hq i (Nat.le_refl i) (by omega)
    have hrest := ih (i := i + 1) fun j hlo hhi => hq j (by omega) (by omega)
    rw [List.range'_succ, List.map_cons, List.map_cons, allFrom, allPairs, hfirst, hrest]

theorem compareArrays_eq (hr : m.Lies r .array) (hs : m.Lies s .array)
    (p : Value → Value → Except Fault Bool) :
    (m.arraySize r >>= fun size => m.arraySize s >>= fun other =>
      if size = other then
        allFrom (fun i => m.arrayGet r i >>= fun a => m.arrayGet s i >>= fun b => p a b) 0 size
      else .ok false) = (m.layerAs r .array).compare p (m.layerAs s .array) := by
  rw [hr.arraySize_eq, ok_bind, hs.arraySize_eq, ok_bind, layerAs, layerAs, Layer.compare,
    List.length_map, List.length_map, List.length_range', List.length_range']
  by_cases hsize : (m.word (r.index + 1)).toNat = (m.word (s.index + 1)).toNat
  · rw [if_pos hsize, if_pos hsize, ← hsize]
    apply allFrom_eq
    intro i _ hi
    rw [hr.arrayGet_eq (by omega), ok_bind, hs.arrayGet_eq (by omega), ok_bind]
  · rw [if_neg hsize, if_neg hsize]

theorem compareTexts_eq (hr : m.Lies r .string) (hs : m.Lies s .string)
    (p : Value → Value → Except Fault Bool) :
    m.sameText r s = (m.layerAs r .string).compare p (m.layerAs s .string) := by
  rw [sameText, hr.textBytes_eq (.inl rfl), ok_bind, hs.textBytes_eq (.inl rfl), ok_bind]
  rfl

theorem compareChars_eq (hr : m.Lies r .char) (hs : m.Lies s .char)
    (p : Value → Value → Except Fault Bool) :
    (m.charValue r >>= fun c => m.charValue s >>= fun d => .ok (c == d)) =
      (m.layerAs r .char).compare p (m.layerAs s .char) := by
  rw [charValue, hr.scalar_eq, charValue, hs.scalar_eq]
  rfl

theorem compareNodes_eq (hr : m.Lies r .listNode) (hs : m.Lies s .listNode)
    (p : Value → Value → Except Fault Bool) :
    (m.listHead r >>= fun a => m.listHead s >>= fun b => p a b >>= fun same =>
      if same then m.listTail r >>= fun a => m.listTail s >>= fun b => p a b else .ok false) =
      (m.layerAs r .listNode).compare p (m.layerAs s .listNode) := by
  rw [hr.listHead_eq, ok_bind, hs.listHead_eq, ok_bind, hr.listTail_eq, ok_bind, hs.listTail_eq,
    ok_bind]
  rfl

theorem layer_of_object?_eq_none (hv : v.object? = none) :
    m.layer v = .atom ∨ ∃ x, m.layer v = .number x := by
  unfold layer
  cases v with
  | int n => exact .inr ⟨_, rfl⟩
  | bool b => exact .inl rfl
  | func i => exact .inl rfl
  | object r =>
    left
    dsimp only
    rw [hv]

/-- One step of a comparison. Identical values are equal whatever they are. -/
theorem equalWithin_succ (ha : m.Readable a) (hb : m.Readable b) (depth : Nat) :
    m.equalWithin (depth + 1) a b =
      if a = b then .ok true
      else (m.layer a).compare (m.equalWithin depth) (m.layer b) := by
  rw [equalWithin]
  split
  · rfl
  · rw [number?_eq_ok ha, ok_bind, number?_eq_ok hb, ok_bind]
    cases hr : a.object? with
    | none =>
      rcases layer_of_object?_eq_none hr with hlayer | ⟨x, hlayer⟩
      · rw [hlayer]
        rfl
      · rw [hlayer]
        cases m.layer b <;> rfl
    | some r =>
      obtain ⟨k, hk⟩ := (ha r hr).lies
      cases hs : b.object? with
      | none =>
        rcases layer_of_object?_eq_none hs with hlayer | ⟨y, hlayer⟩
        · rw [hlayer]
          cases m.layer a <;> rfl
        · rw [hlayer]
          cases m.layer a <;> rfl
      | some s =>
        obtain ⟨l, hl⟩ := (hb s hs).lies
        rw [layer_eq hr hk, layer_eq hs hl]
        dsimp only
        rw [hk.kind?_eq, ok_bind, hl.kind?_eq, ok_bind]
        cases k with
        | array =>
          cases l with
          | array => exact compareArrays_eq hk hl _
          | _ => rfl
        | string =>
          cases l with
          | string => exact compareTexts_eq hk hl _
          | _ => rfl
        | char =>
          cases l with
          | char => exact compareChars_eq hk hl _
          | _ => rfl
        | listNode =>
          cases l with
          | listNode => exact compareNodes_eq hk hl _
          | _ => rfl
        | symbol | integer | float => cases l <;> rfl

end Memory

end CopyingHeap
