import CopyingHeap.Proofs.Collection.Comparison
import CopyingHeap.Proofs.Construct.Objects
import CopyingHeap.Proofs.Heap.Grant
import CopyingHeap.Proofs.Object.Number

/-!
Numbers, in the word itself or in an object of two words. A number in a root slot stays what it is while
other numbers are made and through any number of collections, and numbers compare as the exact numbers do,
whatever they are kept in.
-/

namespace CopyingHeap

/-- A number to be made: an integer, or a float by its bits. -/
inductive Numeral where
  | integer (n : Int32)
  | float (bits : Word)

namespace Numeral

/-- The kind of an object that holds the number. -/
def kind : Numeral → Kind
  | integer _ => .integer
  | float _ => .float

/-- The word behind the header of such an object. -/
def payload : Numeral → Word
  | integer n => n.toUInt32
  | float bits => bits

def number : Numeral → Number
  | integer n => .ofInt n.toInt
  | float bits => .ofFloatBits bits

/-- Is the number kept in the word itself? -/
def Fits : Numeral → Prop
  | integer n => Value.FitsInt n
  | float _ => False

theorem isScalar (x : Numeral) : x.kind.IsScalar := by
  cases x with
  | integer n => exact .inl rfl
  | float bits => exact .inr (.inl rfl)

end Numeral

namespace Heap

/-- Makes a number. -/
def newNumber (h : Heap) : Numeral → Except Fault (Value × Heap)
  | .integer n => h.newInteger n
  | .float bits => do
    let (r, h) ← h.newFloat bits
    return (.object r, h)

/-- Makes a number and keeps it in a root slot. -/
def keepNumber (h : Heap) (x : Numeral) : Except Fault (RootSlot × Heap) := do
  let (v, h) ← h.newNumber x
  h.pushRoot v

/-- A program has led from `h` to `k`. It has made numbers and kept them in these root slots, the last one
first, and it has asked for memory and collected garbage in between. -/
inductive Gathers (h : Heap) : List (RootSlot × Numeral) → Heap → Prop
  | start : Gathers h [] h
  | keep {ps : List (RootSlot × Numeral)} {k l : Heap} {slot : RootSlot} {x : Numeral} :
      Gathers h ps k → k.keepNumber x = .ok (slot, l) → Gathers h ((slot, x) :: ps) l
  | alloc {ps : List (RootSlot × Numeral)} {k l : Heap} {size : Nat} {a : Address} :
      Gathers h ps k → k.alloc size = .ok (a, l) → Gathers h ps l
  | collect {ps : List (RootSlot × Numeral)} {k l : Heap} :
      Gathers h ps k → k.collect = .ok l → Gathers h ps l

/-- The numbers that the slots hold are read exactly, and they compare as exact numbers do. -/
structure Exact (h : Heap) (ps : List (RootSlot × Numeral)) : Prop where
  integer : ∀ s a, (s, .integer a) ∈ ps → ∃ x, h.root s = .ok x ∧ h.memory.integer? x = .ok (some a) ∧
    (x.isImmediate = true ↔ -0x20000000 ≤ a.toInt ∧ a.toInt < 0x20000000)
  float : ∀ s bits, (s, .float bits) ∈ ps →
    ∃ r, h.root s = .ok (.object r) ∧ h.memory.floatBits r = .ok bits
  integers : ∀ s t a b, (s, .integer a) ∈ ps → (t, .integer b) ∈ ps →
    ∃ x y, h.root s = .ok x ∧ h.root t = .ok y ∧ h.memory.equal x y = .ok (decide (a = b))
  mixed : ∀ s t a bits, (s, .integer a) ∈ ps → (t, .float bits) ∈ ps →
    ∃ x z same, h.root s = .ok x ∧ h.root t = .ok z ∧ h.memory.equal x z = .ok same ∧
      h.memory.equal z x = .ok same ∧ (same = true ↔ floatValue bits = some (a.toInt : ℚ))
  nan : ∀ s t a bits, (s, .integer a) ∈ ps → (t, .float bits) ∈ ps → IsNaN bits →
    ∃ x z, h.root s = .ok x ∧ h.root t = .ok z ∧ h.memory.equal x z = .ok false

/-- The value is the number: in the word itself if it fits, and otherwise an object of the heap. -/
inductive IsNumber (h : Heap) : Numeral → Value → Prop
  | immediate {n : Int32} : Value.FitsInt n → IsNumber h (.integer n) (.int n)
  | boxed {x : Numeral} {r : Reference} : ¬ x.Fits → h.Initialised r →
      h.memory.word r.index = x.kind.header → h.memory.word (r.index + 1) = x.payload →
      IsNumber h x (.object r)

namespace IsNumber

variable {h k : Heap} {x y : Numeral} {v w : Value}

theorem accepts (hv : h.IsNumber x v) : h.Accepts v := by
  cases hv with
  | immediate hfits => exact ⟨Value.fitsInt_iff.mp hfits, nofun⟩
  | boxed _ hi => exact accepts_object hi

theorem isImmediate_iff (hv : h.IsNumber x v) : v.isImmediate = true ↔ x.Fits := by
  cases hv with
  | immediate hfits => exact iff_of_true rfl hfits
  | boxed hfits => exact iff_of_false Bool.false_ne_true hfits

/-- An object that holds the number has been kept word by word, wherever it has gone. -/
theorem relocated (hr : h.Regular) (hv : h.IsNumber x v) {f : Reference → Reference}
    (hmoved : ∀ r, v = .object r → k.Initialised (f r) ∧ ∀ j < h.size r,
      ¬ h.memory.IsSlot r.index j → k.memory.word ((f r).index + j) = h.memory.word (r.index + j)) :
    k.IsNumber x (h.relocated f v) := by
  cases hv with
  | immediate hfits => exact .immediate hfits
  | @boxed _ r hfits hi hheader hpayload =>
    obtain ⟨hinit, hwords⟩ := hmoved r rfl
    -- Neither the header nor the word behind it is a reference, so both are moved as they are.
    have htwo := hr.two_le_size hi
    have hslot : ¬ h.memory.IsSlot r.index 1 := fun hj =>
      x.isScalar.shape.2.2 _ _ ((Memory.isSlot_iff hheader).mp hj)
    rw [relocated_object hi]
    exact .boxed hfits hinit ((hwords 0 (by omega) Memory.not_isSlot_zero).trans hheader)
      ((hwords 1 (by omega) hslot).trans hpayload)

section Read

variable (hr : h.Regular)

include hr

/-- What holds a number leads to nothing. -/
theorem acyclic (hv : h.IsNumber x v) : h.memory.Acyclic v := by
  apply Memory.acyclic_of_descending fun r => v = .object r
  · rintro r rfl
    cases hv with
    | boxed _ hi hheader => exact (hr.lies hi hheader).whole hr.paged
  · rintro r s rfl hleads
    cases hv with
    | boxed _ hi hheader =>
      obtain ⟨j, hj, -⟩ := (Memory.leads_iff (hr.lies hi hheader)).mp hleads
      exact absurd ((Memory.isSlot_iff hheader).mp hj) (x.isScalar.shape.2.2 _ _)
  · exact fun r hobject => (Value.object?_eq_some_iff.mp hobject).1

theorem number?_eq (hv : h.IsNumber x v) : h.memory.number? v = .ok (some x.number) := by
  rw [Memory.number?_eq_ok (hv.acyclic hr).readable]
  cases hv with
  | immediate => rfl
  | boxed _ hi hheader hpayload =>
    have hobject := Value.object?_eq_some_iff.mpr ⟨rfl, hr.ne_null hi⟩
    rw [Memory.layer_eq hobject (hr.lies hi hheader)]
    cases x with
    | integer n =>
      rw [Numeral.kind, Memory.layerAs, hpayload, Numeral.payload, Int32.toInt32_toUInt32]
      rfl
    | float bits =>
      rw [Numeral.kind, Memory.layerAs, hpayload]
      rfl

theorem integer?_eq {n : Int32} (hv : h.IsNumber (.integer n) v) :
    h.memory.integer? v = .ok (some n) := by
  cases hv with
  | immediate => rfl
  | @boxed _ r _ hi hheader hpayload =>
    have hlies : h.memory.Lies r .integer := hr.lies hi hheader
    have hobject := Value.object?_eq_some_iff.mpr ⟨rfl, hr.ne_null hi⟩
    unfold Memory.integer?
    dsimp only
    rw [hobject]
    dsimp only
    rw [hlies.kind?_eq, ok_bind]
    dsimp only
    rw [Memory.integerValue, hlies.scalar_eq, hpayload, Numeral.payload, ok_bind]
    exact congrArg (fun n => Except.ok (some n)) (Int32.toInt32_toUInt32 n)

theorem floatBits_eq {bits : Word} (hv : h.IsNumber (.float bits) v) :
    ∃ r, v = .object r ∧ h.memory.floatBits r = .ok bits := by
  cases hv with
  | @boxed _ r _ hi hheader hpayload =>
    have hlies : h.memory.Lies r .float := hr.lies hi hheader
    exact ⟨r, rfl, hlies.scalar_eq.trans (congrArg Except.ok hpayload)⟩

/-- Values are equal if and only if they are the same exact number, unless the one is a NaN. -/
theorem equal_eq (hv : h.IsNumber x v) (hw : h.IsNumber y w) (hnan : x.number ≠ .nan) :
    ∃ same, h.memory.equal v w = .ok same ∧ h.memory.equal w v = .ok same ∧
      (same = true ↔ x.number = y.number) := by
  have hcyclic := hv.acyclic hr
  have hcyclic' := hw.acyclic hr
  have hx := hv.number?_eq hr
  have hy := hw.number?_eq hr
  obtain ⟨same, hsame, hiff⟩ := Memory.equal_spec hcyclic hcyclic'
  obtain ⟨same', hsame', hiff'⟩ := Memory.equal_spec hcyclic' hcyclic
  obtain rfl : same = same' := Bool.eq_iff_iff.mpr (hiff.trans (eq_comm.trans hiff'.symm))
  refine ⟨same, hsame, hsame', ?_⟩
  have hnumbers := Memory.equal_numbers hcyclic hcyclic' hx hy
  rw [hsame, Except.ok.injEq] at hnumbers
  rw [hnumbers]
  constructor
  · rintro (rfl | ⟨-, heq⟩)
    · rw [hx, Except.ok.injEq, Option.some.injEq] at hy
      exact hy
    · exact heq
  · exact fun heq => .inr ⟨hnan, heq⟩

end Read

end IsNumber

/-- The root slot holds the number. -/
def HoldsNumber (h : Heap) (slot : RootSlot) (x : Numeral) : Prop :=
  ∃ v, h.root slot = .ok v ∧ h.IsNumber x v

/-- A well-formed heap in which every root slot holds the number that it held in `h`. -/
structure Advances (h k : Heap) : Prop where
  wellFormed : k.WellFormed
  base : k.spaces.base = h.spaces.base
  holds : ∀ slot x, h.HoldsNumber slot x → k.HoldsNumber slot x

theorem WellFormed.advances_self {h : Heap} (hw : h.WellFormed) : h.Advances h :=
  ⟨hw, rfl, fun _ _ hx => hx⟩

theorem Advances.trans {h k l : Heap} (hk : h.Advances k) (hl : k.Advances l) : h.Advances l :=
  ⟨hl.wellFormed, hl.base.trans hk.base, fun slot x hx => hl.holds slot x (hk.holds slot x hx)⟩

/-- Wherever objects go that the stack reaches, the numbers on it stay what they are. -/
theorem Restores.advances {h k : Heap} {f : Reference → Reference} (hi : h.Restores [] f k)
    (hr : h.Regular) (hk : k.WellFormed) : h.Advances k where
  wellFormed := hk
  base := hi.base
  holds := by
    rintro slot x ⟨v, hslot, hv⟩
    obtain ⟨hholds, ha, -⟩ := hr.toLayout.root_eq_ok_iff.mp hslot
    have hinside := hk.toLayout.stack_inside (hi.stack ▸ (hholds.index ha).2)
    refine ⟨_, hi.root hr hslot hv.accepts hinside, hv.relocated hr fun r heq => ?_⟩
    subst heq
    cases hv with
    | boxed _ hinit =>
      have hreach : h.ReachableWith [] r := hr.reaches_root hslot r rfl hinit
      exact ⟨hi.initialised r hreach, hi.payload r hreach⟩

/-- Pushing moves no object. -/
theorem Lowered.isNumber {h k : Heap} (hk : h.Lowered k) (hr : h.Regular) {x : Numeral} {v : Value}
    (hv : h.IsNumber x v) : k.IsNumber x v := by
  have hmoved := hv.relocated (k := k) (f := id) hr fun r heq => ?_
  · rwa [relocated_id] at hmoved
  · subst heq
    cases hv with
    | boxed _ hi =>
      exact ⟨(hk.initialised_iff hr).mpr hi, fun j hj _ => (hk.intact hr).word r hi j hj⟩

theorem Lowered.advances {h k : Heap} (hk : h.Lowered k) (hw : h.WellFormed) : h.Advances k where
  wellFormed := hk.wellFormed hw
  base := congrArg Semispaces.base hk.spaces_eq
  holds := fun _ _ ⟨v, hslot, hv⟩ =>
    ⟨v, hk.root hw.toRegular hslot, hk.isNumber hw.toRegular hv⟩

theorem WellFormed.alloc_advances {h : Heap} (hw : h.WellFormed) (hbase : h.spaces.base.WordAligned)
    (size : Nat) : Ends (h.alloc size) (fun x => h.Advances x.2) (h.Refuses size) := by
  refine (hw.alloc_grant size).mono ?_ fun e he => he
  rintro ⟨a, k⟩ ⟨f, s, r, n, -, hg⟩
  have hk := hg.added.wellFormed hg.pos hg.wellFormed (hg.carries.base ▸ hbase)
  exact (hg.restores (Written.refl k r n) hw.toRegular).advances hw.toRegular hk

theorem WellFormed.collect_advances {h : Heap} (hw : h.WellFormed) :
    Ends h.collect h.Advances fun f => f = .overflow ∧ ¬ h.CountersFit := by
  have hr := hw.toRegular
  refine hr.collect.mono ?_ fun f hf => hf
  rintro k ⟨moves, hc⟩
  have hk := hw.collected hc
  exact (((Carries.refl hr).collected hr hr hc).restores hk.toRegular).advances hr hk

/-- In `k` there is a new object of kind `c` at `r` that holds the word, the last object. What the stack of
`h` reached is still there, where `f` says. -/
structure NewScalar (h : Heap) (c : Kind) (w : Word) (f : Reference → Reference) (r : Reference)
    (k : Heap) : Prop where
  last : k.Last r c 8
  payload : k.memory.word (r.index + 1) = w
  restores : h.Restores [] f k
  spends : h.Spends 8 k
  wellFormed : h.spaces.base.WordAligned → k.WellFormed

/-- The scalar that has been written into the block fills it. -/
theorem Grant.newScalar {h s k : Heap} (hw : h.WellFormed) {c : Kind} (hc : c.IsScalar) (w : Word)
    {f : Reference → Reference} {r : Reference} (hg : h.Grant 8 f s r 2 k) :
    h.NewScalar c w f r { k with memory := k.memory.withHeader r.index c w } := by
  obtain ⟨hsymbol, hcount, hno⟩ := hc.shape
  have hin := hg.inside
  have hwritten := Written.withHeader k r (n := 2) (Nat.le_refl 2) c w
  obtain ⟨h0, h1⟩ := Memory.word_withHeader (m := k.memory) (i := r.index) c w (by omega)
  have hwords := (Memory.wordCount_eq h0).trans (hcount _)
  exact
    { last := (hg.last hwritten h0 hwords).2
      payload := h1
      restores := hg.restores hwritten hw.toRegular
      spends := hw.lowered_self.spends hg.spends _ _
      wellFormed := fun hbase => hg.wellFormed_written hwritten hbase hsymbol h0 hwords fun j hj =>
        absurd ((Memory.isSlot_iff h0).mp hj) (hno _ _) }

/-- Making a scalar ends with an object that holds it, or memory or a counter gives out. -/
theorem WellFormed.newScalar {h : Heap} (hw : h.WellFormed) {c : Kind} (hc : c.IsScalar) (w : Word) :
    Ends (h.newScalar c w) (fun x => ∃ f, h.NewScalar c w f x.1 x.2) (h.RunsOut 0 1 8) := by
  have hsize : c.size 0 = .ok 8 := by
    rw [Kind.size_eq c (by decide), hc.shape.2.1]
  unfold Heap.newScalar
  rw [hsize, ok_bind]
  refine Ends.bind ((hw.alloc_grant 8).mono (fun _ hx => hx) fun e he =>
    he.runsOut rfl (Nat.le_refl 8)) ?_
  rintro ⟨_, k⟩ ⟨f, s, r, n, rfl, hg⟩
  obtain rfl : n = 2 := hg.words_eq rfl (Nat.le_refl 2)
  have hin := hg.inside
  dsimp only
  rw [changeMemory_eq, Memory.writeScalar_eq c w hg.added.paged.size_le (by omega), ok_bind, ok_bind,
    Reference.ofAddress_address]
  exact ⟨f, hg.newScalar hw hc w⟩

/-- The value `v` has been made, which is the number `x`. -/
structure MadeNumber (h : Heap) (x : Numeral) (v : Value) (k : Heap) : Prop where
  advances : h.Advances k
  isNumber : k.IsNumber x v
  /-- What is too much for the rest of the program is too much with the number. -/
  runsOut : ∀ depth count e, k.RunsOut depth count 8 e → h.RunsOut depth (count + 1) 8 e

theorem newNumber_of_fits (h : Heap) {n : Int32} (hn : Value.FitsInt n) :
    h.newNumber (.integer n) = .ok (.int n, h) := by
  rw [newNumber, newInteger, Value.ofInt?, if_pos hn]
  rfl

theorem newNumber_of_not_fits (h : Heap) {x : Numeral} (hx : ¬ x.Fits) :
    h.newNumber x = h.newScalar x.kind x.payload >>= fun y => .ok (.object y.1, y.2) := by
  cases x with
  | integer n =>
    rw [newNumber, newInteger, Value.ofInt?, if_neg (show ¬ Value.FitsInt n from hx)]
    rfl
  | float bits => rfl

/-- Making a number ends with a value that is the number, or memory or a counter gives out. -/
theorem WellFormed.newNumber {h : Heap} (hw : h.WellFormed) (hbase : h.spaces.base.WordAligned)
    (x : Numeral) :
    Ends (h.newNumber x) (fun y => h.MadeNumber x y.1 y.2) (h.RunsOut 0 1 8) := by
  by_cases hx : x.Fits
  · cases x with
    | integer n =>
      rw [newNumber_of_fits h hx]
      exact ⟨hw.advances_self, .immediate hx, fun depth count e he =>
        he.mono (Nat.le_refl depth) (Nat.le_add_right count 1)⟩
    | float bits => exact hx.elim
  · rw [newNumber_of_not_fits h hx]
    refine (hw.newScalar x.isScalar x.payload).bind ?_
    rintro ⟨r, k⟩ ⟨f, hk⟩
    exact
      { advances := hk.restores.advances hw.toRegular (hk.wellFormed hbase)
        isNumber := .boxed hx hk.last.initialised (Memory.kind_eq_ok_word hk.last.kind).2 hk.payload
        runsOut := fun _ _ _ he => hk.spends.runsOut hk.restores.stack he }

/-- The slot has been pushed, and holds the number. -/
structure KeptNumber (h : Heap) (x : Numeral) (slot : RootSlot) (k : Heap) : Prop where
  advances : h.Advances k
  holds : k.HoldsNumber slot x
  runsOut : ∀ depth count e, k.RunsOut depth count 8 e → h.RunsOut (1 + depth) (count + 1) 8 e

theorem WellFormed.keepNumber {h : Heap} (hw : h.WellFormed) (hbase : h.spaces.base.WordAligned)
    (x : Numeral) :
    Ends (h.keepNumber x) (fun y => h.KeptNumber x y.1 y.2) (h.RunsOut 1 1 8) := by
  refine Ends.bind ((hw.newNumber hbase x).mono (fun _ hy => hy) fun e he =>
    he.mono (Nat.zero_le 1) (Nat.le_refl 1)) ?_
  rintro ⟨v, k⟩ hk
  have hwk := hk.advances.wellFormed
  refine (hwk.pushRoot hk.isNumber.accepts.fits).mono ?_ fun e he =>
    hk.runsOut 1 0 e (he.runsOut 0 8)
  rintro ⟨slot, l⟩ ⟨hl, hsp⟩
  have hadvances := hl.advances hwk
  exact
    { advances := hk.advances.trans hadvances
      holds := ⟨v, (List.forall₂_cons.mp hl.roots).1, hl.isNumber hwk.toRegular hk.isNumber⟩
      runsOut := fun depth count e he => hk.runsOut _ count e (hl.runsOut 1 hsp he) }

/-- Where there is room for it, a number can be kept. -/
theorem WellFormed.exists_keepNumber {h : Heap} (hw : h.WellFormed)
    (hbase : h.spaces.base.WordAligned) (x : Numeral) (hroom : ∀ e, ¬ h.RunsOut 1 1 8 e) :
    ∃ slot k, h.keepNumber x = .ok (slot, k) ∧ h.KeptNumber x slot k := by
  obtain ⟨⟨slot, k⟩, hkeep, hkept⟩ := (hw.keepNumber hbase x).exists_ok hroom
  exact ⟨slot, k, hkeep, hkept⟩

/-- Through a whole run the slots hold the numbers that have been put there. -/
theorem Gathers.holds {h k : Heap} (hw : h.WellFormed) (hbase : h.spaces.base.WordAligned)
    {ps : List (RootSlot × Numeral)} (hk : h.Gathers ps k) :
    h.Advances k ∧ ∀ p ∈ ps, k.HoldsNumber p.1 p.2 := by
  -- No step changes what a slot holds, and only making a number adds one.
  induction hk with
  | start => exact ⟨hw.advances_self, fun _ hp => absurd hp List.not_mem_nil⟩
  | keep _ hkeep ih =>
    obtain ⟨hadvances, hholds⟩ := ih
    have hkept := (hadvances.wellFormed.keepNumber (hadvances.base ▸ hbase) _).of_ok hkeep
    refine ⟨hadvances.trans hkept.advances, List.forall_mem_cons.mpr ⟨hkept.holds, ?_⟩⟩
    exact fun p hp => hkept.advances.holds p.1 p.2 (hholds p hp)
  | alloc _ halloc ih =>
    obtain ⟨hadvances, hholds⟩ := ih
    have hstep := (hadvances.wellFormed.alloc_advances (hadvances.base ▸ hbase) _).of_ok halloc
    exact ⟨hadvances.trans hstep, fun p hp => hstep.holds p.1 p.2 (hholds p hp)⟩
  | collect _ hcollect ih =>
    obtain ⟨hadvances, hholds⟩ := ih
    have hstep := hadvances.wellFormed.collect_advances.of_ok hcollect
    exact ⟨hadvances.trans hstep, fun p hp => hstep.holds p.1 p.2 (hholds p hp)⟩

/-- Slots that hold numbers hold them exactly. -/
theorem Regular.exact_of_holds {h : Heap} (hr : h.Regular) {ps : List (RootSlot × Numeral)}
    (hps : ∀ p ∈ ps, h.HoldsNumber p.1 p.2) : h.Exact ps where
  integer := by
    intro s a hs
    obtain ⟨x, hx, hv⟩ := hps _ hs
    exact ⟨x, hx, hv.integer?_eq hr, hv.isImmediate_iff.trans Value.fitsInt_iff⟩
  float := by
    intro s bits hs
    obtain ⟨z, hz, hv⟩ := hps _ hs
    obtain ⟨r, rfl, hbits⟩ := hv.floatBits_eq hr
    exact ⟨r, hz, hbits⟩
  integers := by
    intro s t a b hs ht
    obtain ⟨x, hx, hv⟩ := hps _ hs
    obtain ⟨y, hy, hw⟩ := hps _ ht
    obtain ⟨same, hsame, -, hiff⟩ := hv.equal_eq hr hw nofun
    have hab : same = decide (a = b) := by
      rw [Bool.eq_iff_iff, hiff, decide_eq_true_iff, ← Int32.toInt_inj]
      exact Number.ofInt_inj
    exact ⟨x, y, hx, hy, hab ▸ hsame⟩
  mixed := by
    intro s t a bits hs ht
    obtain ⟨x, hx, hv⟩ := hps _ hs
    obtain ⟨z, hz, hw⟩ := hps _ ht
    obtain ⟨same, hsame, hsame', hiff⟩ := hv.equal_eq hr hw nofun
    refine ⟨x, z, same, hx, hz, hsame, hsame', hiff.trans ?_⟩
    rw [← Number.ofFloatBits_eq_ofInt_iff]
    exact eq_comm
  nan := by
    intro s t a bits hs ht hnan
    obtain ⟨x, hx, hv⟩ := hps _ hs
    obtain ⟨z, hz, hw⟩ := hps _ ht
    obtain ⟨same, hsame, -, hiff⟩ := hv.equal_eq hr hw nofun
    have hdiffer : (Numeral.integer a).number ≠ (Numeral.float bits).number := by
      rw [Numeral.number, Numeral.number, Number.ofFloatBits_eq_nan_iff.mpr hnan]
      nofun
    rw [Bool.eq_false_iff.mpr (mt hiff.mp hdiffer)] at hsame
    exact ⟨x, z, hx, hz, hsame⟩

/-- Numbers are exact whatever they are kept in, and stay so while others are made, memory is asked for and
garbage is collected: they are read as they have been made, and an integer and a float are equal if and only
if they are the same rational number. Another number can always be made unless memory, the stack or a counter
gives out, and collections go on until a counter overflows. As for a list, the base of the heap must be
aligned. -/
theorem WellFormed.numbers_exact {h : Heap} (hw : h.WellFormed) (hbase : h.spaces.base.WordAligned)
    {ps : List (RootSlot × Numeral)} {k : Heap} (hk : h.Gathers ps k) :
    k.Exact ps ∧
      (∀ x, (∃ slot l, k.keepNumber x = .ok (slot, l) ∧ l.Exact ((slot, x) :: ps)) ∨
        ∃ e, k.keepNumber x = .error e ∧ k.RunsOut 1 1 8 e) ∧
      ∀ n, (∃ l, k.collectTimes n = .ok l ∧ h.Gathers ps l ∧ l.Exact ps) ∨ k.StopsCollecting n := by
  have hexact {qs : List (RootSlot × Numeral)} {l : Heap} (hl : h.Gathers qs l) : l.Exact qs := by
    obtain ⟨hadvances, hholds⟩ := hl.holds hw hbase
    exact hadvances.wellFormed.toRegular.exact_of_holds hholds
  obtain ⟨hadvances, -⟩ := hk.holds hw hbase
  refine ⟨hexact hk, fun x => ?_, fun n => ?_⟩
  · rcases (hadvances.wellFormed.keepNumber (hadvances.base ▸ hbase) x).cases with
      ⟨⟨slot, l⟩, hkeep, -⟩ | hfails
    · exact .inl ⟨slot, l, hkeep, hexact (hk.keep hkeep)⟩
    · exact .inr hfails
  · refine (collectTimes_induction (P := h.Gathers ps) hk (fun l hl => ?_) n).imp_left ?_
    · have hwl := (hl.holds hw hbase).1.wellFormed
      exact (hwl.collect_advances.with_eq).mono (fun _ hm => hl.collect hm.2) fun f hf => hf
    · rintro ⟨l, hcollect, hl⟩
      exact ⟨l, hcollect, hl, hexact hl⟩

/-- The first integer that does not fit, one that fits but needs more than 24 bits, and the first one again
as a float. -/
theorem numbers_looped : looped.WellFormed ∧ looped.spaces.base.WordAligned ∧
    ∃ s t u k x y z, looped.Gathers
      [(u, .float 0x4E000000), (t, .integer 0x1000001), (s, .integer 0x20000000)] k ∧
      k.root s = .ok x ∧ k.root t = .ok y ∧ k.root u = .ok z ∧ x.isImmediate = false ∧
      k.memory.integer? x = .ok (some 0x20000000) ∧ k.memory.equal x y = .ok false ∧
      k.memory.equal x z = .ok true ∧ k.memory.equal z x = .ok true := by
  have hbase : looped.spaces.base.WordAligned := by decide
  refine ⟨wellFormed_looped, hbase, ?_⟩
  obtain ⟨s, h₁, hs, hfirst⟩ := wellFormed_looped.exists_keepNumber hbase (.integer 0x20000000)
    (runsOut_looped (by decide) (by decide) (by decide))
  have hbase₁ := hfirst.advances.base ▸ hbase
  obtain ⟨t, h₂, ht, hsecond⟩ := hfirst.advances.wellFormed.exists_keepNumber hbase₁
    (.integer 0x1000001) fun e he =>
      runsOut_looped (by decide) (by decide) (by decide) e (hfirst.runsOut _ _ e he)
  obtain ⟨u, k, hu, -⟩ := hsecond.advances.wellFormed.exists_keepNumber
    (hsecond.advances.base ▸ hbase₁) (.float 0x4E000000) fun e he =>
      runsOut_looped (by decide) (by decide) (by decide) e
        (hfirst.runsOut _ _ e (hsecond.runsOut _ _ e he))
  have hrun := ((Gathers.start.keep hs).keep ht).keep hu
  obtain ⟨hexact, -, -⟩ := WellFormed.numbers_exact wellFormed_looped hbase hrun
  obtain ⟨x, hx, hinteger, himmediate⟩ := hexact.integer s 0x20000000 (by simp)
  obtain ⟨_, y, hx', hy, hdiffer⟩ := hexact.integers s t 0x20000000 0x1000001 (by simp) (by simp)
  obtain ⟨_, z, same, hx'', hz, hsame, hsame', hiff⟩ :=
    hexact.mixed s u 0x20000000 0x4E000000 (by simp) (by simp)
  obtain rfl := Except.ok.inj (hx.symm.trans hx')
  obtain rfl := Except.ok.inj (hx.symm.trans hx'')
  obtain rfl : same = true := hiff.mpr (Number.ofFloatBits_eq_ofInt_iff.mp (by decide))
  refine ⟨s, t, u, k, x, y, z, hrun, hx, hy, hz, ?_, hinteger, hdiffer, hsame, hsame'⟩
  rw [Bool.eq_false_iff, Ne, himmediate]
  decide

end Heap

end CopyingHeap
