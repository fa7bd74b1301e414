import CopyingHeap.Proofs.Collection.Preservation
import CopyingHeap.Proofs.Construct.Arrays
import CopyingHeap.Proofs.Construct.Lists
import CopyingHeap.Proofs.Construct.Texts
import CopyingHeap.Proofs.Heap.Build

/-!
The operations of a program. Their arguments are read when the operation begins; slots and marks are
addresses, since the stack never moves. On twins every operation ends alike and leaves twins.
-/

namespace CopyingHeap

variable {α : Type}

/-- The object or symbol that the value refers to. -/
def Value.toReference (v : Value) : Except Fault Reference :=
  match v with
  | .object r => .ok r
  | _ => v.encode >>= fun w => .error (.notReference w)

/-- An operation on a heap, with arguments of type `α`. Marks are taken on the stack, so they are
aligned. -/
inductive Operation (α : Type) where
  | push (v : α)
  | pop
  | setRoot (slot : RootSlot) (v : α)
  | enterFrame
  | leaveFrame (mark : StackMark) (aligned : mark.address.WordAligned)
  | alloc (size : Nat)
  | newArray (elements : List α)
  | newFilledArray (size : Nat) (v : α)
  | copyArray (array : α)
  | arraySet (array : α) (i : Nat) (v : α)
  | newString (bs : List UInt8)
  | copyString (text : α)
  | newInteger (n : Int32)
  | newFloat (bits : Word)
  | newChar (c : Char)
  | newListNode (head tail : α)
  | newList (values : List α)
  | collect

namespace Operation

/-- The arguments that are values. -/
def operands : Operation α → List α
  | push v | setRoot _ v | newFilledArray _ v | copyArray v | copyString v => [v]
  | arraySet v _ w | newListNode v w => [v, w]
  | newArray vs | newList vs => vs
  | _ => []

/-- Does the operation allocate or collect, so that objects may move? -/
def moves : Operation α → Bool
  | push _ | pop | setRoot _ _ | enterFrame | leaveFrame _ _ | arraySet _ _ _ => false
  | newInteger n => !decide (Value.FitsInt n)
  | newList vs => !vs.isEmpty
  | _ => true

/-- The second operation is the first one on the values that are read for its arguments. -/
structure Reads (read : α → Except Fault Value) (op : Operation α) (op' : Operation Value) :
    Prop where
  operands : List.Forall₂ (fun a v => read a = .ok v) op.operands op'.operands
  raw : ∀ size, op' = .alloc size → op = .alloc size

/-- What holds of all that is read for the arguments holds of the values that stand for them. -/
theorem Reads.forall {read : α → Except Fault Value} {op : Operation α} {op' : Operation Value}
    (hr : op.Reads read op') {P : Value → Prop} (hP : ∀ a ∈ op.operands, ∀ v, read a = .ok v → P v) :
    ∀ v ∈ op'.operands, P v := by
  have hboth := (List.forall₂_and_left _ _).mpr ⟨hP, hr.operands⟩
  generalize op.operands = as, op'.operands = vs at hboth
  induction hboth with
  | nil => exact fun _ hv => nomatch hv
  | cons hv _ ih => exact List.forall_mem_cons.mpr ⟨hv.1 _ hv.2, ih⟩

end Operation

theorem mapM_ok (as : List α) : as.mapM (m := Except Fault) .ok = .ok as := by
  induction as with
  | nil => rfl
  | cons a as ih =>
    rw [List.mapM_cons, ok_bind, ih]
    rfl

theorem forall₂_of_mapM {β : Type} {f : α → Except Fault β} {as : List α} {bs : List β}
    (h : as.mapM f = .ok bs) : List.Forall₂ (fun a b => f a = .ok b) as bs := by
  induction as generalizing bs with
  | nil =>
    cases h
    exact .nil
  | cons a as ih =>
    rw [List.mapM_cons] at h
    obtain ⟨b, hb, h⟩ := bind_eq_ok_iff.mp h
    obtain ⟨cs, hcs, h⟩ := bind_eq_ok_iff.mp h
    cases h
    exact .cons hb (ih hcs)

namespace Heap

def silent (h : Heap) : Option Value × Heap :=
  (none, h)

def returned (x : Reference × Heap) : Option Value × Heap :=
  (some (.object x.1), x.2)

/-- Reads the arguments and performs the operation. Some operations return a value; the block that
`alloc` hands out is not one. -/
def perform (h : Heap) (read : α → Except Fault Value) :
    Operation α → Except Fault (Option Value × Heap)
  | .push v => do return silent (← h.pushRoot (← read v)).2
  | .pop => do
    let (v, h) ← h.popRoot
    return (some v, h)
  | .setRoot slot v => do return silent (← h.setRoot slot (← read v))
  | .enterFrame => .ok (silent h)
  | .leaveFrame mark _ => do return silent (← h.leaveFrame mark)
  | .alloc size => do return silent (← h.alloc size).2
  | .newArray vs => do return returned (← h.newArray (← vs.mapM read))
  | .newFilledArray size v => do return returned (← h.newFilledArray size (← read v))
  | .copyArray v => do return returned (← h.copyArray (← (← read v).toReference))
  | .arraySet v i w => do
    let array ← (← read v).toReference
    let w ← read w
    return silent (← h.changeMemory (·.arraySet array i w))
  | .newString bs => do return returned (← h.newString bs)
  | .copyString v => do return returned (← h.copyString (← (← read v).toReference))
  | .newInteger n => do
    let (v, h) ← h.newInteger n
    return (some v, h)
  | .newFloat bits => do return returned (← h.newFloat bits)
  | .newChar c => do return returned (← h.newChar c)
  | .newListNode v w => do return returned (← h.newListNode (← read v) (← read w))
  | .newList vs => do
    let (v, h) ← h.newList (← vs.mapM read)
    return (some v, h)
  | .collect => do return silent (← h.collect)

section Perform

variable {h k : Heap} {read : α → Except Fault Value}

theorem perform_alloc {a : Address} {size : Nat} (hk : h.alloc size = .ok (a, k)) :
    h.perform read (.alloc size) = .ok (none, k) := by
  change (h.alloc size >>= fun x => .ok (silent x.2)) = _
  rw [hk]
  rfl

/-- An operation that succeeds does so on the values that it reads. -/
theorem exists_perform {x : Option Value × Heap} {op : Operation α}
    (hk : h.perform read op = .ok x) :
    ∃ op' : Operation Value, op.Reads read op' ∧ h.perform .ok op' = .ok x := by
  cases op with
  | push a =>
    obtain ⟨v, hv, hk⟩ := bind_eq_ok_iff.mp hk
    exact ⟨.push v, ⟨.cons hv .nil, nofun⟩, hk⟩
  | pop => exact ⟨.pop, ⟨.nil, nofun⟩, hk⟩
  | setRoot slot a =>
    obtain ⟨v, hv, hk⟩ := bind_eq_ok_iff.mp hk
    exact ⟨.setRoot slot v, ⟨.cons hv .nil, nofun⟩, hk⟩
  | enterFrame => exact ⟨.enterFrame, ⟨.nil, nofun⟩, hk⟩
  | leaveFrame mark haligned => exact ⟨.leaveFrame mark haligned, ⟨.nil, nofun⟩, hk⟩
  | alloc size =>
    refine ⟨.alloc size, ⟨.nil, fun n hn => ?_⟩, hk⟩
    injection hn with hn
    rw [hn]
  | newArray as =>
    obtain ⟨vs, hvs, hk⟩ := bind_eq_ok_iff.mp hk
    refine ⟨.newArray vs, ⟨forall₂_of_mapM hvs, nofun⟩, ?_⟩
    rw [perform, mapM_ok]
    exact hk
  | newFilledArray size a =>
    obtain ⟨v, hv, hk⟩ := bind_eq_ok_iff.mp hk
    exact ⟨.newFilledArray size v, ⟨.cons hv .nil, nofun⟩, hk⟩
  | copyArray a =>
    obtain ⟨v, hv, hk⟩ := bind_eq_ok_iff.mp hk
    exact ⟨.copyArray v, ⟨.cons hv .nil, nofun⟩, hk⟩
  | arraySet a i b =>
    obtain ⟨v, hv, hk⟩ := bind_eq_ok_iff.mp hk
    obtain ⟨r, hr, hk⟩ := bind_eq_ok_iff.mp hk
    obtain ⟨w, hw, hk⟩ := bind_eq_ok_iff.mp hk
    refine ⟨.arraySet v i w, ⟨.cons hv (.cons hw .nil), nofun⟩, ?_⟩
    rw [perform, ok_bind, hr]
    exact hk
  | newString bs => exact ⟨.newString bs, ⟨.nil, nofun⟩, hk⟩
  | copyString a =>
    obtain ⟨v, hv, hk⟩ := bind_eq_ok_iff.mp hk
    exact ⟨.copyString v, ⟨.cons hv .nil, nofun⟩, hk⟩
  | newInteger n => exact ⟨.newInteger n, ⟨.nil, nofun⟩, hk⟩
  | newFloat bits => exact ⟨.newFloat bits, ⟨.nil, nofun⟩, hk⟩
  | newChar c => exact ⟨.newChar c, ⟨.nil, nofun⟩, hk⟩
  | newListNode a b =>
    obtain ⟨v, hv, hk⟩ := bind_eq_ok_iff.mp hk
    obtain ⟨w, hw, hk⟩ := bind_eq_ok_iff.mp hk
    exact ⟨.newListNode v w, ⟨.cons hv (.cons hw .nil), nofun⟩, hk⟩
  | newList as =>
    obtain ⟨vs, hvs, hk⟩ := bind_eq_ok_iff.mp hk
    refine ⟨.newList vs, ⟨forall₂_of_mapM hvs, nofun⟩, ?_⟩
    rw [perform, mapM_ok]
    exact hk
  | collect => exact ⟨.collect, ⟨.nil, nofun⟩, hk⟩

end Perform

/-- What an operation makes of `h` and of its twin: twins with corresponding results. If nothing has
moved, the objects correspond as before. -/
def Answers (h : Heap) (p : Reference → Reference → Prop) (moves : Bool)
    (x x' : Option Value × Heap) : Prop :=
  h.Keeps x.2 ∧ ∃ q, Twin q x.2 x'.2 ∧ Option.Rel (x.2.Paired q) x.1 x'.1 ∧
    (moves = false → ∀ r s, p r s → q r s)

section Answers

variable {h k k' : Heap} {p : Reference → Reference → Prop} {moves : Bool}

theorem Follow.silent (hf : h.Follow p k k') : h.Answers p moves (silent k) (silent k') :=
  ⟨hf.2, p, hf.1, .none, fun _ _ _ hp => hp⟩

theorem Follow.answers {v v' : Value} (hf : h.Follow p k k') (hv : h.Paired p v v') :
    h.Answers p moves (some v, k) (some v', k') :=
  ⟨hf.2, p, hf.1, .some (hv.keep hf.2), fun _ _ _ hp => hp⟩

theorem MadeValue.answers {x x' : Value × Heap} (hm : h.MadeValue x x') :
    h.Answers p true (some x.1, x.2) (some x'.1, x'.2) := by
  obtain ⟨⟨q, hq, hv⟩, hk⟩ := hm
  exact ⟨hk, q, hq, .some hv, fun hno => (nomatch hno)⟩

theorem Made.returned {x x' : Reference × Heap} (hm : h.Made x x') :
    h.Answers p true (returned x) (returned x') := by
  obtain ⟨⟨q, hq, hp⟩, hk⟩ := hm
  exact ⟨hk, q, hq, .some (.inl ⟨x.1, x'.1, hp, rfl, rfl⟩), fun hno => (nomatch hno)⟩

end Answers

theorem Paired.toReference {h : Heap} {p : Reference → Reference → Prop} {v v' : Value}
    (hv : h.Paired p v v') :
    Alike (fun r s => h.Paired p (.object r) (.object s)) v.toReference v'.toReference := by
  rcases hv with ⟨r, s, hp, rfl, rfl⟩ | ⟨hv, rfl⟩
  · exact .inl ⟨r, s, hp, rfl, rfl⟩
  · cases v' with
    | object r => exact .inr ⟨hv, rfl⟩
    | _ =>
      refine (Alike.of_eq rfl).bind fun _ w hw => ?_
      exact hw ▸ alike_error rfl

namespace Twin

variable {p : Reference → Reference → Prop} {h h' : Heap} (ht : Twin p h h')

include ht

theorem newInteger (n : Int32) : Alike (h.Answers p (!decide (Value.FitsInt n)))
    (h.newInteger n >>= fun x => .ok (some x.1, x.2))
    (h'.newInteger n >>= fun x => .ok (some x.1, x.2)) := by
  unfold Heap.newInteger Value.ofInt?
  by_cases hfits : Value.FitsInt n
  · rw [if_pos hfits]
    exact Follow.answers ⟨ht, Keeps.refl h⟩ (.inr ⟨fun r hr => (nomatch hr), rfl⟩)
  · rw [if_neg hfits, decide_eq_false hfits]
    simp only [bind_assoc]
    exact (ht.newScalar (k := .integer) (.inl rfl) n.toUInt32).bind fun _ _ hm => hm.returned

/-- Operations with corresponding arguments end alike on twins, and leave twins. -/
theorem perform {read read' : α → Except Fault Value} (op : Operation α)
    (hread : ∀ a ∈ op.operands, Alike (h.Paired p) (read a) (read' a)) :
    Alike (h.Answers p op.moves) (h.perform read op) (h'.perform read' op) := by
  cases op with
  | push v =>
    refine (hread v (List.mem_singleton_self v)).bind fun v v' hv => ?_
    refine (ht.pushRoot hv).bind ?_
    rintro _ _ ⟨slot, k, k', rfl, rfl, hf⟩
    exact hf.silent
  | pop => exact ht.popRoot.bind fun x x' ⟨hv, hf⟩ => hf.answers hv
  | setRoot slot v =>
    refine (hread v (List.mem_singleton_self v)).bind fun v v' hv => ?_
    exact (ht.setRoot slot hv).bind fun _ _ hf => hf.silent
  | enterFrame => exact Follow.silent ⟨ht, Keeps.refl h⟩
  | leaveFrame mark haligned => exact (ht.leaveFrame haligned).bind fun _ _ hf => hf.1.silent
  | alloc size =>
    refine (ht.alloc size).bind ?_
    rintro _ _ ⟨q, r, s, n, k, k', rfl, rfl, hx⟩
    exact ⟨hx.before.2, q, hx.twin, .none, fun hno => (nomatch hno)⟩
  | newArray vs =>
    refine (Alike.mapM hread).bind fun vs vs' hvs => ?_
    exact (ht.newArray hvs).bind fun _ _ hm => hm.returned
  | newFilledArray size v =>
    refine (hread v (List.mem_singleton_self v)).bind fun v v' hv => ?_
    exact (ht.newFilledArray size hv).bind fun _ _ hm => hm.returned
  | copyArray v =>
    refine (hread v (List.mem_singleton_self v)).bind fun v v' hv => ?_
    refine hv.toReference.bind fun r s hr => ?_
    exact (ht.copyArray hr).bind fun _ _ hm => hm.returned
  | arraySet v i w =>
    have hw := hread w (List.mem_cons_of_mem v (List.mem_singleton_self w))
    refine (hread v List.mem_cons_self).bind fun _ _ hv => ?_
    refine hv.toReference.bind fun r s hr => ?_
    refine hw.bind fun _ _ hw => ?_
    exact (ht.arraySet hr i hw).bind fun _ _ hf => hf.silent
  | newString bs => exact (ht.newString bs).bind fun _ _ hm => hm.returned
  | copyString v =>
    refine (hread v (List.mem_singleton_self v)).bind fun v v' hv => ?_
    refine hv.toReference.bind fun r s hr => ?_
    exact (ht.copyString hr).bind fun _ _ hm => hm.returned
  | newInteger n => exact ht.newInteger n
  | newFloat bits =>
    exact (ht.newScalar (k := .float) (.inr (.inl rfl)) bits).bind fun _ _ hm => hm.returned
  | newChar c =>
    exact (ht.newScalar (k := .char) (.inr (.inr rfl)) c.val).bind fun _ _ hm => hm.returned
  | newListNode v w =>
    have hw := hread w (List.mem_cons_of_mem v (List.mem_singleton_self w))
    refine (hread v List.mem_cons_self).bind fun _ _ hv => ?_
    refine hw.bind fun _ _ hw => ?_
    exact (ht.newListNode hv hw).bind fun _ _ hm => hm.returned
  | newList vs =>
    cases vs with
    | nil => exact ht.newList_nil.bind fun x x' ⟨hx, hx', hf⟩ =>
        hf.answers (hx ▸ hx' ▸ paired_null h p)
    | cons v vs =>
      refine (Alike.mapM hread).bind fun vs vs' hvs => ?_
      exact (ht.newList hvs).bind fun _ _ hm => hm.answers
  | collect =>
    -- Each of the heaps is a twin of what its own collection leaves.
    refine Alike.bind (.of_ends ht.left.collect ht.right.collect ?_) fun k k' hk => hk
    rintro k k' ⟨⟨q, hq⟩, hkeep⟩ ⟨⟨q', hq'⟩, -⟩
    exact ⟨hkeep, _, (hq.symm.trans ht).trans hq', .none, fun hno => (nomatch hno)⟩

end Twin

/-- An operation on values that the program may know leaves a sound heap. -/
theorem Sound.perform {h : Heap} (hs : h.Sound) {op : Operation Value}
    (hop : ∀ a ∈ op.operands, h.Knows a) :
    Ends (h.perform .ok op) (fun x => x.2.Sound ∧ h.Keeps x.2) fun _ => True := by
  have halike : Alike (h.Answers h.Stays op.moves) (h.perform .ok op) (h.perform .ok op) :=
    hs.twin_self.perform op fun a ha => (hop a ha).paired
  exact halike.ends.imp fun x ⟨hkeep, _, htwin, _⟩ => ⟨htwin.left, hkeep⟩

end Heap

end CopyingHeap
