import CopyingHeap.Heap.Construct
import CopyingHeap.Proofs.Outcome

/-!
What every operation keeps. A constructor does nothing to the spaces, the bump and the counters but
allocate, whatever words it is given; so a property of these that allocations and collections keep is
kept by all constructors.
-/

namespace CopyingHeap

namespace Heap

/-- A property of the heap that does not depend on its memory and its stack, and that collections and
allocations keep. -/
structure Upheld (P : Heap → Prop) : Prop where
  same : ∀ {h k : Heap}, P h → k.spaces = h.spaces → k.bump = h.bump → k.options = h.options →
    k.statistics = h.statistics → k.recent = h.recent → P k
  collect : ∀ {h : Heap}, P h → Ends h.collect P fun _ => True
  alloc : ∀ {h : Heap}, P h → ∀ size, Ends (h.alloc size) (fun x => P x.2) fun _ => True

namespace Upheld

variable {P : Heap → Prop} (hP : Upheld P) {k : Heap}

include hP

theorem changeMemory (hk : P k) (f : Memory → Except Fault Memory) :
    Ends (k.changeMemory f) P fun _ => True := by
  apply Ends.bind_forall
  intro m
  exact hP.same hk rfl rfl rfl rfl rfl

theorem pushRoot (hk : P k) (v : Value) : Ends (k.pushRoot v) (fun x => P x.2) fun _ => True := by
  apply Ends.bind_forall
  intro w
  apply Ends.bind_forall
  rintro (cause | ⟨slot, stack, m⟩)
  · trivial
  · exact hP.same hk rfl rfl rfl rfl rfl

theorem popRoot (hk : P k) : Ends k.popRoot (fun x => P x.2) fun _ => True := by
  apply Ends.bind_forall
  intro x
  exact hP.same hk rfl rfl rfl rfl rfl

theorem setRoot (hk : P k) (slot : RootSlot) (v : Value) :
    Ends (k.setRoot slot v) P fun _ => True :=
  Ends.bind_forall fun _ => hP.changeMemory hk _

theorem leaveFrame (hk : P k) (mark : StackMark) : Ends (k.leaveFrame mark) P fun _ => True := by
  apply Ends.bind_forall
  intro stack
  exact hP.same hk rfl rfl rfl rfl rfl

theorem pushRoots (hk : P k) (vs : List Value) :
    Ends (k.pushRoots vs) (fun x => P x.2) fun _ => True := by
  induction vs generalizing k with
  | nil => exact hk
  | cons v vs ih =>
    apply (hP.pushRoot hk v).bind
    intro x hx
    apply (ih hx).bind
    intro y hy
    exact hy

theorem setElements (hk : P k) (array : Reference) (slots : List RootSlot) (i : Nat) :
    Ends (k.setElements array i slots) P fun _ => True := by
  induction slots generalizing k i with
  | nil => exact hk
  | cons slot slots ih =>
    apply Ends.bind_forall
    intro v
    apply (hP.changeMemory hk _).bind
    intro l hl
    exact ih hl (i + 1)

theorem allocArray (hk : P k) (size : Nat) :
    Ends (k.allocArray size) (fun x => P x.2) fun _ => True := by
  apply Ends.bind_forall
  intro bytes
  apply (hP.alloc hk bytes).bind
  intro x hx
  apply (hP.changeMemory hx _).bind
  intro l hl
  apply Ends.bind_forall
  intro lengthAt
  apply (hP.changeMemory hl _).bind
  intro t ht
  apply Ends.bind_forall
  intro r
  exact ht

theorem newArray (hk : P k) (vs : List Value) :
    Ends (k.newArray vs) (fun x => P x.2) fun _ => True := by
  apply (hP.pushRoots hk vs).bind
  intro x hx
  apply (hP.allocArray hx vs.length).bind
  intro y hy
  apply (hP.setElements hy y.1 x.1 0).bind
  intro l hl
  apply (hP.leaveFrame hl _).bind
  intro t ht
  exact ht

theorem newFilledArray (hk : P k) (size : Nat) (v : Value) :
    Ends (k.newFilledArray size v) (fun x => P x.2) fun _ => True := by
  apply (hP.pushRoot hk v).bind
  intro x hx
  apply (hP.allocArray hx size).bind
  intro y hy
  apply Ends.bind_forall
  intro v
  apply (hP.leaveFrame hy _).bind
  intro l hl
  apply Ends.bind_forall
  intro first
  apply Ends.bind_forall
  intro w
  apply (hP.changeMemory hl _).bind
  intro t ht
  exact ht

theorem copyArray (hk : P k) (array : Reference) :
    Ends (k.copyArray array) (fun x => P x.2) fun _ => True := by
  apply Ends.bind_forall
  intro size
  apply (hP.pushRoot hk (.object array)).bind
  intro x hx
  apply (hP.allocArray hx size).bind
  intro y hy
  apply Ends.bind_forall
  intro v
  split
  · trivial
  · apply (hP.leaveFrame hy _).bind
    intro l hl
    apply Ends.bind_forall
    intro length
    split
    · apply Ends.bind_forall
      intro first
      apply Ends.bind_forall
      intro last
      apply (hP.changeMemory hl _).bind
      intro t ht
      exact ht
    · trivial

/-- An object that is written into its block at once. -/
theorem allocWith (hk : P k) (bytes : Nat) (write : Address → Memory → Except Fault Memory) :
    Ends (k.alloc bytes >>= fun x => x.2.changeMemory (write x.1) >>= fun l =>
      Reference.ofAddress x.1 >>= fun r => .ok (r, l)) (fun x => P x.2) fun _ => True := by
  apply (hP.alloc hk bytes).bind
  intro x hx
  apply (hP.changeMemory hx _).bind
  intro l hl
  apply Ends.bind_forall
  intro r
  exact hl

theorem newString (hk : P k) (bs : List UInt8) :
    Ends (k.newString bs) (fun x => P x.2) fun _ => True := by
  apply Ends.bind_forall
  intro bytes
  exact hP.allocWith hk bytes fun a => (·.writeText a .string bs)

theorem copyString (hk : P k) (text : Reference) :
    Ends (k.copyString text) (fun x => P x.2) fun _ => True := by
  apply Ends.bind_forall
  intro length
  apply (hP.pushRoot hk (.object text)).bind
  intro x hx
  apply Ends.bind_forall
  intro size
  apply (hP.alloc hx size).bind
  intro y hy
  apply Ends.bind_forall
  intro v
  split
  · trivial
  · apply (hP.leaveFrame hy _).bind
    intro l hl
    apply (hP.changeMemory hl _).bind
    intro s hs
    apply Ends.bind_forall
    intro lengthAt
    apply (hP.changeMemory hs _).bind
    intro t ht
    apply Ends.bind_forall
    intro first
    apply Ends.bind_forall
    intro last
    apply (hP.changeMemory ht _).bind
    intro u hu
    apply Ends.bind_forall
    intro r
    exact hu

theorem newScalar (hk : P k) (kind : Kind) (payload : Word) :
    Ends (k.newScalar kind payload) (fun x => P x.2) fun _ => True := by
  apply Ends.bind_forall
  intro bytes
  exact hP.allocWith hk bytes fun a => (·.writeScalar a kind payload)

theorem newInteger (hk : P k) (n : Int32) :
    Ends (k.newInteger n) (fun x => P x.2) fun _ => True := by
  unfold Heap.newInteger
  split
  · exact hk
  · apply (hP.newScalar hk .integer _).bind
    intro x hx
    exact hx

theorem newListNode (hk : P k) (head tail : Value) :
    Ends (k.newListNode head tail) (fun x => P x.2) fun _ => True := by
  apply (hP.pushRoot hk head).bind
  intro x hx
  apply (hP.pushRoot hx tail).bind
  intro y hy
  apply Ends.bind_forall
  intro bytes
  apply (hP.alloc hy bytes).bind
  intro z hz
  apply Ends.bind_forall
  intro head
  apply Ends.bind_forall
  intro tail
  apply (hP.leaveFrame hz _).bind
  intro l hl
  apply (hP.changeMemory hl _).bind
  intro s hs
  apply Ends.bind_forall
  intro r
  exact hs

theorem prepend (hk : P k) (slots : List RootSlot) (list : Value) :
    Ends (k.prepend list slots) (fun x => P x.2) fun _ => True := by
  induction slots generalizing k list with
  | nil => exact hk
  | cons slot slots ih =>
    apply Ends.bind_forall
    intro head
    apply (hP.newListNode hk head list).bind
    intro x hx
    apply (hP.setRoot hx slot _).bind
    intro l hl
    exact ih hl _

theorem newList (hk : P k) (vs : List Value) :
    Ends (k.newList vs) (fun x => P x.2) fun _ => True := by
  apply (hP.pushRoots hk vs).bind
  intro x hx
  apply (hP.prepend hx x.1.reverse .null).bind
  intro y hy
  apply (hP.leaveFrame hy _).bind
  intro l hl
  exact hl

end Upheld

end Heap

end CopyingHeap
