import CopyingHeap.Proofs.Construct.Lasting
import CopyingHeap.Proofs.Program.Invariant

/-!
What the operations of a program keep, when their arguments are immediates, null, symbols and objects.
-/

namespace CopyingHeap

theorem Value.eq_object_of_toReference {v : Value} {r : Reference} (hv : v.toReference = .ok r) :
    v = .object r := by
  cases v with
  | object s =>
    injection hv with hv
    exact hv ▸ rfl
  | _ =>
    obtain ⟨w, -, hw⟩ := bind_eq_ok_iff.mp hv
    nomatch hw

namespace Heap

namespace Lasting

variable {P : List Reference → Heap → Prop} (hP : Lasting P) {h : Heap}

include hP

/-- Every operation but a raw allocation, which makes no object in its block. -/
theorem perform (hs : h.Sound) (hp : P [] h) {op : Operation Value}
    (hop : ∀ a ∈ op.operands, h.Knows a) (hraw : ∀ size, op ≠ .alloc size) :
    Ends (h.perform .ok op) (fun x => P [] x.2) fun _ => True := by
  have ht := hs.twin_self
  have hpaired : ∀ a ∈ op.operands, h.Paired h.Stays a a := fun a ha => (hop a ha).paired
  have hlast {v w : Value} : w ∈ [v, w] := List.mem_cons_of_mem v (List.mem_singleton_self w)
  cases op with
  | push v =>
    have hv := hpaired v (List.mem_singleton_self v)
    exact (hP.pushRoot ht hp hv).bind fun _ hx => hx.holds
  | pop => exact (hP.popRoot ht hp).bind fun _ hx => hx.holds
  | setRoot slot v =>
    have hv := hpaired v (List.mem_singleton_self v)
    exact (hP.setRoot ht hp slot hv).bind fun _ hx => hx.holds
  | enterFrame => exact hp
  | leaveFrame mark haligned => exact (hP.leaveFrame ht hp haligned).bind fun _ hx => hx.holds
  | alloc size => exact absurd rfl (hraw size)
  | newArray vs =>
    apply Ends.bind_eq
    intro ws hws
    rw [mapM_ok] at hws
    cases hws
    exact (hP.newArray ht hp hpaired).bind fun _ hx => hx
  | newFilledArray size v =>
    have hv := hpaired v (List.mem_singleton_self v)
    exact (hP.newFilledArray ht hp size hv).bind fun _ hx => hx
  | copyArray v =>
    have hv := hpaired v (List.mem_singleton_self v)
    apply Ends.bind_eq
    rintro _ ⟨⟩
    apply Ends.bind_eq
    intro r hr
    obtain rfl := Value.eq_object_of_toReference hr
    exact (hP.copyArray ht hp hv).bind fun _ hx => hx
  | arraySet v i w =>
    have hv := hpaired v List.mem_cons_self
    have hw := hpaired w hlast
    apply Ends.bind_eq
    rintro _ ⟨⟩
    apply Ends.bind_eq
    intro r hr
    obtain rfl := Value.eq_object_of_toReference hr
    exact (hP.arraySet ht hp hv i hw).bind fun _ hx => hx
  | newString bs => exact (hP.newString ht hp bs).bind fun _ hx => hx
  | copyString v =>
    have hv := hpaired v (List.mem_singleton_self v)
    apply Ends.bind_eq
    rintro _ ⟨⟩
    apply Ends.bind_eq
    intro r hr
    obtain rfl := Value.eq_object_of_toReference hr
    exact (hP.copyString ht hp hv).bind fun _ hx => hx
  | newInteger n => exact (hP.newInteger ht hp n).bind fun _ hx => hx
  | newFloat bits =>
    exact (hP.newScalar (k := .float) ht hp (.inr (.inl rfl)) bits).bind fun _ hx => hx
  | newChar c =>
    exact (hP.newScalar (k := .char) ht hp (.inr (.inr rfl)) c.val).bind fun _ hx => hx
  | newListNode v w =>
    have hv := hpaired v List.mem_cons_self
    have hw := hpaired w hlast
    exact (hP.newListNode ht hp hv hw).bind fun _ hx => hx
  | newList vs =>
    apply Ends.bind_eq
    intro ws hws
    rw [mapM_ok] at hws
    cases hws
    exact (hP.newList ht hp hpaired).bind fun _ hx => hx
  | collect => exact (hP.collect hp hs).bind fun _ hx => hx

end Lasting

end Heap

end CopyingHeap
