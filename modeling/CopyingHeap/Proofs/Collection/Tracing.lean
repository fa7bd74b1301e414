import CopyingHeap.Collection
import CopyingHeap.Proofs.StartBits

/-!
What a collection keeps, whatever lies in memory. Beside its calls of the tracer, tracing only writes
single words. So a property that the tracer keeps, and that no such write breaks, holds after the roots
have been traced, and after the copies have.
-/

namespace CopyingHeap

namespace Tracer

variable {σ : Type} {trace : Tracer σ} {P : σ → Memory → Prop} {s : σ} {m : Memory}

/-- The tracer keeps a property of its state and of the memory, wherever it is called, and stores into
the memory keep it too. -/
structure Keeps (trace : Tracer σ) (P : σ → Memory → Prop) : Prop where
  trace : ∀ s m r, P s m → Ends (trace s m r) (fun x => P x.2.1 x.2.2) fun _ => True
  store : ∀ {s m n a w}, m.store a w = .ok n → P s m → P s n

namespace Keeps

variable (ht : trace.Keeps P)

include ht

theorem traceSlot (hs : P s m) (slot : Address) :
    Ends (Tracer.traceSlot trace s m slot) (fun x => P x.1 x.2) fun _ => True := by
  apply Ends.bind_forall
  intro w
  split
  · exact hs
  · apply (ht.trace _ _ _ hs).bind
    intro x hx
    dsimp only
    split
    · exact hx
    · apply Ends.bind_eq
      intro n hn
      exact ht.store hn hx

theorem traceSlots (hs : P s m) (slot : Address) (count : Nat) :
    Ends (Tracer.traceSlots trace s m slot count) (fun x => P x.1 x.2) fun _ => True := by
  induction count generalizing s m slot with
  | zero => exact hs
  | succ count ih =>
    apply (ht.traceSlot hs slot).bind
    intro x hx
    exact ih hx _

theorem traceObject (hs : P s m) (r : Reference) :
    Ends (Tracer.traceObject trace s m r) (fun x => P x.2.1 x.2.2) fun _ => True := by
  apply Ends.bind_forall
  intro k
  split
  · apply Ends.bind_forall
    intro size
    apply Ends.bind_forall
    intro first
    apply Ends.bind_forall
    intro past
    apply (ht.traceSlots hs _ _).bind
    intro x hx
    apply Ends.bind_forall
    intro bytes
    apply Ends.bind_forall
    intro next
    exact hx
  · apply Ends.bind_forall
    intro head
    apply (ht.traceSlot hs _).bind
    intro x hx
    apply Ends.bind_forall
    intro tail
    apply (ht.traceSlot hx _).bind
    intro y hy
    apply Ends.bind_forall
    intro bytes
    apply Ends.bind_forall
    intro next
    exact hy
  · apply Ends.bind_forall
    intro bytes
    apply Ends.bind_forall
    intro next
    exact hs

end Keeps

end Tracer

namespace Evacuation

variable {source : Space} {start : Address} {P : Evacuation → Memory → Prop} {e : Evacuation}
  {m : Memory}

/-- Copying whole objects is all that the tracer of a collection does to its state. -/
theorem keeps_of_copyWhole
    (hcopy : ∀ e m r k bytes, P e m →
      Ends (copyWhole e m r k bytes) (fun x => P x.2.1 x.2.2) fun _ => True)
    (hstore : ∀ {e m n a w}, m.store a w = .ok n → P e m → P e n) : (trace source).Keeps P where
  store := hstore
  trace := by
    intro e m r he
    unfold trace
    split
    · apply Ends.bind_forall
      intro inside
      split
      · apply Ends.bind_forall
        intro target
        split
        · exact he
        · apply Ends.bind_forall
          intro k
          split
          · exact he
          · apply Ends.bind_forall
            intro bytes
            exact hcopy _ _ _ _ _ he
      · exact he
    · exact he

variable (ht : (trace source).Keeps P)

include ht

theorem traceRoot_keeps (he : P e m) (slot : Address) :
    Ends (traceRoot source start e m slot) (fun x => P x.2.1 x.2.2) fun _ => True := by
  apply Ends.bind_forall
  intro w
  apply Ends.bind_forall
  intro root
  split
  · exact he
  · apply (ht.trace e m _ he).bind
    intro x hx
    apply Ends.bind_eq
    intro n hn
    exact ht.store hn hx

theorem traceRoots_keeps (he : P e m) (roots : Nat) (slot : Address) (count : Nat) :
    Ends (traceRoots source start roots e m slot count) (fun x => P x.2.1 x.2.2) fun _ => True := by
  induction count generalizing roots e m slot with
  | zero => exact he
  | succ count ih =>
    apply (traceRoot_keeps ht he slot).bind
    intro x hx
    exact ih hx _ _

theorem close_keeps (he : P e m) (position : Address) :
    Ends (close source e m position) (fun x => P x.1 x.2) fun _ => True := by
  -- The induction is on the addresses above the scan pointer.
  induction hk : 0x100000000 - position.toNat using Nat.strongRecOn generalizing e m position with
  | _ k ih =>
    rw [close]
    split
    · apply Ends.bind_forall
      intro copy
      apply (ht.traceObject he copy).bind
      rintro ⟨next, e', m'⟩ he'
      dsimp only
      split
      · rename_i hlt
        have hnext := next.toNat_lt
        rw [Address.lt_iff] at hlt
        exact ih _ (by omega) he' _ rfl
      · trivial
    · split
      · exact he
      · trivial

end Evacuation

/-- The space stops being a source, and the memory and the start bits keep their sizes. -/
theorem Space.release_spec (s : Space) (m : Memory) (bits : StartBits) (zero : Bool) :
    Ends (s.release m bits zero) (fun x => x.1 = { s with isFrom := false } ∧
      x.2.1.words.size = m.words.size ∧ x.2.1.maxPages = m.maxPages ∧
      x.2.2.cells.size = bits.cells.size) fun _ => True := by
  apply Ends.bind_forall
  intro stop
  apply (StartBits.size_clearRange bits s.start stop).bind
  intro bits' hbits
  split
  · apply Ends.bind_eq
    intro n hn
    obtain ⟨-, -, -, rfl⟩ := Memory.fill_eq_ok_iff.mp hn
    exact ⟨rfl, Memory.size_fillWords _ _ _ _, rfl, hbits⟩
  · exact ⟨rfl, rfl, rfl, hbits⟩

end CopyingHeap
