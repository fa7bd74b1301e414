import CopyingHeap.Fault

/-!
How an operation ends: with a value, of which one property holds, or with a fault, of which another
holds. Sequencing composes such statements, so that each step of an operation is described once.
-/

namespace CopyingHeap

variable {α β : Type}

@[simp] theorem ok_bind (a : α) (f : α → Except Fault β) : (Except.ok a >>= f) = f a :=
  rfl

@[simp] theorem error_bind (e : Fault) (f : α → Except Fault β) :
    (Except.error e >>= f) = Except.error e :=
  rfl

/-- The heap or the host is out of memory, or a counter has left its 64 bits. Whether a program meets
such a fault depends on where its objects lie and how often they move. -/
def Fault.Exhausted : Fault → Prop
  | .overflow | .outOfMemory (.heapExhausted _) | .outOfMemory (.growFailed _) => True
  | _ => False

/-- The operation returns a value with the one property, or stops at a fault with the other. -/
def Ends (x : Except Fault α) (holds : α → Prop) (fails : Fault → Prop) : Prop :=
  match x with
  | .ok a => holds a
  | .error f => fails f

/-- Both operations return values that `related` relates, or both stop at the same fault. -/
def InStep (related : α → β → Prop) (x : Except Fault α) (y : Except Fault β) : Prop :=
  match x, y with
  | .ok a, .ok b => related a b
  | .error f, .error g => f = g
  | _, _ => False

variable {x : Except Fault α} {P : α → Prop} {Q : β → Prop} {F G : Fault → Prop}

namespace Ends

theorem bind {f : α → Except Fault β} (hx : Ends x P F) (hf : ∀ a, P a → Ends (f a) Q F) :
    Ends (x >>= f) Q F := by
  cases x with
  | error e => exact hx
  | ok a => exact hf a hx

theorem of_forall (h : ∀ a, P a) : Ends x P fun _ => True := by
  cases x with
  | error e => trivial
  | ok a => exact h a

/-- A step of which nothing is known, followed by what holds of the value that it yields. -/
theorem bind_eq {f : α → Except Fault β} (hf : ∀ a, x = .ok a → Ends (f a) Q fun _ => True) :
    Ends (x >>= f) Q fun _ => True := by
  cases x with
  | error e => trivial
  | ok a => exact hf a rfl

theorem bind_forall {f : α → Except Fault β} (hf : ∀ a, Ends (f a) Q fun _ => True) :
    Ends (x >>= f) Q fun _ => True :=
  bind_eq fun a _ => hf a

theorem mono {P' : α → Prop} (h : Ends x P F) (hP : ∀ a, P a → P' a) (hF : ∀ f, F f → G f) :
    Ends x P' G := by
  cases x with
  | error e => exact hF e h
  | ok a => exact hP a h

theorem imp {P' : α → Prop} (h : Ends x P F) (hP : ∀ a, P a → P' a) : Ends x P' fun _ => True :=
  h.mono hP fun _ _ => trivial

theorem with_eq (h : Ends x P F) : Ends x (fun a => P a ∧ x = .ok a) F := by
  cases x with
  | error e => exact h
  | ok a => exact ⟨h, rfl⟩

theorem and (h : Ends x P F) {R : α → Prop} (hR : Ends x R G) :
    Ends x (fun a => P a ∧ R a) F := by
  cases x with
  | error e => exact h
  | ok a => exact ⟨h, hR⟩

theorem of_ok {a : α} (h : Ends x P F) (hx : x = .ok a) : P a := by
  subst hx
  exact h

theorem cases (h : Ends x P F) : (∃ a, x = .ok a ∧ P a) ∨ ∃ f, x = .error f ∧ F f := by
  cases x with
  | error e => exact .inr ⟨e, rfl, h⟩
  | ok a => exact .inl ⟨a, rfl, h⟩

theorem exists_ok (h : Ends x P F) (hF : ∀ f, ¬ F f) : ∃ a, x = .ok a ∧ P a := by
  cases x with
  | error e => exact absurd h (hF e)
  | ok a => exact ⟨a, rfl, h⟩

end Ends

namespace InStep

variable {γ δ : Type} {y : Except Fault β} {R : α → β → Prop} {S : γ → δ → Prop}

theorem bind {f : α → Except Fault γ} {g : β → Except Fault δ} (h : InStep R x y)
    (hf : ∀ a b, R a b → InStep S (f a) (g b)) : InStep S (x >>= f) (y >>= g) := by
  cases x with
  | error e =>
    cases y with
    | error e' => exact h
    | ok b => exact h.elim
  | ok a =>
    cases y with
    | error e' => exact h.elim
    | ok b => exact hf a b h

/-- A step that both operations have in common. -/
theorem bind_same {f : α → Except Fault γ} {g : α → Except Fault δ}
    (hf : ∀ a, x = .ok a → InStep S (f a) (g a)) : InStep S (x >>= f) (x >>= g) := by
  cases x with
  | error e => exact rfl
  | ok a => exact hf a rfl

theorem mono {T : α → β → Prop} (h : InStep R x y) (hR : ∀ a b, R a b → T a b) : InStep T x y := by
  cases x with
  | error e =>
    cases y with
    | error e' => exact h
    | ok b => exact h.elim
  | ok a =>
    cases y with
    | error e' => exact h.elim
    | ok b => exact hR a b h

/-- How one operation ends, from how the other does. -/
theorem ends {Q : δ → Prop} {P : γ → Prop} {f : α → Except Fault γ} {g : β → Except Fault δ}
    (h : InStep R x y) (hy : Ends (y >>= g) Q G)
    (hf : ∀ a b, R a b → Ends (g b) Q G → Ends (f a) P F) (hG : ∀ e, G e → F e) :
    Ends (x >>= f) P F := by
  cases x with
  | error e =>
    cases y with
    | error e' =>
      obtain rfl : e = e' := h
      exact hG e hy
    | ok b => exact h.elim
  | ok a =>
    cases y with
    | error e' => exact h.elim
    | ok b => exact hf a b h hy

/-- What is known of one of the operations holds of what it yields. -/
theorem and_ends {Q : β → Prop} (h : InStep R x y) (hy : Ends y Q F) :
    InStep (fun a b => R a b ∧ Q b) x y := by
  cases x with
  | error e =>
    cases y with
    | error e' => exact h
    | ok b => exact h.elim
  | ok a =>
    cases y with
    | error e' => exact h.elim
    | ok b => exact ⟨h, hy⟩

end InStep

end CopyingHeap
