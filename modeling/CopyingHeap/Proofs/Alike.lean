import CopyingHeap.Proofs.Outcome
import Mathlib.Data.List.Forall2

/-!
Operations that end alike on two heaps: both return values that correspond, or both stop at the same
fault up to the places of objects. Nothing is said once one of them is out of memory. Sequencing
composes such statements.
-/

namespace CopyingHeap

variable {α β γ δ : Type}

namespace Fault

/-- The fault without the place of the object that caused it. -/
def unplaced : Fault → Fault
  | notArray _ => notArray Address.zero
  | notListNode _ => notListNode Address.zero
  | notText _ => notText Address.zero
  | indexOutOfBounds i _ size => indexOutOfBounds i Address.zero size
  | f => f

/-- The faults have one cause. -/
def SameKind (f g : Fault) : Prop :=
  f.unplaced = g.unplaced

end Fault

/-- Both operations return values that `related` relates, or both stop at faults of one kind, or one of
them is out of memory. -/
def Alike (related : α → β → Prop) (x : Except Fault α) (y : Except Fault β) : Prop :=
  match x, y with
  | .ok a, .ok b => related a b
  | .error f, .error g => f.Exhausted ∨ g.Exhausted ∨ f.SameKind g
  | .error f, .ok _ => f.Exhausted
  | .ok _, .error g => g.Exhausted

variable {x : Except Fault α} {y : Except Fault β} {R : α → β → Prop}

theorem alike_error {f g : Fault} (h : f.SameKind g) : Alike R (.error f) (.error g) :=
  .inr (.inr h)

namespace Alike

theorem of_exhausted {f : Fault} (hf : f.Exhausted) (y : Except Fault β) :
    Alike R (.error f) y := by
  cases y with
  | error g => exact .inl hf
  | ok b => exact hf

theorem of_exhausted_right {g : Fault} (hg : g.Exhausted) (x : Except Fault α) :
    Alike R x (.error g) := by
  cases x with
  | error f => exact .inr (.inl hg)
  | ok a => exact hg

theorem bind {S : γ → δ → Prop} {f : α → Except Fault γ} {g : β → Except Fault δ}
    (h : Alike R x y) (hf : ∀ a b, R a b → Alike S (f a) (g b)) : Alike S (x >>= f) (y >>= g) := by
  cases x with
  | error e =>
    cases y with
    | error e' => exact h
    | ok b => exact of_exhausted h (g b)
  | ok a =>
    cases y with
    | error e' => exact of_exhausted_right h (f a)
    | ok b => exact hf a b h

theorem mono {S : α → β → Prop} (h : Alike R x y) (hR : ∀ a b, R a b → S a b) : Alike S x y := by
  cases x with
  | error e =>
    cases y with
    | error e' => exact h
    | ok b => exact h
  | ok a =>
    cases y with
    | error e' => exact h
    | ok b => exact hR a b h

theorem with_eq (h : Alike R x y) : Alike (fun a b => R a b ∧ x = .ok a ∧ y = .ok b) x y := by
  cases x with
  | error e =>
    cases y with
    | error e' => exact h
    | ok b => exact h
  | ok a =>
    cases y with
    | error e' => exact h
    | ok b => exact ⟨h, rfl, rfl⟩

theorem of_eq {y : Except Fault α} (h : y = x) : Alike (fun a b => b = a) x y := by
  subst h
  cases y with
  | error e => exact alike_error rfl
  | ok a => exact rfl

/-- Operations that fail only for want of memory. -/
theorem of_ends {P : α → Prop} {Q : β → Prop} (hx : Ends x P Fault.Exhausted)
    (hy : Ends y Q Fault.Exhausted) (hR : ∀ a b, P a → Q b → R a b) : Alike R x y := by
  cases x with
  | error e => exact of_exhausted hx y
  | ok a =>
    cases y with
    | error e' => exact of_exhausted_right hy (.ok a)
    | ok b => exact hR a b hx hy

theorem mapM {f : γ → Except Fault α} {g : γ → Except Fault β} {cs : List γ}
    (h : ∀ c ∈ cs, Alike R (f c) (g c)) : Alike (List.Forall₂ R) (cs.mapM f) (cs.mapM g) := by
  induction cs with
  | nil => exact .nil
  | cons c cs ih =>
    rw [List.mapM_cons, List.mapM_cons]
    refine (h c List.mem_cons_self).bind fun a b hab => ?_
    refine (ih fun d hd => h d (List.mem_cons_of_mem c hd)).bind fun as bs hs => ?_
    exact .cons hab hs

/-- What two copies of one operation say of the operation itself. -/
theorem ends {R : α → α → Prop} (h : Alike R x x) : Ends x (fun a => R a a) fun _ => True := by
  cases x with
  | error e => trivial
  | ok a => exact h

end Alike

end CopyingHeap
