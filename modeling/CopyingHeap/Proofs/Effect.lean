import CopyingHeap.Object.Array
import CopyingHeap.Proofs.Outcome
import CopyingHeap.Semispaces
import CopyingHeap.SymbolTable

/-!
Operations that work in place. Such an operation leaves a state however it ends: one that refuses or
faults half-way leaves what it had done by then. The operations here make their changes one by one, in
the order in which a program that owns the memory makes them, and each is shown to answer as the
function does that it is named after. What such a function leaves on failure can then be stated.
-/

namespace CopyingHeap

variable {σ τ α β ε : Type}

/-- An operation on a state, which it leaves also when it stops at a fault. -/
abbrev Effect (σ α : Type) :=
  EStateM Fault σ α

namespace Effect

/-- A computation that does not touch the state. -/
def check (x : Except Fault α) : Effect σ α := fun s =>
  match x with
  | .ok a => .ok a s
  | .error f => .error f s

/-- A single change of the state, which happens as a whole or not at all. -/
def change (f : σ → Except Fault σ) : Effect σ Unit := fun s =>
  match f s with
  | .ok s' => .ok () s'
  | .error e => .error e s

/-- An effect on the second of two states. -/
def onSecond (act : Effect τ α) : Effect (σ × τ) α := fun s =>
  match act s.2 with
  | .ok a t => .ok a (s.1, t)
  | .error f t => .error f (s.1, t)

/-- The answer and the state, as a function returns them that keeps neither at a fault. -/
def told : EStateM.Result Fault σ α → Except Fault (α × σ)
  | .ok a s => .ok (a, s)
  | .error f _ => .error f

/-- The state counts only if the answer is not a refusal. -/
def granted : Except ε α × σ → Except ε (α × σ)
  | (.ok a, s) => .ok (a, s)
  | (.error e, _) => .error e

variable {act : Effect σ α} {s s' : σ} {a : α} {e : Fault}

theorem run_bind_ok (f : α → Effect σ β) (h : act.run s = .ok a s') :
    (act >>= f).run s = (f a).run s' := by
  simp only [EStateM.run] at h
  simp only [EStateM.run, bind, EStateM.bind, h]

theorem run_bind_error (f : α → Effect σ β) (h : act.run s = .error e s') :
    (act >>= f).run s = .error e s' := by
  simp only [EStateM.run] at h
  simp only [EStateM.run, bind, EStateM.bind, h]

@[simp] theorem run_check_bind (a : α) (f : α → Effect σ β) (s : σ) :
    (check (.ok a) >>= f).run s = (f a).run s :=
  rfl

@[simp] theorem run_get_bind (f : σ → Effect σ β) (s : σ) :
    ((get : Effect σ σ) >>= f).run s = (f s).run s :=
  rfl

@[simp] theorem run_modify_bind (g : σ → σ) (f : PUnit → Effect σ β) (s : σ) :
    ((modify g : Effect σ PUnit) >>= f).run s = (f ⟨⟩).run (g s) :=
  rfl

theorem run_change_ok {f : σ → Except Fault σ} (h : f s = .ok s') :
    (change f).run s = .ok () s' := by
  simp only [change, EStateM.run, h]

theorem run_change_error {f : σ → Except Fault σ} (h : f s = .error e) :
    (change f).run s = .error e s := by
  simp only [change, EStateM.run, h]

theorem run_onSecond_ok {act : Effect τ α} {t t' : τ} (s : σ) (h : act.run t = .ok a t') :
    (onSecond act).run (s, t) = .ok a (s, t') := by
  simp only [EStateM.run] at h
  simp only [onSecond, EStateM.run, h]

theorem told_check_bind (x : Except Fault α) (f : α → Effect σ β) (s : σ) :
    told ((check x >>= f).run s) = x >>= fun a => told ((f a).run s) := by
  cases x <;> rfl

theorem told_change (f : σ → Except Fault σ) (s : σ) :
    (told ((change f).run s)).map Prod.snd = f s := by
  cases hf : f s with
  | error e => rw [run_change_error hf]; rfl
  | ok s' => rw [run_change_ok hf]; rfl

theorem told_change_bind (f : σ → Except Fault σ) (g : Unit → Effect σ β) (s : σ) :
    told ((change f >>= g).run s) = f s >>= fun s' => told ((g ()).run s') := by
  cases hf : f s with
  | error e => rw [run_bind_error g (run_change_error hf)]; rfl
  | ok s' => rw [run_bind_ok g (run_change_ok hf)]; rfl

theorem told_onSecond_bind (act : Effect τ α) (f : α → Effect (σ × τ) β) (s : σ) (t : τ) :
    told ((onSecond act >>= f).run (s, t)) =
      told (act.run t) >>= fun x => told ((f x.1).run (s, x.2)) := by
  simp only [EStateM.run, bind, EStateM.bind, onSecond]
  cases act t <;> rfl

/-- A function that returns says what the operation leaves. -/
theorem of_told {r : EStateM.Result Fault σ Unit} (h : (told r).map Prod.snd = .ok s) :
    r = .ok () s := by
  cases r with
  | error f s' => cases h
  | ok u s' =>
    cases h
    rfl

theorem of_granted {r : EStateM.Result Fault σ (Except ε α)} {a : α}
    (h : (told r).map granted = .ok (.ok (a, s))) : r = .ok (.ok a) s := by
  cases r with
  | error f s' => cases h
  | ok answer s' =>
    cases answer with
    | error e => cases h
    | ok a' =>
      cases h
      rfl

theorem told_ok (a : α) (s : σ) : told (.ok a s) = .ok (a, s) :=
  rfl

theorem map_ok (a : α) (f : α → β) : (Except.ok a : Except ε α).map f = .ok (f a) :=
  rfl

theorem map_bind {γ : Type} (x : Except Fault α) (f : α → Except Fault β) (g : β → γ) :
    (x >>= f).map g = x >>= fun a => (f a).map g := by
  cases x <;> rfl

end Effect

open Effect

namespace Memory

/-- Adding pages. The answer is the number of pages there were. -/
def growing (delta : Nat) : Effect Memory (Except GrowError Nat) := do
  let m ← get
  let requested ← check (Size.add m.pages delta)
  if m.maxPages < requested then return .error ⟨requested, m.maxPages⟩
  else
    modify (·.resize requested)
    return .ok m.pages

def ensuring (past : Address) : Effect Memory (Except GrowError Unit) := do
  let m ← get
  if past ≤ m.stop then return .ok ()
  else
    let needed ← check (Size.pagesUp past.toNat)
    match ← growing (needed - m.pages) with
    | .error refusal => return .error refusal
    | .ok _ => return .ok ()

def writingText (a : Address) (k : Kind) (bs : List UInt8) : Effect Memory Unit := do
  change (·.writeHeader a k)
  let lengthAt ← check (a.add lengthOffset)
  change (·.store lengthAt (UInt32.ofNat bs.length))
  let contentAt ← check (a.add contentOffset)
  change (·.writeBytes contentAt bs)

def settingElement (array : Reference) (i : Nat) (v : Value) : Effect Memory Unit := do
  let m ← get
  check (m.checkIndex array i)
  let a ← check (elementAddress array i)
  let w ← check v.encode
  change (·.store a w)

theorem grow_told (m : Memory) (delta : Nat) :
    m.grow delta = (told ((growing delta).run m)).map fun x => (granted x).map Prod.snd := by
  unfold growing grow
  rw [run_get_bind, told_check_bind, map_bind]
  congr
  funext requested
  by_cases h : m.maxPages < requested
  · rw [if_pos h, if_pos h]
    rfl
  · rw [if_neg h, if_neg h]
    rfl

theorem ensure_told (m : Memory) (past : Address) :
    m.ensure past = (told ((ensuring past).run m)).map fun x => (granted x).map Prod.snd := by
  unfold ensuring ensure
  rw [run_get_bind]
  by_cases h : past ≤ m.stop
  · rw [if_pos h, if_pos h]
    rfl
  · rw [if_neg h, if_neg h, told_check_bind, map_bind]
    congr
    funext needed
    rw [grow_told]
    cases hgrow : (growing (needed - m.pages)).run m with
    | error f n => rw [run_bind_error _ hgrow]; rfl
    | ok answer n =>
      rw [run_bind_ok _ hgrow]
      cases answer <;> rfl

theorem writeText_told (m : Memory) (a : Address) (k : Kind) (bs : List UInt8) :
    m.writeText a k bs = (told ((writingText a k bs).run m)).map Prod.snd := by
  simp only [writingText, writeText, told_change_bind, told_check_bind, map_bind, told_change]

theorem arraySet_told (m : Memory) (array : Reference) (i : Nat) (v : Value) :
    m.arraySet array i v = (told ((settingElement array i v).run m)).map Prod.snd := by
  simp only [settingElement, arraySet, run_get_bind, told_check_bind, map_bind, told_change]

/-- Setting an element either happens or leaves the memory alone. -/
theorem settingElement_error {m : Memory} {array : Reference} {i : Nat} {v : Value} {e : Fault}
    (h : m.arraySet array i v = .error e) : (settingElement array i v).run m = .error e m := by
  unfold settingElement
  unfold arraySet at h
  rw [run_get_bind]
  cases hindex : m.checkIndex array i with
  | error f =>
    rw [hindex] at h
    cases h
    rfl
  | ok u =>
    rw [hindex, ok_bind] at h
    rw [run_check_bind]
    cases haddress : elementAddress array i with
    | error f =>
      rw [haddress] at h
      cases h
      rfl
    | ok a =>
      rw [haddress, ok_bind] at h
      rw [run_check_bind]
      cases hword : v.encode with
      | error f =>
        rw [hword] at h
        cases h
        rfl
      | ok w =>
        rw [hword, ok_bind] at h
        rw [run_check_bind]
        exact run_change_error h

theorem settingElement_ok {m n : Memory} {array : Reference} {i : Nat} {v : Value}
    (h : m.arraySet array i v = .ok n) : (settingElement array i v).run m = .ok () n := by
  rw [arraySet_told] at h
  exact of_told h

end Memory

namespace SymbolTable

def interning (name : String) : Effect (SymbolTable × Memory) (Except GrowError Reference) := do
  let (t, _) ← get
  match t.find? name with
  | some symbol => return .ok symbol
  | none =>
    let bs := nameBytes name
    let bytes ← check (Kind.symbol.size bs.length)
    let stop ← check (t.stop.add bytes)
    match ← onSecond (Memory.ensuring stop) with
    | .error refusal => return .error refusal
    | .ok () =>
      onSecond (Memory.writingText t.stop .symbol bs)
      modify fun (t, m) => ({ t with stop }, m)
      let symbol ← check (Reference.ofAddress t.stop)
      modify fun (t, m) => ({ t with symbols := (name, symbol) :: t.symbols }, m)
      return .ok symbol

theorem intern_told (t : SymbolTable) (m : Memory) (name : String) :
    t.intern m name = (told ((interning name).run (t, m))).map granted := by
  unfold interning intern
  rw [run_get_bind]
  dsimp only
  cases t.find? name with
  | some symbol => rfl
  | none =>
    dsimp only
    simp only [told_check_bind, told_onSecond_bind, map_bind]
    congr
    funext bytes
    congr
    funext stop
    rw [Memory.ensure_told]
    cases (Memory.ensuring stop).run m with
    | error f n => rfl
    | ok answer n =>
      cases answer with
      | error refusal => rfl
      | ok u =>
        simp only [told_ok, map_ok, granted, ok_bind]
        rw [Memory.writeText_told, told_onSecond_bind]
        cases (Memory.writingText t.stop .symbol (nameBytes name)).run n with
        | error f n' => rfl
        | ok u n' =>
          simp only [told_ok, map_ok, ok_bind, run_modify_bind, told_check_bind, map_bind]
          rfl

end SymbolTable

namespace Semispaces

def growing (required minGrowth : Nat) :
    Effect (Semispaces × Memory) (Except AllocationError Unit) := do
  let (s, _) ← get
  match ← check (grownExtent s.active.extent required minGrowth) with
  | none => return .error (.heapExhausted required)
  | some extent =>
    match s.grownLayout extent with
    | none => return .error (.heapExhausted required)
    | some (past, scratchStart, scratchStop) =>
      let heapStop := max past scratchStop
      match ← onSecond (Memory.ensuring heapStop) with
      | .error refusal => return .error (.growFailed refusal)
      | .ok () =>
        let bits ← check (s.bits.ensureCovers heapStop.toNat)
        modify fun (s, m) => ({ s with bits }, m)
        modify fun (s, m) => ({ s with active := { s.active with extent } }, m)
        modify fun (s, m) =>
          ({ s with scratch := { s.scratch with start := scratchStart, extent } }, m)
        return .ok ()

theorem grow_told (s : Semispaces) (m : Memory) (required minGrowth : Nat) :
    s.grow m required minGrowth = (told ((growing required minGrowth).run (s, m))).map
      fun x => (granted x).map Prod.snd := by
  unfold growing grow
  rw [run_get_bind]
  dsimp only
  rw [told_check_bind, map_bind]
  congr
  funext extent?
  cases extent? with
  | none => rfl
  | some extent =>
    dsimp only
    cases s.grownLayout extent with
    | none => rfl
    | some places =>
      obtain ⟨past, scratch, stop⟩ := places
      dsimp only
      rw [told_onSecond_bind, map_bind, Memory.ensure_told]
      cases (Memory.ensuring (max past stop)).run m with
      | error f n => rfl
      | ok answer n =>
        cases answer with
        | error refusal => rfl
        | ok u =>
          rw [told_ok, map_ok, ok_bind, ok_bind, granted, map_ok]
          dsimp only
          rw [told_check_bind, map_bind]
          rfl

variable {s t : Semispaces} {m n : Memory} {required minGrowth : Nat}

theorem grow_of_done (h : (growing required minGrowth).run (s, m) = .ok (.ok ()) (t, n)) :
    s.grow m required minGrowth = .ok (.ok (t, n)) := by
  rw [grow_told, h]
  rfl

theorem grow_of_refused {e : AllocationError}
    (h : (growing required minGrowth).run (s, m) = .ok (.error e) (t, n)) :
    s.grow m required minGrowth = .ok (.error e) := by
  rw [grow_told, h]
  rfl

end Semispaces

end CopyingHeap
