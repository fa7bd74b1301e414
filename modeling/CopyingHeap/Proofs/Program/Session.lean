import CopyingHeap.Proofs.Program.Operation

/-!
Programs whose arguments are values of their own or are read when an operation begins: from a root slot,
from inside an object, or from the results since objects last moved. Sessions that a program cannot tell
apart stay so from one operation to the next, and whatever operations on known values keep, a session
keeps.
-/

namespace CopyingHeap

/-- An argument that is a value of its own, or is read when the operation begins. -/
inductive Operand where
  | value (v : Value)
  | root (slot : RootSlot)
  | element (array : Operand) (i : Nat)
  | head (node : Operand)
  | tail (node : Operand)
  | result (i : Nat)

/-- A program between two operations. Its results are those of the operations since objects last moved,
the last one first. -/
structure Session where
  heap : Heap
  results : List Value

namespace Session

/-- The value of an argument; a result that is not there is null. -/
def read (s : Session) : Operand → Except Fault Value
  | .value v => .ok v
  | .root slot => s.heap.root slot
  | .element a i => do s.heap.memory.arrayGet (← (← s.read a).toReference) i
  | .head a => do s.heap.memory.listHead (← (← s.read a).toReference)
  | .tail a => do s.heap.memory.listTail (← (← s.read a).toReference)
  | .result i => .ok (s.results.getD i .null)

def step (s : Session) (op : Operation Operand) : Except Fault Session := do
  let (v, heap) ← s.heap.perform s.read op
  return ⟨heap, v.toList ++ if op.moves then [] else s.results⟩

/-- Performs the operations in turn, and counts those that do not fail. -/
def run (s : Session) : List (Operation Operand) → Nat × Except Fault Session
  | [] => (0, .ok s)
  | op :: ops =>
    match s.step op with
    | .error f => (0, .error f)
    | .ok t => ((t.run ops).1 + 1, (t.run ops).2)

end Session

namespace Heap

/-- The program refers to no object by its address, but for symbols of the static data. -/
def Names (h : Heap) : Operand → Prop
  | .value v => ∀ r, v.object? = some r → h.IsSymbol r
  | .root _ | .result _ => True
  | .element a _ | .head a | .tail a => h.Names a

theorem Names.keep {h k : Heap} (hk : h.Keeps k) {a : Operand} (ha : h.Names a) : k.Names a := by
  induction a with
  | value v => exact fun r hr => (ha r hr).congr hk.limit hk.static
  | root slot => trivial
  | result i => trivial
  | element a i ih => exact ih ha
  | head a ih => exact ih ha
  | tail a ih => exact ih ha

theorem paired_getD {h : Heap} {p : Reference → Reference → Prop} {vs vs' : List Value}
    (hvs : List.Forall₂ (h.Paired p) vs vs') (i : Nat) :
    h.Paired p (vs.getD i .null) (vs'.getD i .null) := by
  induction hvs generalizing i with
  | nil => exact paired_null h p
  | cons hv _ ih =>
    cases i with
    | zero => exact hv
    | succ i => exact ih i

end Heap

namespace Session

/-- Two sessions that a program cannot tell apart. -/
def Matches (s s' : Session) : Prop :=
  ∃ p, Heap.Twin p s.heap s'.heap ∧ List.Forall₂ (s.heap.Paired p) s.results s'.results

variable {s s' : Session} {p : Reference → Reference → Prop} (ht : Heap.Twin p s.heap s'.heap)
  (hv : List.Forall₂ (s.heap.Paired p) s.results s'.results)

include ht hv

theorem read_alike {a : Operand} (ha : s.heap.Names a) :
    Alike (s.heap.Paired p) (s.read a) (s'.read a) := by
  induction a with
  | value v => exact .inr ⟨ha, rfl⟩
  | root slot => exact ht.root slot
  | element a i ih =>
    refine (ih ha).bind fun v v' hv => ?_
    exact hv.toReference.bind fun r r' hr => ht.arrayGet hr i
  | head a ih =>
    refine (ih ha).bind fun v v' hv => ?_
    exact hv.toReference.bind fun r r' hr => ht.listHead hr
  | tail a ih =>
    refine (ih ha).bind fun v v' hv => ?_
    exact hv.toReference.bind fun r r' hr => ht.listTail hr
  | result i => exact Heap.paired_getD hv i

theorem step_alike {op : Operation Operand} (hop : ∀ a ∈ op.operands, s.heap.Names a) :
    Alike (fun t t' => s.heap.Keeps t.heap ∧ t.Matches t') (s.step op) (s'.step op) := by
  refine (ht.perform op fun a ha => read_alike ht hv (hop a ha)).bind ?_
  rintro ⟨v, k⟩ ⟨v', k'⟩ ⟨hkeep, q, hq, hresult, hmoves⟩
  dsimp only at hkeep hq hresult
  refine ⟨hkeep, q, hq, List.rel_append ?_ ?_⟩
  · cases hresult with
    | none => exact .nil
    | some hvalue => exact .cons hvalue .nil
  · cases hmove : op.moves with
    | true => exact .nil
    | false => exact hv.imp fun v v' hpair => (hpair.keep hkeep).mono (hmoves hmove)

omit ht hv

/-- A session begins without results. -/
theorem matches_self {h : Heap} (hs : h.Sound) : Matches ⟨h, []⟩ ⟨h, []⟩ :=
  ⟨_, hs.twin_self, .nil⟩

/-- A step performs its operation on the values that it reads. -/
theorem exists_step {t : Session} {op : Operation Operand} (h : s.step op = .ok t) :
    ∃ op' v, op.Reads s.read op' ∧ s.heap.perform .ok op' = .ok (v, t.heap) := by
  obtain ⟨⟨v, k⟩, hk, ht⟩ := bind_eq_ok_iff.mp h
  cases ht
  obtain ⟨op', hreads, hk'⟩ := Heap.exists_perform hk
  exact ⟨op', v, hreads, hk'⟩

theorem run_cons_eq_ok {t : Session} {op : Operation Operand} {ops : List (Operation Operand)}
    (h : (s.run (op :: ops)).2 = .ok t) : ∃ u, s.step op = .ok u ∧ (u.run ops).2 = .ok t := by
  unfold Session.run at h
  cases hx : s.step op with
  | error f =>
    rw [hx] at h
    nomatch h
  | ok u =>
    rw [hx] at h
    exact ⟨u, rfl, h⟩

/-- What operations on values that the program may know carry from one heap to the next, a session
carries to its end. It hands out raw blocks only where the program asks for them. -/
theorem Matches.holds_of_run {P : Heap → Prop} (hs : s.Matches s) {ops : List (Operation Operand)}
    (hops : ∀ op ∈ ops, ∀ a ∈ op.operands, s.heap.Names a)
    (hstep : ∀ (h k : Heap) (op : Operation Value) (v : Option Value), P h →
      (∀ a ∈ op.operands, h.Knows a) → (∀ size, op = .alloc size → .alloc size ∈ ops) →
      h.perform .ok op = .ok (v, k) → P k)
    (hP : P s.heap) {t : Session} (hrun : (s.run ops).2 = .ok t) : P t.heap := by
  induction ops generalizing s with
  | nil =>
    cases hrun
    exact hP
  | cons op ops ih =>
    obtain ⟨u, hu, hrun⟩ := run_cons_eq_ok hrun
    obtain ⟨p, ht, hv⟩ := hs
    have hop := hops op List.mem_cons_self
    obtain ⟨hkeep, hmatches⟩ := (step_alike ht hv hop).ends.of_ok hu
    obtain ⟨op', v, hreads, hk⟩ := exists_step hu
    have hknown : ∀ w ∈ op'.operands, s.heap.Knows w := by
      refine hreads.forall fun a ha w hw => ?_
      exact (ht.knows ((read_alike ht hv (hop a ha)).ends.of_ok hw)).1
    have hnext : P u.heap := hstep s.heap u.heap op' v hP hknown
      (fun size hsize => hreads.raw size hsize ▸ List.mem_cons_self) hk
    have hrest : ∀ next ∈ ops, ∀ a ∈ next.operands, u.heap.Names a := fun next hmem a ha =>
      (hops next (List.mem_cons_of_mem op hmem) a ha).keep hkeep
    refine ih hmatches hrest (fun h k op' v hh hknown hasked hk => ?_) hnext hrun
    exact hstep h k op' v hh hknown (fun size hsize => List.mem_cons_of_mem op (hasked size hsize)) hk

/-- What a program leaves on a new heap can be checked by running it. -/
theorem exists_run {options : Options} {m : Memory} {stackBase heapBase : Address} {bytes n : Nat}
    {ops : List (Operation Operand)} {P : Session → Prop} [DecidablePred P]
    (h : (Heap.build options m stackBase heapBase bytes >>= fun start =>
      (run ⟨start, []⟩ ops).2 >>= fun s => .ok ((run ⟨start, []⟩ ops).1, decide (P s))) =
        .ok (n, true)) :
    ∃ start s, Heap.build options m stackBase heapBase bytes = .ok start ∧
      run ⟨start, []⟩ ops = (n, .ok s) ∧ P s := by
  obtain ⟨start, hb, h⟩ := bind_eq_ok_iff.mp h
  obtain ⟨s, hs, h⟩ := bind_eq_ok_iff.mp h
  obtain ⟨hn, hP⟩ := Prod.mk.inj (Except.ok.inj h)
  exact ⟨start, s, hb, Prod.ext hn hs, of_decide_eq_true hP⟩

/-- Makes a float and a string, links them from a list node and from an array, and collects while both of
these are on the stack. Then the node in the array gives way to a second reference to the float. -/
def sample : List (Operation Operand) :=
  [.newFloat 7, .push (.result 0), .newString [104, 105],
    .newListNode (.root ⟨.ofNat 60⟩) (.result 0), .setRoot ⟨.ofNat 60⟩ (.result 0),
    .newArray [.head (.root ⟨.ofNat 60⟩), .tail (.root ⟨.ofNat 60⟩), .root ⟨.ofNat 60⟩],
    .push (.result 0), .collect,
    .arraySet (.root ⟨.ofNat 56⟩) 2 (.element (.root ⟨.ofNat 56⟩) 0)]

theorem names_sample (h : Heap) : ∀ op ∈ sample, ∀ a ∈ op.operands, h.Names a := by
  simp [sample, Operation.operands, Heap.Names]

/-- Two spaces of 32 bytes have no room for the array, so that they are collected once more and grown. -/
theorem run_sample_grown : ∃ start s,
    Heap.build { Options.defaults with minGrowthBytes := 0 } Heap.blank (.ofNat 64) (.ofNat 64) 64 =
        .ok start ∧
      run ⟨start, []⟩ sample = (9, .ok s) ∧
      s.heap.statistics.collections = 2 ∧ s.heap.statistics.growths = 1 ∧
      s.heap.statistics.liveBytes = 52 ∧ s.heap.statistics.bytesCopied.total = .ok 84 ∧
      s.heap.objects = .ok [.ofIndex 40, .ofIndex 45, .ofIndex 48, .ofIndex 50] :=
  exists_run (by decide +kernel)

end Session

end CopyingHeap
