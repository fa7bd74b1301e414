import CopyingHeap.Proofs.Memory.Words
import CopyingHeap.Tracing

/-!
Tracing slots one after another, with any tracer. As long as no call of the tracer writes a word of the
object that the slots are in, only the slots change: a reference becomes what the tracer answers for it.
-/

namespace CopyingHeap

namespace Tracer

variable {σ : Type} {trace : Tracer σ} {s : σ} {m : Memory} {a : Address} {as : List Address}
  {range : AddressRange}

/-- Traces the slots at these addresses in turn. -/
def traceEach (trace : Tracer σ) (s : σ) (m : Memory) (as : List Address) :
    Except Fault (σ × Memory) :=
  as.foldlM (fun x a => traceSlot trace x.1 x.2 a) (s, m)

/-- Tracing these slots in turn calls the tracer for the slot at `a`, in the state `t` and the memory `n`,
with the object `q`, to which the slot refers. -/
inductive Calls (trace : Tracer σ) :
    σ → Memory → List Address → Address → σ → Memory → Reference → Prop where
  | first {s : σ} {m : Memory} {a : Address} {as : List Address} {w : Word} {q : Reference} :
      m.load a = .ok w → Word.target? w = some q → Calls trace s m (a :: as) a s m q
  | later {s t u : σ} {m n l : Memory} {a b : Address} {as : List Address} {q : Reference} :
      traceSlot trace s m a = .ok (t, n) → Calls trace t n as b u l q →
      Calls trace s m (a :: as) b u l q

/-- No call of the tracer, while these slots are traced, writes a word in the range. -/
def Spares (trace : Tracer σ) (s : σ) (m : Memory) (as : List Address) (range : AddressRange) : Prop :=
  ∀ a t n q, Calls trace s m as a t n q → ∀ x, trace t n q = .ok x →
    ∀ b, range.Contains b → x.2.2.load b = n.load b

/-- The memory after these slots of `m`, which lie in the range, have been traced: of the range only they
have changed. A reference in a slot has become the answer to the call for the slot. -/
structure Retraced (trace : Tracer σ) (s : σ) (m : Memory) (as : List Address) (range : AddressRange)
    (n : Memory) : Prop where
  other : ∀ b, range.Contains b → b ∉ as → n.load b = m.load b
  plain : ∀ a ∈ as, ∀ w, m.load a = .ok w → Word.target? w = none → n.load a = .ok w
  answered : ∀ a ∈ as, ∀ w q, m.load a = .ok w → Word.target? w = some q →
    ∃ t l x, Calls trace s m as a t l q ∧ trace t l q = .ok x ∧ n.load a = .ok x.1.word

/-- Tracing one slot of the range fails only where the tracer does. -/
theorem traceSlot_spec {w : Word} (hw : m.load a = .ok w) (ha : range.Contains a)
    (hspares : ∀ q, Word.target? w = some q → ∀ x, trace s m q = .ok x →
      ∀ b, range.Contains b → x.2.2.load b = m.load b) :
    Ends (traceSlot trace s m a)
      (fun y => (∀ b, range.Contains b → b ≠ a → y.2.load b = m.load b) ∧
        (Word.target? w = none → y.2.load a = .ok w) ∧
        ∀ q, Word.target? w = some q → ∃ x, trace s m q = .ok x ∧ y.2.load a = .ok x.1.word)
      fun f => ∃ q, Word.target? w = some q ∧ trace s m q = .error f := by
  rw [traceSlot, hw, ok_bind]
  cases hq : (Value.decode w).object? with
  | none =>
    have hnone : Word.target? w = none := hq
    refine ⟨fun _ _ _ => rfl, fun _ => hw, fun q hsome => ?_⟩
    rw [hnone] at hsome
    nomatch hsome
  | some q =>
    have hsome : Word.target? w = some q := hq
    have hkeeps := hspares q hsome
    rw [hsome]
    dsimp only
    cases hx : trace s m q with
    | error f => exact ⟨q, rfl, hx⟩
    | ok x =>
      obtain ⟨target, t, n⟩ := x
      have hsame := hkeeps _ hx
      have hanswer {l : Memory} (hl : l.load a = .ok target.word) (p : Reference)
          (hp : some q = some p) : ∃ x, trace s m p = .ok x ∧ l.load a = .ok x.1.word := by
        obtain rfl : q = p := Option.some.inj hp
        exact ⟨_, hx, hl⟩
      rw [ok_bind]
      dsimp only at hsame ⊢
      split
      · rename_i heq
        -- The slot holds the answer already.
        have hword : w = target.word := heq ▸ (target?_eq_some_iff.mp hsome).1
        exact ⟨fun b hb _ => hsame b hb, nofun, hanswer ((hsame a ha).trans (hword ▸ hw))⟩
      · obtain ⟨l, hl⟩ := Memory.exists_store ((hsame a ha).trans hw) target.word
        have hload := Memory.load_store hl
        rw [hl, ok_bind]
        exact ⟨fun b hb hne => (hload b).trans ((if_neg hne).trans (hsame b hb)), nofun,
          hanswer ((hload a).trans (if_pos rfl))⟩

/-- Tracing slots of the range in turn, each of them once. The induction is on the slots that are left:
those behind the first one have not changed when it has been traced. -/
theorem traceEach_spec (hin : ∀ a ∈ as, range.Contains a ∧ ∃ w, m.load a = .ok w) (hnodup : as.Nodup)
    (hspares : Spares trace s m as range) :
    Ends (traceEach trace s m as) (fun x => Retraced trace s m as range x.2)
      fun f => ∃ a t n q, Calls trace s m as a t n q ∧ trace t n q = .error f := by
  induction as generalizing s m with
  | nil => exact ⟨fun _ _ _ => rfl, nofun, nofun⟩
  | cons a as ih =>
    obtain ⟨⟨ha, w, hw⟩, has⟩ := List.forall_mem_cons.mp hin
    obtain ⟨hnew, hnodup⟩ := List.nodup_cons.mp hnodup
    have hslot := traceSlot_spec hw ha fun q hq => hspares a s m q (.first hw hq)
    rw [traceEach, List.foldlM_cons]
    cases hy : traceSlot trace s m a with
    | error f =>
      rw [hy] at hslot
      obtain ⟨q, hq, hf⟩ := hslot
      exact ⟨a, s, m, q, .first hw hq, hf⟩
    | ok y =>
      rw [hy] at hslot
      obtain ⟨hother, hplain, hanswered⟩ := hslot
      have hold {b : Address} (hb : b ∈ as) : y.2.load b = m.load b :=
        hother b (has b hb).1 fun hba => hnew (hba ▸ hb)
      have hrest := ih (s := y.1) (m := y.2)
        (fun b hb => ⟨(has b hb).1, hold hb ▸ (has b hb).2⟩) hnodup
        fun b t n q hc => hspares b t n q (.later hy hc)
      refine hrest.mono (fun z hz => ⟨?_, ?_, ?_⟩) ?_
      · intro b hb hout
        rw [List.mem_cons, not_or] at hout
        obtain ⟨hne, hout⟩ := hout
        rw [hz.other b hb hout, hother b hb hne]
      · intro b hb v hv hnone
        rcases List.mem_cons.mp hb with rfl | hb
        · obtain rfl : w = v := Except.ok.inj (hw.symm.trans hv)
          rw [hz.other b ha hnew, hplain hnone]
        · exact hz.plain b hb v ((hold hb).trans hv) hnone
      · intro b hb v q hv hsome
        rcases List.mem_cons.mp hb with rfl | hb
        · obtain rfl : w = v := Except.ok.inj (hw.symm.trans hv)
          obtain ⟨x, hx, hload⟩ := hanswered q hsome
          exact ⟨s, m, x, .first hw hsome, hx, (hz.other b ha hnew).trans hload⟩
        · obtain ⟨t, l, x, hc, hx, hload⟩ := hz.answered b hb v q ((hold hb).trans hv) hsome
          exact ⟨t, l, x, .later hy hc, hx, hload⟩
      · rintro f ⟨b, t, n, q, hc, hf⟩
        exact ⟨b, t, n, q, .later hy hc, hf⟩

/-- Walking over consecutive words is tracing them in turn. -/
theorem traceSlots_eq_traceEach (trace : Tracer σ) (s : σ) (m : Memory) {i n : Nat}
    (h : i + n ≤ 0x40000000) : traceSlots trace s m (Address.ofNat (4 * i)) n =
      traceEach trace s m ((List.range' i n).map fun j => Address.ofNat (4 * j)) := by
  induction n generalizing i s m with
  | zero => rfl
  | succ n ih =>
    have hnext := ofNat_next (i := i) (by omega)
    rw [traceSlots, hnext, List.range'_succ, List.map_cons, traceEach, List.foldlM_cons]
    exact bind_congr fun x => ih x.1 x.2 (by omega)

end Tracer

end CopyingHeap
