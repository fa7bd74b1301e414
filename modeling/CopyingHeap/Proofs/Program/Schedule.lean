import CopyingHeap.Proofs.Heap.Schedule
import CopyingHeap.Proofs.Program.Accounts

/-!
The schedule of the collections, between any two operations of a program.
-/

namespace CopyingHeap

namespace Act

/-- Without a stress factor, collections run if they are asked for or if a block does not fit. -/
theorem cause_of_allDue {acts : List Act} (h : AllDue Size.highest acts) {cause : Cause}
    {before : Heap} (hmem : .collected cause before ∈ acts) :
    cause = .requested ∨ ∃ bytes free, cause = .full bytes ∧ before.free = .ok free ∧ free < bytes := by
  induction acts with
  | nil => nomatch hmem
  | cons act acts ih =>
    rcases List.mem_cons.mp hmem with rfl | hmem
    · cases cause with
      | requested => exact .inl rfl
      | stress bytes => exact absurd rfl h.1.1
      | full bytes =>
        obtain ⟨free, hfree, hlt⟩ := h.1
        exact .inr ⟨bytes, free, rfl, hfree, hlt⟩
    · exact ih h.2 hmem

end Act

namespace Heap

/-- A heap that has done these acts collects as the stress factor says. -/
structure OnSchedule (factor : Nat) (acts : List Act) (h : Heap) : Prop where
  /-- The acts tell of every collection. -/
  collections : h.statistics.collections = acts.countP Act.isCollection
  within : factor ≠ Size.highest →
    (Act.blocks acts).sum ≤ factor ∨ ∃ bytes, Act.blocks acts = [bytes] ∧ factor < bytes
  due : Act.AllDue factor acts
  never : factor = Size.highest → ∀ cause before, .collected cause before ∈ acts →
    cause = .requested ∨ ∃ bytes free, cause = .full bytes ∧ before.free = .ok free ∧ free < bytes
  /-- A request within the stress factor runs no stress collection. -/
  calm : ∀ bytes, factor = Size.highest ∨ (Act.blocks acts).sum + bytes ≤ factor →
    h.charge bytes = Size.add h.recent bytes >>= fun recent => .ok { h with recent }
  /-- If it also fits into the free bytes, it runs no collection at all. -/
  quiet : ∀ size a k free, h.alloc size = .ok (a, k) →
    factor = Size.highest ∨ (Act.blocks acts).sum + Size.objectBytes size ≤ factor →
    h.free = .ok free → Size.objectBytes size ≤ free →
    k.statistics.collections = h.statistics.collections

theorem Unused.logged {options : Options} {bytes : Nat} {start : Heap}
    (hs : start.Unused options bytes) : Logged start [] 0 start where
  options := rfl
  spanned := hs.spanned
  recent := hs.recent
  collections := rfl
  due := trivial
  within := fun _ => .inr (.inl rfl)

namespace Logged

variable {start h : Heap} {acts : List Act} (hl : Logged start acts 0 h)

include hl

theorem charge_eq_of_calm {bytes : Nat}
    (hcalm : start.options.stressFactor = Size.highest ∨
      (Act.blocks acts).sum + bytes ≤ start.options.stressFactor) :
    h.charge bytes = Size.add h.recent bytes >>= fun recent => .ok { h with recent } := by
  have hrecent := hl.recent
  unfold charge
  cases hadd : Size.add h.recent bytes with
  | error f => rfl
  | ok recent =>
    obtain ⟨-, rfl⟩ := Size.add_eq_ok_iff.mp hadd
    have hno : ¬ (h.options.stress && decide (h.options.stressFactor < h.recent + bytes)) = true := by
      rw [Bool.and_eq_true, decide_eq_true_iff, hl.options, Options.stress, bne_iff_ne]
      rintro ⟨hne, hlt⟩
      rcases hcalm with heq | hle
      · exact hne heq
      · omega
    rw [ok_bind, if_neg hno]
    rfl

theorem collections_of_calm {size free : Nat} {a : Address} {k : Heap}
    (hk : h.alloc size = .ok (a, k))
    (hcalm : start.options.stressFactor = Size.highest ∨
      (Act.blocks acts).sum + Size.objectBytes size ≤ start.options.stressFactor)
    (hfree : h.free = .ok free) (hfit : Size.objectBytes size ≤ free) :
    k.statistics.collections = h.statistics.collections := by
  have hlimit : h.bump.limit.toNat = h.bump.cursor.toNat + free := Address.diff_eq_ok_iff.mp hfree
  unfold Heap.alloc at hk
  split at hk
  · nomatch hk
  · obtain ⟨s, hs, hk⟩ := bind_eq_ok_iff.mp hk
    rw [hl.charge_eq_of_calm hcalm] at hs
    obtain ⟨recent, -, hs⟩ := bind_eq_ok_iff.mp hs
    cases hs
    obtain ⟨⟨_, l⟩, hx, hk⟩ := bind_eq_ok_iff.mp hk
    rcases (tryAlloc_cases _ _).of_ok hx with ⟨b, bump, halloc, htake, rfl⟩ | ⟨hnone, -⟩
    · cases hk
      rw [(hands_of_takeBlock halloc htake).statistics]
    · rw [Bump.alloc_eq_none_iff] at hnone
      dsimp only at hnone
      omega

theorem onSchedule (hstart : start.statistics.collections = 0) :
    h.OnSchedule start.options.stressFactor acts where
  collections := by
    rw [hl.collections, hstart, Nat.zero_add]
  within := fun hfactor => by
    rcases hl.within hfactor with hle | hnone | ⟨-, bytes, hone⟩
    · exact .inl hle
    · rw [hnone]
      exact .inl (Nat.zero_le _)
    · rcases Nat.lt_or_ge start.options.stressFactor bytes with hlt | hge
      · exact .inr ⟨bytes, hone, hlt⟩
      · rw [hone]
        exact .inl hge
  due := hl.due
  never := fun hfactor cause before hmem => Act.cause_of_allDue (hfactor ▸ hl.due) hmem
  calm := fun _ hcalm => hl.charge_eq_of_calm hcalm
  quiet := fun _ _ _ _ hk hcalm hfree hfit => hl.collections_of_calm hk hcalm hfree hfit

end Logged

/-- Whatever a program does, its collections run on schedule. All that operations do is told by a
chronicle, and after the acts of any chronicle, what has been handed out since the last collection is within
the stress factor, or it is one block that alone exceeds it; a stress collection has run only where the
factor would have been exceeded. -/
theorem chronicle_onSchedule {options : Options} {m : Memory} {stackBase heapBase : Address}
    {bytes : Nat} {start : Heap} (hb : build options m stackBase heapBase bytes = .ok start) :
    (∀ h, start.Ran h → ∃ acts, start.Chronicle acts h) ∧
      ∀ acts h, start.Chronicle acts h → h.OnSchedule options.stressFactor acts := by
  have hs := (unused_build options m stackBase heapBase bytes).of_ok hb
  refine ⟨fun h hr => ?_, fun acts h hc => ?_⟩
  · induction hr with
    | start => exact ⟨[], .start⟩
    | step _ hk ih => exact ((upheld_chronicle start).perform ih .ok _).of_ok hk
  · have honschedule := (hc.logged hs.logged).onSchedule (by rw [hs.statistics]; rfl)
    rwa [hs.options_eq] at honschedule

/-- With a stress factor of 16, a block of eight bytes is handed out, and one of twelve bytes after a stress
collection. -/
theorem chronicle_onSchedule_blank : ∃ start k l acts,
    build { Options.defaults with stressFactor := 16 } blank (.ofNat 64) (.ofNat 64) 64 = .ok start ∧
      start.perform .ok (.alloc 5 : Operation Value) = .ok (none, k) ∧
      k.perform .ok (.alloc 9 : Operation Value) = .ok (none, l) ∧ start.Ran l ∧
      start.Chronicle acts l ∧ .collected (.stress 12) k ∈ acts ∧ l.statistics.collections = 1 ∧
      (∃ acts, start.Chronicle acts l) ∧ l.OnSchedule 16 acts := by
  have hrun : (build { Options.defaults with stressFactor := 16 } blank (.ofNat 64) (.ofNat 64) 64 >>=
      fun start => start.alloc 5 >>= fun x => x.2.alloc 9 >>= fun y =>
        .ok (decide (x.2.options.stress = true ∧ x.2.options.stressFactor = 16 ∧ x.2.recent = 8 ∧
          y.2.statistics.collections = 1))) = .ok true := by
    decide +kernel
  obtain ⟨start, hb, hrun⟩ := bind_eq_ok_iff.mp hrun
  obtain ⟨⟨a, k⟩, hk, hrun⟩ := bind_eq_ok_iff.mp hrun
  obtain ⟨⟨b, l⟩, hl, hrun⟩ := bind_eq_ok_iff.mp hrun
  obtain ⟨hstress, hfactor, hrecent, hcollections⟩ := of_decide_eq_true (Except.ok.inj hrun)
  have hran : start.Ran l := .step (.step .start (perform_alloc hk)) (perform_alloc hl)
  obtain ⟨⟨first, x⟩, hfirst, hx⟩ := bind_eq_ok_iff.mp ((alloc_eq_log start 5).symm.trans hk)
  obtain ⟨⟨second, y⟩, hsecond, hy⟩ := bind_eq_ok_iff.mp ((alloc_eq_log k 9).symm.trans hl)
  cases hx
  cases hy
  have hchronicle : start.Chronicle (second ++ (first ++ [])) l :=
    .alloc (.alloc .start hfirst) hsecond
  have hmem : .collected (.stress 12) k ∈ second := by
    refine (stress_mem_of_allocLog hstress ?_).of_ok hsecond
    rw [hfactor, hrecent]
    decide
  obtain ⟨hexists, hall⟩ := chronicle_onSchedule hb
  exact ⟨start, k, l, _, hb, perform_alloc hk, perform_alloc hl, hran, hchronicle,
    List.mem_append_left _ hmem, hcollections, hexists l hran, hall _ l hchronicle⟩

end Heap

end CopyingHeap
