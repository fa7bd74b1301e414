import CopyingHeap.Proofs.Heap.Balance

/-!
When collections run. A log of what a heap does gives the cause of every collection: the program has asked
for it, the stress factor calls for it, or a block does not fit. Between two collections the blocks that are
handed out stay within the stress factor, unless the first of them alone exceeds it.
-/

namespace CopyingHeap

/-- Why a collection runs. The last two serve a request for a block of so many bytes. -/
inductive Cause where
  | requested
  | stress (bytes : Nat)
  | full (bytes : Nat)

/-- What a heap does. -/
inductive Act where
  /-- A block of so many bytes, rounded, has been handed out. -/
  | handed (bytes : Nat)
  /-- A collection, and the heap that it found. -/
  | collected (cause : Cause) (before : Heap)
  | grown

namespace Act

def isCollection : Act → Bool
  | collected _ _ => true
  | _ => false

/-- The blocks handed out since the last collection, where the last act comes first. -/
def blocks : List Act → List Nat
  | [] => []
  | handed bytes :: acts => bytes :: blocks acts
  | collected _ _ :: _ => []
  | grown :: acts => blocks acts

/-- Is there cause for what is done after those acts, if the stress factor is `factor`? -/
def Due (factor : Nat) (acts : List Act) : Act → Prop
  | collected (.stress bytes) _ => factor ≠ Size.highest ∧ factor < (blocks acts).sum + bytes
  | collected (.full bytes) before => ∃ free, before.free = .ok free ∧ free < bytes
  | collected .requested _ | handed _ | grown => True

/-- There was cause for all the acts. -/
def AllDue (factor : Nat) : List Act → Prop
  | [] => True
  | act :: acts => act.Due factor acts ∧ AllDue factor acts

end Act

namespace Heap

/-- `charge`, with a log of what it does. -/
def chargeLog (h : Heap) (bytes : Nat) : Except Fault (List Act × Heap) := do
  let recent ← Size.add h.recent bytes
  if h.options.stress && h.options.stressFactor < recent then
    return ([.collected (.stress bytes) h], { (← h.collect) with recent := bytes })
  else return ([], { h with recent })

/-- `alloc`, with a log of what it does. -/
def allocLog (h : Heap) (size : Nat) : Except Fault (List Act × Address × Heap) := do
  if Address.highest.toNat < size then throw (.outOfMemory (.heapExhausted size))
  else
    let bytes := Size.objectBytes size
    let (acts, h) ← h.chargeLog bytes
    match ← h.tryAlloc bytes with
    | (some a, h) => return (.handed bytes :: acts, a, h)
    | (none, h) =>
      let acts := .collected (.full bytes) h :: acts
      match ← { (← h.collect) with recent := bytes }.tryAlloc bytes with
      | (some a, h) => return (.handed bytes :: acts, a, h)
      | (none, h) =>
        match ← (← h.growFor bytes).tryAlloc bytes with
        | (some a, h) => return (.handed bytes :: .grown :: acts, a, h)
        | (none, _) => throw (.outOfMemory (.heapExhausted size))

/-- What the heap `start` has done to become another one, the last act first. In between a program may
do as it likes with the memory and the stack. -/
inductive Chronicle (start : Heap) : List Act → Heap → Prop where
  | start : Chronicle start [] start
  | quiet {acts : List Act} {h k : Heap} :
      Chronicle start acts h → k.spaces = h.spaces → k.bump = h.bump → k.options = h.options →
      k.statistics = h.statistics → k.recent = h.recent → Chronicle start acts k
  | alloc {acts more : List Act} {h k : Heap} {size : Nat} {a : Address} :
      Chronicle start acts h → h.allocLog size = .ok (more, a, k) → Chronicle start (more ++ acts) k
  | collect {acts : List Act} {h k : Heap} :
      Chronicle start acts h → h.collect = .ok k →
      Chronicle start (.collected .requested h :: acts) k

theorem charge_eq (h : Heap) (bytes : Nat) :
    h.charge bytes = h.chargeLog bytes >>= fun x => .ok x.2 := by
  unfold charge chargeLog
  rw [bind_assoc]
  apply bind_congr
  intro recent
  split
  · cases h.collect <;> rfl
  · rfl

/-- The log is all that the two differ in. -/
theorem alloc_eq_log (h : Heap) (size : Nat) :
    h.alloc size = h.allocLog size >>= fun x => .ok x.2 := by
  unfold alloc allocLog
  generalize Size.objectBytes size = bytes
  by_cases hsize : Address.highest.toNat < size
  · rw [if_pos hsize, if_pos hsize]
    rfl
  · rw [if_neg hsize, if_neg hsize]
    dsimp only
    rw [charge_eq, bind_assoc, bind_assoc]
    apply bind_congr
    rintro ⟨acts, s⟩
    rw [ok_bind, bind_assoc]
    apply bind_congr
    rintro ⟨_ | a, s⟩
    · simp only [bind_assoc]
      apply bind_congr
      intro t
      apply bind_congr
      rintro ⟨_ | a, t⟩
      · simp only [bind_assoc]
        apply bind_congr
        intro u
        apply bind_congr
        rintro ⟨_ | a, u⟩ <;> rfl
      · rfl
    · rfl

/-- The block of a logged allocation is taken in a heap with the property `P`, if charging the request
leads to such a heap, and collecting and growing lead from one to the next. -/
theorem allocLog_takes {h : Heap} {size bytes : Nat} {P : List Act → Heap → Prop}
    (hbytes : Size.objectBytes size = bytes)
    (hcharge : Ends (h.chargeLog bytes) (fun x => P x.1 x.2) fun _ => True)
    (hcollect : ∀ acts s, P acts s → s.bump.alloc bytes = none →
      Ends s.collect (fun t => P (.collected (.full bytes) s :: acts) { t with recent := bytes })
        fun _ => True)
    (hgrow : ∀ acts s, P acts s → Ends (s.growFor bytes) (P (.grown :: acts)) fun _ => True) :
    Ends (h.allocLog size)
      (fun x => ∃ acts s bump, x.1 = .handed bytes :: acts ∧ P acts s ∧
        s.bump.alloc bytes = some (x.2.1, bump) ∧ s.takeBlock x.2.1 bump bytes = .ok x.2.2)
      fun _ => True := by
  unfold allocLog
  rw [hbytes]
  split
  · trivial
  apply hcharge.bind
  rintro ⟨acts, s⟩ hs
  apply (s.tryAlloc_cases bytes).bind
  rintro ⟨_, l⟩ (⟨a, bump, halloc, htake, rfl⟩ | ⟨hnone, hl⟩)
  · exact ⟨acts, s, bump, rfl, hs, halloc, htake⟩
  · cases hl
    apply (hcollect acts s hs hnone).bind
    intro t ht
    apply (tryAlloc_cases _ bytes).bind
    rintro ⟨_, l⟩ (⟨a, bump, halloc, htake, rfl⟩ | ⟨-, hl⟩)
    · exact ⟨_, _, bump, rfl, ht, halloc, htake⟩
    · cases hl
      apply (hgrow _ _ ht).bind
      intro u hu
      apply (u.tryAlloc_cases bytes).bind
      rintro ⟨_, l⟩ (⟨a, bump, halloc, htake, rfl⟩ | ⟨-, hl⟩)
      · exact ⟨_, u, bump, rfl, hu, halloc, htake⟩
      · cases hl
        trivial

/-- A request beyond the stress factor is served after a stress collection. -/
theorem stress_mem_of_allocLog {h : Heap} {size : Nat} (hstress : h.options.stress = true)
    (hlt : h.options.stressFactor < h.recent + Size.objectBytes size) :
    Ends (h.allocLog size) (fun x => .collected (.stress (Size.objectBytes size)) h ∈ x.1)
      fun _ => True := by
  have hcharge : Ends (h.chargeLog (Size.objectBytes size))
      (fun x => .collected (.stress (Size.objectBytes size)) h ∈ x.1) fun _ => True := by
    apply Ends.bind_eq
    intro recent hadd
    obtain ⟨-, rfl⟩ := Size.add_eq_ok_iff.mp hadd
    rw [hstress, decide_eq_true hlt]
    apply Ends.bind_forall
    exact fun k => List.mem_singleton_self _
  apply (allocLog_takes (P := fun acts _ => _ ∈ acts) rfl hcharge (fun acts s hs _ => ?_)
    fun acts s hs => ?_).imp
  · rintro x ⟨acts, s, bump, hx, hs, -⟩
    rw [hx]
    exact List.mem_cons_of_mem _ hs
  · exact .of_forall fun _ => List.mem_cons_of_mem _ hs
  · exact .of_forall fun _ => List.mem_cons_of_mem _ hs

/-- The log `acts` tells what has become of the heap `start`, and `pending` bytes have been charged for a
block that is still to be handed out. -/
structure Logged (start : Heap) (acts : List Act) (pending : Nat) (h : Heap) : Prop where
  options : h.options = start.options
  spanned : h.Spanned
  recent : h.recent = (Act.blocks acts).sum + pending
  collections : h.statistics.collections =
    start.statistics.collections + acts.countP Act.isCollection
  due : Act.AllDue start.options.stressFactor acts
  within : start.options.stressFactor ≠ Size.highest →
    (Act.blocks acts).sum + pending ≤ start.options.stressFactor ∨ Act.blocks acts = [] ∨
      pending = 0 ∧ ∃ bytes, Act.blocks acts = [bytes]

namespace Logged

variable {start h k : Heap} {acts : List Act} {bytes : Nat}

theorem same {pending : Nat} (hl : Logged start acts pending h) (hspaces : k.spaces = h.spaces)
    (hbump : k.bump = h.bump) (hoptions : k.options = h.options)
    (hstatistics : k.statistics = h.statistics) (hrecent : k.recent = h.recent) :
    Logged start acts pending k where
  __ := hl
  options := hoptions.trans hl.options
  spanned := hl.spanned.congr hspaces hbump
  recent := hrecent.trans hl.recent
  collections := by
    rw [hstatistics]
    exact hl.collections

/-- After a collection nothing counts but the request that is pending. -/
theorem collected {pending : Nat} {cause : Cause} (hl : Logged start acts pending h)
    (hk : h.Settles k) (hdue : (Act.collected cause h).Due start.options.stressFactor acts)
    (bytes : Nat) :
    Logged start (.collected cause h :: acts) bytes { k with recent := bytes } where
  options := hk.options.trans hl.options
  spanned := (hk.spanned hl.spanned).congr rfl rfl
  recent := (Nat.zero_add bytes).symm
  collections := by
    rw [List.countP_cons_of_pos rfl, ← Nat.add_assoc, ← hl.collections]
    exact hk.collections
  due := ⟨hdue, hl.due⟩
  within := fun _ => .inr (.inl rfl)

theorem charged (hl : Logged start acts 0 h) (bytes : Nat) :
    Ends (h.chargeLog bytes) (fun x => Logged start (x.1 ++ acts) bytes x.2) fun _ => True := by
  have hrecent := hl.recent
  apply Ends.bind_eq
  intro recent hadd
  obtain ⟨-, rfl⟩ := Size.add_eq_ok_iff.mp hadd
  split
  · rename_i hstress
    rw [Bool.and_eq_true, decide_eq_true_iff, hl.options, Options.stress, bne_iff_ne] at hstress
    apply h.collect_settles.bind
    intro k hk
    have hdue : (Act.collected (.stress bytes) h).Due start.options.stressFactor acts := by
      refine ⟨hstress.1, ?_⟩
      omega
    exact hl.collected hk hdue bytes
  · rename_i hcalm
    refine
      { hl with
        spanned := hl.spanned.congr rfl rfl
        recent := ?_
        within := fun hfactor => .inl ?_ }
    · exact congrArg (· + bytes) hl.recent
    · show (Act.blocks acts).sum + bytes ≤ start.options.stressFactor
      rw [Bool.and_eq_true, decide_eq_true_iff, hl.options, Options.stress, bne_iff_ne] at hcalm
      have hle : ¬ start.options.stressFactor < h.recent + bytes := fun hlt => hcalm ⟨hfactor, hlt⟩
      omega

theorem grown (hl : Logged start acts bytes h) (n : Nat) :
    Ends (h.growFor n) (Logged start (.grown :: acts) bytes) fun _ => True := by
  cases hgrow : h.growFor n with
  | error f => trivial
  | ok k =>
    have hgrows := grows_of_growFor hl.spanned hgrow
    obtain ⟨hrecent, hoptions⟩ := untouched_of_growFor hgrow
    exact
      { options := hoptions.trans hl.options
        spanned := hgrows.spanned
        recent := hrecent.trans hl.recent
        collections := by
          rw [hgrows.statistics]
          exact hl.collections
        due := ⟨trivial, hl.due⟩
        within := hl.within }

theorem handed (hl : Logged start acts bytes h) (hpos : 0 < bytes) {a : Address} {bump : Bump}
    (halloc : h.bump.alloc bytes = some (a, bump)) (hk : h.takeBlock a bump bytes = .ok k) :
    Logged start (.handed bytes :: acts) 0 k := by
  have hhands := hands_of_takeBlock halloc hk
  have hblocks : Act.blocks (.handed bytes :: acts) = bytes :: Act.blocks acts := rfl
  refine
    { options := (options_of_takeBlock hk).trans hl.options
      spanned := hhands.spanned hl.spanned
      recent := ?_
      collections := ?_
      due := ⟨trivial, hl.due⟩
      within := fun hfactor => ?_ }
  · rw [hhands.recent, hl.recent, hblocks, List.sum_cons]
    omega
  · rw [hhands.statistics]
    exact hl.collections
  · rw [hblocks, List.sum_cons]
    rcases hl.within hfactor with hle | hnone | ⟨rfl, b, hb⟩
    · left
      omega
    · rw [hnone]
      exact .inr (.inr ⟨rfl, bytes, rfl⟩)
    · exact absurd hpos (Nat.lt_irrefl 0)

theorem alloc (hl : Logged start acts 0 h) (size : Nat) :
    Ends (h.allocLog size) (fun x => Logged start (x.1 ++ acts) 0 x.2.2) fun _ => True := by
  apply (allocLog_takes (P := fun more s => Logged start (more ++ acts) (Size.objectBytes size) s) rfl
    (hl.charged _) (fun more s hs hnone => ?_) fun more s hs => hs.grown _).imp
  · rintro ⟨_, a, k⟩ ⟨more, s, bump, rfl, hs, halloc, htake⟩
    exact hs.handed (Nat.lt_of_lt_of_le (by decide) (Nat.le_max_right _ _)) halloc htake
  · apply s.collect_settles.imp
    intro t ht
    refine hs.collected ht ?_ _
    have hle := Address.le_iff.mp hs.spanned.cursor_le
    have hfree : s.free = .ok (s.bump.limit.toNat - s.bump.cursor.toNat) := by
      rw [Heap.free, Bump.remaining, Address.diff_eq_ok_iff]
      omega
    rw [Bump.alloc_eq_none_iff] at hnone
    exact ⟨_, hfree, by omega⟩

end Logged

theorem Chronicle.logged {start h : Heap} {acts : List Act} (hstart : Logged start [] 0 start)
    (hc : start.Chronicle acts h) : Logged start acts 0 h := by
  induction hc with
  | start => exact hstart
  | quiet _ hspaces hbump hoptions hstatistics hrecent ih =>
    exact ih.same hspaces hbump hoptions hstatistics hrecent
  | alloc _ hlog ih => exact (ih.alloc _).of_ok hlog
  | @collect acts h k _ hk ih =>
    have hsettles := (h.collect_settles).of_ok hk
    have hrecent : k = { k with recent := 0 } := by rw [← hsettles.recent]
    have hdue : (Act.collected .requested h).Due start.options.stressFactor acts := trivial
    rw [hrecent]
    exact ih.collected hsettles hdue 0

/-- Every heap that operations lead to has a chronicle. -/
theorem upheld_chronicle (start : Heap) : Upheld fun h => ∃ acts, start.Chronicle acts h where
  same := by
    rintro h k ⟨acts, hc⟩ hspaces hbump hoptions hstatistics hrecent
    exact ⟨acts, hc.quiet hspaces hbump hoptions hstatistics hrecent⟩
  collect := by
    rintro h ⟨acts, hc⟩
    apply h.collect_settles.with_eq.imp
    rintro k ⟨-, hk⟩
    exact ⟨_, hc.collect hk⟩
  alloc := by
    rintro h ⟨acts, hc⟩ size
    rw [alloc_eq_log]
    apply Ends.bind_eq
    rintro ⟨more, a, k⟩ hlog
    exact ⟨_, hc.alloc hlog⟩

end Heap

end CopyingHeap
