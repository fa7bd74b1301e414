import CopyingHeap.Proofs.Heap.Build

/-!
The shadow stack as a list of words. A slot stands for a position of the list and a mark for a length;
every call on the stack, also one that fails, answers as the same call on the list does.
-/

namespace CopyingHeap

/-- A call on a stack. `Slot` names the words on it, and `Mark` its frames. -/
inductive StackCall (Slot Mark : Type) where
  | push (w : Word)
  | pop
  | load (slot : Slot)
  | store (slot : Slot) (w : Word)
  | mark
  | reset (mark : Mark)

/-- What a call gives that is neither refused nor stopped by a failed check. -/
inductive StackResult (Slot Mark : Type) where
  | slot (slot : Slot)
  | word (w : Word)
  | mark (mark : Mark)
  | done

abbrev StackReply (Slot Mark Failure : Type) :=
  Except Failure (Except AllocationError (StackResult Slot Mark))

/-- Makes the calls in turn, each in the state that the one before it left. -/
def answers {State Call Reply : Type} (answer : State → Call → Reply × State) :
    State → List Call → List Reply × State
  | s, [] => ([], s)
  | s, c :: cs =>
    let (reply, t) := answer s c
    let (replies, u) := answers answer t cs
    (reply :: replies, u)

/-- Two systems of which one call keeps a relation, and gets replies that correspond, do so in every
run. -/
theorem answers_related {State State' Call Call' Reply Reply' : Type}
    {answer : State → Call → Reply × State} {answer' : State' → Call' → Reply' × State'}
    {R : State → State' → Prop} {f : Call' → Call} {g : Reply' → Reply}
    (step : ∀ s s' c, R s s' →
      (answer s (f c)).1 = g (answer' s' c).1 ∧ R (answer s (f c)).2 (answer' s' c).2)
    {s : State} {s' : State'} (hr : R s s') (cs : List Call') :
    (answers answer s (cs.map f)).1 = (answers answer' s' cs).1.map g ∧
      R (answers answer s (cs.map f)).2 (answers answer' s' cs).2 := by
  induction cs generalizing s s' with
  | nil => exact ⟨rfl, hr⟩
  | cons c cs ih =>
    obtain ⟨hreply, hnext⟩ := step s s' c hr
    obtain ⟨hreplies, hlast⟩ := ih hnext
    exact ⟨congrArg₂ List.cons hreply hreplies, hlast⟩

namespace WordList

/-- Why a call on a list of words fails: it is empty, it has no such position, or it is shorter than
the length asked for. -/
inductive Misuse where
  | empty
  | position (p : Nat)
  | length (wanted actual : Nat)

/-- The calls on a list of at most `capacity` words. Pushed words go to its end; a position names a
word, and the length of the list a frame. -/
def answer (capacity : Nat) (ws : List Word) :
    StackCall Nat Nat → StackReply Nat Nat Misuse × List Word
  | .push w =>
    if ws.length = capacity then (.ok (.error .stackOverflow), ws)
    else (.ok (.ok (.slot ws.length)), ws ++ [w])
  | .pop =>
    match ws.getLast? with
    | some w => (.ok (.ok (.word w)), ws.dropLast)
    | none => (.error .empty, ws)
  | .load p =>
    match ws[p]? with
    | some w => (.ok (.ok (.word w)), ws)
    | none => (.error (.position p), ws)
  | .store p w =>
    if p < ws.length then (.ok (.ok .done), ws.set p w) else (.error (.position p), ws)
  | .mark => (.ok (.ok (.mark ws.length)), ws)
  | .reset n =>
    if n ≤ ws.length then (.ok (.ok .done), ws.take n) else (.error (.length n ws.length), ws)

end WordList

namespace ShadowStack

/-- The slot of the word at position `p`. The first word pushed lies right below the base. -/
def slotAt (base : Address) (p : Nat) : RootSlot :=
  RootSlot.mk (Address.ofNat (base.toNat - 4 * (p + 1)))

/-- The mark of a frame below which lie `n` words. -/
def markAt (base : Address) (n : Nat) : StackMark :=
  StackMark.mk (Address.ofNat (base.toNat - 4 * n))

/-- The call on the stack that has its base there. -/
def placeCall (base : Address) : StackCall Nat Nat → StackCall RootSlot StackMark
  | .push w => .push w
  | .pop => .pop
  | .load p => .load (slotAt base p)
  | .store p w => .store (slotAt base p) w
  | .mark => .mark
  | .reset n => .reset (markAt base n)

def placeResult (base : Address) : StackResult Nat Nat → StackResult RootSlot StackMark
  | .slot p => .slot (slotAt base p)
  | .word w => .word w
  | .mark n => .mark (markAt base n)
  | .done => .done

/-- The fault by which the stack answers a call that the list has no answer for. -/
def placeMisuse (base : Address) : WordList.Misuse → Fault
  | .empty => .emptyStack
  | .position p => .slotOffStack (slotAt base p).address
  | .length wanted actual => .markAboveFrame (markAt base wanted).address (markAt base actual).address

def placeReply (base : Address) :
    StackReply Nat Nat WordList.Misuse → StackReply RootSlot StackMark Fault
  | .ok (.ok result) => .ok (.ok (placeResult base result))
  | .ok (.error cause) => .ok (.error cause)
  | .error misuse => .error (placeMisuse base misuse)

/-- A call as a step of the stack and its memory, with the new state if there is one. -/
def attempt (s : ShadowStack) (m : Memory) : StackCall RootSlot StackMark →
    Except Fault (Except AllocationError (StackResult RootSlot StackMark × ShadowStack × Memory))
  | .push w => do
    match ← s.push m w with
    | .ok (slot, s, m) => return .ok (.slot slot, s, m)
    | .error cause => return .error cause
  | .pop => do
    let (w, s) ← s.pop m
    return .ok (.word w, s, m)
  | .load slot => return .ok (.word (← s.load m slot), s, m)
  | .store slot w => return .ok (.done, s, ← s.store m slot w)
  | .mark => return .ok (.mark s.mark, s, m)
  | .reset mark => return .ok (.done, ← s.reset mark, m)

/-- The reply to a call and the state after it. A call that fails or is refused leaves stack and memory
as they are. -/
def answer (state : ShadowStack × Memory) (c : StackCall RootSlot StackMark) :
    StackReply RootSlot StackMark Fault × ShadowStack × Memory :=
  match attempt state.1 state.2 c with
  | .ok (.ok (result, s, m)) => (.ok (.ok result), s, m)
  | .ok (.error cause) => (.ok (.error cause), state)
  | .error fault => (.error fault, state)

/-- The words from `limit` to `base` lie in memory, off the reserved bytes. -/
structure Extent (m : Memory) (base limit : Address) : Prop where
  base_aligned : base.WordAligned
  limit_aligned : limit.WordAligned
  reserved_le : Size.reservedBytes ≤ limit.toNat
  limit_le : limit.toNat ≤ base.toNat
  inside : base.toNat ≤ 4 * m.words.size
  size_le : m.words.size ≤ 0x3FFFC000

/-- The stack between `limit` and `base` holds the words of the list, the first of them right below the
base. Elsewhere the memory is as it was at first. -/
structure Represents (start : Memory) (base limit : Address) (s : ShadowStack) (m : Memory)
    (ws : List Word) : Prop where
  base_eq : s.base = base
  limit_eq : s.limit = limit
  sp_add : s.sp.toNat + 4 * ws.length = base.toNat
  limit_le : limit.toNat ≤ s.sp.toNat
  words : ∀ p w, ws[p]? = some w → m.word (base.toNat / 4 - (p + 1)) = w
  outside : ∀ i, 4 * i < limit.toNat ∨ base.toNat ≤ 4 * i → m.word i = start.word i
  size : m.words.size = start.words.size
  maxPages : m.maxPages = start.maxPages

/-- The number of words between the limit and the base. -/
def capacity (base limit : Address) : Nat :=
  (base.toNat - limit.toNat) / 4

theorem toNat_slotAt (base : Address) (p : Nat) :
    (slotAt base p).address.toNat = base.toNat - 4 * (p + 1) := by
  have := base.toNat_lt
  rw [slotAt, Address.toNat_ofNat]
  omega

theorem toNat_markAt (base : Address) (n : Nat) :
    (markAt base n).address.toNat = base.toNat - 4 * n := by
  have := base.toNat_lt
  rw [markAt, Address.toNat_ofNat]
  omega

theorem below_extent {m : Memory} (hm : m.Paged) {base : Address} (hbase : base.WordAligned)
    (hreserved : Size.reservedBytes ≤ base.toNat) (hinside : base ≤ m.stop) (bytes : Nat) :
    ∃ limit, below base bytes = .ok ⟨base, limit, base⟩ ∧ Extent m base limit ∧
      limit.toNat = (max (base.toNat - bytes % 0x100000000) 8 + 3) / 4 * 4 := by
  have hsize := hm.size_le
  rw [Address.le_iff, Memory.toNat_stop hm] at hinside
  unfold Size.reservedBytes at hreserved
  obtain ⟨limit, hbelow, hlimit⟩ := below_eq_ok hbase bytes
  refine ⟨limit, hbelow, ?_, hlimit⟩
  unfold Address.WordAligned at hbase
  exact
    { base_aligned := hbase
      limit_aligned := by
        unfold Address.WordAligned
        omega
      reserved_le := by
        unfold Size.reservedBytes
        omega
      limit_le := by omega
      inside := hinside
      size_le := hsize }

theorem represents_nil {start : Memory} {base limit : Address} (he : Extent start base limit) :
    Represents start base limit ⟨base, limit, base⟩ start [] where
  base_eq := rfl
  limit_eq := rfl
  sp_add := rfl
  limit_le := he.limit_le
  words := fun _ _ hw => by simp at hw
  outside := fun _ _ => rfl
  size := rfl
  maxPages := rfl

namespace Represents

variable {start : Memory} {base limit : Address} {s : ShadowStack} {m : Memory} {ws : List Word}
  (he : Extent start base limit) (hr : Represents start base limit s m ws)

include he hr

/-- The arithmetic of a stack: all of its addresses are multiples of four, in order. -/
theorem bounds : 8 ≤ limit.toNat ∧ limit.toNat % 4 = 0 ∧ base.toNat % 4 = 0 ∧
    s.sp.toNat + 4 * ws.length = base.toNat ∧ limit.toNat ≤ s.sp.toNat ∧
    base.toNat ≤ 4 * m.words.size ∧ m.words.size ≤ 0x3FFFC000 := by
  have hreserved := he.reserved_le
  have hsize := hr.size
  refine ⟨hreserved, he.limit_aligned, he.base_aligned, hr.sp_add, hr.limit_le, ?_, ?_⟩
  · rw [hsize]
    exact he.inside
  · rw [hsize]
    exact he.size_le

theorem holds_iff (p : Nat) : s.Holds (slotAt base p) ↔ p < ws.length := by
  obtain ⟨h8, -, -, hsp, hlimit, -, -⟩ := hr.bounds he
  unfold Holds slots AddressRange.Contains
  dsimp only
  rw [Address.le_iff, Address.lt_iff, toNat_slotAt, hr.base_eq]
  omega

theorem index_slotAt {p : Nat} (hp : p < ws.length) :
    (slotAt base p).address.WordAligned ∧
      (slotAt base p).address.toNat / 4 = base.toNat / 4 - (p + 1) ∧
      base.toNat / 4 - (p + 1) < m.words.size := by
  obtain ⟨h8, -, hbase, hsp, hlimit, hinside, -⟩ := hr.bounds he
  unfold Address.WordAligned
  rw [toNat_slotAt]
  omega

theorem load_slotAt {p : Nat} {w : Word} (hp : ws[p]? = some w) :
    m.load (slotAt base p).address = .ok w := by
  obtain ⟨hlt, -⟩ := List.getElem?_eq_some_iff.mp hp
  obtain ⟨haligned, hindex, hin⟩ := hr.index_slotAt he hlt
  rw [Memory.load_eq_ok haligned (hindex ▸ hin), hindex, hr.words p w hp]

theorem sp_eq : s.sp = (markAt base ws.length).address := by
  obtain ⟨-, -, -, hsp, -, -, -⟩ := hr.bounds he
  apply Address.ext_toNat
  rw [toNat_markAt]
  omega

/-- The stack with another word at a position, or with one more word. -/
theorem withWord (sp : Address) {vs : List Word} {p : Nat} (w : Word)
    (hsp : sp.toNat + 4 * vs.length = base.toNat) (hlimit : limit.toNat ≤ sp.toNat)
    (hp : p < vs.length) (hvs : ∀ q v, vs[q]? = some v → q = p ∧ v = w ∨ q ≠ p ∧ ws[q]? = some v) :
    Represents start base limit { s with sp } (m.withWord (base.toNat / 4 - (p + 1)) w) vs where
  base_eq := hr.base_eq
  limit_eq := hr.limit_eq
  sp_add := hsp
  limit_le := hlimit
  words := fun q v hv => by
    obtain ⟨-, -, hbase, -, -, hinside, -⟩ := hr.bounds he
    obtain ⟨hq, -⟩ := List.getElem?_eq_some_iff.mp hv
    have hreserved := he.reserved_le
    unfold Size.reservedBytes at hreserved
    rcases hvs q v hv with ⟨rfl, rfl⟩ | ⟨hne, hold⟩
    · rw [Memory.word_withWord (by omega), if_pos rfl]
    · rw [Memory.word_withWord_ne _ (by omega)]
      exact hr.words q v hold
  outside := fun i hi => by
    have hreserved := he.reserved_le
    have haligned := he.base_aligned
    unfold Size.reservedBytes at hreserved
    unfold Address.WordAligned at haligned
    rw [Memory.word_withWord_ne _ (by omega)]
    exact hr.outside i hi
  size := (Memory.size_withWord ..).trans hr.size
  maxPages := hr.maxPages

/-- The stack with its first words only. -/
theorem take {n : Nat} (hn : n ≤ ws.length) {sp : Address}
    (hsp : sp.toNat + 4 * n = base.toNat) :
    Represents start base limit { s with sp } m (ws.take n) where
  base_eq := hr.base_eq
  limit_eq := hr.limit_eq
  sp_add := by
    rw [List.length_take, Nat.min_eq_left hn]
    exact hsp
  limit_le := by
    obtain ⟨-, -, -, hold, hlimit, -, -⟩ := hr.bounds he
    dsimp only
    omega
  words := fun p w hw => by
    rw [List.getElem?_take] at hw
    split at hw
    · exact hr.words p w hw
    · cases hw
  outside := hr.outside
  size := hr.size
  maxPages := hr.maxPages

theorem push_full (hfull : ws.length = capacity base limit) (w : Word) :
    s.push m w = .ok (.error .stackOverflow) := by
  obtain ⟨-, hlimit, hbase, hsp, hle, hinside, hsize⟩ := hr.bounds he
  unfold capacity at hfull
  obtain ⟨past, hadd, hpast⟩ := Address.exists_add (a := limit) (n := 4) (by omega)
  have hlt : s.sp < past := by
    rw [Address.lt_iff]
    omega
  rw [push, hr.limit_eq, Size.wordBytes, hadd, ok_bind, if_pos hlt]
  rfl

theorem push_room (hroom : ws.length ≠ capacity base limit) (w : Word) :
    ∃ sp, s.push m w = .ok (.ok (slotAt base ws.length, { s with sp },
        m.withWord (base.toNat / 4 - (ws.length + 1)) w)) ∧
      Represents start base limit { s with sp }
        (m.withWord (base.toNat / 4 - (ws.length + 1)) w) (ws ++ [w]) := by
  obtain ⟨h8, hlimit, hbase, hsp, hle, hinside, hsize⟩ := hr.bounds he
  unfold capacity at hroom
  obtain ⟨past, hadd, hpast⟩ := Address.exists_add (a := limit) (n := 4) (by omega)
  have hge : ¬ s.sp < past := by
    rw [Address.lt_iff]
    omega
  have hslot := toNat_slotAt base ws.length
  have hsub : s.sp.sub 4 = .ok (slotAt base ws.length).address := by
    rw [Address.sub_eq_ok_iff, hslot]
    omega
  have haligned : (slotAt base ws.length).address.WordAligned := by
    unfold Address.WordAligned
    omega
  have hindex : (slotAt base ws.length).address.toNat / 4 = base.toNat / 4 - (ws.length + 1) := by
    omega
  refine ⟨(slotAt base ws.length).address, ?_, ?_⟩
  · rw [push, hr.limit_eq, Size.wordBytes, hadd, ok_bind, if_neg hge, hsub, ok_bind,
      Memory.store_eq_ok haligned (by omega), hindex, ok_bind]
    rfl
  · refine hr.withWord he _ w ?_ (by omega) (by simp) fun q v hv => ?_
    · rw [List.length_append, List.length_singleton]
      omega
    · rw [List.getElem?_append] at hv
      split at hv
      · exact .inr ⟨by omega, hv⟩
      · obtain ⟨hq, hvalue⟩ := List.getElem?_eq_some_iff.mp hv
        rw [List.length_singleton] at hq
        rw [List.getElem_singleton] at hvalue
        exact .inl ⟨by omega, hvalue.symm⟩

omit he in
theorem pop_nil (hnil : ws = []) : s.pop m = .error .emptyStack := by
  have hsp := hr.sp_add
  rw [hnil, List.length_nil] at hsp
  have hge : ¬ s.sp < s.base := by
    rw [Address.lt_iff, hr.base_eq]
    omega
  rw [pop, if_neg hge]
  rfl

theorem pop_last {w : Word} (hlast : ws.getLast? = some w) :
    ∃ sp, s.pop m = .ok (w, { s with sp }) ∧
      Represents start base limit { s with sp } m ws.dropLast := by
  obtain ⟨h8, -, hbase, hsp, hle, hinside, hsize⟩ := hr.bounds he
  rw [List.getLast?_eq_getElem?] at hlast
  obtain ⟨hlt, -⟩ := List.getElem?_eq_some_iff.mp hlast
  have htop : s.sp = (slotAt base (ws.length - 1)).address := by
    apply Address.ext_toNat
    rw [toNat_slotAt]
    omega
  have hload := hr.load_slotAt he hlast
  have hmark := toNat_markAt base (ws.length - 1)
  have hadd : s.sp.add Size.wordBytes = .ok (markAt base (ws.length - 1)).address := by
    rw [Address.add_eq_ok_iff, hmark, Size.wordBytes]
    omega
  have hbelow : s.sp < s.base := by
    rw [Address.lt_iff, hr.base_eq]
    omega
  refine ⟨(markAt base (ws.length - 1)).address, ?_, ?_⟩
  · rw [pop, if_pos hbelow, hadd, htop, hload]
    rfl
  · rw [List.dropLast_eq_take]
    exact hr.take he (by omega) (by omega)

theorem store_slotAt {p : Nat} (hp : p < ws.length) (w : Word) :
    s.store m (slotAt base p) w = .ok (m.withWord (base.toNat / 4 - (p + 1)) w) ∧
      Represents start base limit s (m.withWord (base.toNat / 4 - (p + 1)) w) (ws.set p w) := by
  obtain ⟨haligned, hindex, hin⟩ := hr.index_slotAt he hp
  refine ⟨?_, ?_⟩
  · rw [store, if_pos ((hr.holds_iff he p).mpr hp), Memory.store_eq_ok haligned (hindex ▸ hin), hindex]
  · refine hr.withWord he s.sp w ?_ hr.limit_le (by rwa [List.length_set]) fun q v hv => ?_
    · rw [List.length_set]
      exact hr.sp_add
    · rw [List.getElem?_set] at hv
      split at hv
      · rename_i hpq
        rw [Option.some.injEq] at hv
        exact .inl ⟨hpq.symm, hv.symm⟩
      · rename_i hpq
        exact .inr ⟨fun h => hpq h.symm, hv⟩

theorem reset_markAt {n : Nat} (hn : n ≤ ws.length) :
    s.reset (markAt base n) = .ok { s with sp := (markAt base n).address } ∧
      Represents start base limit { s with sp := (markAt base n).address } m (ws.take n) := by
  obtain ⟨-, -, -, hsp, -, -, -⟩ := hr.bounds he
  have hmark := toNat_markAt base n
  refine ⟨reset_eq_ok_iff.mpr ⟨⟨?_, ?_⟩, rfl⟩, hr.take he hn (by omega)⟩
  · rw [Address.le_iff]
    omega
  · rw [Address.le_iff, hr.base_eq]
    omega

theorem reset_deeper {n : Nat} (hn : ws.length < n) :
    s.reset (markAt base n) =
      .error (.markAboveFrame (markAt base n).address (markAt base ws.length).address) := by
  obtain ⟨h8, -, -, hsp, hle, -, -⟩ := hr.bounds he
  have hbelow : ¬ (s.sp ≤ (markAt base n).address ∧ (markAt base n).address ≤ s.base) := by
    rw [Address.le_iff, toNat_markAt]
    omega
  rw [reset, if_neg hbelow, hr.sp_eq he]

/-- A call on the stack and the same call on the list get replies that correspond, and leave a stack
that still represents the list. -/
theorem answer (c : StackCall Nat Nat) :
    (ShadowStack.answer (s, m) (placeCall base c)).1 =
        placeReply base (WordList.answer (capacity base limit) ws c).1 ∧
      Represents start base limit (ShadowStack.answer (s, m) (placeCall base c)).2.1
        (ShadowStack.answer (s, m) (placeCall base c)).2.2
        (WordList.answer (capacity base limit) ws c).2 := by
  unfold ShadowStack.answer WordList.answer
  cases c with
  | push w =>
    by_cases hfull : ws.length = capacity base limit
    · simp only [placeCall, attempt, hr.push_full he hfull, if_pos hfull]
      exact ⟨rfl, hr⟩
    · obtain ⟨sp, hpush, hnext⟩ := hr.push_room he hfull w
      simp only [placeCall, attempt, hpush, if_neg hfull]
      exact ⟨rfl, hnext⟩
  | pop =>
    cases hlast : ws.getLast? with
    | none =>
      simp only [placeCall, attempt, hr.pop_nil (List.getLast?_eq_none_iff.mp hlast)]
      exact ⟨rfl, hr⟩
    | some w =>
      obtain ⟨sp, hpop, hnext⟩ := hr.pop_last he hlast
      simp only [placeCall, attempt, hpop]
      exact ⟨rfl, hnext⟩
  | load p =>
    cases hp : ws[p]? with
    | none =>
      have hoff : ¬ s.Holds (slotAt base p) := by
        rw [hr.holds_iff he]
        exact Nat.not_lt.mpr (List.getElem?_eq_none_iff.mp hp)
      simp only [placeCall, attempt, load, if_neg hoff, hp]
      exact ⟨rfl, hr⟩
    | some w =>
      have hon : s.Holds (slotAt base p) :=
        (hr.holds_iff he p).mpr (List.getElem?_eq_some_iff.mp hp).1
      simp only [placeCall, attempt, load, if_pos hon, hr.load_slotAt he hp, hp]
      exact ⟨rfl, hr⟩
  | store p w =>
    by_cases hp : p < ws.length
    · obtain ⟨hstore, hnext⟩ := hr.store_slotAt he hp w
      simp only [placeCall, attempt, hstore, if_pos hp]
      exact ⟨rfl, hnext⟩
    · have hoff : ¬ s.Holds (slotAt base p) := by rwa [hr.holds_iff he]
      simp only [placeCall, attempt, store, if_neg hoff, if_neg hp]
      exact ⟨rfl, hr⟩
  | mark =>
    refine ⟨?_, hr⟩
    simp only [placeCall, attempt, mark, hr.sp_eq he]
    rfl
  | reset n =>
    by_cases hn : n ≤ ws.length
    · obtain ⟨hreset, hnext⟩ := hr.reset_markAt he hn
      simp only [placeCall, attempt, hreset, if_pos hn]
      exact ⟨rfl, hnext⟩
    · simp only [placeCall, attempt, hr.reset_deeper he (Nat.not_le.mp hn), if_neg hn]
      exact ⟨rfl, hr⟩

theorem loadWords_sp {n : Nat} (hn : n ≤ ws.length) :
    m.loadWords (markAt base n).address n = .ok (ws.take n).reverse := by
  induction n with
  | zero => rfl
  | succ n ih =>
    obtain ⟨h8, -, hbase, hsp, hle, hinside, hsize⟩ := hr.bounds he
    have hword : ws[n]? = some ws[n] := List.getElem?_eq_getElem hn
    have hload : m.load (markAt base (n + 1)).address = .ok ws[n] := hr.load_slotAt he hword
    have hnext : Address.ofNat ((markAt base (n + 1)).address.toNat + 4) = (markAt base n).address := by
      apply Address.ext_toNat
      rw [toNat_markAt, toNat_markAt, Address.toNat_ofNat]
      omega
    rw [Memory.loadWords, hload, ok_bind, hnext, ih (by omega), ok_bind, List.take_add_one, hword,
      Option.toList_some, List.reverse_append, List.reverse_singleton]
    rfl

end Represents

/-- What can be seen of a stack that holds these words, the first one pushed at the head of the list. -/
structure Shows (s : ShadowStack) (m : Memory) (ws : List Word) : Prop where
  aligned : s.sp.WordAligned
  limit_le : s.limit ≤ s.sp
  sp_le : s.sp ≤ s.base
  full_iff : s.sp = s.limit ↔ ws.length = capacity s.base s.limit
  depth : s.depth = .ok ws.length
  slots : ∀ a : Address, a.WordAligned →
    (s.slots.Contains a ↔ ∃ p, p < ws.length ∧ a = (slotAt s.base p).address)
  load : ∀ p w, ws[p]? = some w → m.load (slotAt s.base p).address = .ok w
  words : s.words m = .ok ws.reverse

theorem Represents.shows {start : Memory} {base limit : Address} {s : ShadowStack} {m : Memory}
    {ws : List Word} (he : Extent start base limit) (hr : Represents start base limit s m ws) :
    s.Shows m ws := by
  obtain ⟨h8, hlimit, hbase, hsp, hle, hinside, hsize⟩ := hr.bounds he
  have hbaseEq := hr.base_eq
  have hlimitEq := hr.limit_eq
  subst hbaseEq hlimitEq
  exact
    { aligned := by
        unfold Address.WordAligned
        omega
      limit_le := hle
      sp_le := by
        rw [Address.le_iff]
        omega
      full_iff := by
        unfold capacity
        rw [← Address.toNat_inj]
        omega
      depth := by
        have hdiff : s.base.diff s.sp = .ok (4 * ws.length) :=
          Address.diff_eq_ok_iff.mpr (by omega)
        rw [depth, hdiff, ok_bind, Size.wordBytes, Nat.mul_div_cancel_left _ (by decide)]
        rfl
      slots := fun a ha => by
        unfold Address.WordAligned at ha
        unfold ShadowStack.slots AddressRange.Contains
        dsimp only
        rw [Address.le_iff, Address.lt_iff]
        refine ⟨fun h => ⟨(s.base.toNat - a.toNat) / 4 - 1, by omega, ?_⟩, ?_⟩
        · apply Address.ext_toNat
          rw [toNat_slotAt]
          omega
        · rintro ⟨p, hp, rfl⟩
          rw [toNat_slotAt]
          omega
      load := fun p w hw => hr.load_slotAt he hw
      words := by
        have hcount : s.sp.wordsBetween s.base = ws.length := by
          unfold Address.wordsBetween
          omega
        rw [ShadowStack.words, hcount, hr.sp_eq he, hr.loadWords_sp he (Nat.le_refl _), List.take_length] }

/-- A stack made below an aligned base inside of memory, off the reserved bytes, is a list of words:
whatever calls a program makes, the replies are those of the list, the stack shows the words on the
list, and the memory outside of the stack stays as it was. -/
theorem refines_list {m : Memory} (hm : m.Paged) {base : Address} (hbase : base.WordAligned)
    (hreserved : Size.reservedBytes ≤ base.toNat) (hinside : base ≤ m.stop) (bytes : Nat) :
    ∃ limit, below base bytes = .ok ⟨base, limit, base⟩ ∧
      limit.toNat = (max (base.toNat - bytes % 0x100000000) Size.reservedBytes + 3) / 4 * 4 ∧
      ∀ calls : List (StackCall Nat Nat),
        let list := answers (WordList.answer (capacity base limit)) [] calls
        let stack := answers answer (⟨base, limit, base⟩, m) (calls.map (placeCall base))
        stack.1 = list.1.map (placeReply base) ∧ stack.2.1.Shows stack.2.2 list.2 ∧
          stack.2.1.base = base ∧ stack.2.1.limit = limit ∧
          stack.2.2.words.size = m.words.size ∧ stack.2.2.maxPages = m.maxPages ∧
          ∀ i, 4 * i < limit.toNat ∨ base.toNat ≤ 4 * i → stack.2.2.word i = m.word i := by
  obtain ⟨limit, hbelow, he, hlimit⟩ := below_extent hm hbase hreserved hinside bytes
  refine ⟨limit, hbelow, hlimit, fun calls => ?_⟩
  obtain ⟨hreplies, hr⟩ := answers_related
    (s := ((⟨base, limit, base⟩ : ShadowStack), m))
    (R := fun x ws => Represents m base limit x.1 x.2 ws)
    (fun _ _ c hr => hr.answer he c) (represents_nil he) calls
  exact ⟨hreplies, hr.shows he, hr.base_eq, hr.limit_eq, hr.size, hr.maxPages, hr.outside⟩

/-- Two words fit between the reserved bytes and address 16. -/
theorem refines_list_blank :
    let base := Address.ofNat 16
    let stack : ShadowStack := ⟨base, Address.ofNat 8, base⟩
    below base 64 = .ok stack ∧
      (answers answer (stack, Heap.blank)
        [.push 5, .mark, .push 6, .push 7, .load (slotAt base 1), .reset (markAt base 1),
          .load (slotAt base 1), .pop, .reset (markAt base 1), .pop]).1 =
        [.ok (.ok (.slot (slotAt base 0))), .ok (.ok (.mark (markAt base 1))),
          .ok (.ok (.slot (slotAt base 1))), .ok (.error .stackOverflow), .ok (.ok (.word 6)),
          .ok (.ok .done), .error (.slotOffStack (Address.ofNat 8)), .ok (.ok (.word 5)),
          .error (.markAboveFrame (Address.ofNat 12) base), .error .emptyStack] := by
  have haligned : (Address.ofNat 16).WordAligned := by decide
  obtain ⟨limit, hbelow, hlimit, hruns⟩ := refines_list Heap.paged_blank haligned (by decide)
    (by rw [Address.le_iff, Memory.toNat_stop Heap.paged_blank, Heap.size_blank]; decide) 64
  obtain rfl : limit = Address.ofNat 8 := Address.ext_toNat hlimit
  refine ⟨hbelow, ?_⟩
  exact (hruns [.push 5, .mark, .push 6, .push 7, .load 1, .reset 1, .load 1, .pop, .reset 1, .pop]).1

end ShadowStack

end CopyingHeap
