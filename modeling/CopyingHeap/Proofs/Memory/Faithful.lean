import CopyingHeap.Proofs.Heap.Build
import CopyingHeap.Proofs.Memory.Calls

/-!
A memory neither loses nor invents data. A call that returns keeps the memory whole: pages up to the
maximum, the maximum no higher than before, and each byte the one last written to its place. By induction
on the calls the same holds after any number of them, whatever the host has refused in between.
-/

namespace CopyingHeap

open Effect

namespace Memory

variable {m n : Memory}

theorem eq_ok_of_discard {σ α : Type} {act : Effect σ α} {s s' : σ}
    (h : (do let _ ← act; return ()).run s = .ok () s') : ∃ a, act.run s = .ok a s' := by
  cases hact : act.run s with
  | error e t =>
    rw [run_bind_error _ hact] at h
    nomatch h
  | ok a t =>
    rw [run_bind_ok _ hact] at h
    cases h
    exact ⟨a, rfl⟩

theorem Paged.makes_same (hm : m.Paged) {c : Call} (hc : c.resizes = true) : c.Makes m m := by
  have h := Call.makes_resize hm hc (Nat.le_refl _) hm.pages_le
  rwa [hm.resize_pages] at h

theorem Paged.makes_grow (hm : m.Paged) {delta : Nat} {answer : Except GrowError Nat}
    (h : (growing delta).run m = .ok answer n) : (Call.grow delta).Makes m n := by
  rcases growing_cases hm h with ⟨hfits, -, rfl⟩ | ⟨-, -, rfl⟩
  · exact Call.makes_resize hm rfl (Nat.le_add_right _ _) hfits
  · exact hm.makes_same rfl

theorem Paged.makes_ensure (hm : m.Paged) {past : Address} {answer : Except GrowError Unit}
    (h : (ensuring past).run m = .ok answer n) : (Call.ensure past).Makes m n := by
  rcases ensuring_cases hm h with ⟨hfits, -, rfl⟩ | ⟨-, -, rfl⟩
  · exact Call.makes_resize hm rfl (Nat.le_max_left _ _) (Nat.max_le.mpr ⟨hm.pages_le, hfits⟩)
  · exact hm.makes_same rfl

theorem Paged.makes_limitPages (hm : m.Paged) (maxPages : Nat) :
    (Call.limitPages maxPages).Makes m (m.limitPages maxPages) where
  paged := hm.limitPages maxPages
  maxPages_le := Nat.max_le.mpr ⟨hm.pages_le, Nat.min_le_right _ _⟩
  size_le := Nat.le_refl _
  byteAt_eq _ := rfl

/-- What a call does, for every call that returns. -/
theorem Paged.perform (hm : m.Paged) {c : Call} (h : c.perform.run m = .ok () n) : c.Makes m n := by
  cases c with
  | store a w => exact Call.makes_store hm (eq_ok_of_change h)
  | writeBytes a bs => exact Call.makes_writeBytes hm (eq_ok_of_change h)
  | copy source target bytes => exact Call.makes_copy hm (eq_ok_of_change h)
  | fill a bytes w => exact Call.makes_fill hm (eq_ok_of_change h)
  | zero a bytes => exact Call.makes_zero hm (eq_ok_of_change h)
  | grow delta =>
    obtain ⟨answer, hgrow⟩ := eq_ok_of_discard h
    exact hm.makes_grow hgrow
  | ensure past =>
    obtain ⟨answer, hensure⟩ := eq_ok_of_discard h
    exact hm.makes_ensure hensure
  | limitPages maxPages =>
    cases h
    exact hm.makes_limitPages maxPages

theorem run_performAll_cons {k : Memory} {c : Call} {calls : List Call}
    (h : c.perform.run m = .ok () k) :
    (performAll (c :: calls)).run m = (performAll calls).run k := by
  rw [performAll, run_bind_ok _ h]

/-- What calls that all return do to a memory that holds the bytes written by the calls `done` so far,
the latest first. -/
structure Keeps (done calls : List Call) (m n : Memory) : Prop where
  paged : n.Paged
  maxPages_le : n.maxPages ≤ m.maxPages
  size_le : m.words.size ≤ n.words.size
  byteAt_eq : ∀ i, byteAt n.words i = (lastWritten i (calls.reverse ++ done)).getD 0

theorem Paged.performAll (hm : m.Paged) {calls : List Call}
    (h : (performAll calls).run m = .ok () n) (done : List Call)
    (hdone : ∀ i, byteAt m.words i = (lastWritten i done).getD 0) : Keeps done calls m n := by
  induction calls generalizing m done with
  | nil =>
    cases h
    exact ⟨hm, Nat.le_refl _, Nat.le_refl _, hdone⟩
  | cons c calls ih =>
    cases hc : c.perform.run m with
    | error e k =>
      rw [Memory.performAll, run_bind_error _ hc] at h
      nomatch h
    | ok u k =>
      rw [run_performAll_cons hc] at h
      have hmake := hm.perform hc
      have hheld : byteAt m.words = fun i => (lastWritten i done).getD 0 := funext hdone
      have hnext (i : Nat) : byteAt k.words i = (lastWritten i (c :: done)).getD 0 := by
        rw [hmake.byteAt_eq, hheld, lastWritten]
        cases c.written _ i <;> rfl
      have hrest := ih hmake.paged h (c :: done) hnext
      refine ⟨hrest.paged, Nat.le_trans hrest.maxPages_le hmake.maxPages_le,
        Nat.le_trans hmake.size_le hrest.size_le, fun i => ?_⟩
      rw [hrest.byteAt_eq, List.reverse_cons, List.append_assoc]
      rfl

/-- A memory's size and maximum in pages, in bytes and as an address. -/
structure Sized (m : Memory) : Prop where
  pages_le : m.pages ≤ m.maxPages
  maxPages_le : m.maxPages ≤ 0xFFFF
  bytes_eq : m.bytes = 0x10000 * m.pages
  toNat_stop : m.stop.toNat = m.bytes
  containsRange_iff : ∀ (a : Address) (bytes : Nat),
    m.containsRange a bytes = true ↔ a.toNat + bytes ≤ m.bytes

/-- Words and bytes within the memory are those last written by the calls, and zero where there are
none. -/
structure Holds (m : Memory) (calls : List Call) : Prop where
  load_eq : ∀ a : Address, a.WordAligned → a.toNat < m.bytes → m.load a =
    .ok (ofBytes fun k => (lastWritten (a.toNat + k) calls.reverse).getD 0)
  readBytes_eq : ∀ (a : Address) (count : Nat), a.toNat + count ≤ m.bytes → m.readBytes a count =
    .ok ((List.range' a.toNat count).map fun i => (lastWritten i calls.reverse).getD 0)

/-- How a memory answers requests for more pages. -/
structure Grants (m : Memory) : Prop where
  grow_iff : ∀ delta, m.pages + delta < 0x10000000000000000 →
    ((∃ n, (growing delta).run m = .ok (.ok m.pages) n) ↔ m.pages + delta ≤ m.maxPages)
  grow_ok : ∀ delta old n, (growing delta).run m = .ok (.ok old) n →
    old = m.pages ∧ n.pages = m.pages + delta ∧ m.grow delta = .ok (.ok n)
  grow_refused : ∀ delta refusal n, (growing delta).run m = .ok (.error refusal) n →
    n = m ∧ refusal = ⟨m.pages + delta, m.maxPages⟩ ∧ m.grow delta = .ok (.error refusal)
  grow_returns : ∀ delta, m.pages + delta < 0x10000000000000000 →
    ∃ answer n, (growing delta).run m = .ok answer n
  ensure_iff : ∀ past, (∃ n, (ensuring past).run m = .ok (.ok ()) n) ↔
    pagesFor past.toNat ≤ max m.pages m.maxPages
  ensure_ok : ∀ past n, (ensuring past).run m = .ok (.ok ()) n →
    n.pages = max m.pages (pagesFor past.toNat) ∧ m.ensure past = .ok (.ok n)
  ensure_refused : ∀ past refusal n, (ensuring past).run m = .ok (.error refusal) n →
    n = m ∧ refusal = ⟨pagesFor past.toNat, m.maxPages⟩ ∧ m.ensure past = .ok (.error refusal)
  ensure_returns : ∀ past, ∃ answer n, (ensuring past).run m = .ok answer n

theorem Paged.containsRange_iff (hm : m.Paged) (a : Address) (bytes : Nat) :
    m.containsRange a bytes = true ↔ a.toNat + bytes ≤ m.bytes := by
  have hsize := hm.size_le
  have hbytes := hm.bytes_eq
  unfold containsRange
  cases hadd : a.add? bytes with
  | none =>
    rw [Address.add?_eq_none_iff] at hadd
    simp only [Bool.false_eq_true, false_iff]
    omega
  | some past =>
    have hpast := Address.add?_eq_some_iff.mp hadd
    simp only [decide_eq_true_eq, Address.le_iff, toNat_stop hm]
    omega

theorem Paged.sized (hm : m.Paged) : m.Sized where
  pages_le := hm.pages_le
  maxPages_le := hm.maximum
  bytes_eq := by
    rw [hm.bytes_eq, hm.size_eq]
    omega
  toNat_stop := by rw [Memory.toNat_stop hm, hm.bytes_eq]
  containsRange_iff := hm.containsRange_iff

theorem Paged.holds (hm : m.Paged) {calls : List Call}
    (hbyte : ∀ i, byteAt m.words i = (lastWritten i calls.reverse).getD 0) : m.Holds calls where
  load_eq a ha hlt := by
    rw [hm.bytes_eq] at hlt
    have hplace : 4 * (a.toNat / 4) = a.toNat := by
      unfold Address.WordAligned at ha
      omega
    rw [load_eq_ok ha (by omega), word_eq_ofBytes, hplace]
    simp only [hbyte]
  readBytes_eq a count hle := by
    rw [hm.bytes_eq] at hle
    rw [readBytes_eq_ok hm.size_le hle, funext hbyte]

theorem Paged.pages_resize (hm : m.Paged) {pages : Nat} (hle : m.pages ≤ pages)
    (hmax : pages ≤ m.maxPages) : (m.resize pages).pages = pages := by
  have hsize := (hm.resize hle hmax).size_eq
  rw [hm.size_resize hle hmax] at hsize
  omega

theorem Paged.grants (hm : m.Paged) : m.Grants where
  grow_iff delta _ := by
    refine ⟨fun ⟨n, hrun⟩ => ?_, fun hfits => ⟨_, growing_fits hm hfits⟩⟩
    rcases growing_cases hm hrun with ⟨hfits, -, -⟩ | ⟨-, hanswer, -⟩
    · exact hfits
    · nomatch hanswer
  grow_ok delta old n hrun := by
    have htold := grow_told m delta
    rw [hrun] at htold
    rcases growing_cases hm hrun with ⟨hfits, hanswer, rfl⟩ | ⟨-, hanswer, -⟩
    · cases hanswer
      exact ⟨rfl, hm.pages_resize (Nat.le_add_right _ _) hfits, htold⟩
    · nomatch hanswer
  grow_refused delta refusal n hrun := by
    have htold := grow_told m delta
    rw [hrun] at htold
    rcases growing_cases hm hrun with ⟨-, hanswer, -⟩ | ⟨-, hanswer, hsame⟩
    · nomatch hanswer
    · cases hanswer
      exact ⟨hsame, rfl, htold⟩
  grow_returns delta hcount := by
    rcases Nat.lt_or_ge m.maxPages (m.pages + delta) with hexceeds | hfits
    · exact ⟨_, _, growing_refused hexceeds hcount⟩
    · exact ⟨_, _, growing_fits hm hfits⟩
  ensure_iff past := by
    have hpages := hm.pages_le
    rw [Nat.max_eq_right hpages]
    refine ⟨fun ⟨n, hrun⟩ => ?_, fun hfits => ⟨_, ensuring_fits hm hfits⟩⟩
    rcases ensuring_cases hm hrun with ⟨hfits, -, -⟩ | ⟨-, hanswer, -⟩
    · exact hfits
    · nomatch hanswer
  ensure_ok past n hrun := by
    have htold := ensure_told m past
    rw [hrun] at htold
    rcases ensuring_cases hm hrun with ⟨hfits, -, rfl⟩ | ⟨-, hanswer, -⟩
    · exact ⟨hm.pages_resize (Nat.le_max_left _ _) (Nat.max_le.mpr ⟨hm.pages_le, hfits⟩), htold⟩
    · nomatch hanswer
  ensure_refused past refusal n hrun := by
    have htold := ensure_told m past
    rw [hrun] at htold
    rcases ensuring_cases hm hrun with ⟨-, hanswer, -⟩ | ⟨-, hanswer, hsame⟩
    · nomatch hanswer
    · cases hanswer
      exact ⟨hsame, rfl, htold⟩
  ensure_returns past := by
    rcases Nat.lt_or_ge m.maxPages (pagesFor past.toNat) with hexceeds | hfits
    · exact ⟨_, _, ensuring_refused hm hexceeds⟩
    · exact ⟨_, _, ensuring_fits hm hfits⟩

/-- What holds of a memory after calls that have all returned, and of the next one that returns. -/
structure Faithful (m : Memory) (calls : List Call) : Prop where
  sized : m.Sized
  holds : m.Holds calls
  grants : m.Grants
  maxPages_le : ∀ (c : Call) (n : Memory), c.perform.run m = .ok () n → n.maxPages ≤ m.maxPages
  bytes_le : ∀ (c : Call) (n : Memory), c.perform.run m = .ok () n → m.bytes ≤ n.bytes
  load_of_resizes : ∀ (c : Call) (n : Memory), c.resizes = true → c.perform.run m = .ok () n →
    ∀ a : Address, a.WordAligned → a.toNat < m.bytes → n.load a = m.load a

theorem Paged.faithful_of_bytes (hm : m.Paged) {calls : List Call}
    (hbyte : ∀ i, byteAt m.words i = (lastWritten i calls.reverse).getD 0) : m.Faithful calls where
  sized := hm.sized
  holds := hm.holds hbyte
  grants := hm.grants
  maxPages_le c n hc := (hm.perform hc).maxPages_le
  bytes_le c n hc := by
    have hmake := hm.perform hc
    have hsize := hmake.size_le
    rw [hm.bytes_eq, hmake.paged.bytes_eq]
    omega
  load_of_resizes c n hresizes hc a ha hlt := by
    have hmake := hm.perform hc
    have hsize := hmake.size_le
    rw [hm.bytes_eq] at hlt
    have hsame : byteAt n.words = byteAt m.words := funext fun i => by
      rw [hmake.byteAt_eq]
      cases c <;> first | rfl | cases hresizes
    rw [load_eq_ok ha (by omega), load_eq_ok ha (by omega), word_eq_ofBytes, word_eq_ofBytes, hsame]

theorem paged_of_ofPages {pages maxPages : Nat} (h : ofPages pages maxPages = .ok m) :
    m.Paged ∧ m.maxPages = min maxPages 0xFFFF ∧ ∀ i, byteAt m.words i = 0 := by
  have hzero (i k : Nat) : (Array.replicate k (0 : Word)).getD i 0 = 0 := by
    rw [Array.getD_eq_getD_getElem?, Array.getElem?_replicate]
    split <;> rfl
  have hbyte (k : Nat) : byteOf 0 k = 0 := by
    apply UInt8.toNat_inj.mp
    rw [toNat_byteOf]
    simp
  unfold ofPages at h
  dsimp only at h
  split at h
  · rename_i hle
    have hmax : Size.maxPages = 0xFFFF := rfl
    have hcount : Size.ofPages pages / Size.wordBytes = 0x4000 * pages := by
      rw [Size.ofPages, Size.pageBytes, Size.wordBytes, Size.bound]
      omega
    cases h
    rw [hcount]
    refine ⟨⟨⟨pages, Array.size_replicate, hle⟩, Nat.min_le_right _ _⟩, rfl, fun i => ?_⟩
    rw [byteAt, hzero, hbyte]
  · cases h

/-- A memory that starts zeroed is faithful to any calls, words and bytes mixed, that all return: it is
within its maximum, which only falls, and what it holds are the bytes that the calls have last written. -/
theorem faithful_of_performAll {pages maxPages : Nat} {start : Memory} {calls : List Call}
    (hstart : ofPages pages maxPages = .ok start)
    (hrun : (performAll calls).run start = .ok () m) :
    m.Faithful calls ∧ m.maxPages ≤ start.maxPages ∧ start.maxPages = min maxPages 0xFFFF := by
  obtain ⟨hpaged, hmax, hzero⟩ := paged_of_ofPages hstart
  have hkeep := hpaged.performAll hrun [] hzero
  refine ⟨hkeep.paged.faithful_of_bytes fun i => ?_, hkeep.maxPages_le, hmax⟩
  rw [hkeep.byteAt_eq, List.append_nil]

/-- Whole words, or bytes, in a memory of so many words, and no more new pages than can be counted. -/
def Call.Inside (size : Nat) : Call → Prop
  | store a _ => a.WordAligned ∧ a.toNat + 4 ≤ 4 * size
  | writeBytes a bs => a.toNat + bs.length ≤ 4 * size
  | copy source target bytes => (source.WordAligned ∧ target.WordAligned ∧ bytes % 4 = 0) ∧
      source.toNat + bytes ≤ 4 * size ∧ target.toNat + bytes ≤ 4 * size
  | fill a bytes _ | zero a bytes => (a.WordAligned ∧ bytes % 4 = 0) ∧ a.toNat + bytes ≤ 4 * size
  | grow delta => delta < 0xFFFFFFFFFFFF0000
  | ensure _ | limitPages _ => True

instance (size : Nat) (c : Call) : Decidable (c.Inside size) :=
  match c with
  | .store .. | .copy .. | .fill .. | .zero .. => inferInstanceAs (Decidable (_ ∧ _))
  | .writeBytes .. => inferInstanceAs (Decidable (_ ≤ _))
  | .grow _ => inferInstanceAs (Decidable (_ < _))
  | .ensure _ | .limitPages _ => inferInstanceAs (Decidable True)

theorem Call.Inside.mono {c : Call} {size larger : Nat} (h : c.Inside size) (hle : size ≤ larger) :
    c.Inside larger := by
  cases c with
  | store a w => exact ⟨h.1, by have := h.2; omega⟩
  | writeBytes a bs => exact Nat.le_trans h (Nat.mul_le_mul_left 4 hle)
  | copy source target bytes =>
    obtain ⟨haligned, hsource, htarget⟩ := h
    exact ⟨haligned, by omega, by omega⟩
  | fill a bytes w => exact ⟨h.1, by have := h.2; omega⟩
  | zero a bytes => exact ⟨h.1, by have := h.2; omega⟩
  | grow delta => exact h
  | ensure past => exact trivial
  | limitPages maxPages => exact trivial

theorem Paged.perform_returns (hm : m.Paged) {c : Call} (hc : c.Inside m.words.size) :
    ∃ n, c.perform.run m = .ok () n := by
  cases c with
  | store a w => exact ⟨_, run_change_ok (store_eq_ok hc.1 (by have := hc.2; omega) w)⟩
  | writeBytes a bs => exact ⟨_, run_change_ok (writeBytes_eq_ok hm.size_le hc)⟩
  | copy source target bytes =>
    obtain ⟨⟨hsource, htarget, hbytes⟩, hread, hwrite⟩ := hc
    unfold Address.WordAligned at hsource htarget
    exact ⟨_, run_change_ok (copy_eq_ok_iff.mpr
      ⟨hbytes, hsource, htarget, by omega, by omega, rfl⟩)⟩
  | fill a bytes w =>
    obtain ⟨⟨ha, hbytes⟩, hle⟩ := hc
    unfold Address.WordAligned at ha
    exact ⟨_, run_change_ok (fill_eq_ok_iff.mpr ⟨hbytes, ha, by omega, rfl⟩)⟩
  | zero a bytes =>
    obtain ⟨⟨ha, hbytes⟩, hle⟩ := hc
    unfold Address.WordAligned at ha
    exact ⟨_, run_change_ok (fill_eq_ok_iff.mpr ⟨hbytes, ha, by omega, rfl⟩)⟩
  | grow delta =>
    have hdelta : delta < 0xFFFFFFFFFFFF0000 := hc
    have hpages := hm.pages_le
    have hmax := hm.maximum
    obtain ⟨answer, n, hrun⟩ := hm.grants.grow_returns delta (by omega)
    exact ⟨n, run_bind_ok _ hrun⟩
  | ensure past =>
    obtain ⟨answer, n, hrun⟩ := hm.grants.ensure_returns past
    exact ⟨n, run_bind_ok _ hrun⟩
  | limitPages maxPages => exact ⟨_, rfl⟩

theorem Paged.performAll_returns (hm : m.Paged) {calls : List Call}
    (h : ∀ c ∈ calls, c.Inside m.words.size) : ∃ n, (Memory.performAll calls).run m = .ok () n := by
  induction calls generalizing m with
  | nil => exact ⟨m, rfl⟩
  | cons c calls ih =>
    obtain ⟨k, hk⟩ := hm.perform_returns (h c List.mem_cons_self)
    have hmake := hm.perform hk
    rw [run_performAll_cons hk]
    exact ih hmake.paged fun d hd => (h d (List.mem_cons_of_mem c hd)).mono hmake.size_le

/-- A memory of one page gets a second and is refused more. A word is stored, bytes are written over its
end and over the word behind it, both words are copied one word on, over themselves, and the second page
is filled at its start. -/
def mixedCalls : List Call :=
  [.grow 1, .grow 8, .store (Address.ofNat 16) 0x11223344,
    .writeBytes (Address.ofNat 18) [0xAA, 0xBB, 0xCC],
    .copy (Address.ofNat 16) (Address.ofNat 20) 8, .limitPages 2, .ensure (Address.ofNat 0x20001),
    .fill (Address.ofNat 0x10000) 8 7]

theorem faithful_mixedCalls : ∃ start m : Memory, ofPages 1 3 = .ok start ∧
    (performAll mixedCalls).run start = .ok () m ∧ m.Faithful mixedCalls ∧
      m.load (Address.ofNat 20) = .ok 0xBBAA3344 ∧ m.load (Address.ofNat 24) = .ok 0xCC ∧
        m.load (Address.ofNat 0x10004) = .ok 7 := by
  have hstart : ofPages 1 3 = .ok ⟨Array.replicate 0x4000 0, 3⟩ := rfl
  obtain ⟨hpaged, hmax, hzero⟩ := paged_of_ofPages hstart
  have hsize : (⟨Array.replicate 0x4000 0, 3⟩ : Memory).words.size = 0x4000 := Array.size_replicate
  generalize (⟨Array.replicate 0x4000 0, 3⟩ : Memory) = start at *
  have hpages : start.pages = 1 := by rw [hpaged.pages_eq, hsize]
  have hgrow : (growing 1).run start = .ok (.ok start.pages) (start.resize (start.pages + 1)) :=
    growing_fits hpaged (by rw [hpages, hmax]; decide)
  have hmake := hpaged.makes_grow hgrow
  have hgrown : (start.resize (1 + 1)).words.size = 0x4000 * 2 :=
    hpaged.size_resize (by omega) (by rw [hmax]; decide)
  rw [hpages] at hgrow hmake
  have hinside : ∀ c ∈ mixedCalls.tail, c.Inside (start.resize (1 + 1)).words.size := by
    rw [hgrown]
    decide
  obtain ⟨m, hrest⟩ := hmake.paged.performAll_returns hinside
  have hrun : (performAll mixedCalls).run start = .ok () m :=
    (run_performAll_cons (run_bind_ok _ hgrow)).trans hrest
  obtain ⟨hfaithful, -⟩ := faithful_of_performAll hstart hrun
  have hkept := hmake.paged.performAll hrest [.grow 1] fun i => by
    rw [hmake.byteAt_eq, hzero]
    rfl
  have hbytes : 0x20000 ≤ m.bytes := by
    have hle := hkept.size_le
    rw [hkept.paged.bytes_eq]
    omega
  refine ⟨start, m, hstart, hrun, hfaithful, ?_, ?_, ?_⟩
  · rw [hfaithful.holds.load_eq _ (by decide) (Nat.lt_of_lt_of_le (by decide) hbytes)]
    rfl
  · rw [hfaithful.holds.load_eq _ (by decide) (Nat.lt_of_lt_of_le (by decide) hbytes)]
    rfl
  · rw [hfaithful.holds.load_eq _ (by decide) (Nat.lt_of_lt_of_le (by decide) hbytes)]
    rfl

end Memory

end CopyingHeap
