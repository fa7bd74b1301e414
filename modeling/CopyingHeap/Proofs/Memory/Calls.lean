import CopyingHeap.Proofs.Memory.Bytes
import CopyingHeap.Proofs.Memory.Limit

/-!
A memory over a run of calls. Words and bytes are two views of one store, so what a memory holds is told
byte by byte: each byte is the last one written to its place, and zero where nothing has been written.
Growing and lowering the maximum write nothing, and a refusal by the host leaves everything as it is.
-/

namespace CopyingHeap

open Effect

namespace Memory

/-- A call that may change a memory. -/
inductive Call where
  | store (a : Address) (w : Word)
  | writeBytes (a : Address) (bs : List UInt8)
  | copy (source target : Address) (bytes : Nat)
  | fill (a : Address) (bytes : Nat) (w : Word)
  | zero (a : Address) (bytes : Nat)
  | grow (delta : Nat)
  | ensure (past : Address)
  | limitPages (maxPages : Nat)

namespace Call

/-- Makes the call, whose answer is not looked at: the run goes on after a refusal. -/
def perform : Call → Effect Memory Unit
  | store a w => change (·.store a w)
  | writeBytes a bs => change (·.writeBytes a bs)
  | copy source target bytes => change (·.copy source target bytes)
  | fill a bytes w => change (·.fill a bytes w)
  | zero a bytes => change (·.zero a bytes)
  | grow delta => do
    let _ ← growing delta
    return ()
  | ensure past => do
    let _ ← ensuring past
    return ()
  | limitPages maxPages => modify (·.limitPages maxPages)

/-- The byte that the call writes to place `i`, if it writes there, over the bytes `held` before it. -/
def written (held : Nat → UInt8) (i : Nat) : Call → Option UInt8
  | store a w => if a.toNat ≤ i ∧ i < a.toNat + 4 then some (byteOf w (i - a.toNat)) else none
  | writeBytes a bs => if a.toNat ≤ i then bs[i - a.toNat]? else none
  | copy source target bytes =>
    if target.toNat ≤ i ∧ i < target.toNat + bytes then
      some (held (source.toNat + (i - target.toNat)))
    else none
  | fill a bytes w =>
    if a.toNat ≤ i ∧ i < a.toNat + bytes then some (byteOf w ((i - a.toNat) % 4)) else none
  | zero a bytes => if a.toNat ≤ i ∧ i < a.toNat + bytes then some 0 else none
  | grow _ | ensure _ | limitPages _ => none

/-- Is the call about the size of the memory only? -/
def resizes : Call → Bool
  | grow _ | ensure _ | limitPages _ => true
  | _ => false

end Call

def performAll : List Call → Effect Memory Unit
  | [] => return ()
  | c :: cs => do
    c.perform
    performAll cs

/-- The byte last written to place `i` by the calls, the latest of which comes first. -/
def lastWritten (i : Nat) : List Call → Option UInt8
  | [] => none
  | c :: earlier => (c.written (fun j => (lastWritten j earlier).getD 0) i).or (lastWritten i earlier)

/-- The word of four bytes, the lowest one first. -/
def ofBytes (b : Nat → UInt8) : Word :=
  UInt32.ofNat ((b 0).toNat + 0x100 * (b 1).toNat + 0x10000 * (b 2).toNat + 0x1000000 * (b 3).toNat)

theorem ofBytes_byteOf (w : Word) : ofBytes (byteOf w) = w := by
  have hw := w.toNat_lt
  apply UInt32.toNat_inj.mp
  rw [ofBytes, UInt32.toNat_ofNat']
  simp only [toNat_byteOf, byteWeight]
  omega

theorem word_eq_ofBytes (m : Memory) (i : Nat) :
    m.word i = ofBytes fun k => byteAt m.words (4 * i + k) := by
  have hbyte (k : Nat) (hk : k < 4) : byteAt m.words (4 * i + k) = byteOf (m.word i) k := by
    rw [byteAt, show (4 * i + k) / 4 = i from by omega, show (4 * i + k) % 4 = k from by omega]
    rfl
  rw [← ofBytes_byteOf (m.word i)]
  simp only [ofBytes, hbyte 0 (by decide), hbyte 1 (by decide), hbyte 2 (by decide),
    hbyte 3 (by decide)]

theorem byteAt_eq (m : Memory) (i : Nat) : byteAt m.words i = byteOf (m.word (i / 4)) (i % 4) :=
  rfl

theorem byteAt_withBytes {m : Memory} {i : Nat} {bs : List UInt8}
    (hs : i + bs.length ≤ 4 * m.words.size) (k : Nat) : byteAt (m.withBytes i bs).words k =
      (if i ≤ k then bs[k - i]? else none).getD (byteAt m.words k) := by
  by_cases hk : i ≤ k ∧ k < i + bs.length
  · have hread := congrArg (·[k - i]?) (map_byteAt_withBytes hs)
    have hplace : i + 1 * (k - i) = k := by omega
    simp only [List.getElem?_map, List.getElem?_range' (by omega : k - i < bs.length), hplace,
      Option.map_some] at hread
    rw [if_pos hk.1, ← hread, Option.getD_some]
  · rw [byteAt_withBytes_outside hs hk]
    split
    · rw [List.getElem?_eq_none (by omega), Option.getD_none]
    · rfl

/-- What a call that returns does to a memory of whole pages. -/
structure Call.Makes (c : Call) (m n : Memory) : Prop where
  paged : n.Paged
  maxPages_le : n.maxPages ≤ m.maxPages
  size_le : m.words.size ≤ n.words.size
  byteAt_eq : ∀ i, byteAt n.words i = (c.written (byteAt m.words) i).getD (byteAt m.words i)

theorem eq_ok_of_change {f : Memory → Except Fault Memory} {m n : Memory}
    (h : (change f).run m = .ok () n) : f m = .ok n := by
  cases hf : f m with
  | error e =>
    rw [run_change_error hf] at h
    nomatch h
  | ok k =>
    rw [run_change_ok hf] at h
    cases h
    rfl

section Makes

variable {m n : Memory} (hm : m.Paged)

include hm

/-- A change of words alone, of which the bytes are known. -/
theorem Call.Makes.of_same_size {c : Call} (hsize : n.words.size = m.words.size)
    (hmax : n.maxPages = m.maxPages)
    (hbyte : ∀ i, byteAt n.words i = (c.written (byteAt m.words) i).getD (byteAt m.words i)) :
    c.Makes m n where
  paged := by
    obtain ⟨p, hp, hle⟩ := hm.pages
    exact ⟨⟨p, hsize.trans hp, hmax ▸ hle⟩, hmax ▸ hm.maximum⟩
  maxPages_le := Nat.le_of_eq hmax
  size_le := Nat.le_of_eq hsize.symm
  byteAt_eq := hbyte

theorem Call.makes_store {a : Address} {w : Word} (h : m.store a w = .ok n) :
    (Call.store a w).Makes m n := by
  obtain ⟨ha, hlt, rfl⟩ := store_eq_ok_iff.mp h
  refine .of_same_size hm (size_withWord m _ w) rfl fun i => ?_
  show byteOf ((m.withWord (a.toNat / 4) w).word (i / 4)) (i % 4) = _
  rw [word_withWord hlt, written]
  unfold Address.WordAligned at ha
  by_cases hi : i / 4 = a.toNat / 4
  · rw [if_pos hi, if_pos (by omega), show i - a.toNat = i % 4 from by omega, Option.getD_some]
  · rw [if_neg hi, if_neg (by omega)]
    rfl

theorem Call.makes_writeBytes {a : Address} {bs : List UInt8} (h : m.writeBytes a bs = .ok n) :
    (Call.writeBytes a bs).Makes m n := by
  have hinside : a.toNat + bs.length ≤ 4 * m.words.size := by
    rcases Nat.lt_or_ge (4 * m.words.size) (a.toNat + bs.length) with hlt | hle
    · rcases writeBytes_eq_error hm.size_le hlt with he | he <;>
      · rw [he] at h
        nomatch h
    · exact hle
  rw [writeBytes_eq_ok hm.size_le hinside] at h
  cases h
  exact .of_same_size hm (size_withBytes m _ bs) rfl fun i => byteAt_withBytes hinside i

theorem Call.makes_copy {a b : Address} {bytes : Nat} (h : m.copy a b bytes = .ok n) :
    (Call.copy a b bytes).Makes m n := by
  obtain ⟨hbytes, ha, hb, hsource, htarget, rfl⟩ := copy_eq_ok_iff.mp h
  refine .of_same_size hm (size_withCopy m _ _ _) rfl fun i => ?_
  show byteOf ((m.withCopy (a.toNat / 4) (b.toNat / 4) (bytes / 4)).word (i / 4)) (i % 4) = _
  rw [word_withCopy hsource htarget, written]
  unfold Address.WordAligned at ha hb
  by_cases hi : b.toNat / 4 ≤ i / 4 ∧ i / 4 < b.toNat / 4 + bytes / 4
  · have hplace : (a.toNat + (i - b.toNat)) / 4 = a.toNat / 4 + (i / 4 - b.toNat / 4) := by omega
    have hbyte : (a.toNat + (i - b.toNat)) % 4 = i % 4 := by omega
    rw [if_pos hi, if_pos (by omega), Option.getD_some, byteAt_eq, hplace, hbyte]
  · rw [if_neg hi, if_neg (by omega)]
    rfl

theorem Call.makes_fill {a : Address} {bytes : Nat} {w : Word} (h : m.fill a bytes w = .ok n) :
    (Call.fill a bytes w).Makes m n := by
  obtain ⟨hbytes, ha, hinside, rfl⟩ := fill_eq_ok_iff.mp h
  refine .of_same_size hm (size_withFill m _ _ w) rfl fun i => ?_
  show byteOf ((m.withFill (a.toNat / 4) (bytes / 4) w).word (i / 4)) (i % 4) = _
  rw [word_withFill hinside, written]
  unfold Address.WordAligned at ha
  by_cases hi : a.toNat / 4 ≤ i / 4 ∧ i / 4 < a.toNat / 4 + bytes / 4
  · rw [if_pos hi, if_pos (by omega), show (i - a.toNat) % 4 = i % 4 from by omega, Option.getD_some]
  · rw [if_neg hi, if_neg (by omega)]
    rfl

theorem Call.makes_zero {a : Address} {bytes : Nat} (h : m.zero a bytes = .ok n) :
    (Call.zero a bytes).Makes m n := by
  obtain ⟨hpaged, hmax, hsize, hbyte⟩ := makes_fill hm h
  refine ⟨hpaged, hmax, hsize, fun i => (hbyte i).trans ?_⟩
  have hzero (k : Nat) : byteOf 0 k = 0 := by
    apply UInt8.toNat_inj.mp
    rw [toNat_byteOf]
    simp
  simp only [written, hzero]

/-- A memory of more pages holds the same bytes. -/
theorem Paged.resize {pages : Nat} (hle : m.pages ≤ pages) (hfits : pages ≤ m.maxPages) :
    (m.resize pages).Paged where
  pages := ⟨pages, hm.size_resize hle hfits, hfits⟩
  maximum := hm.maximum

theorem Call.makes_resize {c : Call} {pages : Nat} (hc : c.resizes = true) (hle : m.pages ≤ pages)
    (hfits : pages ≤ m.maxPages) : c.Makes m (m.resize pages) where
  paged := hm.resize hle hfits
  maxPages_le := Nat.le_of_eq (maxPages_resize m pages)
  size_le := by
    rw [hm.size_resize hle hfits, hm.size_eq]
    omega
  byteAt_eq := fun i => by
    rw [byteAt_eq, word_resize, ← byteAt_eq]
    cases c <;> first | rfl | cases hc

end Makes

end Memory

end CopyingHeap
