import CopyingHeap.Proofs.Construct.Texts
import CopyingHeap.Proofs.Heap.Closed
import CopyingHeap.Proofs.Heap.Grant
import CopyingHeap.Proofs.Object.Copies

/-!
Strings, made from bytes or from another text. The bytes go into a zeroed block, so zeros follow them up to
a whole word. A copy takes the words of its source from where the allocation has left them: a string waits
on the stack, and a symbol stays in the static data.
-/

namespace CopyingHeap

/-- The bytes that a string takes, with its header and up to a whole word. -/
def stringSize (length : Nat) : Nat :=
  4 * Kind.string.wordCount length

theorem stringSize_eq (length : Nat) : stringSize length = 4 * (2 + (length + 3) / 4) :=
  rfl

theorem objectBytes_stringSize {length : Nat} (h : length < 0x100000000) :
    Size.objectBytes (stringSize length) = stringSize length := by
  rw [stringSize_eq, Size.objectBytes_eq (by omega)]
  omega

namespace Memory

/-- Behind the header lie these bytes, and zeros up to a whole word. -/
def Padded (m : Memory) (r : Reference) (bs : List UInt8) : Prop :=
  (do m.readBytes (← r.address.add contentOffset) (stringSize bs.length - contentOffset)) =
    .ok (bs ++ List.replicate (stringSize bs.length - contentOffset - bs.length) 0)

variable {m n : Memory} {r s : Reference} {k l : Kind} {i j : Nat} {bs : List UInt8}

theorem byteAt_eq_zero (h : m.word (i / 4) = 0) : byteAt m.words i = 0 := by
  have hzero : byteOf 0 (i % 4) = 0 := by
    rw [byteOf, UInt32.toNat_zero, Nat.zero_div]
    rfl
  rw [← hzero, ← h]
  rfl

/-- The same words spell the same text, whether it is a string or a symbol. -/
theorem Lies.textBytes_congr (hk : k = .string ∨ k = .symbol) (hl : l = .string ∨ l = .symbol)
    (h : m.Lies r k) (h' : n.Lies s l) (hlength : n.word (s.index + 1) = m.word (r.index + 1))
    (hword : ∀ j < ((m.word (r.index + 1)).toNat + 3) / 4,
      n.word (s.index + (2 + j)) = m.word (r.index + (2 + j))) :
    n.textBytes s = m.textBytes r := by
  rw [h'.textBytes_eq hl, h.textBytes_eq hk, hlength, bytes_congr _ fun j hj => ?_]
  rw [Nat.add_assoc, Nat.add_assoc]
  exact hword j hj

section WithText

variable (hin : i + (2 + (bs.length + 3) / 4) ≤ m.words.size)

include hin

theorem map_byteAt_withText : (List.range' (4 * (i + 2)) bs.length).map
    (byteAt (m.withText i k bs).words) = bs := by
  rw [withText, map_byteAt_withBytes]
  rw [size_withHeader]
  omega

/-- In a zeroed block zeros follow the bytes of a text. -/
theorem byteAt_withText (hzero : ∀ j < 2 + (bs.length + 3) / 4, m.word (i + j) = 0)
    (hlo : 4 * (i + 2) + bs.length ≤ j) (hhi : j < 4 * (i + (2 + (bs.length + 3) / 4))) :
    byteAt (m.withText i k bs).words j = 0 := by
  rw [withText, byteAt_withBytes_outside (by rw [size_withHeader]; omega) (by omega)]
  apply byteAt_eq_zero
  obtain ⟨d, hd⟩ := Nat.exists_eq_add_of_le (by omega : i ≤ j / 4)
  rw [word_withHeader_ne _ _ (by omega) (by omega), hd]
  exact hzero d (by omega)

end WithText

theorem padded_withText (hsize : m.words.size ≤ 0x3FFFC000)
    (hin : r.index + (2 + (bs.length + 3) / 4) ≤ m.words.size)
    (hzero : ∀ j < 2 + (bs.length + 3) / 4, m.word (r.index + j) = 0) :
    (m.withText r.index k bs).Padded r bs := by
  have hadd : r.address.add contentOffset = .ok (Address.ofNat (4 * (r.index + 2))) :=
    r.add_eq (j := 2) (by omega)
  have hstart := Address.toNat_ofNat_of_lt (n := 4 * (r.index + 2)) (by omega)
  have hcount : stringSize bs.length - contentOffset = 4 * ((bs.length + 3) / 4) := by
    rw [stringSize_eq, contentOffset]
    omega
  obtain ⟨pad, hpad⟩ := Nat.exists_eq_add_of_le (by omega : bs.length ≤ 4 * ((bs.length + 3) / 4))
  unfold Padded
  rw [hadd, ok_bind, hcount, hpad, Nat.add_sub_cancel_left,
    readBytes_eq_ok (by rwa [size_withText]) (by rw [size_withText]; omega), hstart,
    ← List.range'_append_1, List.map_append, map_byteAt_withText hin]
  refine congrArg (fun zeros => Except.ok (bs ++ zeros)) (List.eq_replicate_iff.mpr ⟨?_, ?_⟩)
  · rw [List.length_map, List.length_range']
  · intro b hb
    obtain ⟨j, hj, rfl⟩ := List.mem_map.mp hb
    rw [List.mem_range'_1] at hj
    exact byteAt_withText hin hzero hj.1 (by omega)

theorem textBytes_withText (hk : k = .string ∨ k = .symbol) (hlen : bs.length < 0x100000000)
    (hin : r.index + (2 + (bs.length + 3) / 4) ≤ m.words.size)
    (h : (m.withText r.index k bs).Lies r k) :
    (m.withText r.index k bs).textBytes r = .ok bs := by
  obtain ⟨-, h1⟩ := word_withText (k := k) hin
  rw [h.textBytes_eq hk, h1, UInt32.toNat_ofNat', Nat.mod_eq_of_lt hlen, map_byteAt_withText hin]

theorem wordCount_string {c : Nat} (hheader : m.word i = Kind.string.header)
    (hlength : (m.word (i + 1)).toNat = c) : m.wordCount i = 2 + (c + 3) / 4 := by
  rw [wordCount_eq hheader, hlength]
  rfl

/-- The memory with a string at word `i` that has the words of the text at word `j`. -/
def withTextOf (m : Memory) (i j : Nat) (length : Word) : Memory :=
  (m.withHeader i .string length).withCopy (j + 2) (i + 2) ((length.toNat + 3) / 4)

theorem size_withTextOf {length : Word} : (m.withTextOf i j length).words.size = m.words.size := by
  rw [withTextOf, size_withCopy, size_withHeader]

section WithTextOf

variable {length : Word} (hi : i + (2 + (length.toNat + 3) / 4) ≤ m.words.size)
  (hj : j + (2 + (length.toNat + 3) / 4) ≤ m.words.size)

include hi hj

theorem word_withTextOf_ne {d : Nat} (hd : ¬ (i ≤ d ∧ d < i + (2 + (length.toNat + 3) / 4))) :
    (m.withTextOf i j length).word d = m.word d := by
  rw [withTextOf, word_withCopy (by rw [size_withHeader]; omega) (by rw [size_withHeader]; omega),
    if_neg (by omega), word_withHeader_ne _ _ (by omega) (by omega)]

theorem word_withTextOf : (m.withTextOf i j length).word i = Kind.string.header ∧
    (m.withTextOf i j length).word (i + 1) = length ∧
    ∀ d < (length.toNat + 3) / 4, (m.withTextOf i j length).word (i + (2 + d)) =
      (m.withHeader i .string length).word (j + (2 + d)) := by
  obtain ⟨h0, h1⟩ := word_withHeader (m := m) (i := i) .string length (by omega)
  have hcopy := word_withCopy (m := m.withHeader i .string length) (i := j + 2) (j := i + 2)
    (n := (length.toNat + 3) / 4) (by rw [size_withHeader]; omega) (by rw [size_withHeader]; omega)
  refine ⟨?_, ?_, fun d hd => ?_⟩
  · rw [withTextOf, hcopy, if_neg (by omega), h0]
  · rw [withTextOf, hcopy, if_neg (by omega), h1]
  · have hat : j + 2 + (i + (2 + d) - (i + 2)) = j + (2 + d) := by omega
    rw [withTextOf, hcopy, if_pos (by omega), hat]

end WithTextOf

end Memory

namespace Heap

/-- In `k` there is a new string of these bytes at `r`, the last object. What the stack of `h` or the values
`us` reached is still there, where `f` says. -/
structure NewString (h : Heap) (us : List Value) (bs : List UInt8) (f : Reference → Reference)
    (r : Reference) (k : Heap) : Prop where
  last : k.Last r .string (stringSize bs.length)
  textBytes : k.memory.textBytes r = .ok bs
  apart : ∀ s bytes, k.Initialised s → s ≠ r → k.memory.objectSize s = .ok bytes →
    s.address.toNat + bytes ≤ r.address.toNat
  fresh : ∀ x, h.ReachableWith us x → f x ≠ r
  restores : h.Restores us f k
  static : ∀ i, 4 * i < h.stack.limit.toNat → k.memory.word i = h.memory.word i
  spends : h.Spends (stringSize bs.length) k
  unmoved : k.statistics.collections = h.statistics.collections → f = id ∧ r.address = h.bump.cursor
  wellFormed : h.spaces.base.WordAligned → k.WellFormed

/-- The new string has been made from bytes. Where there has been no collection, nothing else has changed. -/
structure MadeString (h : Heap) (bs : List UInt8) (f : Reference → Reference) (r : Reference)
    (k : Heap) : Prop extends h.NewString [] bs f r k where
  padded : k.memory.Padded r bs
  frame : k.statistics.collections = h.statistics.collections →
    ∀ i, ¬ (r.index ≤ i ∧ i < r.index + Kind.string.wordCount bs.length) →
      k.memory.word i = h.memory.word i

/-- The new string is a copy of the text `t`, which has the same bytes before and after, wherever it is. -/
structure CopiedString (h : Heap) (t : Reference) (bs : List UInt8) (f : Reference → Reference)
    (r : Reference) (k : Heap) : Prop extends h.NewString [.object t] bs f r k where
  before : h.memory.textBytes t = .ok bs
  after : ∃ t', h.relocated f (.object t) = .object t' ∧ t' ≠ r ∧ k.memory.textBytes t' = .ok bs

section Granted

variable {h s k : Heap} {size n : Nat} {f : Reference → Reference} {r : Reference} {c : Nat}
  (hg : h.Grant size f s r n k) (hn : n = 2 + (c + 3) / 4) {m : Memory} (hm : k.Written r n m)
  (hheader : m.word r.index = Kind.string.header) (hlength : (m.word (r.index + 1)).toNat = c)

include hg hn hm hheader hlength

/-- A string fills the block that has been granted for it. -/
theorem Grant.last_string : m.Lies r .string ∧ Last { k with memory := m } r .string (stringSize c) := by
  have hcount := (Memory.wordCount_string hheader hlength).trans hn.symm
  have hsize : stringSize c = 4 * n := by rw [stringSize_eq, hn]
  rw [hsize]
  exact hg.last hm hheader hcount

theorem Grant.wellFormed_string (hbase : h.spaces.base.WordAligned) :
    WellFormed { k with memory := m } := by
  have hcount := (Memory.wordCount_string hheader hlength).trans hn.symm
  refine hg.wellFormed_written hm hbase (by decide) hheader hcount fun j hj => ?_
  exact absurd ((Memory.isSlot_iff hheader).mp hj) id

end Granted

/-- The string that has been written into the block has the bytes, and zeros behind them. -/
theorem Grant.madeString {h s k : Heap} (hw : h.WellFormed) {bs : List UInt8}
    (hlen : bs.length < 0x100000000) {n : Nat} {f : Reference → Reference} {r : Reference}
    (hg : h.Grant (stringSize bs.length) f s r n k) (hn : n = 2 + (bs.length + 3) / 4) :
    h.MadeString bs f r { k with memory := k.memory.withText r.index .string bs } := by
  have hr := hw.toRegular
  have hin := hg.inside
  rw [hn] at hin
  have hwritten : k.Written r n (k.memory.withText r.index .string bs) :=
    ⟨Memory.size_withText, rfl, fun i => Memory.word_withText_ne hn.ge hg.inside⟩
  obtain ⟨h0, h1⟩ := Memory.word_withText (k := .string) hin
  have hlength : ((k.memory.withText r.index .string bs).word (r.index + 1)).toNat = bs.length := by
    rw [h1, UInt32.toNat_ofNat', Nat.mod_eq_of_lt hlen]
  obtain ⟨hlies, hlast⟩ := hg.last_string hn hwritten h0 hlength
  have hzero : ∀ j < 2 + (bs.length + 3) / 4, k.memory.word (r.index + j) = 0 := by
    intro j hj
    rw [hg.added.word, if_pos (by omega)]
  have hspends := hg.spends
  rw [objectBytes_stringSize hlen] at hspends
  exact
    { last := hlast
      textBytes := Memory.textBytes_withText (.inl rfl) hlen hin hlies
      apart := fun s bytes hs hne hbytes => hg.apart hwritten hs hne hbytes
      fresh := fun x hx => hg.fresh hx
      restores := hg.restores hwritten hr
      static := fun i hi => hg.static_written hwritten hi
      spends := hw.lowered_self.spends hspends _ _
      unmoved := fun hcount => (hg.unmoved_written hwritten hcount).imp_right And.left
      wellFormed := hg.wellFormed_string hn hwritten h0 hlength
      padded := Memory.padded_withText hg.added.paged.size_le hin hzero
      frame := fun hcount i hi => (hg.unmoved_written hwritten hcount).2.2 i (hn ▸ hi) }

/-- More bytes than memory can have are not written. -/
theorem WellFormed.newString_long {h : Heap} (hw : h.WellFormed) {bs : List UInt8}
    (hlen : 0x100000000 ≤ bs.length) : ∃ e, h.newString bs = .error e := by
  unfold Heap.newString
  cases hsize : Kind.string.size bs.length with
  | error e => exact ⟨e, rfl⟩
  | ok size =>
    rw [ok_bind]
    rcases (hw.alloc_grant size).cases with ⟨⟨_, k⟩, halloc, f, s, r, n, rfl, hg⟩ | ⟨e, halloc, -⟩
    · dsimp only at hg
      have hin := hg.inside
      have hsmall := hg.added.paged.size_le
      have hbytes := hg.bytes
      unfold Size.objectBytes Size.minObjectBytes at hbytes
      have hwrite : k.memory.writeText r.address .string bs = .error .overflow ∨
          k.memory.writeText r.address .string bs = .error .outOfBounds :=
        Memory.writeText_eq_error hsmall (by omega) (by omega)
      rw [halloc, ok_bind]
      dsimp only
      rw [changeMemory_eq]
      rcases hwrite with hx | hx
      · rw [hx]
        exact ⟨_, rfl⟩
      · rw [hx]
        exact ⟨_, rfl⟩
    · rw [halloc]
      exact ⟨e, rfl⟩

/-- Making a string ends with the string, or memory or a counter gives out. -/
theorem WellFormed.newString_cases {h : Heap} (hw : h.WellFormed) (bs : List UInt8) :
    (∃ r k f, h.newString bs = .ok (r, k) ∧ h.MadeString bs f r k) ∨
    ∃ e, h.newString bs = .error e ∧
      (bs.length < 0x100000000 → h.RunsOut 0 1 (stringSize bs.length) e) := by
  rcases Nat.lt_or_ge bs.length 0x100000000 with hlen | hlen
  · have hsize : Kind.string.size bs.length = .ok (stringSize bs.length) := Kind.size_eq .string hlen
    rcases (hw.alloc_grant (stringSize bs.length)).cases with
      ⟨⟨_, k⟩, halloc, f, s, r, n, rfl, hg⟩ | ⟨e, halloc, he⟩
    · left
      obtain rfl : n = 2 + (bs.length + 3) / 4 := hg.words_eq rfl (by omega)
      refine ⟨r, _, f, ?_, hg.madeString hw hlen rfl⟩
      have hin := hg.inside
      unfold Heap.newString
      rw [hsize, ok_bind, halloc, ok_bind]
      dsimp only
      rw [changeMemory_eq, Memory.writeText_eq_ok hg.added.paged.size_le (by omega) hin, ok_bind, ok_bind,
        Reference.ofAddress_address]
      rfl
    · right
      unfold Heap.newString
      rw [hsize, ok_bind, halloc]
      exact ⟨e, rfl, fun _ => he.runsOut (objectBytes_stringSize hlen) (Nat.le_refl _)⟩
  · obtain ⟨e, he⟩ := hw.newString_long hlen
    exact .inr ⟨e, he, fun hlt => absurd hlt (Nat.not_lt.mpr hlen)⟩

/-- A string of the heap, or a symbol of the static data. -/
def KnowsText (h : Heap) (t : Reference) : Prop :=
  h.Initialised t ∧ h.memory.kind t = .ok .string ∨ h.IsSymbol t ∧ t ≠ Reference.null

namespace KnowsText

variable {h : Heap} (hw : h.WellFormed) {t : Reference} (ht : h.KnowsText t)

include hw ht

theorem lies : ∃ c : Kind, (c = .string ∨ c = .symbol) ∧ h.memory.Lies t c := by
  rcases ht with ⟨hi, hkind⟩ | ⟨hs, -⟩
  · exact ⟨.string, .inl rfl, hw.toRegular.lies hi (Memory.kind_eq_ok_word hkind).2⟩
  · exact ⟨.symbol, .inr rfl, hw.lies_symbol hs⟩

theorem accepts : h.Accepts (.object t) where
  fits := trivial
  target := by
    intro r htarget
    obtain rfl : t = r := Value.object.inj (Value.object?_eq_some_iff.mp htarget).1
    rcases ht with ⟨hi, -⟩ | ⟨hs, -⟩
    · exact .inr hi
    · exact .inl (hs.below hw.limit_le_base)

end KnowsText

theorem Stacked.static_written {h p s k : Heap} {vs : List Value} {slots : List RootSlot} {size n : Nat}
    {f : Reference → Reference} {r : Reference} (hp : h.Stacked vs slots p) (hg : p.Grant size f s r n k)
    {m : Memory} (hm : k.Written r n m) {i : Nat} (hi : 4 * i < h.stack.limit.toNat) :
    m.word i = h.memory.word i := by
  have hlimit : p.stack.limit = h.stack.limit := by rw [hp.stack_eq]
  rw [hg.static_written hm (hlimit ▸ hi), hp.restacks.static hi]

section Copy

variable {h p s k : Heap} {size n : Nat} {f : Reference → Reference} {t t' r : Reference}
  {slot : RootSlot} (hw : h.WellFormed) (hp : h.Stacked [.object t] [slot] p)
  (hg : p.Grant size f s r n k) (hmoved : h.relocated f (.object t) = .object t') {c : Kind}
  (hlies : h.memory.Lies t c)

include hw hp hg hmoved hlies

/-- The source lies in its place with the words that it had, whatever is written into the block. -/
theorem Stacked.text (ht : h.KnowsText t) (hc : c = .string ∨ c = .symbol) {m : Memory}
    (hm : k.Written r n m) : m.Lies t' c ∧ t' ≠ Reference.null ∧ t' ≠ r ∧
      ∀ j < h.size t, m.word (t'.index + j) = h.memory.word (t.index + j) := by
  have hr := hw.toRegular
  rcases ht with ⟨hi, -⟩ | ⟨hs, hne⟩
  · obtain rfl : f t = t' := Value.object.inj ((relocated_object hi f).symm.trans hmoved)
    have hreach : h.ReachableWith [.object t] t := .value (List.mem_singleton_self _) hi
    have hreach' : p.ReachableWith [] t := hp.reachableWith hr (fun _ hv => hp.reaches hr hv) hreach
    obtain ⟨hrestores, hfresh⟩ := hp.made hr hg hm
    refine ⟨hg.lies hm (hp.regular hr) hreach' (((hp.intact hr).header_eq hr hi).trans hlies.header),
      hrestores.ne_null hr hreach, hfresh t hreach, fun j hj => hrestores.payload t hreach j hj ?_⟩
    rw [Memory.isSlot_iff hlies.header]
    rcases hc with rfl | rfl
    · exact id
    · exact id
  · have hstays : h.relocated f (.object t) = .object t := if_neg fun hi => hw.not_isSymbol hi hs
    obtain rfl : t = t' := Value.object.inj (hstays.symm.trans hmoved)
    have hlimit : p.stack.limit = h.stack.limit := by rw [hp.stack_eq]
    have hend : 4 * (t.index + h.size t) ≤ h.stack.limit.toNat := hs.2
    have hword : ∀ j < h.size t, m.word (t.index + j) = h.memory.word (t.index + j) :=
      fun j hj => hp.static_written hg hm (by omega)
    have htwo : 2 ≤ h.size t := hlies.two_le
    have hheader : m.word t.index = h.memory.word t.index := hword 0 (by omega)
    have hsize : m.wordCount t.index = h.size t :=
      Memory.wordCount_congr hheader fun _ _ _ => hword 1 (by omega)
    have hbelow := hg.above_static (i := t.index + (h.size t - 1)) (by rw [hlimit]; omega)
    have hinside := hg.inside
    have hsame := hm.size
    refine ⟨(hg.paged hm).lies (hheader.trans hlies.header) (by omega), hne, ?_, hword⟩
    rintro rfl
    omega

variable (ht : h.KnowsText t) (hc : c = .string ∨ c = .symbol) {length : Word}
  (hlength : h.memory.word (t.index + 1) = length) (hn : n = 2 + (length.toNat + 3) / 4)

include ht hc hlength

theorem Stacked.text_inside : h.size t = 2 + (length.toNat + 3) / 4 ∧
    t'.index + (2 + (length.toNat + 3) / 4) ≤ k.memory.words.size := by
  obtain ⟨hsource, -, -, hwords⟩ := hp.text hw hg hmoved hlies ht hc (Written.refl k r n)
  have htwo : 2 ≤ h.size t := hlies.two_le
  have hsize : h.size t = 2 + (length.toNat + 3) / 4 := by
    rw [Heap.size, Memory.wordCount_eq hlies.header, hlength]
    rcases hc with rfl | rfl
    · rfl
    · rfl
  have hsame : k.memory.wordCount t'.index = h.size t :=
    Memory.wordCount_congr (hwords 0 (by omega)) fun _ _ _ => hwords 1 (by omega)
  have hinside := hsource.inside
  omega

include hn

/-- The steps that follow the allocation. -/
theorem Grant.copyString_eq (hpush : h.pushRoot (.object t) = .ok (slot, p))
    (halloc : p.alloc (stringSize length.toNat) = .ok (r.address, k)) :
    h.copyString t = .ok (r, { k with
      memory := k.memory.withTextOf r.index t'.index length
      stack := h.stack }) := by
  have hr := hw.toRegular
  have hwritten := Written.refl k r n
  obtain ⟨-, hnull, -, -⟩ := hp.text hw hg hmoved hlies ht hc hwritten
  obtain ⟨-, hfrom⟩ := hp.text_inside hw hg hmoved hlies ht hc hlength
  -- The source is read again from its slot, since the allocation may have moved it.
  have hroot := hp.granted_value hr hg hwritten (ht.accepts hw)
  rw [hmoved] at hroot
  have hobject : (Value.object t').object? = some t' := Value.object?_eq_some_iff.mpr ⟨rfl, hnull⟩
  have hframe := hp.leaveFrame_eq (l := k) hw hg.stack_eq
  have hsize : Kind.string.size length.toNat = .ok (stringSize length.toNat) :=
    Kind.size_eq .string length.toNat_lt
  have hto := hg.inside
  rw [hn] at hto
  have hcopy := copyText_eq (h := { k with stack := h.stack }) hg.added.paged.size_le hfrom hto length
  unfold Heap.copyString
  rw [hlies.textLength_eq hc, ok_bind, hpush, ok_bind, hlength]
  dsimp only
  rw [hsize, ok_bind, halloc, ok_bind]
  dsimp only
  rw [hroot, ok_bind, hobject]
  dsimp only
  rw [hframe, ok_bind, UInt32.ofNat_toNat, stringSize_eq]
  exact hcopy

/-- The string that has been written into the block has the bytes of the source, which keeps them. -/
theorem Stacked.copiedString (hbytes : size = stringSize length.toNat) {bs : List UInt8}
    (hbs : h.memory.textBytes t = .ok bs) :
    h.CopiedString t bs f r { k with
      memory := k.memory.withTextOf r.index t'.index length
      stack := h.stack } := by
  have hr := hw.toRegular
  obtain ⟨hsize, hfrom⟩ := hp.text_inside hw hg hmoved hlies ht hc hlength
  have hto := hg.inside
  rw [hn] at hto
  have hwritten : k.Written r n (k.memory.withTextOf r.index t'.index length) :=
    ⟨Memory.size_withTextOf, rfl, fun i hi => Memory.word_withTextOf_ne hto hfrom (hn ▸ hi)⟩
  have hheader := Written.withHeader k r (n := n) (by omega) .string length
  obtain ⟨h0, h1, hword⟩ := Memory.word_withTextOf hto hfrom
  obtain ⟨hsource, -, hne, hwords⟩ := hp.text hw hg hmoved hlies ht hc hwritten
  obtain ⟨-, -, -, hheld⟩ := hp.text hw hg hmoved hlies ht hc hheader
  have hcount : bs.length = length.toNat := by
    rw [hlies.textBytes_eq hc, Except.ok.injEq] at hbs
    rw [← hbs, List.length_map, List.length_range', hlength]
  obtain ⟨hlies', hlast⟩ := hg.last_string hn hwritten h0 (congrArg UInt32.toNat h1)
  obtain ⟨hrestores, hfresh⟩ := hp.made hr hg hwritten
  have hspends := hg.spends
  rw [hbytes, objectBytes_stringSize length.toNat_lt] at hspends
  rw [← hcount] at hlast hspends
  exact
    { last := ⟨hlast.initialised, hlast.kind, hlast.objectSize, hlast.stop⟩
      textBytes := by
        refine (hlies.textBytes_congr hc (.inl rfl) hlies' (h1.trans hlength.symm) ?_).trans hbs
        intro j hj
        rw [hlength] at hj
        rw [hword j hj, hheld (2 + j) (by omega)]
      apart := fun s bytes hs hne hbytes => hg.apart hwritten hs hne hbytes
      fresh := hfresh
      restores := hrestores
      static := fun i hi => hp.static_written hg hwritten hi
      spends := hp.spends hspends _ _
      unmoved := by
        intro hcollections
        rw [← hp.statistics_eq] at hcollections
        obtain ⟨hf, hplace, -⟩ := hg.unmoved_written hwritten hcollections
        refine ⟨hf, hplace.trans ?_⟩
        rw [hp.eq]
        rfl
      wellFormed := fun hbase => hp.wellFormed_popped hw
        (hg.wellFormed_string hn hwritten h0 (congrArg UInt32.toNat h1) (hp.spaces_eq ▸ hbase))
        hg.stack_eq
      before := hbs
      after := by
        refine ⟨t', hmoved, hne, ?_⟩
        refine (hlies.textBytes_congr hc hc hsource (hwords 1 (by omega)) fun j hj => ?_).trans hbs
        rw [hlength] at hj
        exact hwords (2 + j) (by omega) }

end Copy

theorem exists_relocated (h : Heap) (f : Reference → Reference) (t : Reference) :
    ∃ t', h.relocated f (.object t) = .object t' := by
  by_cases hi : h.Initialised t
  · exact ⟨f t, relocated_object hi f⟩
  · exact ⟨t, if_neg hi⟩

/-- Copying a text ends with a string of its bytes, even if nothing else keeps the text alive. Otherwise memory,
the stack or a counter gives out. -/
theorem WellFormed.copyString_cases {h : Heap} (hw : h.WellFormed) {t : Reference}
    (ht : h.KnowsText t) :
    (∃ r k bs f, h.copyString t = .ok (r, k) ∧ h.CopiedString t bs f r k) ∨
    ∃ bs e, h.memory.textBytes t = .ok bs ∧ h.copyString t = .error e ∧
      h.RunsOut 1 1 (stringSize bs.length) e := by
  obtain ⟨c, hc, hlies⟩ := ht.lies hw
  have hbs := hlies.textBytes_eq hc
  have hlt := (h.memory.word (t.index + 1)).toNat_lt
  generalize hlength : h.memory.word (t.index + 1) = length at hbs hlt
  generalize hcontent : (List.range' (4 * (t.index + 2)) length.toNat).map
    (Memory.byteAt h.memory.words) = bs at hbs
  have hcount : bs.length = length.toNat := by rw [← hcontent, List.length_map, List.length_range']
  have hsize : Kind.string.size length.toNat = .ok (stringSize length.toNat) := Kind.size_eq .string hlt
  rcases (hw.pushRoot (ht.accepts hw).fits).cases with ⟨⟨slot, p⟩, hpush, hp, hsp⟩ | ⟨e, hpush, he⟩
  · rcases ((hp.wellFormed hw).alloc_grant (stringSize length.toNat)).cases with
      ⟨⟨_, k⟩, halloc, f, s, r, n, rfl, hg⟩ | ⟨e, halloc, he⟩
    · left
      have hn := hg.words_eq rfl (Kind.two_le_wordCount ..)
      obtain ⟨t', hmoved⟩ := h.exists_relocated f t
      exact ⟨r, _, bs, f, hg.copyString_eq hw hp hmoved hlies ht hc hlength hn hpush halloc,
        hp.copiedString hw hg hmoved hlies ht hc hlength hn rfl hbs⟩
    · right
      refine ⟨bs, e, hbs, ?_, hcount ▸ hp.runsOut 1 hsp
        (he.runsOut (objectBytes_stringSize hlt) (Nat.le_refl _))⟩
      unfold Heap.copyString
      rw [hlies.textLength_eq hc, ok_bind, hpush, ok_bind, hlength]
      dsimp only
      rw [hsize, ok_bind, halloc]
      rfl
  · right
    refine ⟨bs, e, hbs, ?_, he.runsOut _ _⟩
    unfold Heap.copyString
    rw [hlies.textLength_eq hc, ok_bind, hpush]
    rfl

/-- A new string has the bytes it is made of and then zeros, and nothing else changes, unless objects move.
A copy of a string or symbol has the bytes of its source, which keeps them wherever it goes. -/
theorem WellFormed.string_contract {h : Heap} (hw : h.WellFormed) :
    (∀ bs, (∃ r k f, h.newString bs = .ok (r, k) ∧ h.MadeString bs f r k) ∨
      ∃ e, h.newString bs = .error e ∧
        (bs.length < 0x100000000 → h.RunsOut 0 1 (stringSize bs.length) e)) ∧
    ∀ t, h.KnowsText t → (∃ r k bs f, h.copyString t = .ok (r, k) ∧ h.CopiedString t bs f r k) ∨
      ∃ bs e, h.memory.textBytes t = .ok bs ∧ h.copyString t = .error e ∧
        h.RunsOut 1 1 (stringSize bs.length) e :=
  ⟨hw.newString_cases, fun _ ht => hw.copyString_cases ht⟩

/-- A string of two bytes, and its copy. -/
theorem strings_looped : looped.WellFormed ∧ ∃ s k c l t, looped.newString [104, 105] = .ok (s, k) ∧
    k.WellFormed ∧ k.memory.textBytes s = .ok [104, 105] ∧ k.memory.Padded s [104, 105] ∧
    k.copyString s = .ok (c, l) ∧ l.memory.textBytes c = .ok [104, 105] ∧ t ≠ c ∧
    l.memory.textBytes t = .ok [104, 105] := by
  have hsize : stringSize [(104 : UInt8), 105].length = 12 := rfl
  obtain ⟨hnew, -⟩ := WellFormed.string_contract wellFormed_looped
  rcases hnew [104, 105] with ⟨s, k, f, hk, hs⟩ | ⟨e, -, he⟩
  · have hwell : k.WellFormed := hs.wellFormed (by decide)
    obtain ⟨-, hcopy⟩ := WellFormed.string_contract hwell
    rcases hcopy s (.inl ⟨hs.last.initialised, hs.last.kind⟩) with
      ⟨c, l, bs, g, hl, hc⟩ | ⟨bs, e, hbs, -, he⟩
    · obtain rfl : [104, 105] = bs := Except.ok.inj (hs.textBytes.symm.trans hc.before)
      obtain ⟨t, -, hne, ht⟩ := hc.after
      exact ⟨wellFormed_looped, s, k, c, l, t, hk, hwell, hs.textBytes, hs.padded, hl, hc.textBytes,
        hne, ht⟩
    · obtain rfl : [104, 105] = bs := Except.ok.inj (hs.textBytes.symm.trans hbs)
      have hboth := hs.spends.runsOut hs.restores.stack he
      rw [hsize] at hboth
      exact absurd hboth (runsOut_looped (by decide) (by decide) (by decide) e)
  · have hfirst := he (by decide)
    rw [hsize] at hfirst
    exact absurd hfirst (runsOut_looped (by decide) (by decide) (by decide) e)

end Heap

end CopyingHeap
