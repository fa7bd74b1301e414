import CopyingHeap.Proofs.Construct.Filled

/-!
Arrays of given elements. The values wait on the stack while the block is handed out, and are then read back
one by one and stored. So the array holds each value at the place to which its object has gone, however often
the request has collected and whatever else has kept the objects alive.
-/

namespace CopyingHeap

namespace Memory

/-- The memory with the words `ws` from word `i` on. -/
def withWords (m : Memory) (i : Nat) (ws : List Word) : Memory :=
  ⟨overwrite m.words i ws, m.maxPages⟩

@[simp] theorem size_withWords (m : Memory) (i : Nat) (ws : List Word) :
    (m.withWords i ws).words.size = m.words.size := by
  simp [withWords]

theorem word_withWords {m : Memory} {i : Nat} {ws : List Word} (hi : i + ws.length ≤ m.words.size)
    {j : Nat} (hj : j < ws.length) : (m.withWords i ws).word (i + j) = ws[j] := by
  rw [word, withWords, Array.getD_eq_getD_getElem?, getElem?_overwrite _ _ _ hi, if_pos (by omega),
    Nat.add_sub_cancel_left, List.getElem?_eq_getElem hj]
  rfl

theorem word_withWords_ne {m : Memory} {i : Nat} {ws : List Word} (hi : i + ws.length ≤ m.words.size)
    {k : Nat} (hk : ¬ (i ≤ k ∧ k < i + ws.length)) : (m.withWords i ws).word k = m.word k := by
  rw [word, word, withWords, Array.getD_eq_getD_getElem?, Array.getD_eq_getD_getElem?,
    getElem?_overwrite _ _ _ hi, if_neg hk]

theorem block_eq {m : Memory} {i n : Nat} (hi : i + n ≤ m.words.size) :
    block m.words i n = (List.range' 0 n).map fun j => m.word (i + j) := by
  apply List.ext_getElem?
  intro j
  rw [List.getElem?_map]
  rcases Nat.lt_or_ge j n with hj | hj
  · rw [getElem?_block hj, getElem?_eq_word (by omega), List.getElem?_range' hj, Nat.zero_add,
      Nat.one_mul]
    rfl
  · rw [List.getElem?_eq_none (by rw [length_block hi]; exact hj),
      List.getElem?_eq_none (by rw [List.length_range']; exact hj)]
    rfl

/-- The memory with an array at word `i` whose elements are the words `ws`. -/
def withArray (m : Memory) (i : Nat) (length : Word) (ws : List Word) : Memory :=
  (m.withHeader i .array length).withWords (i + 2) ws

theorem word_withArray {m : Memory} {i : Nat} (length : Word) (ws : List Word)
    (hin : i + (2 + ws.length) ≤ m.words.size) :
    (m.withArray i length ws).word i = Kind.array.header ∧
      (m.withArray i length ws).word (i + 1) = length ∧
      ∀ j (hj : j < ws.length), (m.withArray i length ws).word (i + (2 + j)) = ws[j] := by
  obtain ⟨h0, h1⟩ := word_withHeader (m := m) (i := i) .array length (by omega)
  have hroom : i + 2 + ws.length ≤ (m.withHeader i .array length).words.size := by
    rw [size_withHeader]
    omega
  refine ⟨?_, ?_, fun j hj => ?_⟩
  · rw [withArray, word_withWords_ne hroom (by omega), h0]
  · rw [withArray, word_withWords_ne hroom (by omega), h1]
  · rw [← Nat.add_assoc, withArray, word_withWords hroom hj]

theorem wordCount_withArray {m : Memory} {i : Nat} {length : Word} {ws : List Word}
    (hlength : length.toNat = ws.length) (hin : i + (2 + ws.length) ≤ m.words.size) :
    (m.withArray i length ws).wordCount i = 2 + ws.length := by
  obtain ⟨h0, h1, -⟩ := word_withArray length ws hin
  rw [wordCount_eq h0, h1, hlength]
  rfl

/-- Words behind the first two of an object can be changed without changing its kind and size. -/
theorem Lies.withWord {m : Memory} {r : Reference} {c : Kind} (h : m.Lies r c) {j : Nat} (hj : 2 ≤ j)
    (w : Word) : (m.withWord (r.index + j) w).Lies r c := by
  have hheader := word_withWord_ne m (i := r.index + j) (k := r.index) (by omega) w
  have hlength := word_withWord_ne m (i := r.index + j) (k := r.index + 1) (by omega) w
  have hcount : (m.withWord (r.index + j) w).wordCount r.index = m.wordCount r.index :=
    wordCount_congr hheader fun _ _ _ => hlength
  refine ⟨hheader.trans h.header, hcount ▸ h.below, ?_⟩
  rw [hcount, bytes, size_withWord]
  exact h.bytes_le

theorem Lies.arraySet_eq {m : Memory} {r : Reference} (h : m.Lies r .array) {i : Nat}
    (hi : i < (m.word (r.index + 1)).toNat) {v : Value} {w : Word} (hw : v.encode = .ok w) :
    m.arraySet r i v = .ok (m.withWord (r.index + (2 + i)) w) := by
  have hcount : m.wordCount r.index = 2 + (m.word (r.index + 1)).toNat := wordCount_eq h.header
  have hbelow := h.below
  have hinside := h.inside
  have hcheck : m.checkIndex r i = .ok () := by
    rw [checkIndex, h.arraySize_eq, ok_bind, if_pos hi]
    rfl
  rw [arraySet, hcheck, ok_bind, elementAddress_eq (by omega), ok_bind, hw, ok_bind, Nat.add_assoc,
    store_word (by omega) (by omega)]

end Memory

/-- Values that fit are written as words, which stand for them. -/
theorem Value.exists_encodes {vs : List Value} (hvs : ∀ v ∈ vs, v.Fits) :
    ∃ ws, List.Forall₂ (fun v w => v.encode = .ok w) vs ws ∧ ws.map decode = vs := by
  induction vs with
  | nil => exact ⟨[], .nil, rfl⟩
  | cons v vs ih =>
    obtain ⟨w, hw, hdecode⟩ := exists_encode (hvs v List.mem_cons_self)
    obtain ⟨ws, hws, hdecodes⟩ := ih fun u hu => hvs u (List.mem_cons_of_mem _ hu)
    refine ⟨w :: ws, .cons hw hws, ?_⟩
    rw [List.map_cons, hdecode, hdecodes]

namespace Heap

theorem Written.withWords {h : Heap} {r : Reference} {n : Nat} {m : Memory} (hw : h.Written r n m)
    {j : Nat} {ws : List Word} (hj : j + ws.length ≤ n) (hin : r.index + n ≤ h.memory.words.size) :
    h.Written r n (m.withWords (r.index + j) ws) where
  size := by rw [Memory.size_withWords, hw.size]
  maxPages := hw.maxPages
  outside := by
    intro i hi
    rw [Memory.word_withWords_ne (by rw [hw.size]; omega) (by omega), hw.outside i hi]

/-- The values that wait in the slots become the elements from index `i` on. What is written into the block
does not change the slots. -/
theorem setElements_eq {k : Heap} {r : Reference} {n : Nat} {slots : List RootSlot} {vs : List Value}
    {ws : List Word} (hroots : ∀ m, k.Written r n m →
      List.Forall₂ (fun slot v => root { k with memory := m } slot = .ok v) slots vs)
    (hencode : List.Forall₂ (fun v w => v.encode = .ok w) vs ws) {m : Memory} (hm : k.Written r n m)
    (hlies : m.Lies r .array) (hcount : m.wordCount r.index = n) {i : Nat}
    (hi : 2 + i + ws.length ≤ n) :
    setElements { k with memory := m } r i slots =
      .ok { k with memory := m.withWords (r.index + (2 + i)) ws } := by
  induction hencode generalizing slots m i with
  | nil =>
    cases hroots m hm
    rfl
  | @cons v w vs ws hw hencode ih =>
    cases slots with
    | nil => nomatch hroots m hm
    | cons slot slots =>
      rw [List.length_cons] at hi
      obtain ⟨hroot, -⟩ := List.forall₂_cons.mp (hroots m hm)
      have hlength : n = 2 + (m.word (r.index + 1)).toNat := hcount.symm.trans (Memory.wordCount_eq hlies.header)
      have hset := hlies.arraySet_eq (i := i) (by omega) hw
      have hlies' := hlies.withWord (j := 2 + i) (by omega) w
      have hcount' : (m.withWord (r.index + (2 + i)) w).wordCount r.index = n := by
        rw [Memory.wordCount_eq hlies'.header, Memory.word_withWord_ne m (by omega)]
        exact hlength.symm
      have hrest := ih (fun m hm => (List.forall₂_cons.mp (hroots m hm)).2)
        (hm.withWord (j := 2 + i) (by omega) w) hlies' hcount' (i := i + 1) (by omega)
      rw [setElements, hroot, ok_bind, changeMemory_eq]
      dsimp only
      rw [hset, ok_bind, ok_bind, hrest]
      rfl

section Granted

variable {h s k : Heap} {bytes n : Nat} {f : Reference → Reference} {r : Reference} {length : Word}
  {ws : List Word} (hg : h.Grant bytes f s r n k) (hn : n = 2 + ws.length)
  (hlength : length.toNat = ws.length) {m : Memory} (hm : m = k.memory.withArray r.index length ws)

include hg hn hm

theorem Grant.written_array : k.Written r n m :=
  hm ▸ (Written.withHeader k r (by omega) .array length).withWords (by omega) hg.inside

include hlength

/-- The array fills the block that has been granted for it. -/
theorem Grant.last_array : m.Lies r .array ∧ Last { k with memory := m } r .array (8 + 4 * ws.length) ∧
    m.ArrayOf r (ws.map Value.decode) := by
  have hwritten := hg.written_array hn hm
  subst hn
  obtain ⟨h0, h1, helements⟩ := Memory.word_withArray length ws hg.inside
  have hcount := Memory.wordCount_withArray hlength hg.inside
  rw [← hm] at h0 h1 helements hcount
  obtain ⟨hlies, hlast⟩ := hg.last hwritten h0 hcount
  have hbytes : 8 + 4 * ws.length = 4 * (2 + ws.length) := by omega
  rw [hbytes]
  refine ⟨hlies, hlast, ?_, fun i hi => ?_⟩
  · rw [List.length_map, ← hlength, ← h1]
    exact hlies.arraySize_eq
  · rw [List.length_map] at hi
    rw [List.getElem_map, ← helements i hi]
    exact hlies.arrayGet_eq (by rwa [h1, hlength])

theorem Grant.wellFormed_array (hbase : h.spaces.base.WordAligned)
    (hallows : ∀ w ∈ ws, Allows { k with memory := m } w) : WellFormed { k with memory := m } := by
  have hwritten := hg.written_array hn hm
  subst hn
  obtain ⟨h0, h1, helements⟩ := Memory.word_withArray length ws hg.inside
  have hcount := Memory.wordCount_withArray hlength hg.inside
  rw [← hm] at h0 h1 helements hcount
  refine hg.wellFormed_written hwritten hbase (by decide) h0 hcount fun j hj => ?_
  rw [Memory.isSlot_iff h0, h1, hlength] at hj
  obtain ⟨hlo, hhi⟩ : 2 ≤ j ∧ j < 2 + ws.length := hj
  obtain ⟨i, rfl⟩ := Nat.exists_eq_add_of_le hlo
  rw [helements i (by omega)]
  exact hallows _ (List.getElem_mem _)

end Granted

/-- What has become of the heap when an array of the words `ws` has been written into the block, each word
where its object has gone, and the frame has been left. The values on the stack must reach the objects. -/
theorem Stacked.wroteArray {h p s k l : Heap} {bytes n : Nat} {f : Reference → Reference}
    {r : Reference} {us : List Value} {slots : List RootSlot} {length : Word} {ws : List Word}
    (hp : h.Stacked us slots p) (hw : h.WellFormed) (hg : p.Grant bytes f s r n k)
    (hn : n = 2 + ws.length) (hlength : length.toNat = ws.length)
    (hl : l = { k with
      memory := k.memory.withArray r.index length (ws.map (h.renamed f))
      stack := h.stack })
    (hallows : ∀ w ∈ ws, h.Allows w) (hreaches : ∀ w ∈ ws, h.Reaches us (Value.decode w)) :
    l.memory.Lies r .array ∧ l.Last r .array (8 + 4 * ws.length) ∧
      l.memory.ArrayOf r ((ws.map Value.decode).map (h.relocated f)) ∧ h.Restores us f l ∧
      (∀ x, h.ReachableWith us x → f x ≠ r) ∧ (h.spaces.base.WordAligned → l.WellFormed) := by
  have hr := hw.toRegular
  rw [← ws.length_map (h.renamed f)] at hn hlength
  have hwritten : k.Written r n (k.memory.withArray r.index length (ws.map (h.renamed f))) :=
    hg.written_array hn rfl
  obtain ⟨hlies, hlast, harray⟩ := hg.last_array hn hlength rfl
  obtain ⟨hrestores, hfresh⟩ := hp.made hr hg hwritten
  have hsame : Value.decode ∘ h.renamed f = h.relocated f ∘ Value.decode :=
    funext (hr.decode_renamed f)
  rw [ws.length_map] at hlast
  rw [List.map_map, hsame, ← List.map_map] at harray
  subst hl
  refine ⟨hlies, ⟨hlast.initialised, hlast.kind, hlast.objectSize, hlast.stop⟩, harray, hrestores,
    hfresh, fun hbase => ?_⟩
  rw [← hp.spaces_eq] at hbase
  refine hp.wellFormed_popped hw (hg.wellFormed_array hn hlength rfl hbase ?_) hg.stack_eq
  intro w' hw'
  obtain ⟨w, hmem, rfl⟩ := List.mem_map.mp hw'
  exact hrestores.allows hr (hallows w hmem) (hreaches w hmem)

/-- The steps that follow the allocation. -/
theorem Grant.newArray_eq {h p s k : Heap} {bytes n : Nat} {f : Reference → Reference} {r : Reference}
    {vs : List Value} {slots : List RootSlot} {ws : List Word} {length : Word} (hw : h.WellFormed)
    (hvs : ∀ v ∈ vs, h.Accepts v) (hp : h.Stacked vs slots p) (hg : p.Grant bytes f s r n k)
    (hencode : List.Forall₂ (fun v w => v.encode = .ok w) vs ws)
    (hpush : h.pushRoots vs = .ok (slots, p))
    (halloc : p.allocArray vs.length =
      .ok (r, { k with memory := k.memory.withHeader r.index .array length }))
    (hn : n = 2 + ws.length) (hlength : length.toNat = ws.length) :
    h.newArray vs = .ok (r, { k with
      memory := k.memory.withArray r.index length (ws.map (h.renamed f))
      stack := h.stack }) := by
  have hr := hw.toRegular
  have hheader := Written.withHeader k r (n := n) (by omega) .array length
  have hin := hg.inside
  obtain ⟨h0, h1⟩ := Memory.word_withHeader (m := k.memory) (i := r.index) .array length (by omega)
  have hcount : (k.memory.withHeader r.index .array length).wordCount r.index = n := by
    rw [Memory.wordCount_eq h0, h1, hn, ← hlength]
    rfl
  have hencode' : List.Forall₂ (fun v w => v.encode = .ok w) (vs.map (h.relocated f))
      (ws.map (h.renamed f)) := by
    rw [List.forall₂_map_left_iff, List.forall₂_map_right_iff]
    exact hencode.imp fun _ _ hw => hr.encode_relocated hw f
  have hset := setElements_eq (fun _ hm => hp.granted hr hg hm hvs) hencode' hheader
    (hg.last hheader h0 hcount).1 hcount (i := 0) (by rw [List.length_map]; omega)
  have hframe := hp.leaveFrame_eq hw (l := { k with
    memory := k.memory.withArray r.index length (ws.map (h.renamed f)) }) hg.stack_eq
  unfold Heap.newArray
  rw [hpush, ok_bind]
  dsimp only
  rw [halloc, ok_bind]
  dsimp only
  rw [hset, ok_bind, Nat.add_zero]
  exact congrArg (fun x => x >>= fun k => Except.ok (r, k)) hframe

/-- Making an array of given elements ends with the array, which is the last object and new, and holds the
values in their order, each at the place to which its object has gone. Otherwise memory, the stack or a
counter gives out; that does not happen where there is room. -/
theorem WellFormed.newArray_contract {h : Heap} (hw : h.WellFormed) {vs : List Value}
    (hvs : ∀ v ∈ vs, h.Accepts v) :
    (∃ r k f, h.newArray vs = .ok (r, k) ∧ k.Last r .array (8 + 4 * vs.length) ∧
      k.memory.ArrayOf r (vs.map (h.relocated f)) ∧ Set.InjOn (h.relocated f) {v | v ∈ vs} ∧
      h.Restores vs f k ∧ (∀ x, h.ReachableWith vs x → f x ≠ r) ∧
      (h.spaces.base.WordAligned → k.WellFormed)) ∨
    ∃ e, h.newArray vs = .error e ∧ h.RunsOut vs.length 1 (8 + 4 * vs.length) e := by
  have hr := hw.toRegular
  obtain ⟨ws, hencode, hdecode⟩ := Value.exists_encodes fun v hv => (hvs v hv).fits
  have hlengths := hencode.length_eq
  rcases (hw.pushRoots fun v hv => (hvs v hv).fits).cases with
    ⟨⟨slots, p⟩, hpush, hp, hsp⟩ | ⟨e, hpush, he⟩
  · have hwp := hp.wellFormed hw
    have hsize : vs.length < 0x40000000 := by
      have hlt := h.stack.sp.toNat_lt
      omega
    rcases (hwp.allocArray_uncut hsize).cases with
      ⟨_, halloc, bytes, f, s, r, n, k, length, rfl, hg, hn, hlength⟩ | ⟨e, halloc, he⟩
    · left
      rw [hlength, hlengths] at hn
      rw [hlengths] at hlength
      have hmem {w : Word} (hw : w ∈ ws) : Value.decode w ∈ vs := hdecode ▸ List.mem_map_of_mem hw
      obtain ⟨-, hlast, harray, hrestores, hfresh, hwell⟩ := hp.wroteArray hw hg hn hlength rfl
        (fun w hw => accepts_decode_iff.mp (hvs _ (hmem hw))) fun w hw => reaches_of_mem (hmem hw)
      rw [← hlengths] at hlast
      rw [hdecode] at harray
      refine ⟨r, _, f, hg.newArray_eq hw hvs hp hencode hpush halloc hn hlength, hlast, harray, ?_,
        hrestores, hfresh, hwell⟩
      refine (hrestores.injOn_relocated hr).mono ?_
      intro v hv
      exact ⟨hvs v hv, reaches_of_mem hv⟩
    · right
      unfold Heap.newArray
      rw [hpush, ok_bind]
      dsimp only
      rw [halloc]
      exact ⟨e, rfl, hp.runsOut vs.length hsp he⟩
  · right
    unfold Heap.newArray
    rw [hpush]
    exact ⟨e, rfl, he.runsOut _ _⟩

theorem accepts_looped :
    ∀ v ∈ [.object (.ofIndex 16), .int 7, .object (.ofIndex 16)], looped.Accepts v := by
  have hnode : looped.Accepts (.object (.ofIndex 16)) :=
    accepts_object ((initialised_looped _).mpr rfl)
  simp only [List.forall_mem_cons]
  exact ⟨hnode, looped.accepts_int (Value.fitsInt_iff.mp (by decide)), hnode,
    fun _ hv => absurd hv List.not_mem_nil⟩

/-- The same object twice, and a number between. -/
theorem newArray_looped : looped.WellFormed ∧
    (∀ v ∈ [.object (.ofIndex 16), .int 7, .object (.ofIndex 16)], looped.Accepts v) ∧
    ∃ r k, looped.newArray [.object (.ofIndex 16), .int 7, .object (.ofIndex 16)] = .ok (r, k) ∧
      k.Last r .array 20 ∧ ∃ s, s ≠ r ∧ k.memory.ArrayOf r [.object s, .int 7, .object s] ∧
        k.memory.kind s = .ok .listNode := by
  have hi : looped.Initialised (.ofIndex 16) := (initialised_looped _).mpr rfl
  have hreach : looped.ReachableWith [.object (.ofIndex 16), .int 7, .object (.ofIndex 16)]
      (.ofIndex 16) := .value List.mem_cons_self hi
  refine ⟨wellFormed_looped, accepts_looped, ?_⟩
  rcases WellFormed.newArray_contract wellFormed_looped accepts_looped with
    ⟨r, k, f, hk, hlast, harray, -, hrestores, hfresh, -⟩ | ⟨e, -, he⟩
  · refine ⟨r, k, hk, hlast, f (.ofIndex 16), hfresh _ hreach, ?_, ?_⟩
    · rw [List.map_cons, List.map_cons, List.map_cons, relocated_object hi] at harray
      exact harray
    · rw [hrestores.kind _ hreach]
      exact Memory.kind_eq_ok (by rw [size_looped]; decide) (word_looped 16)
  · exact absurd he (runsOut_looped (by decide) (by decide) (by decide) e)

end Heap

end CopyingHeap
