import CopyingHeap.Proofs.Collection.Copying

/-!
Tracing the copies. The scan pointer passes them word by word; the object behind a reference slot is
copied first if it has no copy yet. Every copy lies ahead of the scan pointer when it is made, so when
the pointer meets the cursor no slot is left that refers to the emptied space.
-/

namespace CopyingHeap

namespace Kind

/-- The first of the reference slots of an object, which follow one another. -/
def firstSlot : Kind → Nat
  | listNode => 1
  | _ => 2

/-- The number of reference slots of an object whose second word is the number `second`. -/
def slotCount (k : Kind) (second : Nat) : Nat :=
  match k with
  | array => second
  | listNode => 2
  | _ => 0

theorem isSlot_iff_between {k : Kind} {n j : Nat} :
    k.IsSlot n j ↔ k.firstSlot ≤ j ∧ j < k.firstSlot + k.slotCount n := by
  cases k <;> (simp [IsSlot, firstSlot, slotCount]; try omega)

theorem slotCount_congr {k : Kind} {n l : Nat} (h : k.hasLength = true → n = l) :
    k.slotCount n = k.slotCount l := by
  cases k <;> simp_all [hasLength, slotCount]

/-- Two ranges of the same numbers are the same, unless both are empty. -/
theorem slots_of_between {k : Kind} {n first past : Nat}
    (h : ∀ j, k.IsSlot n j ↔ first ≤ j ∧ j < past) :
    past - first = k.slotCount n ∧ (k.slotCount n = 0 ∨ first = k.firstSlot) := by
  have hbetween (j : Nat) : first ≤ j ∧ j < past ↔ k.firstSlot ≤ j ∧ j < k.firstSlot + k.slotCount n :=
    (h j).symm.trans isSlot_iff_between
  have h1 := hbetween first
  have h2 := hbetween k.firstSlot
  have h3 := hbetween (past - 1)
  have h4 := hbetween (k.firstSlot + k.slotCount n - 1)
  omega

theorem slots_le (k : Kind) (n : Nat) : k.firstSlot + k.slotCount n ≤ k.wordCount n := by
  cases k <;> simp only [firstSlot, slotCount, wordCount] <;> omega

end Kind

/-- Tracing an object is tracing its reference slots, from the first one on. -/
theorem Tracer.traceObject_eq {σ : Type} (trace : Tracer σ) (s : σ) {m : Memory} {r : Reference}
    {k : Kind} (hbelow : r.index + m.wordCount r.index < 0x40000000) (hk : m.word r.index = k.header)
    (hend : r.index + m.wordCount r.index ≤ m.words.size) :
    Tracer.traceObject trace s m r =
      Tracer.traceSlots trace s m (Address.ofNat (4 * (r.index + k.firstSlot)))
        (k.slotCount (m.word (r.index + 1)).toNat) >>= fun x =>
      .ok (Address.ofNat (4 * (r.index + m.wordCount r.index)), x.1, x.2) := by
  have hcount := Memory.wordCount_eq hk
  have htwo := k.two_le_wordCount (m.word (r.index + 1)).toNat
  have hpast : r.address.add (4 * m.wordCount r.index) =
      .ok (Address.ofNat (4 * (r.index + m.wordCount r.index))) := r.add_eq (by omega)
  rw [Tracer.traceObject, Memory.kind_eq_ok (by omega) hk, ok_bind]
  cases k with
  | array =>
    simp only [Kind.wordCount] at hcount
    generalize hl : (m.word (r.index + 1)).toNat = l at *
    have hbetween : (Address.ofNat (4 * (r.index + 2 + 0))).wordsBetween
        (Address.ofNat (4 * (r.index + 2 + l))) = l := by
      rw [Address.wordsBetween, Address.toNat_ofNat, Address.toNat_ofNat]
      omega
    dsimp only
    rw [Memory.length_eq_ok (by omega) (by omega), ok_bind, hl, Memory.elementAddress_eq (by omega),
      ok_bind, Memory.elementAddress_eq (by omega), ok_bind, hbetween,
      Kind.size_eq .array (by omega)]
    simp only [ok_bind, Kind.wordCount, ← hcount, hpast]
    rfl
  | listNode =>
    simp only [Kind.wordCount] at hcount
    have hhead : r.address.add headOffset = .ok (Address.ofNat (4 * (r.index + 1))) :=
      r.add_eq (j := 1) (by omega)
    have htail : r.address.add tailOffset = .ok (Address.ofNat (4 * (r.index + 2))) :=
      r.add_eq (j := 2) (by omega)
    have hnext : Address.ofNat ((Address.ofNat (4 * (r.index + 1))).toNat + 4) =
        Address.ofNat (4 * (r.index + 2)) := ofNat_next (by omega)
    dsimp only [Kind.firstSlot, Kind.slotCount]
    rw [hhead, ok_bind, Kind.size_eq .listNode (by omega)]
    simp only [Tracer.traceSlots, hnext, htail, ok_bind, bind_assoc, Kind.wordCount, ← hcount, hpast]
    rfl
  | _ =>
    dsimp only [Kind.slotCount]
    rw [Memory.sizeAs_eq_ok (by omega) (by omega), ok_bind, ← hcount, hpast]
    rfl

namespace Heap

namespace Evacuated

variable {h : Heap} (hr : h.Regular) {moves : List (Reference × Reference)} {slot scan : Nat}
  {e : Evacuation} {m : Memory} (he : h.Evacuated moves slot scan e m) {p : Reference × Reference}
  {j n : Nat}

include he

theorem copy_unique {q : Reference × Reference} (hp : p ∈ moves) (hq : q ∈ moves) {i : Nat}
    (hj : j < h.size p.1) (hi : i < h.size q.1) (heq : p.2.index + j = q.2.index + i) :
    p = q ∧ j = i := by
  rcases he.tiles.separate hp hq with rfl | hs | hs
  · exact ⟨rfl, by omega⟩
  · omega
  · omega

include hr

theorem scan_inside (hp : p ∈ moves) (hj : j < h.size p.1) (hscan : p.2.index + j = scan) :
    h.target ≤ scan ∧ 4 * scan < e.bump.cursor.toNat ∧ scan < m.words.size := by
  have hb := he.copy_bounds hp hj
  have hcursor := he.cursor_le hr
  have hlimit := he.limit_inside hr
  omega

/-- The scan pointer passes a word, which is changed only if it is a reference slot. -/
theorem advance (hp : p ∈ moves) (hj : j < h.size p.1) (hscan : p.2.index + j = scan) {m' : Memory}
    (hsize : m'.words.size = m.words.size) (hmax : m'.maxPages = m.maxPages)
    (hrest : ∀ i, i ≠ scan → m'.word i = m.word i)
    (hslot : h.memory.IsSlot p.1.index j →
      h.Carried (CopiedTo moves) (h.memory.word (p.1.index + j)) (m'.word scan))
    (hother : ¬ h.memory.IsSlot p.1.index j → m'.word scan = m.word scan) :
    h.Evacuated moves slot (scan + 1) e m' := by
  have hin := he.scan_inside hr hp hj hscan
  have hcursor := he.cursor_le hr
  have hstack := hr.stack_bounds
  have haligned := he.cursor_aligned
  have hscratch := hr.scratch_start
  unfold Address.WordAligned at haligned
  have hlow : h.spaces.scratch.start.toNat ≤ 4 * scan := by omega
  have hunique {q : Reference × Reference} (hq : q ∈ moves) {i : Nat} (hi : i < h.size q.1)
      (heq : q.2.index + i = scan) : q = p ∧ i = j :=
    he.copy_unique hq hp hi hj (by omega)
  refine
    { he with
      size := hsize.trans he.size
      maxPages := hmax.trans he.maxPages
      scan_le := by omega
      forwarded := fun q hq => ?_
      traced := fun q hq i hi hlt => ?_
      verbatim := fun q hq i hi hlt => ?_
      stack_done := fun i h1 h2 h3 => ?_
      stack_rest := fun i h1 h2 h3 => ?_
      frame := fun i h1 h2 h3 => ?_ }
  · have htwo := hr.two_le_size (he.initialised hq)
    have h0 := he.apart hr (he.initialised hq) (j := 0) (by omega)
    have h1 := he.apart hr (he.initialised hq) (j := 1) (by omega)
    rw [hrest _ (by omega), hrest _ (by omega)]
    exact he.forwarded q hq
  · by_cases heq : q.2.index + i = scan
    · obtain ⟨rfl, rfl⟩ := hunique hq hi.lt heq
      rw [heq]
      exact hslot hi
    · rw [hrest _ heq]
      exact he.traced q hq i hi (by omega)
  · by_cases heq : q.2.index + i = scan
    · obtain ⟨rfl, rfl⟩ := hunique hq hi heq
      rw [heq, hother fun hs => hlt ⟨hs, by omega⟩, ← heq]
      exact he.verbatim q hq i hi fun hs => by omega
    · rw [hrest _ heq]
      exact he.verbatim q hq i hi fun hs => hlt ⟨hs.1, by omega⟩
  · rw [hrest i (by omega)]
    exact he.stack_done i h1 h2 h3
  · rw [hrest i (by omega)]
    exact he.stack_rest i h1 h2 h3
  · rw [hrest i (by omega)]
    exact he.frame i h1 h2 h3

theorem skip (hp : p ∈ moves) (hj : j + n ≤ h.size p.1) (hscan : p.2.index + j = scan)
    (hno : ∀ i, j ≤ i → i < j + n → ¬ h.memory.IsSlot p.1.index i) :
    h.Evacuated moves slot (scan + n) e m := by
  induction n generalizing j scan with
  | zero => exact he
  | succ n ih =>
    have hnext : h.Evacuated moves slot (scan + 1) e m :=
      he.advance hr hp (by omega) hscan rfl rfl (fun _ _ => rfl)
        (fun hs => absurd hs (hno j (Nat.le_refl j) (by omega))) fun _ => rfl
    have hlast := ih hnext (j := j + 1) (by omega) (by omega) fun i h1 h2 => hno i (by omega) (by omega)
    rwa [show scan + 1 + n = scan + (n + 1) from by omega] at hlast

/-- The object that a reference slot of a copy refers to, outside the emptied space or in it. -/
theorem slot_target (hp : p ∈ moves) (hj : h.memory.IsSlot p.1.index j) {r : Reference}
    (hw : h.memory.word (p.1.index + j) = r.word) (hne : r ≠ Reference.null) :
    h.Reachable r ∨ ¬ h.Inside r ∧ h.namesObject r.word = false := by
  have hi := he.initialised hp
  have htarget := target?_eq_some_iff.mpr ⟨rfl, hne⟩
  by_cases hinit : h.Initialised r
  · exact .inl (.step (he.reachable p hp) ((hr.pointsTo_iff hi).mpr ⟨⟨j, hj, hw⟩, hinit⟩))
  · refine .inr ⟨fun hin => ?_, ?_⟩
    · have hbelow := (hr.allows hi hj r (hw ▸ htarget)).resolve_right hinit
      have h1 := Address.le_iff.mp hr.spaces.base_le_active
      rw [Address.lt_iff, Reference.toNat_address] at hbelow
      unfold Inside at hin
      omega
    · rw [Bool.eq_false_iff, Ne, namesObject_iff]
      rintro ⟨s, hs, hsi⟩
      rw [htarget, Option.some.injEq] at hs
      exact hinit (hs ▸ hsi)

theorem traceSlot (hp : p ∈ moves) (hj : h.memory.IsSlot p.1.index j)
    (hscan : p.2.index + j = scan) :
    Ends (Tracer.traceSlot (Evacuation.trace h.source) e m (Address.ofNat (4 * scan)))
      (fun x => ∃ more, h.Evacuated (moves ++ more) slot (scan + 1) x.1 x.2 ∧
        ∀ q ∈ more, h.memory.word (p.1.index + j) = q.1.word) h.CounterFault := by
  have hlt : j < h.size p.1 := hj.lt
  have hin := he.scan_inside hr hp hlt hscan
  have hsize := hr.size_le
  have hmsize := he.size
  have hw : m.word scan = h.memory.word (p.1.index + j) := by
    rw [← hscan]
    exact he.verbatim p hp j hlt fun hs => by omega
  -- The word stays, and so does the state of the collection.
  have hstay (hf : h.Carried (CopiedTo moves) (m.word scan) (m.word scan)) :
      ∃ more, h.Evacuated (moves ++ more) slot (scan + 1) e m ∧
        ∀ q ∈ more, h.memory.word (p.1.index + j) = q.1.word := by
    refine ⟨[], ?_, fun q hq => absurd hq List.not_mem_nil⟩
    rw [List.append_nil]
    exact he.advance hr hp hlt hscan rfl rfl (fun _ _ => rfl) (fun _ => hw ▸ hf) fun _ => rfl
  rw [Tracer.traceSlot, Memory.load_word (by omega) hin.2.2, ok_bind]
  cases htarget : (Value.decode (m.word scan)).object? with
  | none =>
    refine hstay (.inr ⟨?_, rfl⟩)
    rw [namesObject, Word.target?, htarget]
  | some r =>
    obtain ⟨hword, hne⟩ := target?_eq_some_iff.mp htarget
    dsimp only
    rcases he.slot_target hr hp hj (hw ▸ hword) hne with hreach | ⟨hout, hnames⟩
    · refine Ends.bind (he.trace hr hreach) ?_
      intro x hx
      obtain ⟨t, e', m'⟩ := x
      obtain ⟨more, he', hmem, hmore⟩ := hx
      have hnamed : ∀ q ∈ more, h.memory.word (p.1.index + j) = q.1.word := fun q hq => by
        rw [hmore q hq, ← hw, hword]
      have hin' := he'.scan_inside hr (List.mem_append_left more hp) hlt hscan
      have hf : h.Carried (CopiedTo (moves ++ more)) (h.memory.word (p.1.index + j)) t.word :=
        .inl ⟨r, t, hmem, hw ▸ hword, rfl⟩
      dsimp only
      split
      · rename_i heq
        -- Nothing is stored, since the slot holds the new address already.
        have hw' : m'.word scan = t.word := by
          rw [← hscan, he'.verbatim p (List.mem_append_left more hp) j hlt fun hs => by omega, ← hw,
            hword, heq]
        exact ⟨more, he'.advance hr (List.mem_append_left more hp) hlt hscan rfl rfl
          (fun _ _ => rfl) (fun _ => hw' ▸ hf) (fun _ => rfl), hnamed⟩
      · have hsize' := he'.size
        rw [Memory.store_word (by omega) hin'.2.2, ok_bind]
        have hword' := Memory.word_withWord hin'.2.2 t.word
        exact ⟨more, he'.advance hr (List.mem_append_left more hp) hlt hscan (by simp) rfl
          (fun i hi => by rw [hword', if_neg hi]) (fun _ => by rw [hword', if_pos rfl]; exact hf)
          (fun hs => absurd hj hs), hnamed⟩
    · rw [hr.trace_outside hout, ok_bind]
      dsimp only
      rw [if_pos rfl]
      exact hstay (.inr ⟨hword ▸ hnames, rfl⟩)

theorem traceSlots (hp : p ∈ moves)
    (hj : ∀ i, j ≤ i → i < j + n → h.memory.IsSlot p.1.index i) (hscan : p.2.index + j = scan) :
    Ends (Tracer.traceSlots (Evacuation.trace h.source) e m (Address.ofNat (4 * scan)) n)
      (fun x => ∃ more, h.Evacuated (moves ++ more) slot (scan + n) x.1 x.2) h.CounterFault := by
  induction n generalizing j scan e m moves with
  | zero =>
    refine ⟨[], ?_⟩
    rw [List.append_nil]
    exact he
  | succ n ih =>
    have hfirst := hj j (Nat.le_refl j) (by omega)
    have hin := he.scan_inside hr hp hfirst.lt hscan
    have hsize := hr.size_le
    have hmsize := he.size
    have hnext := ofNat_next (i := scan) (by omega)
    rw [Tracer.traceSlots, hnext]
    refine Ends.bind (he.traceSlot hr hp hfirst hscan) fun ⟨e', m'⟩ ⟨more, he', _⟩ => ?_
    refine (ih he' (List.mem_append_left more hp) (j := j + 1)
      (fun i h1 h2 => hj i (by omega) (by omega)) (by omega)).mono (fun x ⟨more', hx⟩ => ?_)
      fun f hf => hf
    refine ⟨more ++ more', ?_⟩
    rw [← List.append_assoc, show scan + (n + 1) = scan + 1 + n from by omega]
    exact hx

/-- A copy is of the kind and the size of its original, whether it has been traced or not. -/
theorem copy_shape (hp : p ∈ moves) : ∃ k : Kind,
    h.memory.word p.1.index = k.header ∧ m.word p.2.index = k.header ∧
      m.wordCount p.2.index = h.size p.1 ∧ p.2.index + h.size p.1 ≤ m.words.size ∧
      k.slotCount (m.word (p.2.index + 1)).toNat =
        k.slotCount (h.memory.word (p.1.index + 1)).toNat := by
  have hi := he.initialised hp
  obtain ⟨k, -, -, hheader⟩ := hr.kind_eq hi
  have htwo := hr.two_le_size hi
  have hend := he.copy_bounds hp (j := h.size p.1 - 1) (by omega)
  have hcursor := he.cursor_le hr
  have hlimit := he.limit_inside hr
  have h0 : m.word p.2.index = h.memory.word p.1.index :=
    he.verbatim p hp 0 (by omega) fun hs => absurd hs.1.pos (by omega)
  have hlength (l : Kind) (hl : h.memory.word p.1.index = l.header) (hlong : l.hasLength = true) :
      m.word (p.2.index + 1) = h.memory.word (p.1.index + 1) :=
    he.verbatim p hp 1 (by omega) fun hs =>
      Kind.not_isSlot_one hlong ((Memory.isSlot_iff hl).mp hs.1)
  exact ⟨k, hheader, h0.trans hheader, Memory.wordCount_congr h0 hlength, by omega,
    Kind.slotCount_congr fun hlong => by rw [hlength k hheader hlong]⟩

/-- Tracing a copy ends at the next one. -/
theorem traceObject (hp : p ∈ moves) (hscan : p.2.index = scan) :
    Ends (Tracer.traceObject (Evacuation.trace h.source) e m p.2)
      (fun x => x.1.toNat = 4 * (scan + h.size p.1) ∧
        ∃ more, h.Evacuated (moves ++ more) slot (scan + h.size p.1) x.2.1 x.2.2)
      h.CounterFault := by
  obtain ⟨k, hheader, h0, hcount, hend, hslots⟩ := he.copy_shape hr hp
  have hsize := hr.size_le
  have hmsize := he.size
  have hslot (j : Nat) : h.memory.IsSlot p.1.index j ↔ k.firstSlot ≤ j ∧
      j < k.firstSlot + k.slotCount (h.memory.word (p.1.index + 1)).toNat :=
    (Memory.isSlot_iff hheader).trans Kind.isSlot_iff_between
  have hle : k.firstSlot + k.slotCount (h.memory.word (p.1.index + 1)).toNat ≤ h.size p.1 := by
    rw [Heap.size, Memory.wordCount_eq hheader]
    exact k.slots_le _
  rw [Tracer.traceObject_eq _ _ (by omega) h0 (by omega), hslots, hcount, hscan]
  -- The slots follow one another, with words that are none before and after them.
  generalize k.slotCount (h.memory.word (p.1.index + 1)).toNat = n at *
  have hfirst := he.skip hr hp (j := 0) (n := k.firstSlot) (by omega) (by omega) fun i _ h2 hs => by
    have := ((hslot i).mp hs).1
    omega
  refine Ends.bind (hfirst.traceSlots hr hp (j := k.firstSlot) (n := n)
    (fun i h1 h2 => (hslot i).mpr ⟨h1, h2⟩) (by omega)) ?_
  intro x hx
  obtain ⟨e', m'⟩ := x
  obtain ⟨more, he'⟩ := hx
  have hlast := he'.skip hr (List.mem_append_left more hp) (j := k.firstSlot + n)
    (n := h.size p.1 - (k.firstSlot + n)) (by omega) (by omega) fun i h1 _ hs => by
      have := ((hslot i).mp hs).2
      omega
  rw [show scan + k.firstSlot + n + (h.size p.1 - (k.firstSlot + n)) = scan + h.size p.1 from by
    omega] at hlast
  refine ⟨?_, more, hlast⟩
  rw [Address.toNat_ofNat]
  omega

omit hr in
/-- While the scan pointer is below the cursor, there is a copy at it: `done` are those behind it and
`rest` those ahead. -/
theorem next_copy {done rest : List (Reference × Reference)} (hmoves : moves = done ++ rest)
    (hdone : Tiles (fun p => p.2.index) (fun p => h.size p.1) h.target done scan)
    (hlt : 4 * scan < e.bump.cursor.toNat) :
    ∃ p ahead, rest = p :: ahead ∧ p ∈ moves ∧ p.2.index = scan := by
  have haligned := he.cursor_aligned
  unfold Address.WordAligned at haligned
  obtain ⟨middle, hmiddle, hrest⟩ := tiles_append.mp (hmoves ▸ he.tiles)
  obtain rfl : middle = scan := hmiddle.sum_eq.trans hdone.sum_eq.symm
  cases rest with
  | nil =>
    -- The copies end at the cursor, and the scan pointer has not reached it.
    have : middle = e.bump.cursor.toNat / 4 := hrest
    omega
  | cons p ahead =>
    exact ⟨p, ahead, rfl, hmoves ▸ List.mem_append_right _ List.mem_cons_self, hrest.1⟩

/-- The closure: once the scan pointer meets the cursor, every copy has been traced. -/
theorem close {done rest : List (Reference × Reference)} (hmoves : moves = done ++ rest)
    (hdone : Tiles (fun p => p.2.index) (fun p => h.size p.1) h.target done scan)
    {position : Address} (hposition : position.toNat = 4 * scan) :
    Ends (Evacuation.close h.source e m position)
      (fun x => ∃ more, h.Evacuated (moves ++ more) slot (x.1.bump.cursor.toNat / 4) x.1 x.2)
      h.CounterFault := by
  -- The induction is on the addresses above the scan pointer, which moves up by an object each time;
  -- `done` are the copies behind it and `rest` those ahead, to which tracing may add more.
  induction hk : 0x100000000 - position.toNat using Nat.strongRecOn
    generalizing moves scan e m done rest position with
  | _ k ih =>
    rw [Evacuation.close]
    split
    · rename_i hlt
      rw [Address.lt_iff] at hlt
      obtain ⟨p, ahead, rfl, hp, hplace⟩ := he.next_copy hmoves hdone (by omega)
      have hof : Reference.ofAddress position = .ok p.2 := by
        refine Reference.ofAddress_eq_ok_iff.mpr (Address.ext_toNat ?_)
        rw [Reference.toNat_address, hplace, hposition]
      have htwo := hr.two_le_size (he.initialised hp)
      rw [hof, ok_bind]
      refine Ends.bind (he.traceObject hr hp hplace) fun ⟨next, e', m'⟩ ⟨hnext, more, he'⟩ => ?_
      dsimp only at hnext he' ⊢
      have hadvance : position < next := by
        rw [Address.lt_iff]
        omega
      rw [dif_pos hadvance]
      have hlimit := next.toNat_lt
      have hsplit : moves ++ more = (done ++ [p]) ++ (ahead ++ more) := by simp [hmoves]
      refine (ih _ (by omega) he' hsplit (hdone.snoc hplace) hnext rfl).mono
        (fun x ⟨more', hx⟩ => ?_) fun f hf => hf
      exact ⟨more ++ more', List.append_assoc moves more more' ▸ hx⟩
    · rename_i hlt
      rw [Address.lt_iff] at hlt
      have haligned := he.cursor_aligned
      unfold Address.WordAligned at haligned
      have hscan := he.scan_le
      have heq : position = e.bump.cursor := Address.ext_toNat (by omega)
      rw [if_pos heq]
      refine ⟨[], ?_⟩
      rw [List.append_nil]
      dsimp only
      rwa [← heq, hposition, Nat.mul_div_cancel_left _ (by decide)]

end Evacuated

end Heap

end CopyingHeap
