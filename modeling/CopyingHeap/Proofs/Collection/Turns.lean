import CopyingHeap.Proofs.Collection.Breadth
import CopyingHeap.Proofs.Collection.Moments

/-!
What holds at each moment of a collection, and that each turn of a loop keeps it. Beside the state of the
memory it says which objects are still ahead: those that the loop is going to visit come before all that
their copies lead to.
-/

namespace CopyingHeap

namespace Heap

namespace Evacuated

variable {h : Heap} (hr : h.Regular) {moves more : List (Reference × Reference)} {slot scan : Nat}
  {e : Evacuation} {m : Memory} {p : Reference × Reference}

include hr

/-- What a step copies is what the word that it visits names, if that has no copy yet. -/
theorem visited (he : h.Evacuated (moves ++ more) slot scan e m) {w w' : Word}
    (hmore : ∀ p ∈ more, w = p.1.word) (hw : h.Carried (CopiedTo (moves ++ more)) w w') :
    (moves ++ more).map Prod.fst = visit (moves.map Prod.fst) (h.named? w).toList := by
  have hnamed {p : Reference × Reference} (hp : p ∈ more) : h.named? w = some p.1 := by
    have hi := he.initialised (List.mem_append_right moves hp)
    exact named?_eq_some_iff.mpr ⟨by rw [hmore p hp, hr.target?_word hi], hi⟩
  cases hw' : h.named? w with
  | none =>
    have hnil : more = [] := List.eq_nil_iff_forall_not_mem.mpr fun p hp => by
      rw [hnamed hp] at hw'
      cases hw'
    rw [hnil, List.append_nil]
    rfl
  | some r =>
    obtain ⟨htarget, hi⟩ := named?_eq_some_iff.mp hw'
    have hall (x : Reference) (hx : x ∈ more.map Prod.fst) : x = r := by
      obtain ⟨p, hp, rfl⟩ := List.mem_map.mp hx
      exact Option.some.inj ((hnamed hp).symm.trans hw')
    have hmem : r ∈ moves.map Prod.fst ++ more.map Prod.fst := by
      rcases hw with ⟨s, t, hst, hs, -⟩ | ⟨hnames, -⟩
      · have hword : Word.target? w = some s := by
          rw [hs, hr.target?_word (he.initialised hst)]
        have hsame : s = r := Option.some.inj (hword.symm.trans htarget)
        rw [← List.map_append, ← hsame]
        exact List.mem_map_of_mem (f := Prod.fst) hst
      · rw [namesObject_iff.mpr ⟨r, htarget, hi⟩] at hnames
        cases hnames
    have hnodup := he.nodup
    rw [List.map_append] at hnodup ⊢
    exact append_eq_visitOne hnodup hall hmem

/-- The reference slots and the size of a copy are those of its original, and tracing the copy is tracing
these slots. -/
theorem copy_slots (he : h.Evacuated moves slot scan e m) (hp : p ∈ moves) :
    ∃ first past, m.referenceSlots p.2 = .ok
        ⟨Address.ofNat (4 * (p.2.index + first)), Address.ofNat (4 * (p.2.index + past))⟩ ∧
      m.objectSize p.2 = .ok (4 * h.size p.1) ∧ first ≤ h.size p.1 ∧ past ≤ h.size p.1 ∧
      (∀ j, h.memory.IsSlot p.1.index j ↔ first ≤ j ∧ j < past) ∧
      Tracer.traceObject (Evacuation.trace h.source) e m p.2 =
        Tracer.traceSlots (Evacuation.trace h.source) e m (Address.ofNat (4 * (p.2.index + first)))
          (past - first) >>= fun x =>
        .ok (Address.ofNat (4 * (p.2.index + h.size p.1)), x.1, x.2) := by
  obtain ⟨k, hheader, h0, hcount, hend, hslots⟩ := he.copy_shape hr hp
  have htwo := hr.two_le_size (he.initialised hp)
  have hsize := hr.size_le
  have hmsize := he.size
  obtain ⟨first, past, hrange, hfirst, hpast, hiff⟩ := Memory.referenceSlots_eq_ok h0 (by omega)
    (by omega)
  rw [hcount] at hfirst hpast
  have hkind (j : Nat) : m.IsSlot p.2.index j ↔ k.firstSlot ≤ j ∧
      j < k.firstSlot + k.slotCount (m.word (p.2.index + 1)).toNat :=
    (Memory.isSlot_iff h0).trans Kind.isSlot_iff_between
  have hsame (j : Nat) : h.memory.IsSlot p.1.index j ↔ m.IsSlot p.2.index j := by
    rw [hkind, hslots, Memory.isSlot_iff hheader, Kind.isSlot_iff_between]
  refine ⟨first, past, hrange, ?_, hfirst, hpast, fun j => (hsame j).trans (hiff j), ?_⟩
  · rw [Memory.objectSize_eq (by omega) (by omega) h0, hcount]
  · obtain ⟨hmany, hnone | hstart⟩ :=
      Kind.slots_of_between fun j => (Memory.isSlot_iff h0).symm.trans (hiff j)
    · rw [Tracer.traceObject_eq _ _ (by omega) h0 (by omega), hcount, hmany, hnone]
      rfl
    · rw [Tracer.traceObject_eq _ _ (by omega) h0 (by omega), hcount, hmany, hstart]

/-- When the scan pointer meets the cursor, no copies are left ahead of it. -/
theorem rest_eq_nil (he : h.Evacuated moves slot scan e m) {done rest : List (Reference × Reference)}
    (hmoves : moves = done ++ rest)
    (hdone : Tiles (fun p => p.2.index) (fun p => h.size p.1) h.target done scan)
    (hscan : e.bump.cursor.toNat / 4 = scan) : rest = [] := by
  obtain ⟨middle, hmiddle, hrest⟩ := tiles_append.mp (hmoves ▸ he.tiles)
  obtain rfl : middle = scan := hmiddle.sum_eq.trans hdone.sum_eq.symm
  cases rest with
  | nil => rfl
  | cons p rest =>
    have hp : p ∈ moves := hmoves ▸ List.mem_append_right done List.mem_cons_self
    have htwo := hr.two_le_size (he.initialised hp)
    have hstop : middle + h.size p.1 ≤ e.bump.cursor.toNat / 4 := hrest.2.le
    omega

end Evacuated

/-- A collection of `h` that has copied the objects in `moves` is at this moment. Each loop has a state of
the memory, and an order in which the objects that it is going to visit come next. The roots that have been
found and those ahead are all roots. -/
inductive At (h : Heap) (moves : List (Reference × Reference)) : Moment → Prop where
  | roots {i found : Nat} {e : Evacuation} {m : Memory}
      (hfound : found + (h.rootsFrom i).length = h.rootCount) (he : h.Evacuated moves i h.target e m)
      (hsp : h.stack.sp.toNat ≤ 4 * i) (hbase : 4 * i ≤ h.stack.base.toNat)
      (hahead : ∀ rs, Breadth h.children (visit (moves.map Prod.fst) (h.rootsFrom i)) 0 rs →
        h.Order rs) :
      At h moves ⟨.roots (Address.ofNat (4 * i)), found, e, m⟩
  | copies {done rest : List (Reference × Reference)} {scan found : Nat} {position : Address}
      {e : Evacuation} {m : Memory} (hfound : found = h.rootCount) (hmoves : moves = done ++ rest)
      (hdone : Tiles (fun p => p.2.index) (fun p => h.size p.1) h.target done scan)
      (hposition : position.toNat = 4 * scan)
      (he : h.Evacuated moves (h.stack.base.toNat / 4) scan e m)
      (hahead : ∀ rs, Breadth h.children (moves.map Prod.fst) done.length rs → h.Order rs) :
      At h moves ⟨.copies position, found, e, m⟩
  | slots {done rest : List (Reference × Reference)} {p : Reference × Reference} {j k found : Nat}
      {past : Address} {e : Evacuation} {m : Memory} (hfound : found = h.rootCount)
      (hmoves : moves = done ++ p :: rest)
      (hdone : Tiles (fun p => p.2.index) (fun p => h.size p.1) h.target done p.2.index)
      (hpast : past.toNat = 4 * (p.2.index + h.size p.1)) (hj : j ≤ h.size p.1) (hk : k ≤ h.size p.1)
      (hslots : ∀ i, j ≤ i → (h.memory.IsSlot p.1.index i ↔ i < k))
      (he : h.Evacuated moves (h.stack.base.toNat / 4) (p.2.index + j) e m)
      (hahead : ∀ rs, Breadth h.children (visit (moves.map Prod.fst) (h.childrenFrom p.1 j))
        (done.length + 1) rs → h.Order rs) :
      At h moves ⟨.slots p.2.address past
        ⟨Address.ofNat (4 * (p.2.index + j)), Address.ofNat (4 * (p.2.index + k))⟩, found, e, m⟩

/-- A collection that has copied the objects in `moves`, all there are, in their order. -/
structure Traced (h : Heap) (moves : List (Reference × Reference)) (x : Moment) : Prop where
  found : x.found = h.rootCount
  evacuated : h.Evacuated moves (h.stack.base.toNat / 4) (x.evacuation.bump.cursor.toNat / 4)
    x.evacuation x.memory
  order : h.Order (moves.map Prod.fst)

/-- After a turn: a later moment, with what has been copied by then, or the end. -/
def After (h : Heap) (moves : List (Reference × Reference)) (x : Moment) : Option Moment → Prop
  | some y => (∃ more, h.At (moves ++ more) y) ∧ y.Later h x
  | none => h.Traced moves x

/-- A turn keeps what holds at the moments, and leaves the same to do. It fails only where a counter
overflows. -/
def Turn (h : Heap) (moves : List (Reference × Reference)) (x : Moment) : Prop :=
  Ends (x.next h) (h.After moves x) h.CounterFault ∧ x.rest h = x.next h >>= x.resume h

namespace At

variable {h : Heap} (hr : h.Regular) {moves : List (Reference × Reference)}

include hr

theorem start {stop : Address} (hstop : stop.toNat = h.spaces.scratch.start.toNat + h.spaces.active.extent) :
    h.At [] ⟨.roots h.stack.sp, 0, ⟨⟨h.spaces.scratch.start, stop⟩, h.spaces.bits, h.statistics⟩,
      h.memory⟩ := by
  have hstack := hr.stack_bounds
  have hsp : Address.ofNat (4 * (h.stack.sp.toNat / 4)) = h.stack.sp := by
    rw [show 4 * (h.stack.sp.toNat / 4) = h.stack.sp.toNat from by omega, Address.ofNat_toNat]
  rw [← hsp]
  exact .roots (by rw [length_rootsFrom, Nat.zero_add]) (hr.evacuated hstop) (by omega) (by omega)
    fun rs hrs => hrs

theorem turn_roots {i found : Nat} {e : Evacuation} {m : Memory}
    (hfound : found + (h.rootsFrom i).length = h.rootCount)
    (he : h.Evacuated moves i h.target e m) (hsp : h.stack.sp.toNat ≤ 4 * i)
    (hbase : 4 * i ≤ h.stack.base.toNat)
    (hahead : ∀ rs, Breadth h.children (visit (moves.map Prod.fst) (h.rootsFrom i)) 0 rs →
      h.Order rs) : h.Turn moves ⟨.roots (Address.ofNat (4 * i)), found, e, m⟩ := by
  have hstack := hr.stack_bounds
  have hlimit := h.stack.base.toNat_lt
  have hplace := Address.toNat_ofNat_of_lt (n := 4 * i) (by omega)
  have hcount : (Address.ofNat (4 * i)).wordsBetween h.stack.base = h.stack.base.toNat / 4 - i := by
    rw [Address.wordsBetween, hplace]
    omega
  unfold Turn
  rw [Moment.next, Moment.rest, hcount]
  by_cases hlt : 4 * i < h.stack.base.toNat
  · have hnext : (Address.ofNat (4 * i + 4)).wordsBetween h.stack.base =
        h.stack.base.toNat / 4 - (i + 1) := by
      rw [Address.wordsBetween, Address.toNat_ofNat]
      omega
    have hsucc : h.stack.base.toNat / 4 - i = h.stack.base.toNat / 4 - (i + 1) + 1 := by omega
    rw [if_pos (by rwa [Address.lt_iff, hplace]), hplace, hsucc]
    refine ⟨?_, ?_⟩
    · refine Ends.bind (he.traceRoot hr hsp hlt) ?_
      rintro ⟨found', e', m'⟩ ⟨hmany, more, he', hmore⟩
      rw [rootsFrom_of_lt hlt hstack.2.1] at hfound hahead
      refine ⟨⟨more, .roots ?_ he' (by omega) (by omega) fun rs hrs => hahead rs ?_⟩, .left _ _ ?_⟩
      · rw [List.length_append, length_toList_named?] at hfound
        dsimp only at hmany
        omega
      · have hcarried := he'.stack_done i hsp hlt (Nat.lt_succ_self i)
        rw [visit_append, ← he'.visited hr hmore hcarried]
        exact hrs
      · rw [hnext, hcount]
        omega
    · rw [Evacuation.traceRoots, bind_assoc, bind_assoc]
      refine bind_congr fun x => ?_
      simp only [pure_bind, Moment.resume, Moment.rest, hplace, hnext]
  · rw [if_neg (by rwa [Address.lt_iff, hplace])]
    have hi : i = h.stack.base.toNat / 4 := by omega
    refine ⟨⟨⟨[], ?_⟩, .left _ _ ?_⟩, ?_⟩
    · have hnone : moves = [] ++ moves := rfl
      rw [List.append_nil]
      rw [rootsFrom_of_le (by omega)] at hfound hahead
      refine .copies hfound hnone rfl hr.scratch_start (hi ▸ he) hahead
    · omega
    · rw [show h.stack.base.toNat / 4 - i = 0 from by omega]
      rfl

/-- The scan pointer comes to the copy of `p`. -/
theorem turn_enter {done rest : List (Reference × Reference)} {p : Reference × Reference} {found : Nat}
    {e : Evacuation} {m : Memory} (hfound : found = h.rootCount) (hmoves : moves = done ++ p :: rest)
    (hdone : Tiles (fun p => p.2.index) (fun p => h.size p.1) h.target done p.2.index)
    (he : h.Evacuated moves (h.stack.base.toNat / 4) p.2.index e m)
    (hlt : p.2.address < e.bump.cursor)
    (hahead : ∀ rs, Breadth h.children (moves.map Prod.fst) done.length rs → h.Order rs) :
    h.Turn moves ⟨.copies p.2.address, found, e, m⟩ := by
  have hp : p ∈ moves := hmoves ▸ List.mem_append_right done List.mem_cons_self
  obtain ⟨first, past, hrange, hbytes, hfirst, hpast, hiff, htrace⟩ := he.copy_slots hr hp
  have htwo := hr.two_le_size (he.initialised hp)
  have hend := he.copy_bounds hp (j := h.size p.1 - 1) (by omega)
  have hlimit := e.bump.cursor.toNat_lt
  have haligned := he.cursor_aligned
  unfold Address.WordAligned at haligned
  have hadd : p.2.address.add (4 * h.size p.1) =
      .ok (Address.ofNat (4 * (p.2.index + h.size p.1))) := p.2.add_eq (by omega)
  have hpastNat := Address.toNat_ofNat_of_lt (n := 4 * (p.2.index + h.size p.1)) (by omega)
  unfold Turn
  rw [Moment.next, Moment.rest, Evacuation.close, if_pos hlt, if_pos hlt, Reference.ofAddress_address,
    ok_bind, hrange, ok_bind, hbytes, ok_bind, hadd, ok_bind]
  refine ⟨⟨⟨[], ?_⟩, .left _ _ ?_⟩, ?_⟩
  · have hnone (i : Nat) (hi : i < first) : ¬ h.memory.IsSlot p.1.index i := fun hs => by
      have := ((hiff i).mp hs).1
      omega
    have hskip := he.skip hr hp (j := 0) (n := first) (by omega) rfl fun i _ hi =>
      hnone i (by omega)
    rw [List.append_nil]
    refine .slots hfound hmoves hdone hpastNat hfirst hpast (fun i hi => by rw [hiff, and_iff_right hi])
      hskip fun rs hrs => hahead rs (.step (x := p.1) ?_ ?_)
    · rw [hmoves, List.map_append, List.map_cons]
      simp
    · rw [children, childrenFrom_skip (Nat.zero_le first) fun i _ hi => hnone i hi]
      exact hrs
  · rw [hpastNat, Reference.toNat_address]
    omega
  · have hcount : (Address.ofNat (4 * (p.2.index + first))).wordsBetween
        (Address.ofNat (4 * (p.2.index + past))) = past - first := by
      rw [Address.wordsBetween, Address.toNat_ofNat, Address.toNat_ofNat]
      omega
    have hadvance : p.2.address < Address.ofNat (4 * (p.2.index + h.size p.1)) := by
      rw [Address.lt_iff, hpastNat, Reference.toNat_address]
      omega
    rw [ok_bind, htrace, pure_bind, Moment.resume, Moment.rest, hcount, bind_assoc, bind_assoc]
    refine bind_congr ?_
    rintro ⟨e', m'⟩
    rw [ok_bind]
    dsimp only
    rw [dif_pos hadvance, if_pos hadvance]

theorem turn_copies {done rest : List (Reference × Reference)} {scan found : Nat} {position : Address}
    {e : Evacuation} {m : Memory} (hfound : found = h.rootCount) (hmoves : moves = done ++ rest)
    (hdone : Tiles (fun p => p.2.index) (fun p => h.size p.1) h.target done scan)
    (hposition : position.toNat = 4 * scan)
    (he : h.Evacuated moves (h.stack.base.toNat / 4) scan e m)
    (hahead : ∀ rs, Breadth h.children (moves.map Prod.fst) done.length rs → h.Order rs) :
    h.Turn moves ⟨.copies position, found, e, m⟩ := by
  by_cases hlt : position < e.bump.cursor
  · have hbelow := Address.lt_iff.mp hlt
    obtain ⟨p, ahead, rfl, -, rfl⟩ := he.next_copy hmoves hdone (by omega)
    obtain rfl : position = p.2.address := by
      refine Address.ext_toNat ?_
      rw [Reference.toNat_address, hposition]
    exact turn_enter hr hfound hmoves hdone he hlt hahead
  · have hge := mt Address.lt_iff.mpr hlt
    have hle := he.scan_le
    have haligned := he.cursor_aligned
    unfold Address.WordAligned at haligned
    have heq : position = e.bump.cursor := Address.ext_toNat (by omega)
    have hcursor : e.bump.cursor.toNat / 4 = scan := by
      rw [← heq, hposition, Nat.mul_div_cancel_left scan (by decide)]
    unfold Turn
    rw [Moment.next, Moment.rest, Evacuation.close, if_neg hlt, if_neg hlt, if_pos heq, if_pos heq]
    refine ⟨⟨hfound, ?_, hahead _ ?_⟩, rfl⟩
    · dsimp only
      rw [hcursor]
      exact he
    · have hlength : done.length = (moves.map Prod.fst).length := by
        rw [hmoves, he.rest_eq_nil hr hmoves hdone hcursor, List.append_nil, List.length_map]
      rw [hlength]
      exact .done

theorem turn_slots {done rest : List (Reference × Reference)} {p : Reference × Reference}
    {j k found : Nat} {past : Address} {e : Evacuation} {m : Memory} (hfound : found = h.rootCount)
    (hmoves : moves = done ++ p :: rest)
    (hdone : Tiles (fun p => p.2.index) (fun p => h.size p.1) h.target done p.2.index)
    (hpast : past.toNat = 4 * (p.2.index + h.size p.1)) (hj : j ≤ h.size p.1) (hk : k ≤ h.size p.1)
    (hslots : ∀ i, j ≤ i → (h.memory.IsSlot p.1.index i ↔ i < k))
    (he : h.Evacuated moves (h.stack.base.toNat / 4) (p.2.index + j) e m)
    (hahead : ∀ rs, Breadth h.children (visit (moves.map Prod.fst) (h.childrenFrom p.1 j))
      (done.length + 1) rs → h.Order rs) :
    h.Turn moves ⟨.slots p.2.address past
      ⟨Address.ofNat (4 * (p.2.index + j)), Address.ofNat (4 * (p.2.index + k))⟩, found, e, m⟩ := by
  have hp : p ∈ moves := hmoves ▸ List.mem_append_right done List.mem_cons_self
  have htwo := hr.two_le_size (he.initialised hp)
  have hlimit := past.toNat_lt
  have hplace (i : Nat) (hi : i ≤ h.size p.1) :
      (Address.ofNat (4 * (p.2.index + i))).toNat = 4 * (p.2.index + i) :=
    Address.toNat_ofNat_of_lt (by omega)
  have hcount : (Address.ofNat (4 * (p.2.index + j))).wordsBetween
      (Address.ofNat (4 * (p.2.index + k))) = k - j := by
    rw [Address.wordsBetween, hplace j hj, hplace k hk]
    omega
  have hadvance : p.2.address < past := by
    rw [Address.lt_iff, hpast, Reference.toNat_address]
    omega
  have hrange : Address.ofNat (4 * (p.2.index + j)) < Address.ofNat (4 * (p.2.index + k)) ↔ j < k := by
    rw [Address.lt_iff, hplace j hj, hplace k hk]
    omega
  unfold Turn
  rw [Moment.next, Moment.rest, hcount]
  by_cases hlt : j < k
  · have hslot := (hslots j (Nat.le_refl j)).mpr hlt
    have hnext : Address.ofNat ((Address.ofNat (4 * (p.2.index + j))).toNat + 4) =
        Address.ofNat (4 * (p.2.index + (j + 1))) := ofNat_next (by omega)
    have hcount' : (Address.ofNat (4 * (p.2.index + (j + 1)))).wordsBetween
        (Address.ofNat (4 * (p.2.index + k))) = k - (j + 1) := by
      rw [Address.wordsBetween, hplace (j + 1) (by omega), hplace k hk]
      omega
    rw [if_pos (hrange.mpr hlt), hnext, show k - j = k - (j + 1) + 1 from by omega]
    refine ⟨?_, ?_⟩
    · refine Ends.bind (he.traceSlot hr hp hslot rfl) ?_
      rintro ⟨e', m'⟩ ⟨more, he', hmore⟩
      have hsplit : moves ++ more = done ++ p :: (rest ++ more) := by simp [hmoves]
      refine ⟨⟨more, .slots hfound hsplit hdone hpast (by omega) hk (fun i hi => hslots i (by omega)) he'
        fun rs hrs => hahead rs ?_⟩, .right _ ?_⟩
      · have hcarried := he'.traced p (List.mem_append_left more hp) j hslot (by omega)
        rw [childrenFrom_of_isSlot hslot, visit_append, ← he'.visited hr hmore hcarried]
        exact hrs
      · rw [hcount, hcount']
        omega
    · rw [Tracer.traceSlots, hnext, bind_assoc, bind_assoc]
      refine bind_congr fun x => ?_
      simp only [pure_bind, Moment.resume, Moment.rest, hcount']
  · rw [if_neg (mt hrange.mp hlt), if_pos hadvance, show k - j = 0 from by omega]
    refine ⟨⟨⟨[], ?_⟩, .right _ (Nat.succ_pos _)⟩,
      by rw [Tracer.traceSlots, ok_bind]; exact if_pos hadvance⟩
    rw [List.append_nil]
    have hnone (i : Nat) (hi : j ≤ i) : ¬ h.memory.IsSlot p.1.index i := fun hs => by
      have := (hslots i hi).mp hs
      omega
    have hskip := he.skip hr hp (n := h.size p.1 - j) (by omega) rfl fun i hi _ => hnone i hi
    rw [show p.2.index + j + (h.size p.1 - j) = p.2.index + h.size p.1 from by omega] at hskip
    have hsplit : moves = (done ++ [p]) ++ rest := by simp [hmoves]
    refine .copies hfound hsplit (hdone.snoc rfl) hpast hskip fun rs hrs => hahead rs ?_
    rw [childrenFrom_eq_nil hnone]
    rwa [List.length_append] at hrs

theorem turn {x : Moment} (hx : h.At moves x) : h.Turn moves x := by
  cases hx with
  | roots hfound he hsp hbase hahead => exact turn_roots hr hfound he hsp hbase hahead
  | copies hfound hmoves hdone hposition he hahead =>
    exact turn_copies hr hfound hmoves hdone hposition he hahead
  | slots hfound hmoves hdone hpast hj hk hslots he hahead =>
    exact turn_slots hr hfound hmoves hdone hpast hj hk hslots he hahead

end At

/-- Every moment of a collection is as the collection of a regular heap is, and what is left to do at it
is the collection. -/
theorem Regular.visits {h : Heap} (hr : h.Regular) {x : Moment} (hx : h.Visits x) :
    (∃ moves, h.At moves x) ∧ h.collect = x.rest h >>= h.settle := by
  induction hx with
  | start hstop hbump =>
    rename_i stop bump
    obtain ⟨-, rfl⟩ := Bump.spanning_eq_ok_iff.mp hbump
    have hinside := hr.spaces.scratch_inside
    have hextent := hr.spaces.extent_eq
    have hsize := hr.size_le
    have hadd := Address.add_eq_ok_iff.mp hstop
    exact ⟨⟨[], .start hr (by omega)⟩, collect_eq_rest hstop hbump⟩
  | @next x y hx hy ih =>
    obtain ⟨⟨moves, hat⟩, hrest⟩ := ih
    obtain ⟨hafter, hturn⟩ := hat.turn hr
    rw [hy] at hafter hturn
    obtain ⟨⟨more, hmore⟩, -⟩ := hafter
    exact ⟨⟨moves ++ more, hmore⟩, hrest.trans (congrArg (· >>= h.settle) hturn)⟩

/-- A collection that ends passes a last moment, at which all is traced. -/
theorem Regular.exists_last {h : Heap} (hr : h.Regular) {x : Moment} (hx : h.Visits x)
    {y : Nat × Evacuation × Memory} (hy : x.rest h = .ok y) :
    ∃ z moves, h.Visits z ∧ z.next h = .ok none ∧ h.Traced moves z ∧
      y = (z.found, z.evacuation, z.memory) := by
  obtain ⟨⟨moves, hat⟩, -⟩ := hr.visits hx
  obtain ⟨hafter, hturn⟩ := hat.turn hr
  rw [hturn] at hy
  obtain ⟨next, hnext, hy⟩ := bind_eq_ok_iff.mp hy
  rw [hnext] at hafter
  cases next with
  | none =>
    injection hy with hy
    exact ⟨x, moves, hx, hnext, hafter, hy.symm⟩
  | some z =>
    have hlater : z.Later h x := hafter.2
    exact exists_last hr (hx.next hnext) hy
termination_by x.ahead h
decreasing_by exact hlater

/-- A collection copies the objects in their breadth-first order. -/
theorem Regular.ordered_of_collect {h h' : Heap} (hr : h.Regular) (hc : h.collect = .ok h') :
    ∃ moves, h.Collected moves h' ∧ h.Order (moves.map Prod.fst) := by
  obtain ⟨stop, hstop⟩ := hr.exists_stop
  have hspanning : Bump.spanning h.spaces.scratch.start stop = .ok ⟨h.spaces.scratch.start, stop⟩ :=
    Bump.spanning_eq_ok_iff.mpr ⟨by rw [Address.le_iff]; omega, rfl⟩
  rw [collect_eq_rest (hr.scratch_stop hstop) hspanning] at hc
  obtain ⟨y, hy, hc⟩ := bind_eq_ok_iff.mp hc
  obtain ⟨z, moves, -, -, htraced, rfl⟩ :=
    hr.exists_last (.start (hr.scratch_stop hstop) hspanning) hy
  rw [htraced.found] at hc
  have hsettled := (htraced.evacuated.settle_ends hr).of_ok hc
  exact ⟨moves, hsettled.2.2, htraced.order⟩

end Heap

end CopyingHeap
