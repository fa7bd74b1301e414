import CopyingHeap.Proofs.Collection.Closure
import CopyingHeap.Proofs.Collection.Slots
import CopyingHeap.Proofs.Object.Whole
import CopyingHeap.Proofs.StartBits.Marks

/-!
The outline of an object: its size, its reference slots, what tracing it visits and what copying it moves.
Each of these reads the header and the length of the object for itself. They agree for every object that
lies in memory, whatever its kind and length, and for every tracer that leaves the object alone.
-/

namespace CopyingHeap

/-- The words that start in the range, in the order of their addresses. -/
def AddressRange.words (range : AddressRange) : List Address :=
  StartBits.wordStarts range.start range.stop

namespace Memory

variable {m : Memory} {r : Reference} {k : Kind}

namespace Lies

/-- The reference slots of an object are consecutive words, which its kind and length give. -/
theorem slots_eq (h : m.Lies r k) : ∃ slots, m.referenceSlots r = .ok slots ∧
    slots.start.WordAligned ∧ slots.words =
      (List.range' (r.index + k.firstSlot) (k.slotCount (m.word (r.index + 1)).toNat)).map
        fun j => Address.ofNat (4 * j) := by
  obtain ⟨first, past, hslots, hfirst, hpast, hiff⟩ :=
    referenceSlots_eq_ok h.header h.below h.inside
  have hbelow := h.below
  refine ⟨_, hslots, wordAligned_ofNat _, ?_⟩
  have hbetween : (Address.ofNat (4 * (r.index + first))).wordsBetween
      (Address.ofNat (4 * (r.index + past))) = past - first := by
    rw [Address.wordsBetween, Address.toNat_ofNat, Address.toNat_ofNat]
    omega
  obtain ⟨hmany, hnone | hstart⟩ :=
    Kind.slots_of_between fun j => (isSlot_iff h.header).symm.trans (hiff j)
  · rw [AddressRange.words, StartBits.wordStarts, hbetween, hmany, hnone]
    rfl
  · rw [AddressRange.words, StartBits.wordStarts, hbetween, hmany, toNat_ofNat_div (by omega), hstart]

/-- Tracing an object traces its reference slots in turn, and then names the address past it. -/
theorem traceObject_eq (h : m.Lies r k) {slots : AddressRange} (hslots : m.referenceSlots r = .ok slots)
    {σ : Type} (trace : Tracer σ) (s : σ) : Tracer.traceObject trace s m r =
      Tracer.traceEach trace s m (slots.words) >>= fun x =>
        .ok (Address.ofNat (4 * (r.index + m.wordCount r.index)), x.1, x.2) := by
  obtain ⟨slots', hslots', -, hwords⟩ := h.slots_eq
  obtain rfl : slots' = slots := Except.ok.inj (hslots'.symm.trans hslots)
  have hbelow := h.below
  have hle := k.slots_le (m.word (r.index + 1)).toNat
  rw [wordCount_eq h.header] at hbelow
  rw [Tracer.traceObject_eq trace s h.below h.header h.inside, hwords,
    Tracer.traceSlots_eq_traceEach trace s m (by omega)]

/-- The words that start in the slots are the aligned addresses there. -/
theorem mem_words (h : m.Lies r k) {slots : AddressRange} (hslots : m.referenceSlots r = .ok slots)
    (a : Address) : a ∈ slots.words ↔ a.WordAligned ∧ slots.Contains a := by
  obtain ⟨slots', hslots', hstart, -⟩ := h.slots_eq
  obtain rfl : slots' = slots := Except.ok.inj (hslots'.symm.trans hslots)
  exact StartBits.mem_wordStarts hstart

/-- A reference slot is a word behind the header, and inside the object. -/
theorem slot_inside (h : m.Lies r k) {slots : AddressRange} (hslots : m.referenceSlots r = .ok slots)
    {a : Address} (ha : a ∈ slots.words) :
    r.address.toNat + 4 ≤ a.toNat ∧ a.toNat + 4 ≤ r.address.toNat + 4 * m.wordCount r.index ∧
      m.load a = .ok (m.word (a.toNat / 4)) := by
  obtain ⟨haligned, hcontains⟩ := (h.mem_words hslots a).mp ha
  obtain ⟨j, hj, rfl⟩ := h.hasSlot_iff.mp ⟨haligned, slots, hslots, hcontains⟩
  have hpos := hj.pos
  have hlt := hj.lt
  have hbelow := h.below
  have hindex := r.toNat_address
  rw [h.load_word hlt, toNat_ofNat_div (by omega), Address.toNat_ofNat_of_lt (by omega)]
  exact ⟨by omega, by omega, rfl⟩

/-- The address past an object does not wrap around. -/
theorem toNat_past (h : m.Lies r k) : (Address.ofNat (4 * (r.index + m.wordCount r.index))).toNat =
    r.address.toNat + 4 * m.wordCount r.index := by
  have hbelow := h.below
  have hindex := r.toNat_address
  rw [Address.toNat_ofNat]
  omega

/-- Tracing an object with a tracer that spares it changes none of its words but the slots. -/
theorem traceObject_spec (h : m.Lies r k) {slots : AddressRange} (hslots : m.referenceSlots r = .ok slots)
    {past : Address} (hpast : past = Address.ofNat (4 * (r.index + m.wordCount r.index))) {σ : Type}
    {trace : Tracer σ} {s : σ} (hspares : trace.Spares s m slots.words ⟨r.address, past⟩) :
    Ends (trace.traceObject s m r)
      (fun x => x.1 = past ∧ trace.Retraced s m slots.words ⟨r.address, past⟩ x.2.2)
      fun f => ∃ a t n q, trace.Calls s m slots.words a t n q ∧ trace t n q = .error f := by
  have hin (a : Address) (ha : a ∈ slots.words) :
      AddressRange.Contains ⟨r.address, past⟩ a ∧ ∃ w, m.load a = .ok w := by
    obtain ⟨hlow, hhigh, hload⟩ := h.slot_inside hslots ha
    refine ⟨⟨?_, ?_⟩, _, hload⟩
    · rw [Address.le_iff]
      dsimp only
      omega
    · rw [Address.lt_iff, hpast, h.toNat_past]
      omega
  have hnodup : slots.words.Nodup := (StartBits.pairwise_wordStarts slots.start slots.stop).imp
    fun hlt heq => absurd (heq ▸ hlt) (Nat.lt_irrefl _)
  rw [h.traceObject_eq hslots trace s, ← hpast]
  exact (Tracer.traceEach_spec hin hnodup hspares).bind fun x hx => ⟨rfl, hx⟩

theorem sizeAs_eq (h : m.Lies r k) : m.sizeAs r k = .ok (4 * m.wordCount r.index) := by
  have htwo := h.two_le
  have hbelow := h.below
  have hinside := h.inside
  rw [sizeAs_eq_ok (by omega) (by omega), wordCount_eq h.header]

end Lies

/-- A memory in which the object has been forwarded. -/
theorem forward_eq_ok {n : Memory} {t : Reference} (hb : r.index + 1 < 0x40000000)
    (h : m.forward r t = .ok n) :
    n = (m.withWord r.index forwardedHeader).withWord (r.index + 1) t.word := by
  obtain ⟨forwarded, -, h⟩ := bind_eq_ok_iff.mp h
  cases forwarded with
  | true =>
    obtain ⟨target, -, h⟩ := bind_eq_ok_iff.mp h
    nomatch h
  | false =>
    obtain ⟨l, hl, h⟩ := bind_eq_ok_iff.mp h
    have hadd : r.address.add forwardingOffset = .ok (Address.ofNat (4 * (r.index + 1))) :=
      r.add_eq (j := 1) hb
    rw [hadd, ok_bind] at h
    obtain ⟨-, -, rfl⟩ := store_eq_ok_iff.mp hl
    obtain ⟨-, -, rfl⟩ := store_eq_ok_iff.mp h
    rw [toNat_ofNat_div hb]
    rfl

end Memory

namespace Evacuation

variable {e : Evacuation} {m : Memory} {r : Reference} {k : Kind} {n : Nat}

/-- So many bytes of an object have been copied to the cursor, the copy is marked and counted, and the
object is forwarded to it. -/
structure Moves (e : Evacuation) (m : Memory) (r : Reference) (k : Kind) (bytes : Nat)
    (x : Reference × Evacuation × Memory) : Prop where
  start : x.1.address = e.bump.cursor
  cursor : x.2.1.bump.cursor.toNat = e.bump.cursor.toNat + bytes
  limit : x.2.1.bump.limit = e.bump.limit
  isSet : ∀ a, x.2.1.bits.isSet a = (e.bits.isSet a || decide (a = x.1.address))
  counted : e.statistics.Copied x.2.1.statistics k bytes
  inside : x.1.address.toNat + bytes ≤ 4 * m.words.size
  memory : x.2.2 = m.withMove r x.1 (bytes / 4)

/-- There is room at the cursor for a copy of so many bytes: below the limit, in memory that the start bits
cover, and apart from the object. The counters of its kind have room for it too. -/
structure Room (e : Evacuation) (m : Memory) (r : Reference) (k : Kind) (bytes : Nat) : Prop where
  aligned : e.bump.cursor.WordAligned
  limit : e.bump.cursor.toNat + bytes ≤ e.bump.limit.toNat
  inside : e.bump.cursor.toNat + bytes ≤ m.bytes
  covered : e.bits.Covers (e.bump.cursor.toNat + bytes)
  apart : e.bump.cursor.toNat + bytes ≤ r.address.toNat ∨ r.address.toNat + bytes ≤ e.bump.cursor.toNat
  objects : e.statistics.objectsCopied.get k + 1 < Size.bound
  bytes : e.statistics.bytesCopied.get k + bytes < Size.bound

/-- Whatever copying an object whole leaves, it has moved the bytes that it was asked to. -/
theorem copyWhole_moves (hb : r.index + 1 < 0x40000000) :
    Ends (e.copyWhole m r k (4 * n)) (e.Moves m r k (4 * n)) fun _ => True := by
  obtain ⟨bump, bits, statistics⟩ := e
  apply Ends.bind_eq
  rintro ⟨a, bump'⟩ hreserve
  apply Ends.bind_eq
  intro m₁ hcopy
  apply Ends.bind_eq
  intro t ht
  apply Ends.bind_eq
  intro m₂ hforward
  apply Ends.bind_eq
  intro bits' hset
  apply Ends.bind_eq
  intro statistics' hcount
  obtain ⟨hstart, hlimit, hcursor, -⟩ := Bump.alloc_eq_some_iff.mp (reserve_eq_ok_iff.mp hreserve)
  obtain rfl := Reference.ofAddress_eq_ok_iff.mp ht
  obtain ⟨-, -, -, -, hinside, rfl⟩ := Memory.copy_eq_ok_iff.mp hcopy
  have hindex := t.toNat_address
  exact
    { start := hstart
      cursor := hcursor
      limit := hlimit
      isSet := StartBits.isSet_set hset
      counted := (statistics.recordCopy_spec k (4 * n)).of_ok hcount
      inside := by
        dsimp only
        unfold Reference.index at hindex
        omega
      memory := Memory.forward_eq_ok hb hforward }

/-- Where there is room, copying succeeds. -/
theorem Room.exists_copyWhole (h : e.Room m r k (4 * n)) (hn : 2 ≤ n)
    (hend : r.index + n < 0x40000000) (hinside : r.index + n ≤ m.words.size)
    (hheader : m.word r.index = k.header) : ∃ x, e.copyWhole m r k (4 * n) = .ok x := by
  have hlimit := h.limit
  have hlt := e.bump.limit.toNat_lt
  have hbytes := h.inside
  have hle := m.bytes_le
  have hindex := r.toNat_address
  obtain ⟨t, ht⟩ : ∃ t : Reference, t.address = e.bump.cursor := ⟨⟨_, h.aligned⟩, rfl⟩
  have hcursor : e.bump.cursor.toNat = 4 * t.index := by rw [← ht, Reference.toNat_address]
  have hreserve : reserve e.bump (4 * n) =
      .ok (t.address, ⟨Address.ofNat (e.bump.cursor.toNat + 4 * n), e.bump.limit⟩) := by
    have hpast := Address.toNat_ofNat_of_lt (n := e.bump.cursor.toNat + 4 * n) (by omega)
    rw [reserve_eq_ok_iff, Bump.alloc_eq_some_iff]
    exact ⟨ht, rfl, hpast, by rw [Address.le_iff, hpast]; exact hlimit⟩
  obtain ⟨bits, hset, -, -⟩ := StartBits.set_eq_ok (a := t.address) h.covered (by rw [ht]; omega) t.aligned
  -- The copy lies apart from the object, whose header is therefore still its kind.
  have hne : (m.withCopy r.index t.index n).word r.index ≠ forwardedHeader := by
    have hapart := h.apart
    rw [Memory.word_withCopy (by omega) (by omega), if_neg (by omega), hheader]
    exact header_ne_forwarded k
  rw [copyWhole_eq k (by omega) hreserve hset hinside (by omega) hn hne]
  rcases (e.statistics.recordCopy_spec k (4 * n)).cases with ⟨statistics, hcount, -⟩ | ⟨f, -, -, hfull⟩
  · rw [hcount]
    exact ⟨_, rfl⟩
  · have hobjects := h.objects
    have hcounted := h.bytes
    omega

end Evacuation

namespace Memory

variable {m : Memory} {r : Reference} {k : Kind}

/-- The object at `r` is of kind `k`, takes `bytes` bytes up to `past`, and has its references in `slots`.
Tracing it traces each of these slots once, in the order of their addresses, and ends at `past`. If no call
of the tracer writes a word of the object, tracing it fails only where the tracer does, and changes no word
of the object but the slots. Copying it moves its `bytes` bytes, and fails only where there is no room. -/
structure Outlined (m : Memory) (r : Reference) (k : Kind) (slots : AddressRange) (past : Address)
    (bytes : Nat) : Prop where
  kind_eq : m.kind r = .ok k
  slots_eq : m.referenceSlots r = .ok slots
  size_eq : m.objectSize r = .ok bytes
  past_eq : past.toNat = r.address.toNat + bytes
  whole_words : bytes % 4 = 0
  eight_le : 8 ≤ bytes
  increasing : slots.words.Pairwise (· < ·)
  mem_words : ∀ a, a ∈ slots.words ↔ a.WordAligned ∧ slots.Contains a
  inside : ∀ a ∈ slots.words, r.address.toNat + 4 ≤ a.toNat ∧ a.toNat + 4 ≤ past.toNat
  traced : ∀ {σ : Type} (trace : Tracer σ) (s : σ), trace.traceObject s m r =
    trace.traceEach s m slots.words >>= fun x => .ok (past, x.1, x.2)
  spared : ∀ {σ : Type} (trace : Tracer σ) (s : σ), trace.Spares s m slots.words ⟨r.address, past⟩ →
    Ends (trace.traceObject s m r)
      (fun x => x.1 = past ∧ trace.Retraced s m slots.words ⟨r.address, past⟩ x.2.2)
      fun f => ∃ a t n q, trace.Calls s m slots.words a t n q ∧ trace t n q = .error f
  copied : k ≠ .symbol → ∀ e : Evacuation,
    Ends (e.copyObject m r) (e.Moves m r k bytes) fun _ => ¬ e.Room m r k bytes
  unmoved : k = .symbol → ∀ e : Evacuation, e.copyObject m r = .ok (r, e, m)

theorem Lies.copyObject_spec (h : m.Lies r k) (hk : k ≠ .symbol) (e : Evacuation) :
    Ends (e.copyObject m r) (e.Moves m r k (4 * m.wordCount r.index))
      fun _ => ¬ e.Room m r k (4 * m.wordCount r.index) := by
  have htwo := h.two_le
  have hbelow := h.below
  rw [e.copyObject_eq_copyWhole h.kind_eq hk h.sizeAs_eq]
  have hmoves := Evacuation.copyWhole_moves (e := e) (m := m) (k := k) (n := m.wordCount r.index)
    (r := r) (by omega)
  cases hx : e.copyWhole m r k (4 * m.wordCount r.index) with
  | ok x => exact hmoves.of_ok hx
  | error f =>
    intro hroom
    obtain ⟨x, hok⟩ := hroom.exists_copyWhole htwo hbelow h.inside h.header
    nomatch hx.symm.trans hok

/-- An object that lies in memory has an outline. -/
theorem Whole.outlined (h : m.Whole r) : ∃ k slots past bytes, m.Outlined r k slots past bytes := by
  obtain ⟨k, hk⟩ := h.lies
  obtain ⟨slots, hslots, -, -⟩ := hk.slots_eq
  have htwo := hk.two_le
  have hpast := hk.toNat_past
  refine ⟨k, slots, Address.ofNat (4 * (r.index + m.wordCount r.index)), 4 * m.wordCount r.index, ?_⟩
  exact
    { kind_eq := hk.kind_eq
      slots_eq := hslots
      size_eq := by rw [objectSize, hk.kind_eq, ok_bind, hk.sizeAs_eq]
      past_eq := hpast
      whole_words := by omega
      eight_le := by omega
      increasing := StartBits.pairwise_wordStarts slots.start slots.stop
      mem_words := hk.mem_words hslots
      inside := fun a ha => by
        obtain ⟨hlow, hhigh, -⟩ := hk.slot_inside hslots ha
        exact ⟨hlow, hpast ▸ hhigh⟩
      traced := fun trace s => hk.traceObject_eq hslots trace s
      spared := fun trace s hspares => hk.traceObject_spec hslots rfl hspares
      copied := fun hsymbol e => hk.copyObject_spec hsymbol e
      unmoved := fun hsymbol e => by
        rw [Evacuation.copyObject, hk.kind_eq, hsymbol, ok_bind]
        rfl }

/-- An array of a boxed integer, a small integer and the boxed integer again, which lies behind it. -/
def boxedTwice : Memory :=
  ⟨#[0, 0, 1, 3, 28, 29, 28, 4, 5, 0, 0, 0, 0, 0], 1⟩

/-- Sends every object eight words up, and lists the objects that it is called with, the last one first. -/
def lifting : Tracer (List Reference) := fun seen m q =>
  .ok (.ofIndex (q.index + 8), q :: seen, m)

/-- Room for the array, with the start bits of the two objects. -/
def behindBoxed : Evacuation :=
  ⟨⟨.ofNat 36, .ofNat 56⟩, ⟨#[0x84]⟩, .initial⟩

theorem outlined_boxedTwice : boxedTwice.Whole (.ofIndex 2) ∧
    boxedTwice.Outlined (.ofIndex 2) .array ⟨.ofNat 16, .ofNat 28⟩ (.ofNat 28) 20 ∧
    (∃ x, lifting.traceObject [] boxedTwice (.ofIndex 2) = .ok x ∧ x.1 = .ofNat 28 ∧
      lifting.Retraced [] boxedTwice [.ofNat 16, .ofNat 20, .ofNat 24] ⟨.ofNat 8, .ofNat 28⟩ x.2.2) ∧
    ∃ x, behindBoxed.copyObject boxedTwice (.ofIndex 2) = .ok x ∧
      behindBoxed.Moves boxedTwice (.ofIndex 2) .array 20 x := by
  have hsize : boxedTwice.objectSize (.ofIndex 2) = .ok 20 := by
    have hkind : boxedTwice.kind (.ofIndex 2) = .ok .array := rfl
    rw [objectSize, hkind, ok_bind, sizeAs_eq_ok (by decide) (by decide)]
    rfl
  have hwhole : boxedTwice.Whole (.ofIndex 2) := ⟨20, hsize, rfl⟩
  obtain ⟨k, slots, past, bytes, ho⟩ := Whole.outlined hwhole
  obtain rfl : k = .array := Except.ok.inj (ho.kind_eq.symm.trans rfl)
  obtain rfl : slots = ⟨.ofNat 16, .ofNat 28⟩ := Except.ok.inj (ho.slots_eq.symm.trans rfl)
  obtain rfl : bytes = 20 := Except.ok.inj (ho.size_eq.symm.trans hsize)
  obtain rfl : past = .ofNat 28 := Address.ext_toNat ho.past_eq
  have hspares : lifting.Spares [] boxedTwice (AddressRange.words ⟨.ofNat 16, .ofNat 28⟩)
      ⟨.ofNat 8, .ofNat 28⟩ := by
    intro a t n q _ x hx b _
    cases hx
    rfl
  have hroom : behindBoxed.Room boxedTwice (.ofIndex 2) .array 20 :=
    { aligned := rfl
      limit := by decide
      inside := by decide
      covered := by unfold StartBits.Covers; decide
      apart := .inr (by decide)
      objects := by decide
      bytes := by decide }
  refine ⟨hwhole, ho, ?_, ?_⟩
  · refine (ho.spared lifting [] hspares).exists_ok ?_
    rintro f ⟨a, t, n, q, -, hf⟩
    cases hf
  · exact (ho.copied (by decide) behindBoxed).exists_ok fun _ hfull => hfull hroom

end Memory

end CopyingHeap
