import CopyingHeap.Object.Equality
import CopyingHeap.Proofs.Construct.Texts
import CopyingHeap.Proofs.Memory.Limit
import CopyingHeap.Proofs.Object.Whole
import CopyingHeap.Proofs.Tiling
import CopyingHeap.SymbolTable
import CopyingHeap.Proofs.Heap.Build
import Mathlib.Data.Finset.Dedup
import Mathlib.Data.Finset.Card

/-!
Interning names. Whatever the calls are, and whatever becomes of the rest of memory between them, two
names have one symbol only if they are equal, and each symbol keeps its name.
-/

namespace CopyingHeap

namespace SymbolTable

/-- The words that the symbol of a name takes. -/
def symbolWords (name : String) : Nat :=
  Kind.symbol.wordCount (nameBytes name).length

theorem symbolWords_eq (name : String) :
    symbolWords name = 2 + ((nameBytes name).length + 3) / 4 :=
  rfl

end SymbolTable

open SymbolTable

namespace Memory

/-- The symbol of the name lies at `r`. -/
structure Spells (m : Memory) (r : Reference) (name : String) : Prop where
  header : m.word r.index = Kind.symbol.header
  length : (m.word (r.index + 1)).toNat = (nameBytes name).length
  bytes : (List.range' (4 * (r.index + 2)) (nameBytes name).length).map (byteAt m.words) =
    nameBytes name
  inside : r.index + symbolWords name ≤ m.words.size

variable {m n : Memory} {a : Address} {r s : Reference} {name other : String}

theorem spells_withText (hlen : (nameBytes name).length < 0x100000000)
    (hs : r.index + symbolWords name ≤ m.words.size) :
    (m.withText r.index .symbol (nameBytes name)).Spells r name := by
  rw [symbolWords_eq] at hs
  obtain ⟨h0, h1⟩ := word_withText (k := .symbol) hs
  refine ⟨h0, ?_, ?_, ?_⟩
  · rw [h1, UInt32.toNat_ofNat', Nat.mod_eq_of_lt hlen]
  · exact map_byteAt_withBytes (by rw [size_withHeader]; omega)
  · rw [size_withText]
    exact hs

namespace Spells

theorem congr (h : m.Spells r name) (hsize : m.words.size ≤ n.words.size)
    (hword : ∀ i, r.index ≤ i → i < r.index + symbolWords name → n.word i = m.word i) :
    n.Spells r name := by
  have hwords := symbolWords_eq name
  refine ⟨?_, ?_, ?_, h.inside.trans hsize⟩
  · rw [hword _ (by omega) (by omega)]
    exact h.header
  · rw [hword _ (by omega) (by omega)]
    exact h.length
  · refine Eq.trans (List.map_congr_left fun i hi => ?_) h.bytes
    obtain ⟨hlo, hhi⟩ := List.mem_range'_1.mp hi
    exact congrArg (byteOf · (i % 4)) (hword (i / 4) (by omega) (by omega))

theorem wordCount_eq (h : m.Spells r name) : m.wordCount r.index = symbolWords name := by
  rw [Memory.wordCount_eq h.header, h.length]
  rfl

theorem lies (hm : m.Paged) (h : m.Spells r name) : m.Lies r .symbol :=
  hm.lies h.header (by rw [h.wordCount_eq]; exact h.inside)

theorem textBytes_eq (hm : m.Paged) (h : m.Spells r name) : m.textBytes r = .ok (nameBytes name) := by
  rw [(h.lies hm).textBytes_eq (.inr rfl), h.length, h.bytes]

theorem objectSize_eq (hm : m.Paged) (h : m.Spells r name) :
    m.objectSize r = .ok (4 * symbolWords name) := by
  have htwo := Kind.symbol.two_le_wordCount (nameBytes name).length
  have hinside := h.inside
  unfold symbolWords at hinside
  rw [Memory.objectSize_eq hm.size_le (by omega) h.header, h.wordCount_eq]

theorem number?_eq (hm : m.Paged) (h : m.Spells r name) (hr : r ≠ Reference.null) :
    m.number? (.object r) = .ok none := by
  have hobject : (Value.object r).object? = some r := Value.object?_eq_some_iff.mpr ⟨rfl, hr⟩
  unfold number?
  dsimp only
  rw [hobject]
  dsimp only
  rw [(h.lies hm).kind?_eq]
  rfl

/-- Two symbols are equal only if they are one. -/
theorem equal_eq (hm : m.Paged) (h : m.Spells r name) (h' : m.Spells s other)
    (hr : r ≠ Reference.null) (hs : s ≠ Reference.null) :
    m.equal (.object r) (.object s) = .ok (decide (r = s)) := by
  have hobject : (Value.object r).object? = some r := Value.object?_eq_some_iff.mpr ⟨rfl, hr⟩
  have hobject' : (Value.object s).object? = some s := Value.object?_eq_some_iff.mpr ⟨rfl, hs⟩
  rw [equal, comparisonDepth, equalWithin]
  by_cases heq : r = s
  · rw [if_pos (congrArg Value.object heq), decide_eq_true heq]
  · rw [if_neg (fun he => heq (Value.object.inj he)), decide_eq_false heq, h.number?_eq hm hr,
      ok_bind, h'.number?_eq hm hs, ok_bind]
    dsimp only
    rw [hobject, hobject']
    dsimp only
    rw [(h.lies hm).kind?_eq, ok_bind, (h'.lies hm).kind?_eq]
    rfl

theorem sameSymbol_eq (hm : m.Paged) (h : m.Spells r name) (hr : r ≠ Reference.null)
    (hs : s ≠ Reference.null) :
    m.sameSymbol (.object r) (.object s) = .ok (decide (r = s)) := by
  have hobject : (Value.object r).object? = some r := Value.object?_eq_some_iff.mpr ⟨rfl, hr⟩
  have hobject' : (Value.object s).object? = some s := Value.object?_eq_some_iff.mpr ⟨rfl, hs⟩
  unfold sameSymbol
  rw [hobject, hobject']
  dsimp only
  by_cases heq : r = s
  · rw [if_pos heq, (h.lies hm).kind?_eq, decide_eq_true heq]
    rfl
  · rw [if_neg heq, decide_eq_false heq]
    rfl

end Spells

/-- A text that has been written had room in memory. -/
theorem of_writeText {k : Kind} {bs : List UInt8} (hs : m.words.size ≤ 0x3FFFC000)
    (h : m.writeText a k bs = .ok n) :
    a.WordAligned ∧ a.toNat / 4 + 1 < m.words.size ∧ bs.length ≤ 4 * m.words.size := by
  obtain ⟨n₁, hheader, h⟩ := bind_eq_ok_iff.mp h
  obtain ⟨b, hb, h⟩ := bind_eq_ok_iff.mp h
  obtain ⟨n₂, hlength, h⟩ := bind_eq_ok_iff.mp h
  obtain ⟨c, -, h⟩ := bind_eq_ok_iff.mp h
  have hsize := size_store hheader
  have hsize' := size_store hlength
  obtain ⟨haligned, -, -⟩ := store_eq_ok_iff.mp hheader
  obtain ⟨-, hin, -⟩ := store_eq_ok_iff.mp hlength
  rw [Address.add_eq_ok_iff, lengthOffset] at hb
  refine ⟨haligned, by omega, Nat.le_of_not_lt fun hlong => ?_⟩
  have herror : n₂.writeBytes c bs = .error .overflow ∨ n₂.writeBytes c bs = .error .outOfBounds :=
    writeBytes_eq_error (by omega) (by omega)
  rcases herror with he | he
  · simp only [he, reduceCtorEq] at h
  · simp only [he, reduceCtorEq] at h

end Memory

namespace SymbolTable

variable {t t' : SymbolTable} {m m' n : Memory} {name : String} {r : Reference}

/-- A new name gets a symbol at the end of the segment, and nothing else changes. -/
structure Adds (t : SymbolTable) (m : Memory) (name : String) (r : Reference) (t' : SymbolTable)
    (m' : Memory) : Prop where
  address : r.address = t.stop
  start_eq : t'.start = t.start
  symbols : t'.symbols = (name, r) :: t.symbols
  stop : t'.stop.toNat = t.stop.toNat + 4 * symbolWords name
  paged : m'.Paged
  size_le : m.words.size ≤ m'.words.size
  spells : m'.Spells r name
  outside : ∀ i, ¬ (r.index ≤ i ∧ i < r.index + symbolWords name) → m'.word i = m.word i

theorem intern_old (h : t.find? name = some r) : t.intern m name = .ok (.ok (r, t, m)) := by
  rw [intern, h]
  rfl

theorem adds_of_intern (hm : m.Paged) (hnew : t.find? name = none)
    (h : t.intern m name = .ok (.ok (r, t', m'))) : t.Adds m name r t' m' := by
  rw [intern, hnew] at h
  obtain ⟨bytes, hbytes, h⟩ := bind_eq_ok_iff.mp h
  obtain ⟨stop, hstop, h⟩ := bind_eq_ok_iff.mp h
  rcases hm.ensure stop with ⟨refusal, hrefused, -⟩ | ⟨n, hn, hpaged, hinside, hsize, hword⟩
  · rw [hrefused] at h
    nomatch h
  · rw [hn, ok_bind] at h
    obtain ⟨n', hwrite, h⟩ := bind_eq_ok_iff.mp h
    obtain ⟨s, hs, h⟩ := bind_eq_ok_iff.mp h
    injection h with h
    injection h with h
    injection h with hr h
    injection h with ht hm'
    subst hr ht hm'
    rw [Reference.ofAddress_eq_ok_iff] at hs
    obtain ⟨haligned, hin, hlen⟩ := Memory.of_writeText hpaged.size_le hwrite
    have hbound := hpaged.size_le
    have hlen' : (nameBytes name).length < 0x100000000 := by omega
    rw [Kind.size_eq .symbol hlen', Except.ok.injEq] at hbytes
    have hwords := symbolWords_eq name
    have hindex := s.toNat_address
    rw [Address.add_eq_ok_iff, ← hs, ← hbytes, ← symbolWords] at hstop
    rw [← hs] at hwrite hin
    have hfit : s.index + symbolWords name ≤ n.words.size := by omega
    rw [Memory.writeText_eq_ok hbound (by omega) hfit, Except.ok.injEq] at hwrite
    subst hwrite
    obtain ⟨pages, hpages, hle⟩ := hpaged.pages
    exact
      { address := hs
        start_eq := rfl
        symbols := rfl
        stop := by
          rw [← hs]
          dsimp only
          omega
        paged := ⟨⟨pages, Memory.size_withText.trans hpages, hle⟩, hpaged.maximum⟩
        size_le := by rwa [Memory.size_withText]
        spells := Memory.spells_withText hlen' hfit
        outside := fun i hi =>
          (Memory.word_withText_ne (Nat.le_refl _) hfit hi).trans (hword i) }

/-- Calls on one table and one memory, the last one first, each with its symbol if there is one. A call
that the host refuses memory changes nothing. Between the calls the rest of the program may grow the
memory and write to it, but not to the segment; `rest` is the memory as it was left then. -/
inductive Interned (start : Address) :
    List (String × Option Reference) → Memory → SymbolTable → Memory → Prop
  | start {t : SymbolTable} {m : Memory} :
    startingAt start = .ok t → m.Paged → Interned start [] m t m
  | interned {calls : List (String × Option Reference)} {rest m m' : Memory} {t t' : SymbolTable}
      {name : String} {r : Reference} :
    Interned start calls rest t m → t.intern m name = .ok (.ok (r, t', m')) →
      Interned start ((name, some r) :: calls) rest t' m'
  | refused {calls : List (String × Option Reference)} {rest m : Memory} {t : SymbolTable}
      {name : String} {refusal : GrowError} :
    Interned start calls rest t m → t.intern m name = .ok (.error refusal) →
      Interned start ((name, none) :: calls) rest t m
  | elsewhere {calls : List (String × Option Reference)} {rest m n : Memory} {t : SymbolTable} :
    Interned start calls rest t m → n.Paged → m.words.size ≤ n.words.size →
      (∀ i, start.toNat ≤ 4 * i → 4 * i < t.stop.toNat → n.word i = m.word i) →
      Interned start calls n t n

/-- The names that have got a symbol, the last one first. -/
def named (calls : List (String × Option Reference)) : List String :=
  calls.filterMap fun c => c.2.map fun _ => c.1

/-- What interning keeps true of the table and the memory. -/
structure Coherent (start : Address) (calls : List (String × Option Reference)) (rest : Memory)
    (t : SymbolTable) (m : Memory) : Prop where
  start_eq : t.start = start
  reserved : Size.reservedBytes ≤ start.toNat
  paged : m.Paged
  calls_iff : ∀ name r, (name, some r) ∈ calls ↔ (name, r) ∈ t.symbols
  names : t.symbols.map Prod.fst = (named calls).dedup
  spells : ∀ x ∈ t.symbols, m.Spells x.2 x.1
  tiles : Tiles (fun x : String × Reference => x.2.address.toNat) (fun x => 4 * symbolWords x.1)
    start.toNat t.symbols.reverse t.stop.toNat
  size_le : rest.words.size ≤ m.words.size
  outside : ∀ i, 4 * i < start.toNat ∨ t.stop.toNat ≤ 4 * i → m.word i = rest.word i

namespace Coherent

variable {start : Address} {calls : List (String × Option Reference)} {rest : Memory}

theorem of_start (h : startingAt start = .ok t) (hm : m.Paged) : Coherent start [] m t m := by
  unfold startingAt at h
  split at h
  · rename_i hstart
    injection h with h
    subst h
    exact
      { start_eq := rfl
        reserved := hstart.2
        paged := hm
        calls_iff := fun _ _ => by simp
        names := rfl
        spells := fun x hx => by simp at hx
        tiles := rfl
        size_le := Nat.le_refl _
        outside := fun _ _ => rfl }
  · nomatch h

variable (hc : Coherent start calls rest t m)

include hc

theorem nodup_names : (t.symbols.map Prod.fst).Nodup := by
  rw [hc.names]
  exact List.nodup_dedup _

theorem find?_iff_mem : t.find? name = some r ↔ (name, r) ∈ t.symbols := by
  have hmem {s : Reference} (h : t.find? name = some s) : (name, s) ∈ t.symbols := by
    obtain ⟨before, after, heq, -⟩ := List.lookup_eq_some_iff.mp h
    rw [heq]
    exact List.mem_append_right _ List.mem_cons_self
  refine ⟨hmem, fun hr => ?_⟩
  cases hs : t.find? name with
  | none =>
    have hne := List.lookup_eq_none_iff.mp hs _ hr
    simp at hne
  | some s =>
    have heq := List.inj_on_of_nodup_map hc.nodup_names (hmem hs) hr rfl
    exact congrArg some (congrArg Prod.snd heq)

theorem find?_eq_none_iff : t.find? name = none ↔ name ∉ named calls := by
  have hnames : name ∈ named calls ↔ name ∈ t.symbols.map Prod.fst := by
    rw [hc.names, List.mem_dedup]
  rw [hnames]
  refine List.lookup_eq_none_iff.trans ⟨fun h hname => ?_, fun h x hx => ?_⟩
  · obtain ⟨x, hx, rfl⟩ := List.mem_map.mp hname
    have hne := h x hx
    simp at hne
  · rw [bne_iff_ne]
    rintro rfl
    exact h (List.mem_map_of_mem hx)

/-- A symbol lies in the segment. -/
theorem bounds {x : String × Reference} (hx : x ∈ t.symbols) :
    start.toNat ≤ 4 * x.2.index ∧ 4 * (x.2.index + symbolWords x.1) ≤ t.stop.toNat := by
  obtain ⟨h1, h2⟩ := hc.tiles.mem (List.mem_reverse.mpr hx)
  rw [Reference.toNat_address] at h1 h2
  omega

theorem old (h : t.find? name = some r) : Coherent start ((name, some r) :: calls) rest t m := by
  have hmem := hc.find?_iff_mem.mp h
  refine { hc with calls_iff := fun name' r' => ?_, names := ?_ }
  · rw [List.mem_cons, hc.calls_iff]
    refine ⟨?_, .inr⟩
    rintro (heq | hold)
    · injection heq with hname hr
      injection hr with hr
      rwa [hname, hr]
    · exact hold
  · have hnamed : name ∈ named calls := by
      rw [← List.mem_dedup, ← hc.names]
      exact List.mem_map_of_mem hmem
    exact hc.names.trans (List.dedup_cons_of_mem hnamed).symm

theorem adds (hnew : t.find? name = none) (h : t.Adds m name r t' m') :
    Coherent start ((name, some r) :: calls) rest t' m' := by
  have hle := hc.tiles.le
  have haddress := r.toNat_address
  have hstop := h.stop
  rw [h.address] at haddress
  refine
    { start_eq := h.start_eq.trans hc.start_eq
      reserved := hc.reserved
      paged := h.paged
      calls_iff := fun name' r' => ?_
      names := ?_
      spells := fun x hx => ?_
      tiles := ?_
      size_le := hc.size_le.trans h.size_le
      outside := fun i hi => ?_ }
  · rw [h.symbols, List.mem_cons, List.mem_cons, hc.calls_iff]
    simp
  · rw [h.symbols, List.map_cons, hc.names]
    exact (List.dedup_cons_of_notMem (hc.find?_eq_none_iff.mp hnew)).symm
  · rw [h.symbols] at hx
    rcases List.mem_cons.mp hx with rfl | hx
    · exact h.spells
    · obtain ⟨-, hend⟩ := hc.bounds hx
      exact (hc.spells x hx).congr h.size_le fun i hlo hhi => h.outside i (by omega)
  · rw [h.symbols, List.reverse_cons, h.stop]
    exact hc.tiles.snoc (congrArg Address.toNat h.address)
  · rw [h.outside i (by omega)]
    exact hc.outside i (by omega)

theorem refused : Coherent start ((name, none) :: calls) rest t m where
  __ := hc
  calls_iff := fun name' r' => by simp [hc.calls_iff]

theorem elsewhere (hn : n.Paged) (hsize : m.words.size ≤ n.words.size)
    (hword : ∀ i, start.toNat ≤ 4 * i → 4 * i < t.stop.toNat → n.word i = m.word i) :
    Coherent start calls n t n where
  __ := hc
  paged := hn
  spells := fun x hx => by
    obtain ⟨hlow, hhigh⟩ := hc.bounds hx
    exact (hc.spells x hx).congr hsize fun i hlo hhi => hword i (by omega) (by omega)
  size_le := Nat.le_refl _
  outside := fun _ _ => rfl

end Coherent

theorem Interned.coherent {start : Address} {calls : List (String × Option Reference)}
    {rest : Memory} (h : Interned start calls rest t m) : Coherent start calls rest t m := by
  induction h with
  | start hstart hm => exact .of_start hstart hm
  | @interned calls rest m m' t t' name r _ hcall ih =>
    cases hfind : t.find? name with
    | none => exact ih.adds hfind (adds_of_intern ih.paged hfind hcall)
    | some s =>
      rw [intern_old hfind] at hcall
      injection hcall with hcall
      injection hcall with hcall
      injection hcall with hr hcall
      injection hcall with ht hm
      subst hr ht hm
      exact ih.old hfind
  | refused _ _ ih => exact ih.refused
  | elsewhere _ hn hsize hword ih => exact ih.elsewhere hn hsize hword

/-- The symbols that the calls have given out are one for each name, and lie end to end from the start
of the segment in the order in which their names came first. -/
structure Faithful (start : Address) (calls : List (String × Option Reference)) (rest : Memory)
    (t : SymbolTable) (m : Memory) : Prop where
  eq_iff : ∀ name name' r r', (name, some r) ∈ calls → (name', some r') ∈ calls →
    (r = r' ↔ name = name')
  find?_iff : ∀ name r, t.find? name = some r ↔ (name, some r) ∈ calls
  length_eq : t.length = (named calls).toFinset.card
  kind_eq : ∀ name r, (name, some r) ∈ calls → m.kind r = .ok .symbol
  textBytes_eq : ∀ name r, (name, some r) ∈ calls → m.textBytes r = .ok (nameBytes name)
  objectSize_eq : ∀ name r, (name, some r) ∈ calls →
    m.objectSize r = Kind.symbol.size (nameBytes name).length
  -- Of equal names `dedup` keeps the last one, which is the first one interned.
  names : t.symbols.map Prod.fst = (named calls).dedup
  tiles : Tiles (fun r : Reference => r.address.toNat) (fun r => (m.objectSize r).toOption.getD 0)
    start.toNat (t.symbols.map Prod.snd).reverse t.stop.toNat
  disjoint : ∀ name name' r r' bytes bytes', (name, some r) ∈ calls → (name', some r') ∈ calls →
    m.objectSize r = .ok bytes → m.objectSize r' = .ok bytes' → r ≠ r' →
    r.address.toNat + bytes ≤ r'.address.toNat ∨ r'.address.toNat + bytes' ≤ r.address.toNat
  sameSymbol_eq : ∀ name name' r r', (name, some r) ∈ calls → (name', some r') ∈ calls →
    m.sameSymbol (.object r) (.object r') = .ok (decide (name = name'))
  equal_eq : ∀ name name' r r', (name, some r) ∈ calls → (name', some r') ∈ calls →
    m.equal (.object r) (.object r') = .ok (decide (name = name'))
  size_le : rest.words.size ≤ m.words.size
  outside : ∀ i, 4 * i < start.toNat ∨ t.stop.toNat ≤ 4 * i → m.word i = rest.word i

namespace Coherent

variable {start : Address} {calls : List (String × Option Reference)} {rest : Memory}
  (hc : Coherent start calls rest t m)

include hc

theorem spells_call (h : (name, some r) ∈ calls) : m.Spells r name :=
  hc.spells (name, r) ((hc.calls_iff name r).mp h)

theorem ne_null (h : (name, some r) ∈ calls) : r ≠ Reference.null := by
  obtain ⟨hlow, -⟩ := hc.bounds ((hc.calls_iff name r).mp h)
  have hreserved := hc.reserved
  unfold Size.reservedBytes at hreserved
  rw [Reference.ne_null_iff]
  dsimp only at hlow
  omega

/-- Symbols of different names do not even overlap. -/
theorem separate {name' : String} {r' : Reference} (h : (name, some r) ∈ calls)
    (h' : (name', some r') ∈ calls) :
    (name, r) = (name', r') ∨ r.address.toNat + 4 * symbolWords name ≤ r'.address.toNat ∨
      r'.address.toNat + 4 * symbolWords name' ≤ r.address.toNat :=
  hc.tiles.separate (List.mem_reverse.mpr ((hc.calls_iff name r).mp h))
    (List.mem_reverse.mpr ((hc.calls_iff name' r').mp h'))

theorem eq_iff {name' : String} {r' : Reference} (h : (name, some r) ∈ calls)
    (h' : (name', some r') ∈ calls) : r = r' ↔ name = name' := by
  constructor
  · rintro rfl
    have hwords := symbolWords_eq name
    have hwords' := symbolWords_eq name'
    rcases hc.separate h h' with heq | hlt
    · exact congrArg Prod.fst heq
    · omega
  · rintro rfl
    have hfind := hc.find?_iff_mem.mpr ((hc.calls_iff name r).mp h)
    have hfind' := hc.find?_iff_mem.mpr ((hc.calls_iff name r').mp h')
    rw [hfind] at hfind'
    exact Option.some.inj hfind'

theorem tiles_objectSize : Tiles (fun r : Reference => r.address.toNat)
    (fun r => (m.objectSize r).toOption.getD 0) start.toNat (t.symbols.map Prod.snd).reverse
    t.stop.toNat := by
  rw [← List.map_reverse, tiles_map]
  refine hc.tiles.congr fun x hx => ⟨rfl, ?_⟩
  rw [(hc.spells x (List.mem_reverse.mp hx)).objectSize_eq hc.paged]
  rfl

theorem to_faithful : Faithful start calls rest t m where
  eq_iff := fun _ _ _ _ => hc.eq_iff
  find?_iff := fun name r => hc.find?_iff_mem.trans (hc.calls_iff name r).symm
  length_eq := by
    rw [List.card_toFinset, ← hc.names, List.length_map]
    rfl
  kind_eq := fun _ _ h =>
    Memory.kind_eq_ok ((hc.spells_call h).lies hc.paged).index_lt (hc.spells_call h).header
  textBytes_eq := fun _ _ h => (hc.spells_call h).textBytes_eq hc.paged
  objectSize_eq := fun name r h => by
    have hspells := hc.spells_call h
    have hbound := hc.paged.size_le
    have hinside := hspells.inside
    rw [hspells.objectSize_eq hc.paged, Kind.size_eq .symbol, symbolWords]
    rw [symbolWords_eq] at hinside
    omega
  names := hc.names
  tiles := hc.tiles_objectSize
  disjoint := fun name name' r r' bytes bytes' h h' hbytes hbytes' hne => by
    rw [(hc.spells_call h).objectSize_eq hc.paged, Except.ok.injEq] at hbytes
    rw [(hc.spells_call h').objectSize_eq hc.paged, Except.ok.injEq] at hbytes'
    subst hbytes hbytes'
    exact (hc.separate h h').resolve_left fun heq => hne (congrArg Prod.snd heq)
  sameSymbol_eq := fun _ _ _ _ h h' => by
    rw [(hc.spells_call h).sameSymbol_eq hc.paged (hc.ne_null h) (hc.ne_null h'),
      decide_eq_decide.mpr (hc.eq_iff h h')]
  equal_eq := fun _ _ _ _ h h' => by
    rw [(hc.spells_call h).equal_eq hc.paged (hc.spells_call h') (hc.ne_null h) (hc.ne_null h'),
      decide_eq_decide.mpr (hc.eq_iff h h')]
  size_le := hc.size_le
  outside := hc.outside

end Coherent

/-- However names are interned, and whatever happens to the rest of memory meanwhile, the table is
faithful: a symbol for each name, a name for each symbol, and all of them intact. -/
theorem Interned.faithful {start : Address} {calls : List (String × Option Reference)}
    {rest : Memory} (h : Interned start calls rest t m) : Faithful start calls rest t m :=
  h.coherent.to_faithful

/-- A name gets a symbol if the host has room for it. -/
theorem exists_intern (hm : m.Paged) (hstop : t.stop.WordAligned)
    (hfit : t.stop.toNat + 4 * symbolWords name ≤ 0x10000 * m.maxPages) :
    ∃ r t' m', t.intern m name = .ok (.ok (r, t', m')) := by
  cases hfind : t.find? name with
  | some r => exact ⟨r, t, m, intern_old hfind⟩
  | none =>
    have hmax := hm.maximum
    have hwords := symbolWords_eq name
    have hlen : (nameBytes name).length < 0x100000000 := by omega
    obtain ⟨stop, hadd, hnat⟩ :=
      Address.exists_add (a := t.stop) (n := 4 * symbolWords name) (by omega)
    have hpages : Memory.pagesFor stop.toNat ≤ m.maxPages := by
      unfold Memory.pagesFor
      omega
    have hensure := Memory.ensure_fits hm hpages
    rcases hm.ensure stop with ⟨refusal, hrefused, -⟩ | ⟨n, hn, hpaged, hinside, -⟩
    · rw [hensure] at hrefused
      cases hrefused
    · have hindex : t.stop.toNat = 4 * (⟨t.stop, hstop⟩ : Reference).index :=
        Reference.toNat_address ⟨t.stop, hstop⟩
      have hin : (⟨t.stop, hstop⟩ : Reference).index + (2 + ((nameBytes name).length + 3) / 4) ≤
          n.words.size := by omega
      have hwrite := Memory.writeText_eq_ok (k := .symbol) hpaged.size_le (by omega) hin
      have hsymbol : Reference.ofAddress t.stop = .ok ⟨t.stop, hstop⟩ :=
        Reference.ofAddress_eq_ok_iff.mpr rfl
      rw [intern, hfind]
      dsimp only
      rw [Kind.size_eq .symbol hlen, ok_bind, ← symbolWords, hadd, ok_bind, hn, ok_bind]
      dsimp only at hwrite ⊢
      rw [hwrite, ok_bind, hsymbol]
      exact ⟨_, _, _, rfl⟩

/-- Three calls with two names. -/
theorem faithful_blank : ∃ foo bar t m,
    Interned (Address.ofNat 16) [("foo", some foo), ("bar", some bar), ("foo", some foo)]
      Heap.blank t m ∧ foo ≠ bar ∧ t.length = 2 ∧ m.textBytes foo = .ok (nameBytes "foo") ∧
      m.equal (.object foo) (.object bar) = .ok false ∧ ∀ i < 4, m.word i = 0 := by
  have hsize := Heap.size_blank
  have hwords : symbolWords "foo" = 3 := by decide +kernel
  have hwords' : symbolWords "bar" = 3 := by decide +kernel
  have hfit : (Address.ofNat 16).toNat + 4 * symbolWords "foo" ≤ 0x10000 * Heap.blank.maxPages := by
    rw [hwords]
    decide
  obtain ⟨foo, t₁, m₁, hfoo⟩ := exists_intern (t := ⟨Address.ofNat 16, Address.ofNat 16, []⟩)
    Heap.paged_blank (by decide) hfit
  have h₁ := adds_of_intern Heap.paged_blank rfl hfoo
  have hsize₁ := h₁.size_le
  have hstop₁ : t₁.stop.toNat = 28 := h₁.stop.trans (by rw [hwords]; rfl)
  obtain ⟨pages, hpages₁, hmax₁⟩ := h₁.paged.pages
  have hfit₁ : t₁.stop.toNat + 4 * symbolWords "bar" ≤ 0x10000 * m₁.maxPages := by omega
  obtain ⟨bar, t₂, m₂, hbar⟩ := exists_intern h₁.paged (by unfold Address.WordAligned; omega) hfit₁
  have hnew : t₁.find? "bar" = none := by
    rw [find?, h₁.symbols]
    rfl
  have h₂ := adds_of_intern h₁.paged hnew hbar
  have hold : t₂.find? "foo" = some foo := by
    rw [find?, h₂.symbols, h₁.symbols]
    rfl
  have hcalls : Interned (Address.ofNat 16) [("foo", some foo), ("bar", some bar), ("foo", some foo)]
      Heap.blank t₂ m₂ :=
    .interned (.interned (.interned (.start rfl Heap.paged_blank) hfoo) hbar) (intern_old hold)
  have hfaithful := Interned.faithful hcalls
  refine ⟨foo, bar, t₂, m₂, hcalls, ?_, ?_, ?_, ?_, fun i hi => ?_⟩
  · intro heq
    have hnames := (hfaithful.eq_iff "foo" "bar" foo bar (by simp) (by simp)).mp heq
    exact absurd hnames (by decide)
  · have hnames : named [("foo", some foo), ("bar", some bar), ("foo", some foo)] =
        ["foo", "bar", "foo"] := rfl
    rw [hfaithful.length_eq, hnames]
    decide
  · exact hfaithful.textBytes_eq "foo" foo (by simp)
  · exact hfaithful.equal_eq "foo" "bar" foo bar (by simp) (by simp)
  · rw [hfaithful.outside i (.inl ?_), Heap.word_blank]
    rw [Address.toNat_ofNat]
    omega

end SymbolTable

end CopyingHeap
