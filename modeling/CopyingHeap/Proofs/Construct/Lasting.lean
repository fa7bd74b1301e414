import CopyingHeap.Proofs.Construct.Arrays
import CopyingHeap.Proofs.Construct.Lists
import CopyingHeap.Proofs.Construct.Texts

/-!
Making objects, as a chain of few kinds of steps. A constructor moves the top of the stack, asks for a
block of as many bytes as its object takes, writes the object into it, and changes reference slots of
objects that it has made. What these steps keep, every constructor keeps. A heap is taken as a twin of
itself here, so that what is known of the values on its stack is at hand.
-/

namespace CopyingHeap

namespace Heap

/-- Nothing has changed in the heap proper: the words from its base on, and where the blocks are. -/
structure Quiet (h k : Heap) : Prop where
  spaces : k.spaces = h.spaces
  bump : k.bump = h.bump
  options : k.options = h.options
  size : k.memory.words.size = h.memory.words.size
  word : ∀ i, h.spaces.base.toNat ≤ 4 * i → k.memory.word i = h.memory.word i

/-- A property of the heap that making objects keeps. `P []` is said of a heap between two operations,
and `P [r]` while the block at `r` waits for its object. -/
structure Lasting (P : List Reference → Heap → Prop) : Prop where
  quiet : ∀ {raw : List Reference} {h k : Heap}, P raw h → h.Layout → k.Sound → h.Quiet k → P raw k
  alloc : ∀ {h : Heap}, P [] h → h.Sound → ∀ size,
    Ends (h.alloc size) (fun x => ∃ r, x.1 = r.address ∧ P [r] x.2) fun _ => True
  /-- An object is written that takes the whole block. -/
  install : ∀ {h : Heap} {r : Reference} {n : Nat} {m : Memory} {c : Kind}, P [r] h → h.Layout →
    h.Fresh r n → h.Written r n m → c ≠ .symbol → m.word r.index = c.header →
    m.wordCount r.index = n → P [] { h with memory := m }
  /-- An object is changed behind its first two words. -/
  update : ∀ {h : Heap} {r : Reference} {m : Memory}, P [] h → h.Sound → h.Initialised r →
    Sound { h with memory := m } → m.words.size = h.memory.words.size →
    (∀ i, ¬ (r.index + 2 ≤ i ∧ i < r.index + h.size r) → m.word i = h.memory.word i) →
    P [] { h with memory := m }
  collect : ∀ {h : Heap}, P [] h → h.Sound → Ends h.collect (P []) fun _ => True

theorem Restacks.quiet {h : Heap} {sp : Address} {m : Memory} (hr : h.Restacks sp m)
    (hl : h.Layout) : h.Quiet (h.restacked sp m) where
  spaces := rfl
  bump := rfl
  options := rfl
  size := hr.size
  word := by
    intro i hi
    have hbase := Address.le_iff.mp hl.stack.base_le
    exact hr.outside i (by omega)

theorem Sound.quiet_pushRoot {h : Heap} (hs : h.Sound) (v : Value) :
    Ends (h.pushRoot v) (fun x => h.Quiet x.2) fun _ => True := by
  rw [pushRoot_eq]
  apply Ends.bind_forall
  intro w
  rcases hs.toLayout.push hs.limit_le w with ⟨-, hx⟩ | ⟨sp, -, hr, hx⟩
  · rw [hx]
    trivial
  · rw [hx]
    exact hr.quiet hs.toLayout

theorem quiet_popRoot (h : Heap) : Ends h.popRoot (fun x => h.Quiet x.2) fun _ => True :=
  Ends.bind_forall fun _ => ⟨rfl, rfl, rfl, rfl, fun _ _ => rfl⟩

theorem quiet_leaveFrame (h : Heap) (mark : StackMark) :
    Ends (h.leaveFrame mark) h.Quiet fun _ => True :=
  Ends.bind_forall fun _ => ⟨rfl, rfl, rfl, rfl, fun _ _ => rfl⟩

theorem Layout.quiet_setRoot {h : Heap} (hl : h.Layout) (slot : RootSlot) (v : Value) :
    Ends (h.setRoot slot v) h.Quiet fun _ => True := by
  apply Ends.bind_forall
  intro w
  apply Ends.bind_eq
  intro m hstore
  unfold ShadowStack.store at hstore
  split at hstore
  · rename_i hholds
    obtain ⟨ha, -, rfl⟩ := Memory.store_eq_ok_iff.mp hstore
    have hslot := (hholds.index ha).2
    have hbase := Address.le_iff.mp hl.stack.base_le
    refine ⟨rfl, rfl, rfl, Memory.size_withWord .., ?_⟩
    intro i hi
    exact Memory.word_withWord_ne _ (by omega) w
  · nomatch hstore

/-- A step from `h` to `k`, in which what `p` relates stays where it is, and which leaves `k` with the
property `P`. -/
structure Passes (h : Heap) (P : List Reference → Heap → Prop) (p : Reference → Reference → Prop)
    (raw : List Reference) (k : Heap) : Prop where
  twin : Twin p k k
  keeps : h.Keeps k
  holds : P raw k

namespace Lasting

variable {P : List Reference → Heap → Prop} (hP : Lasting P)

include hP

section Stack

variable {p : Reference → Reference → Prop} {h : Heap} {raw : List Reference} (ht : Twin p h h)
  (hp : P raw h)

include ht hp

theorem of_quiet {α : Type} {x : Except Fault α} {f : α → Heap}
    (hx : Alike (fun a b => h.Follow p (f a) (f b)) x x)
    (hq : Ends x (fun a => h.Quiet (f a)) fun _ => True) :
    Ends x (fun a => h.Passes P p raw (f a)) fun _ => True := by
  apply (hx.ends.and hq).imp
  rintro a ⟨⟨htwin, hkeeps⟩, hquiet⟩
  exact ⟨htwin, hkeeps, hP.quiet hp ht.left.toLayout htwin.left hquiet⟩

theorem pushRoot {v : Value} (hv : h.Paired p v v) :
    Ends (h.pushRoot v) (fun x => h.Passes P p raw x.2) fun _ => True := by
  apply hP.of_quiet ht hp ((ht.pushRoot hv).mono _) (ht.left.quiet_pushRoot v)
  rintro _ _ ⟨slot, k, k', rfl, rfl, hk⟩
  exact hk

theorem popRoot : Ends h.popRoot (fun x => h.Passes P p raw x.2) fun _ => True :=
  hP.of_quiet ht hp (ht.popRoot.mono fun _ _ hx => hx.2) h.quiet_popRoot

theorem setRoot (slot : RootSlot) {v : Value} (hv : h.Paired p v v) :
    Ends (h.setRoot slot v) (h.Passes P p raw) fun _ => True :=
  hP.of_quiet ht hp (f := id) (ht.setRoot slot hv) (ht.left.toLayout.quiet_setRoot slot v)

theorem leaveFrame {mark : StackMark} (hmark : mark.address.WordAligned) :
    Ends (h.leaveFrame mark) (h.Passes P p raw) fun _ => True :=
  hP.of_quiet ht hp (f := id) ((ht.leaveFrame hmark).mono fun _ _ hk => hk.1)
    (h.quiet_leaveFrame mark)

end Stack

theorem pushRoots {p : Reference → Reference → Prop} {raw : List Reference} {vs : List Value}
    {h : Heap} (ht : Twin p h h) (hp : P raw h) (hvs : ∀ v ∈ vs, h.Paired p v v) :
    Ends (h.pushRoots vs) (fun x => h.Passes P p raw x.2) fun _ => True := by
  induction vs generalizing h with
  | nil => exact ⟨ht, Keeps.refl h, hp⟩
  | cons v vs ih =>
    apply (hP.pushRoot ht hp (hvs v List.mem_cons_self)).bind
    intro x hx
    have hrest : ∀ w ∈ vs, x.2.Paired p w w :=
      fun w hw => (hvs w (List.mem_cons_of_mem v hw)).keep hx.keeps
    apply (ih hx.twin hx.holds hrest).bind
    intro y hy
    exact ⟨hy.twin, hx.keeps.trans hy.keeps, hy.holds⟩

section Construct

variable {p : Reference → Reference → Prop} {h : Heap} (ht : Twin p h h) (hp : P [] h)

include ht hp

theorem handed (size : Nat) :
    Ends (h.alloc size) (fun x => ∃ q r n, x.1 = r.address ∧ Handed h size q r r n x.2 x.2 ∧
      P [r] x.2) fun _ => True := by
  apply ((ht.alloc size).ends.and (hP.alloc hp ht.left size)).imp
  rintro x ⟨⟨q, r, s, n, k, k', hx, hx', hhanded⟩, t, hr, hholds⟩
  subst hx
  obtain ⟨hrs, rfl⟩ := Prod.mk.inj hx'
  obtain rfl := Reference.ext_address hrs
  obtain rfl := Reference.ext_address hr
  exact ⟨q, _, n, rfl, hhanded, hholds⟩

theorem newScalar {k : Kind} (hk : k.IsScalar) (w : Word) :
    Ends (h.newScalar k w) (fun x => P [] x.2) fun _ => True := by
  obtain ⟨hsymbol, hcount, -⟩ := hk.shape
  unfold Heap.newScalar
  rw [Kind.size_eq k (n := 0) (by decide), hcount, ok_bind]
  apply (hP.handed ht hp _).bind
  rintro ⟨_, l⟩ ⟨q, r, n, rfl, hx, hholds⟩
  obtain rfl : n = 2 := hx.words_eq rfl (by decide)
  obtain ⟨hsize, -, hin, -⟩ := hx.inside
  dsimp only at hsize hin hx hholds ⊢
  rw [changeMemory_eq, Memory.writeScalar_eq k w hsize (by omega), ok_bind, ok_bind,
    Reference.ofAddress_address, ok_bind]
  obtain ⟨h0, -⟩ := Memory.word_withHeader (m := l.memory) (i := r.index) k w (by omega)
  exact hP.install hholds hx.twin.left.toLayout hx.fresh (Written.withHeader l r (by decide) k w) hsymbol h0
    ((Memory.wordCount_eq h0).trans (hcount _))

theorem newInteger (n : Int32) :
    Ends (h.newInteger n) (fun x => P [] x.2) fun _ => True := by
  unfold Heap.newInteger
  split
  · exact hp
  · exact (hP.newScalar ht hp (.inl rfl) _).bind fun _ hx => hx

theorem newString (bs : List UInt8) :
    Ends (h.newString bs) (fun x => P [] x.2) fun _ => True := by
  apply Ends.bind_eq
  intro size hsize
  apply (hP.handed ht hp size).bind
  rintro ⟨_, l⟩ ⟨q, r, n, rfl, hx, hholds⟩
  obtain ⟨hmax, -, hin, -⟩ := hx.inside
  have hn : 2 ≤ n := by
    have hbytes := hx.bytes
    unfold Size.objectBytes Size.minObjectBytes at hbytes
    omega
  dsimp only at hmax hin hx hholds ⊢
  rw [changeMemory_eq]
  rcases Nat.lt_or_ge bs.length 0x100000000 with hlen | hlen
  · rw [Kind.size_eq .string hlen, Except.ok.injEq] at hsize
    obtain rfl : n = 2 + (bs.length + 3) / 4 := hx.words_eq hsize.symm (by omega)
    obtain ⟨h0, h1⟩ := Memory.word_withText (k := .string) hin
    rw [Memory.writeText_eq_ok hmax (by omega) hin, ok_bind, ok_bind, Reference.ofAddress_address,
      ok_bind]
    apply hP.install hholds hx.twin.left.toLayout hx.fresh
      ⟨Memory.size_withText, rfl, fun i => Memory.word_withText_ne (Nat.le_refl _) hin⟩ (by decide) h0
    rw [Memory.wordCount_eq h0, h1, UInt32.toNat_ofNat', Nat.mod_eq_of_lt hlen]
    rfl
  · have herror : l.memory.writeText r.address .string bs = .error .overflow ∨
        l.memory.writeText r.address .string bs = .error .outOfBounds :=
      Memory.writeText_eq_error hmax (by omega) (by omega)
    rcases herror with he | he
    · rw [he]
      trivial
    · rw [he]
      trivial

theorem newListNode {head tail : Value} (hhead : h.Paired p head head)
    (htail : h.Paired p tail tail) :
    Ends (h.newListNode head tail) (fun x => P [] x.2) fun _ => True := by
  obtain ⟨-, haligned⟩ := ht.enterFrame
  unfold Heap.newListNode
  apply (hP.pushRoot ht hp hhead).bind
  rintro ⟨headSlot, h₁⟩ hx₁
  apply (hP.pushRoot hx₁.twin hx₁.holds (htail.keep hx₁.keeps)).bind
  rintro ⟨tailSlot, h₂⟩ hx₂
  dsimp only at hx₁ hx₂ ⊢
  rw [Kind.size_eq .listNode (n := 0) (by decide), ok_bind]
  apply (hP.handed hx₂.twin hx₂.holds _).bind
  rintro ⟨_, h₃⟩ ⟨q, r, n, rfl, hx, hholds⟩
  obtain rfl : n = 3 := hx.words_eq rfl (by decide)
  dsimp only at hx hholds ⊢
  apply Ends.bind_forall
  intro head'
  apply Ends.bind_forall
  intro tail'
  apply ((hx.twin.leaveFrame haligned).ends.and
    (hP.leaveFrame hx.twin hholds haligned)).bind
  rintro h₄ ⟨⟨⟨ht₄, -⟩, -, hf⟩, hx₄⟩
  have hfresh := (hf r 3).1 hx.fresh
  have hin := hfresh.inside ht₄.left.toLayout
  rw [changeMemory_eq, Memory.writeListNode_eq ht₄.left.size_le (by omega) (by omega),
    Reference.ofAddress_address]
  simp only [bind_assoc, ok_bind]
  apply Ends.bind_forall
  intro w
  apply Ends.bind_forall
  intro v
  obtain ⟨h0, -⟩ := Memory.word_withHeader (m := h₄.memory) (i := r.index) .listNode w (by omega)
  have hheader := (Memory.word_withWord_ne (h₄.memory.withHeader r.index .listNode w)
    (show r.index ≠ r.index + 2 by omega) v).trans h0
  exact hP.install hx₄.holds ht₄.left.toLayout hfresh
    ((Written.withHeader h₄ r (by decide) _ w).withWord (j := 2) (by decide) v) (by decide) hheader
    (Memory.wordCount_eq hheader)

theorem arraySet {r : Reference} {v : Value} (hr : h.Paired p (.object r) (.object r)) (i : Nat)
    (hv : h.Paired p v v) :
    Ends (h.changeMemory (·.arraySet r i v)) (P []) fun _ => True := by
  apply (ht.arraySet hr i hv).ends.with_eq.imp
  rintro k ⟨⟨hk, -⟩, hset⟩
  rw [changeMemory_eq] at hset
  obtain ⟨m, hm, hset⟩ := bind_eq_ok_iff.mp hset
  cases hset
  obtain ⟨_, hcheck, hm⟩ := bind_eq_ok_iff.mp hm
  obtain ⟨a, ha, hm⟩ := bind_eq_ok_iff.mp hm
  obtain ⟨w, -, hm⟩ := bind_eq_ok_iff.mp hm
  obtain ⟨-, -, rfl⟩ := Memory.store_eq_ok_iff.mp hm
  obtain ⟨hpair, hheader, hi⟩ := (ht.checkIndex hr i).ends.of_ok hcheck
  have hslot := (Memory.isSlot_iff hheader (j := 2 + i)).mpr ⟨by omega, by omega⟩
  have hlt : 2 + i < h.size r := hslot.lt
  obtain ⟨hplace, -⟩ := ht.elementAddress hpair (n := i) (by omega)
  rw [hplace, Except.ok.injEq] at ha
  subst ha
  have hobject := (ht.initialised r r hpair).1
  have hend := (ht.inside hpair).1
  have hmax := ht.left.size_le
  apply hP.update hp ht.left hobject hk.left (Memory.size_withWord ..)
  intro j hj
  have hindex := toNat_ofNat_div (i := r.index + 2 + i) (by omega)
  exact Memory.word_withWord_ne _ (by omega) w

theorem fillElements {r : Reference} {size : Nat} {w : Word} (hr : p r r)
    (ha : h.IsArray r size) (hw : h.Linked p w w) :
    P [] { h with
      memory := h.memory.withFill (r.index + 2) (h.memory.word (r.index + 1)).toNat w } := by
  obtain ⟨hcount, -⟩ := ha.shape
  have hobject := (ht.initialised r r hr).1
  have hend := (ht.inside hr).1
  apply hP.update hp ht.left hobject (ht.fillElements hr ha hw).1.left (Memory.size_withFill ..)
  intro i hi
  rw [Memory.word_withFill (by omega), if_neg (by omega)]

theorem copyElements {r x : Reference} {size : Nat} (hr : p r r) (hx : p x x)
    (ha : h.IsArray r size) (hsource : h.IsArray x size) :
    P [] { h with
      memory := h.memory.withCopy (x.index + 2) (r.index + 2)
        (h.memory.word (r.index + 1)).toNat } := by
  obtain ⟨hcount, -⟩ := ha.shape
  obtain ⟨hcount', -⟩ := hsource.shape
  have hobject := (ht.initialised r r hr).1
  have hend := (ht.inside hr).1
  have hend' := (ht.inside hx).1
  have hlength := ha.2
  have hlength' := hsource.2
  apply hP.update hp ht.left hobject (ht.copyElements hr hx ha hsource).1.left
    (Memory.size_withCopy ..)
  intro i hi
  rw [Memory.word_withCopy (by omega) (by omega), if_neg (by omega)]

theorem allocArray (size : Nat) :
    Ends (h.allocArray size) (fun x => P [] x.2) fun _ => True := by
  apply Ends.bind_eq
  intro bytes hbytes
  apply (hP.handed ht hp bytes).bind
  rintro ⟨_, l⟩ ⟨q, r, n, rfl, hx, hholds⟩
  obtain ⟨hbytes, hwords⟩ := Kind.array_size hbytes hx.size_lt
  obtain rfl := hx.words_eq hbytes (by omega)
  obtain ⟨hmax, -, hin, -⟩ := hx.inside
  dsimp only at hmax hin hx hholds ⊢
  rw [writeArray_eq hmax (by omega)]
  generalize UInt32.ofNat size = length at *
  obtain ⟨h0, h1⟩ := Memory.word_withHeader (m := l.memory) (i := r.index) .array length (by omega)
  apply hP.install hholds hx.twin.left.toLayout hx.fresh (Written.withHeader l r (by omega) .array length) (by decide) h0
  rw [Memory.wordCount_eq h0, h1]
  rfl

end Construct

theorem prepend {slots : List RootSlot} {p : Reference → Reference → Prop} {h : Heap}
    {list : Value} (ht : Twin p h h) (hp : P [] h) (hlist : h.Paired p list list) :
    Ends (h.prepend list slots) (fun x => P [] x.2) fun _ => True := by
  induction slots generalizing p h list with
  | nil => exact hp
  | cons slot slots ih =>
    apply (ht.root slot).ends.bind
    intro head hhead
    apply ((ht.newListNode hhead hlist).ends.and (hP.newListNode ht hp hhead hlist)).bind
    rintro ⟨node, k⟩ ⟨⟨⟨q, htq, hnode⟩, -⟩, hholds⟩
    have hpair : k.Paired q (.object node) (.object node) := .inl ⟨node, node, hnode, rfl, rfl⟩
    apply (hP.setRoot htq hholds slot hpair).bind
    intro l hl
    exact ih hl.twin hl.holds (hpair.keep hl.keeps)

theorem setElements {slots : List RootSlot} {p : Reference → Reference → Prop} {h : Heap}
    (ht : Twin p h h) (hp : P [] h) {r : Reference} (hr : p r r) (i : Nat) :
    Ends (h.setElements r i slots) (P []) fun _ => True := by
  induction slots generalizing p h i with
  | nil => exact hp
  | cons slot slots ih =>
    have hpair : h.Paired p (.object r) (.object r) := .inl ⟨r, r, hr, rfl, rfl⟩
    apply (ht.root slot).ends.bind
    intro v hv
    apply ((ht.arraySet hpair i hv).ends.and (hP.arraySet ht hp hpair i hv)).bind
    rintro k ⟨⟨hk, -⟩, hholds⟩
    exact ih hk hholds hr (i + 1)

theorem madeCopy {h : Heap} {r x : Reference} {c : Nat} (hp : P [r] h) (hl : h.Layout)
    (hf : h.Fresh r (2 + (c + 3) / 4)) (hx : x.index + (2 + (c + 3) / 4) ≤ h.memory.words.size)
    (hr : r.index + (2 + (c + 3) / 4) ≤ h.memory.words.size) (hc : c < 0x100000000) :
    P [] { h with
      memory := (h.memory.withHeader r.index .string (UInt32.ofNat c)).withCopy (x.index + 2)
        (r.index + 2) ((c + 3) / 4) } := by
  have hw := Written.withHeader h r (n := 2 + (c + 3) / 4) (by omega) .string (UInt32.ofNat c)
  obtain ⟨h0, h1⟩ := Memory.word_withHeader (m := h.memory) (i := r.index) .string
    (UInt32.ofNat c) (by omega)
  have hcopy := Memory.word_withCopy (m := h.memory.withHeader r.index .string (UInt32.ofNat c))
    (i := x.index + 2) (j := r.index + 2) (n := (c + 3) / 4)
    (by rw [Memory.size_withHeader]; omega) (by rw [Memory.size_withHeader]; omega)
  have hheader := ((hcopy r.index).trans (if_neg (by omega))).trans h0
  have hlength := ((hcopy (r.index + 1)).trans (if_neg (by omega))).trans h1
  refine hP.install hp hl hf ⟨?_, rfl, fun i hi => ?_⟩ (by decide) hheader ?_
  · rw [Memory.size_withCopy, Memory.size_withHeader]
  · rw [hcopy, if_neg (by omega)]
    exact hw.outside i hi
  · rw [Memory.wordCount_eq hheader, hlength, UInt32.toNat_ofNat', Nat.mod_eq_of_lt hc]
    rfl

section Values

variable {p : Reference → Reference → Prop} {h : Heap} (ht : Twin p h h) (hp : P [] h)

include ht hp

theorem newList {vs : List Value} (hvs : ∀ v ∈ vs, h.Paired p v v) :
    Ends (h.newList vs) (fun x => P [] x.2) fun _ => True := by
  obtain ⟨-, haligned⟩ := ht.enterFrame
  apply (hP.pushRoots ht hp hvs).bind
  rintro ⟨slots, k⟩ hk
  dsimp only at hk
  apply ((hk.twin.prepend (paired_null k p) slots.reverse).ends.and
    (hP.prepend hk.twin hk.holds (paired_null k p))).bind
  rintro ⟨list, l⟩ ⟨⟨⟨q, hl, -⟩, -⟩, hholds⟩
  apply (hP.leaveFrame hl hholds haligned).bind
  intro t ht
  exact ht.holds

theorem newArray {vs : List Value} (hvs : ∀ v ∈ vs, h.Paired p v v) :
    Ends (h.newArray vs) (fun x => P [] x.2) fun _ => True := by
  obtain ⟨-, haligned⟩ := ht.enterFrame
  apply (hP.pushRoots ht hp hvs).bind
  rintro ⟨slots, k⟩ hk
  dsimp only at hk
  apply ((hk.twin.allocArray vs.length).ends.and (hP.allocArray hk.twin hk.holds _)).bind
  rintro ⟨array, l⟩ ⟨⟨q, r, s, _, _, ⟨⟩, ⟨⟩, hl, hr, -⟩, hholds⟩
  apply ((hl.setElements hr 0 slots).ends.and (hP.setElements hl hholds hr 0)).bind
  rintro t ⟨⟨ht, -⟩, hholds⟩
  apply (hP.leaveFrame ht hholds haligned).bind
  intro u hu
  exact hu.holds

theorem newFilledArray (size : Nat) {v : Value} (hv : h.Paired p v v) :
    Ends (h.newFilledArray size v) (fun x => P [] x.2) fun _ => True := by
  obtain ⟨-, haligned⟩ := ht.enterFrame
  apply (hP.pushRoot ht hp hv).bind
  rintro ⟨slot, k⟩ hk
  dsimp only at hk
  apply ((hk.twin.allocArray size).ends.and (hP.allocArray hk.twin hk.holds _)).bind
  rintro ⟨array, l⟩ ⟨⟨q, r, s, _, _, ⟨⟩, ⟨⟩, hl, hr, harray, -⟩, hholds⟩
  apply (hl.root slot).ends.bind
  intro v' hv'
  apply ((hl.leaveFrame haligned).ends.and (hP.leaveFrame hl hholds haligned)).bind
  rintro t ⟨⟨-, ⟨hmemory, -⟩, -⟩, ht⟩
  have harray : t.IsArray array size := by
    unfold IsArray
    rw [hmemory]
    exact harray
  obtain ⟨hcount, -⟩ := harray.shape
  obtain ⟨ha, -⟩ := ht.twin.elementAddress hr (n := 0) (by omega)
  have hend := (ht.twin.inside hr).1
  rw [ha, ok_bind]
  apply (hv'.keep ht.keeps).encode.ends.bind
  intro w hw
  rw [fillElements_eq ht.twin.left.size_le harray.2 (by omega) w, ok_bind]
  exact hP.fillElements ht.twin ht.holds hr harray hw

theorem copyArray {array : Reference} (hv : h.Paired p (.object array) (.object array)) :
    Ends (h.copyArray array) (fun x => P [] x.2) fun _ => True := by
  obtain ⟨-, haligned⟩ := ht.enterFrame
  apply (ht.arraySize hv).ends.bind
  rintro size ⟨-, -, -, hlength⟩
  have hsize : Size.ofWords size = 4 * size := Size.ofWords_eq (by
    have hlt := (h.memory.word (array.index + 1)).toNat_lt
    omega)
  apply (hP.pushRoot ht hp hv).bind
  rintro ⟨slot, k⟩ hk
  dsimp only at hk
  apply ((hk.twin.allocArray size).ends.and (hP.allocArray hk.twin hk.holds _)).bind
  rintro ⟨copy, l⟩ ⟨⟨q, r, s, _, _, ⟨⟩, ⟨⟩, hl, hr, harray, -⟩, hholds⟩
  -- The source may have moved, and is read again from its slot.
  apply (hl.root slot).ends.bind
  intro v' hv'
  rcases hl.object? hv' with ⟨hno, -⟩ | ⟨x, y, hx, hy, hxy⟩
  · rw [hno]
    trivial
  rw [hx, Option.some.injEq] at hy
  subst hy
  rw [hx]
  apply ((hl.leaveFrame haligned).ends.and (hP.leaveFrame hl hholds haligned)).bind
  rintro t ⟨⟨-, ⟨hmemory, -⟩, -⟩, ht⟩
  apply (ht.twin.arraySize (hxy.keep ht.keeps)).ends.bind
  rintro length ⟨-, hsource, hheader, hlength'⟩
  split
  · rename_i heq
    subst heq
    have harray : t.IsArray copy length := by
      unfold IsArray
      rw [hmemory]
      exact harray
    have hsourceArray : t.IsArray x length := ⟨hheader, by rw [hsize, ← hlength']⟩
    obtain ⟨hcount, -⟩ := harray.shape
    obtain ⟨hcount', -⟩ := hsourceArray.shape
    obtain ⟨ha, -⟩ := ht.twin.elementAddress hr (n := 0) (by omega)
    obtain ⟨hb, -⟩ := ht.twin.elementAddress hsource (n := 0) (by omega)
    have hend := (ht.twin.inside hr).1
    have hend' := (ht.twin.inside hsource).1
    have hwords := harray.2
    rw [hb, ok_bind, ha, ok_bind,
      copyElements_eq ht.twin.left.size_le hwords (by omega) (by omega), ok_bind]
    exact hP.copyElements ht.twin ht.holds hr hsource harray hsourceArray
  · trivial

theorem copyString {text : Reference} (hv : h.Paired p (.object text) (.object text)) :
    Ends (h.copyString text) (fun x => P [] x.2) fun _ => True := by
  obtain ⟨-, haligned⟩ := ht.enterFrame
  apply (ht.textLength hv).ends.bind
  rintro c ⟨-, htext, hc⟩
  apply ((ht.pushRoot hv).ends.and (hP.pushRoot ht hp hv)).with_eq.bind
  rintro ⟨slot, h₁⟩ ⟨⟨-, hx₁⟩, hpush⟩
  obtain ⟨hslot, sp, m, hr, rfl⟩ := ht.left.pushRoot_object hpush
  have htext₁ := htext.restacked ht.left hr (ht.knows hv).1
  dsimp only at hx₁ ⊢
  rw [Kind.size_eq .string hc, ok_bind]
  apply (hP.handed hx₁.twin hx₁.holds _).bind
  rintro ⟨_, h₂⟩ ⟨q, r, n, rfl, hx, hholds⟩
  obtain rfl : n = 2 + (c + 3) / 4 := hx.words_eq rfl (by omega)
  dsimp only at hx hholds ⊢
  apply (hx.twin.root slot).ends.with_eq.bind
  rintro v ⟨hv₂, hroot⟩
  -- The slot still holds the text, wherever the allocation has moved it.
  obtain ⟨⟨p₁, hp₁⟩, -⟩ := hx.before
  have hv₁ := hp₁.root slot
  rw [hslot, hroot] at hv₁
  obtain ⟨z, rfl⟩ := Paired.object hv₁
  obtain ⟨htext₂, -, -, -⟩ := hp₁.text hv₁ htext₁
  have hz : (Value.object z).object? = some z :=
    Value.object?_eq_some_iff.mpr ⟨rfl, htext₂.ne_null hx.twin.left⟩
  rw [hz]
  apply ((hx.twin.leaveFrame haligned).ends.and (hP.leaveFrame hx.twin hholds haligned)).bind
  rintro k ⟨⟨⟨hk, -⟩, ⟨hmemory, -⟩, hf⟩, hx₃⟩
  have htext₃ : k.IsText z c := htext₂.congr (by rw [hmemory]) (by rw [hmemory])
  obtain ⟨-, -, hin, -⟩ := hk.text (hv₂.keep hx₃.keeps) htext₃
  have hfresh := (hf r _).1 hx.fresh
  have hr := hfresh.inside hk.left.toLayout
  dsimp only [Kind.wordCount]
  rw [copyText_eq hk.left.size_le hin hr]
  exact hP.madeCopy hx₃.holds hk.left.toLayout hfresh hin hr hc

end Values

end Lasting

end Heap

end CopyingHeap
