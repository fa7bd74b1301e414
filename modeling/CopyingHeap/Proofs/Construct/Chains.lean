import CopyingHeap.Proofs.Construct.Elements
import CopyingHeap.Proofs.Heap.Closed

/-!
Lists of given values. The values wait on the stack, and the list grows from its end: the last value that
still waits becomes the head of a new node, and the node takes its slot. Each node may move everything that
waits and everything that has been built. What one node keeps is proved first, and then what all of them
keep.
-/

namespace CopyingHeap

namespace Memory

/-- From `first` on, the list nodes `nodes` have the heads `heads`, each the tail of the one before it, and
the last one has the tail `rest`. -/
inductive Chain (m : Memory) : Value → List Reference → List Value → Value → Prop where
  | nil (rest : Value) : Chain m rest [] [] rest
  | cons {r : Reference} {head tail rest : Value} {nodes : List Reference} {heads : List Value} :
      m.listHead r = .ok head → m.listTail r = .ok tail → Chain m tail nodes heads rest →
        Chain m (.object r) (r :: nodes) (head :: heads) rest

namespace Chain

variable {m : Memory} {first head tail rest : Value} {nodes : List Reference} {heads : List Value}
  {r : Reference}

theorem length_eq (hc : m.Chain first nodes heads rest) : nodes.length = heads.length := by
  induction hc with
  | nil => rfl
  | cons _ _ _ ih => rw [List.length_cons, List.length_cons, ih]

/-- A chain that ends in a list node goes on with the tail of that node. -/
theorem snoc (hc : m.Chain first nodes heads (.object r)) (hhead : m.listHead r = .ok head)
    (htail : m.listTail r = .ok tail) :
    m.Chain first (nodes ++ [r]) (heads ++ [head]) tail := by
  generalize hrest : Value.object r = rest at hc
  induction hc with
  | nil =>
    subst hrest
    exact .cons hhead htail (.nil tail)
  | cons hhead' htail' _ ih => exact .cons hhead' htail' (ih hrest)

end Chain

/-- The memory with a list node at word `i`. -/
def withNode (m : Memory) (i : Nat) (head tail : Word) : Memory :=
  (m.withHeader i .listNode head).withWord (i + 2) tail

theorem word_withNode {m : Memory} {i : Nat} (hi : i + 3 ≤ m.words.size) (head tail : Word) :
    (m.withNode i head tail).word i = Kind.listNode.header ∧
      (m.withNode i head tail).word (i + 1) = head ∧ (m.withNode i head tail).word (i + 2) = tail := by
  obtain ⟨h0, h1⟩ := word_withHeader (m := m) (i := i) .listNode head (by omega)
  rw [withNode, word_withWord_ne _ (by omega), word_withWord_ne _ (by omega),
    word_withWord (by rw [size_withHeader]; omega), if_pos rfl]
  exact ⟨h0, h1, rfl⟩

end Memory

namespace Heap

/-- A list node has been made at `r` in `k`, of the values `head` and `tail` of `h`, which are there where
their objects have gone. It is none of the objects that the values `vs` or the stack reach. -/
structure MadeNode (h : Heap) (vs : List Value) (head tail : Value) (f : Reference → Reference)
    (r : Reference) (k : Heap) : Prop where
  wellFormed : k.WellFormed
  restores : h.Restores vs f k
  fresh : ∀ x, h.ReachableWith vs x → f x ≠ r
  initialised : k.Initialised r
  lies : k.memory.Lies r .listNode
  head : Value.decode (k.memory.word (r.index + 1)) = h.relocated f head
  tail : Value.decode (k.memory.word (r.index + 2)) = h.relocated f tail

/-- There are nodes in `k` for the values `vs` of `h`, from the last of them on, in front of `rest`. -/
structure Chained (h : Heap) (rest : Value) (vs : List Value) (nodes : List Reference)
    (f : Reference → Reference) (first : Value) (k : Heap) : Prop where
  wellFormed : k.WellFormed
  restores : h.Restores (rest :: vs) f k
  chain : k.memory.Chain first nodes (vs.reverse.map (h.relocated f)) (h.relocated f rest)
  nodup : nodes.Nodup
  initialised : ∀ r ∈ nodes, k.Initialised r
  fresh : ∀ x, h.ReachableWith (rest :: vs) x → f x ∉ nodes

section Node

variable {h p s k : Heap} {size : Nat} {f : Reference → Reference} {r : Reference}
  {head tail : Value} {w v : Word} {headSlot tailSlot : RootSlot}

theorem Written.withNode (h : Heap) (r : Reference) (head tail : Word) :
    h.Written r 3 (h.memory.withNode r.index head tail) :=
  (Written.withHeader h r (by decide) _ head).withWord (j := 2) (by decide) tail

/-- The steps that follow the allocation. -/
theorem Grant.newListNode_eq {p' : Heap} (hw : h.WellFormed)
    (hp : h.Stacked [head, tail] [headSlot, tailSlot] p) (hg : p.Grant size f s r 3 k)
    (hhead : h.Accepts head) (htail : h.Accepts tail) (hencode : head.encode = .ok w)
    (hencode' : tail.encode = .ok v) (hpush : h.pushRoot head = .ok (headSlot, p'))
    (hpush' : p'.pushRoot tail = .ok (tailSlot, p)) (halloc : p.alloc 12 = .ok (r.address, k)) :
    h.newListNode head tail = .ok (r, { k with
      memory := k.memory.withNode r.index (h.renamed f w) (h.renamed f v)
      stack := h.stack }) := by
  have hr := hw.toRegular
  have haccepts : ∀ u ∈ [head, tail], h.Accepts u :=
    List.forall_mem_cons.mpr ⟨hhead, List.forall_mem_singleton.mpr htail⟩
  -- Head and tail are read again from their slots, since the allocation may have moved them.
  obtain ⟨hroot, hrest⟩ := List.forall₂_cons.mp (hp.granted hr hg (Written.refl k r 3) haccepts)
  obtain ⟨hroot', -⟩ := List.forall₂_cons.mp hrest
  have hframe := hp.leaveFrame_eq hw hg.stack_eq
  have hin := hg.inside
  have hsmall := hg.added.paged.size_le
  have hsize : Kind.listNode.size 0 = .ok 12 := Kind.size_eq .listNode (by decide)
  unfold Heap.newListNode
  rw [hpush, ok_bind]
  dsimp only
  rw [hpush', ok_bind]
  dsimp only
  rw [hsize, ok_bind, halloc, ok_bind]
  dsimp only
  rw [hroot, ok_bind, hroot', ok_bind, hframe, ok_bind, changeMemory_eq]
  dsimp only
  rw [Memory.writeListNode_eq hsmall (by omega) (by omega), hr.encode_relocated hencode f, ok_bind,
    hr.encode_relocated hencode' f, ok_bind, ok_bind, Reference.ofAddress_address]
  rfl

/-- What has become of the heap when a node has been written into the block and the frame has been left. -/
theorem Stacked.madeNode (hw : h.WellFormed) (hbase : h.spaces.base.WordAligned)
    (hp : h.Stacked [head, tail] [headSlot, tailSlot] p) (hg : p.Grant size f s r 3 k)
    (hhead : h.Accepts head) (htail : h.Accepts tail) (hencode : head.encode = .ok w)
    (hencode' : tail.encode = .ok v) :
    h.MadeNode [head, tail] head tail f r { k with
      memory := k.memory.withNode r.index (h.renamed f w) (h.renamed f v)
      stack := h.stack } := by
  have hr := hw.toRegular
  have hwritten := Written.withNode k r (h.renamed f w) (h.renamed f v)
  obtain ⟨hheader, hfirst, hsecond⟩ :=
    Memory.word_withNode hg.inside (h.renamed f w) (h.renamed f v)
  have hcount : (k.memory.withNode r.index (h.renamed f w) (h.renamed f v)).wordCount r.index = 3 :=
    Memory.wordCount_eq hheader
  obtain ⟨hlies, hlast⟩ := hg.last hwritten hheader hcount
  obtain ⟨hrestores, hfresh⟩ := hp.made hr hg hwritten
  have hdecode : Value.decode w = head := (Value.encode_eq_ok_iff.mp hencode).1
  have hdecode' : Value.decode v = tail := (Value.encode_eq_ok_iff.mp hencode').1
  rw [← hp.spaces_eq] at hbase
  refine ⟨?_, hrestores, hfresh, hlast.initialised, hlies, ?_, ?_⟩
  · refine hp.wellFormed_popped hw (hg.wellFormed_written hwritten hbase (by decide) hheader hcount
      fun j hj => ?_) hg.stack_eq
    rcases (Memory.isSlot_iff hheader).mp hj with rfl | rfl
    · rw [hfirst]
      exact hrestores.allows hr (hhead.allows hencode) (hdecode ▸ reaches_of_mem (by simp))
    · rw [hsecond]
      exact hrestores.allows hr (htail.allows hencode') (hdecode' ▸ reaches_of_mem (by simp))
  · dsimp only
    rw [hfirst, hr.decode_renamed, hdecode]
  · dsimp only
    rw [hsecond, hr.decode_renamed, hdecode']

end Node

/-- Making a list node ends with the node, or memory, the stack or a counter gives out. -/
theorem WellFormed.newListNode {h : Heap} (hw : h.WellFormed) (hbase : h.spaces.base.WordAligned)
    {head tail : Value} (hhead : h.Accepts head) (htail : h.Accepts tail) :
    Ends (h.newListNode head tail)
      (fun x => ∃ f, h.MadeNode [head, tail] head tail f x.1 x.2 ∧ h.Spends 12 x.2)
      (h.RunsOut 2 1 12) := by
  have hr := hw.toRegular
  obtain ⟨w, hencode, -⟩ := Value.exists_encode hhead.fits
  obtain ⟨v, hencode', -⟩ := Value.exists_encode htail.fits
  have hsize : Kind.listNode.size 0 = .ok 12 := Kind.size_eq .listNode (by decide)
  rcases (hw.pushRoot hhead.fits).cases with ⟨⟨headSlot, p'⟩, hpush, hp', hsp⟩ | ⟨e, hpush, he⟩
  · have hw' := hp'.wellFormed hw
    rcases (hw'.pushRoot htail.fits).cases with ⟨⟨tailSlot, p⟩, hpush', hp, hsp'⟩ | ⟨e, hpush', he⟩
    · have hboth : h.Stacked [head, tail] [headSlot, tailSlot] p := hp'.append hr hp
      rcases ((hp.wellFormed hw').alloc_grant 12).cases with
        ⟨⟨_, k⟩, halloc, f, s, r, n, rfl, hg⟩ | ⟨e, halloc, he⟩
      · have hbytes := hg.bytes
        have hround : Size.objectBytes 12 = 12 := by decide
        obtain rfl : n = 3 := by omega
        rw [hg.newListNode_eq hw hboth hhead htail hencode hencode' hpush hpush' halloc]
        exact ⟨f, hboth.madeNode hw hbase hg hhead htail hencode hencode',
          hboth.spends (hround ▸ hg.spends) _ _⟩
      · unfold Heap.newListNode
        rw [hpush, ok_bind]
        dsimp only
        rw [hpush', ok_bind]
        dsimp only
        rw [hsize, ok_bind, halloc]
        dsimp only at hsp hsp'
        exact hboth.runsOut 2 (by omega) (he.runsOut (by decide) (Nat.le_refl _))
    · unfold Heap.newListNode
      rw [hpush, ok_bind]
      dsimp only
      rw [hpush']
      exact hp'.runsOut 1 hsp (he.runsOut 1 12)
  · unfold Heap.newListNode
    rw [hpush]
    exact (he.runsOut 1 12).mono (by decide) (Nat.le_refl 1)

section Step

variable {h p k l : Heap} {u list first : Value} {us : List Value} {slot : RootSlot}
  {slots : List RootSlot} {f g : Reference → Reference} {node : Reference} {nodes : List Reference}
  (hw : h.WellFormed)

include hw

section Frame

variable (hp : h.Stacked (u :: us) (slot :: slots) p) (hk : p.MadeNode [u, list] u list f node k)

include hp hk

/-- Without the frame, the node is made of values some of which were in its slots. -/
theorem MadeNode.popped : h.MadeNode (list :: u :: us) u list f node { k with stack := h.stack } := by
  have hr := hw.toRegular
  have hreaches : ∀ v ∈ list :: u :: us, p.Reaches [u, list] v :=
    List.forall_mem_cons.mpr ⟨reaches_of_mem (by simp), fun v hv => hp.reaches hr hv⟩
  exact
    { wellFormed := hp.wellFormed_popped hw hk.wellFormed hk.restores.stack
      restores := hp.restores hr hreaches hk.restores
      fresh := fun x hx => hk.fresh x (hp.reachableWith hr hreaches hx)
      initialised := hk.initialised
      lies := hk.lies
      head := (hp.relocated_eq hr f u) ▸ hk.head
      tail := (hp.relocated_eq hr f list) ▸ hk.tail }

/-- The node takes the slot of its head, and the other values still wait in theirs. -/
theorem MadeNode.stacked (hus : ∀ v ∈ u :: us, h.Accepts v) :
    Stacked { k with stack := h.stack } (us.map (h.relocated f)) slots
      { k with memory := k.memory.withWord (slot.address.toNat / 4) node.word } := by
  have hcarried := hp.carried hw.toRegular hk.wellFormed.toRegular hk.restores hus
  exact hcarried.overwritten (hk.popped hw hp).wellFormed.toRegular node.word

end Frame

section Chain

variable (hk : h.MadeNode (list :: u :: us) u list f node k)

include hk

omit hw in
theorem MadeNode.reachable : k.ReachableWith (.object node :: us.map (h.relocated f)) node :=
  .value List.mem_cons_self hk.initialised

omit hw in
/-- After a node has been made, it reaches its head and its tail, and the slots reach the rest. -/
theorem MadeNode.reaches : ∀ v ∈ list :: u :: us,
    k.Reaches (.object node :: us.map (h.relocated f)) (h.relocated f v) := by
  have hnode := hk.reachable
  have hr := hk.wellFormed.toRegular
  simp only [List.forall_mem_cons]
  refine ⟨?_, ?_, fun v hv => reaches_of_mem (List.mem_cons_of_mem _ (List.mem_map_of_mem hv))⟩
  · rw [← hk.tail]
    exact hr.reaches_slot hnode ((Memory.isSlot_iff hk.lies.header).mpr (.inr rfl))
  · rw [← hk.head]
    exact hr.reaches_slot hnode ((Memory.isSlot_iff hk.lies.header).mpr (.inl rfl))

/-- The nodes that are made next stand in front of the node. -/
theorem MadeNode.chained (haccepts : ∀ v ∈ list :: u :: us, h.Accepts v)
    (hl : k.Chained (.object node) (us.map (h.relocated f)) nodes g first l) :
    h.Chained list (u :: us) (nodes ++ [g node]) (g ∘ f) first l := by
  have hr := hw.toRegular
  have hr' := hk.wellFormed.toRegular
  have hnode := hk.reachable
  have hagain : ∀ v ∈ list :: u :: us, k.relocated g (h.relocated f v) = h.relocated (g ∘ f) v :=
    fun v hv => hk.restores.relocated_relocated hr hr' (haccepts v hv) (reaches_of_mem hv)
  have hlies : l.memory.Lies (g node) .listNode := by
    refine hl.wellFormed.lies (hl.restores.initialised node hnode) ?_
    exact (Memory.kind_eq_ok_word ((hl.restores.kind node hnode).trans hk.lies.kind_eq)).2
  have hhead : l.memory.listHead (g node) = .ok (h.relocated (g ∘ f) u) := by
    have hword := hl.restores.decode_slot hr' hnode (j := 1)
      ((Memory.isSlot_iff hk.lies.header).mpr (.inl rfl))
    rw [hlies.listHead_eq, hword, hk.head, hagain u (List.mem_cons_of_mem _ List.mem_cons_self)]
  have htail : l.memory.listTail (g node) = .ok (h.relocated (g ∘ f) list) := by
    have hword := hl.restores.decode_slot hr' hnode (j := 2)
      ((Memory.isSlot_iff hk.lies.header).mpr (.inr rfl))
    rw [hlies.listTail_eq, hword, hk.tail, hagain list List.mem_cons_self]
  refine
    { wellFormed := hl.wellFormed
      restores := hk.restores.trans hr hr' hl.restores hk.reaches
      chain := ?_
      nodup := ?_
      initialised := ?_
      fresh := ?_ }
  · have hchain := hl.chain
    rw [relocated_object hk.initialised, ← List.map_reverse, List.map_map] at hchain
    have hmapped : us.reverse.map (k.relocated g ∘ h.relocated f) =
        us.reverse.map (h.relocated (g ∘ f)) :=
      List.map_congr_left fun v hv =>
        hagain v (List.mem_cons_of_mem _ (List.mem_cons_of_mem _ (List.mem_reverse.mp hv)))
    rw [hmapped] at hchain
    rw [List.reverse_cons, List.map_append]
    exact hchain.snoc hhead htail
  · refine hl.nodup.append (List.nodup_singleton _) ?_
    rw [List.disjoint_singleton]
    exact hl.fresh node hnode
  · simp only [List.forall_mem_append, List.forall_mem_singleton]
    exact ⟨hl.initialised, hl.restores.initialised node hnode⟩
  · intro x hx hmem
    have hreach := hk.restores.reachableWith hr hr' hk.reaches hx
    rcases List.mem_append.mp hmem with hmem | hmem
    · exact hl.fresh (f x) hreach hmem
    · exact hk.fresh x hx (hl.restores.injective hreach hnode (List.mem_singleton.mp hmem))

end Chain

end Step

/-- Putting the values of the slots in front of a list ends with a node for each of them, or memory, the stack
or a counter gives out. -/
theorem Stacked.prepend {h p : Heap} {list : Value} {us : List Value} {slots : List RootSlot}
    (hw : h.WellFormed) (hbase : h.spaces.base.WordAligned) (hp : h.Stacked us slots p)
    (haccepts : ∀ v ∈ list :: us, h.Accepts v) :
    Ends (p.prepend list slots)
      (fun x => x.2.stack = p.stack ∧
        ∃ nodes f, h.Chained list us nodes f x.1 { x.2 with stack := h.stack })
      (p.RunsOut 2 us.length 12) := by
  have hr := hw.toRegular
  have hwp := hp.wellFormed hw
  -- Each node changes the heap without the frame too. The frame may hold more than the slots that are left:
  -- those that have been used hold nodes.
  induction slots generalizing h p list us with
  | nil =>
    obtain rfl : us = [] := List.forall₂_nil_left_iff.mp hp.roots
    refine ⟨rfl, [], id, ?_⟩
    exact
      { wellFormed := hp.wellFormed_popped hw hwp rfl
        restores := hp.restores hr (fun v hv => reaches_of_mem hv)
          (hwp.toRegular.restores_refl [list])
        chain := (h.relocated_id list).symm ▸ .nil list
        nodup := List.nodup_nil
        initialised := fun _ hmem => absurd hmem List.not_mem_nil
        fresh := fun _ _ hmem => absurd hmem List.not_mem_nil }
  | cons slot slots ih =>
    cases us with
    | nil => nomatch hp.roots
    | cons u us =>
      obtain ⟨hroot, -⟩ := List.forall₂_cons.mp hp.roots
      obtain ⟨hlist, hus⟩ := List.forall_mem_cons.mp haccepts
      have hu : p.Accepts u := (hp.accepts_iff hr).mpr (hus u List.mem_cons_self)
      have hnode := hwp.newListNode (hp.spaces_eq ▸ hbase) hu ((hp.accepts_iff hr).mpr hlist)
      unfold Heap.prepend
      rw [hroot, ok_bind]
      refine Ends.bind (hnode.mono (fun _ hx => hx) fun e he => ?_) ?_
      · exact he.mono (Nat.le_refl 2) (by rw [List.length_cons]; omega)
      rintro ⟨node, k⟩ ⟨f, hk, hspends⟩
      dsimp only at hk hspends ⊢
      have hk' := hk.popped hw hp
      -- The slot of the head is still there, and takes the node.
      have hwaits := hp.carried hr hk.wellFormed.toRegular hk.restores hus
      obtain ⟨hslot, -⟩ := List.forall₂_cons.mp hwaits.roots
      rw [hk.wellFormed.toLayout.setRoot_eq (v := .object node) hslot rfl, ok_bind]
      have haccepts' : ∀ v ∈ .object node :: us.map (h.relocated f),
          Accepts { k with stack := h.stack } v := by
        refine List.forall_mem_cons.mpr ⟨accepts_object hk'.initialised, List.forall_mem_map.mpr ?_⟩
        intro v hv
        have hmem : v ∈ u :: us := List.mem_cons_of_mem u hv
        exact hk'.restores.accepts hr (hus v hmem) (reaches_of_mem (List.mem_cons_of_mem list hmem))
      have hstacked := hk.stacked hw hp hus
      refine (ih hk'.wellFormed (hk'.restores.base ▸ hbase) hstacked haccepts'
        hk'.wellFormed.toRegular (hstacked.wellFormed hk'.wellFormed)).mono ?_ ?_
      · rintro x ⟨hstack, nodes, g, hl⟩
        exact ⟨hstack.trans hk.restores.stack, nodes ++ [g node], g ∘ f, hk'.chained hw haccepts hl⟩
      · intro e he
        rw [List.length_map] at he
        exact (hwp.lowered_self.spends hspends (k.memory.withWord (slot.address.toNat / 4) node.word)
          k.stack).runsOut hk.restores.stack he

/-- Making a list ends with the first of its nodes, or with null if there are none. The nodes are new and
distinct, and their heads are the values in order, each at the place to which its object has gone. Otherwise
memory, the stack or a counter gives out; that does not happen where there is room. The base of the heap must
be aligned, as it is in every heap that has been built, since a growth places a space there. -/
theorem WellFormed.newList_contract {h : Heap} (hw : h.WellFormed)
    (hbase : h.spaces.base.WordAligned) {vs : List Value} (hvs : ∀ v ∈ vs, h.Accepts v) :
    (∃ list nodes k f, h.newList vs = .ok (list, k) ∧
      k.memory.Chain list nodes (vs.map (h.relocated f)) .null ∧ nodes.length = vs.length ∧
      nodes.Nodup ∧ (∀ r ∈ nodes, k.Initialised r) ∧ (∀ x, h.ReachableWith vs x → f x ∉ nodes) ∧
      Set.InjOn (h.relocated f) {v | v ∈ vs} ∧ h.Restores vs f k ∧ k.WellFormed) ∨
    ∃ e, h.newList vs = .error e ∧ h.RunsOut (vs.length + 2) vs.length 12 e := by
  have hr := hw.toRegular
  rcases (hw.pushRoots fun v hv => (hvs v hv).fits).cases with
    ⟨⟨slots, p⟩, hpush, hp, hsp⟩ | ⟨e, hpush, he⟩
  · have haccepts : ∀ v ∈ .null :: vs.reverse, h.Accepts v :=
      List.forall_mem_cons.mpr ⟨h.accepts_null, fun v hv => hvs v (List.mem_reverse.mp hv)⟩
    rcases (hp.reverse.prepend hw hbase haccepts).cases with
      ⟨⟨list, l⟩, hprepend, hstack, nodes, f, hl⟩ | ⟨e, hprepend, he⟩
    · left
      have hreaches : ∀ v ∈ vs, h.Reaches (.null :: vs.reverse) v := fun v hv =>
        reaches_of_mem (List.mem_cons_of_mem _ (List.mem_reverse.mpr hv))
      have hrestores := hw.lowered_self.restores hr hreaches hl.restores
      have hchain := hl.chain
      rw [List.reverse_reverse, hr.relocated_null] at hchain
      refine ⟨list, nodes, _, f, ?_, hchain, ?_, hl.nodup, hl.initialised, ?_, ?_, hrestores,
        hl.wellFormed⟩
      · unfold Heap.newList
        rw [hpush, ok_bind]
        dsimp only
        rw [hprepend, ok_bind]
        dsimp only
        rw [hp.leaveFrame_eq hw hstack]
        rfl
      · rw [hchain.length_eq, List.length_map]
      · exact fun x hx => hl.fresh x (hw.lowered_self.reachableWith hr hreaches hx)
      · refine (hrestores.injOn_relocated hr).mono ?_
        intro v hv
        exact ⟨hvs v hv, reaches_of_mem hv⟩
    · right
      unfold Heap.newList
      rw [hpush, ok_bind]
      dsimp only
      rw [hprepend]
      rw [List.length_reverse] at he
      exact ⟨e, rfl, hp.runsOut vs.length hsp he⟩
  · right
    unfold Heap.newList
    rw [hpush]
    exact ⟨e, rfl, (he.runsOut _ _).mono (Nat.le_add_right _ 2) (Nat.le_refl _)⟩

/-- The same object twice, and a number between. -/
theorem newList_looped : looped.WellFormed ∧ looped.spaces.base.WordAligned ∧
    (∀ v ∈ [.object (.ofIndex 16), .int 7, .object (.ofIndex 16)], looped.Accepts v) ∧
    ∃ list nodes k s,
      looped.newList [.object (.ofIndex 16), .int 7, .object (.ofIndex 16)] = .ok (list, k) ∧
      k.memory.Chain list nodes [.object s, .int 7, .object s] .null ∧ nodes.Nodup ∧ s ∉ nodes ∧
      k.WellFormed := by
  have hbase : looped.spaces.base.WordAligned := by decide
  refine ⟨wellFormed_looped, hbase, accepts_looped, ?_⟩
  have hi : looped.Initialised (.ofIndex 16) := (initialised_looped _).mpr rfl
  rcases WellFormed.newList_contract wellFormed_looped hbase accepts_looped with
    ⟨list, nodes, k, f, hk, hchain, -, hnodup, -, hfresh, -, -, hwell⟩ | ⟨e, -, he⟩
  · rw [List.map_cons, List.map_cons, List.map_cons, relocated_object hi] at hchain
    exact ⟨list, nodes, k, f (.ofIndex 16), hk, hchain, hnodup,
      hfresh _ (.value List.mem_cons_self hi), hwell⟩
  · exact absurd he (runsOut_looped (by decide) (by decide) (by decide) e)

end Heap

end CopyingHeap
