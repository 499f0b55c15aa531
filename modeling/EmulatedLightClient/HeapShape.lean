import EmulatedLightClient.TrieRefinement
import Mathlib.Logic.Relation

/-!
# The shape of the heap

The structure as it is stored: the references one comes across when following
pointers from the root, each with the place it is stored at and its depth in
bits. References with a pointer carry the hash of the node stored there, and
every allocated block is pointed at from exactly one place.
-/

namespace SealableTrie

open ByteBits Bits Nodes Memory ListPrefix FailingState HeapOwnership TrieProof

/-- Where a reference is stored: in the trie itself or in the node at a pointer. -/
inductive Slot where
  | root
  | left (p : Ptr)
  | right (p : Ptr)
  | child (p : Ptr)
  deriving DecidableEq

structure Entry where
  slot : Slot
  depth : Nat
  ref : Ref

/-- The entry's reference has a pointer to a node, with the given hash. -/
def Entry.PointsTo (e : Entry) (p : Ptr) (hash : CryptoHash) : Prop :=
  e.ref = .node ⟨some p, hash⟩

/-- The node stored at the pointer. -/
def Stored (heap : Ptr → Option RawNode) (p : Ptr) (node : Node (Option Ptr) Bool) : Prop :=
  ∃ raw, heap p = some raw ∧ raw.decode = .ok node

/-- One step along a pointer. -/
inductive Leads (heap : Ptr → Option RawNode) : Entry → Entry → Prop
  | left {e : Entry} {p : Ptr} {hash : CryptoHash} {left right : Ref} (h : e.PointsTo p hash)
      (hnode : Stored heap p (.branch left right)) : Leads heap e ⟨.left p, e.depth + 1, left⟩
  | right {e : Entry} {p : Ptr} {hash : CryptoHash} {left right : Ref} (h : e.PointsTo p hash)
      (hnode : Stored heap p (.branch left right)) : Leads heap e ⟨.right p, e.depth + 1, right⟩
  | child {e : Entry} {p : Ptr} {hash : CryptoHash} {key : ExtKey} {child : Ref}
      (h : e.PointsTo p hash) (hnode : Stored heap p (.extension key child)) :
    Leads heap e ⟨.child p, e.depth + key.bits.length, child⟩

abbrev Reaches (heap : Ptr → Option RawNode) : Entry → Entry → Prop :=
  Relation.ReflTransGen (Leads heap)

variable {digest : List Byte → CryptoHash} {heap : Ptr → Option RawNode} {d : Nat}
  {slot : Slot} {ref : Ref} {t : Tree} {cells : NodeCells} {e e' : Entry} {p : Ptr}
  {hash : CryptoHash}

theorem Stored.unique {node node' : Node (Option Ptr) Bool} (h : Stored heap p node)
    (h' : Stored heap p node') : node = node' := by
  obtain ⟨raw, hraw, hdec⟩ := h
  obtain ⟨raw', hraw', hdec'⟩ := h'
  rw [hraw] at hraw'
  cases hraw'
  rw [hdec] at hdec'
  exact Except.ok.inj hdec'

/-- Nothing is stored below values and sealed nodes. -/
theorem reaches_of_sealed (hs : ∀ p hash, ref ≠ .node ⟨some p, hash⟩)
    (h : Reaches heap ⟨slot, d, ref⟩ e) : ∀ p hash, ¬ e.PointsTo p hash := by
  rcases h.cases_head with rfl | ⟨e₁, hlead, -⟩
  · exact hs
  · cases hlead with
    | left h _ => exact absurd h (hs _ _)
    | right h _ => exact absurd h (hs _ _)
    | child h _ => exact absurd h (hs _ _)

theorem leads_branch {l r : Ref} (hnode : Stored heap p (.branch l r))
    (h : Leads heap ⟨slot, d, .node ⟨some p, hash⟩⟩ e) :
    e = ⟨.left p, d + 1, l⟩ ∨ e = ⟨.right p, d + 1, r⟩ := by
  cases h with
  | left h hn =>
    cases h
    cases hnode.unique hn
    exact Or.inl rfl
  | right h hn =>
    cases h
    cases hnode.unique hn
    exact Or.inr rfl
  | child h hn =>
    cases h
    cases hnode.unique hn

theorem leads_ext {key : ExtKey} {c : Ref} (hnode : Stored heap p (.extension key c))
    (h : Leads heap ⟨slot, d, .node ⟨some p, hash⟩⟩ e) :
    e = ⟨.child p, d + key.bits.length, c⟩ := by
  cases h with
  | left h hn =>
    cases h
    cases hnode.unique hn
  | right h hn =>
    cases h
    cases hnode.unique hn
  | child h hn =>
    cases h
    cases hnode.unique hn
    rfl

theorem reaches_branch {l r : Ref} (hnode : Stored heap p (.branch l r))
    (h : Reaches heap ⟨slot, d, .node ⟨some p, hash⟩⟩ e) :
    e = ⟨slot, d, .node ⟨some p, hash⟩⟩ ∨ Reaches heap ⟨.left p, d + 1, l⟩ e ∨
      Reaches heap ⟨.right p, d + 1, r⟩ e := by
  rcases h.cases_head with rfl | ⟨e₁, hlead, hrest⟩
  · exact Or.inl rfl
  · rcases leads_branch hnode hlead with rfl | rfl
    · exact Or.inr (Or.inl hrest)
    · exact Or.inr (Or.inr hrest)

theorem reaches_ext {key : ExtKey} {c : Ref} (hnode : Stored heap p (.extension key c))
    (h : Reaches heap ⟨slot, d, .node ⟨some p, hash⟩⟩ e) :
    e = ⟨slot, d, .node ⟨some p, hash⟩⟩ ∨
      Reaches heap ⟨.child p, d + key.bits.length, c⟩ e := by
  rcases h.cases_head with rfl | ⟨e₁, hlead, hrest⟩
  · exact Or.inl rfl
  · rw [leads_ext hnode hlead] at hrest
    exact Or.inr hrest

/-- A reference with a pointer has the hash of the node stored there; the key of
an extension is not empty and starts where the reference's depth says. -/
def Entry.Sound (digest : List Byte → CryptoHash) (heap : Ptr → Option RawNode) (e : Entry) :
    Prop :=
  ∀ p hash, e.PointsTo p hash → ∃ node, Stored heap p node ∧ hash = node.hash digest ∧
    ∀ key child, node = .extension key child → key.bits ≠ [] ∧ key.offset.val = e.depth % 8

theorem stored_branch {l r : Ref} (h : heap p = some (RawNode.branch l r)) :
    Stored heap p (.branch l r) :=
  ⟨_, h, RawNode.decode_branch l r⟩

theorem stored_ext {key : ExtKey} {c : Ref} (h : heap p = some (RawNode.extension key c)) :
    ∃ key', Stored heap p (.extension key' c) ∧ key'.offset = key.offset ∧
      key'.bits = key.bits := by
  obtain ⟨key', hdec, ho, hb⟩ := RawNode.decode_extension key c
  exact ⟨key', ⟨_, h, hdec⟩, ho, hb⟩

def pointers (cells : NodeCells) : Multiset Ptr := cells.map Prod.fst

@[simp] theorem pointers_add (cells more : NodeCells) :
    pointers (cells + more) = pointers cells + pointers more := Multiset.map_add ..

@[simp] theorem pointers_single (p : Ptr) (raw : RawNode) : pointers {(p, raw)} = {p} :=
  Multiset.map_singleton ..

theorem Rep.reaches (hrep : Rep digest d ref t cells) (hbase : InBase heap cells)
    (h : Reaches heap ⟨slot, d, ref⟩ e) :
    e.Sound digest heap ∧ ∀ p hash, e.PointsTo p hash → p ∈ pointers cells := by
  induction hrep generalizing slot e with
  | value =>
    have hs := reaches_of_sealed (by simp) h
    exact ⟨fun p hash hp => absurd hp (hs p hash), fun p hash hp => absurd hp (hs p hash)⟩
  | pruned hhash =>
    have hs := reaches_of_sealed (by simp) h
    exact ⟨fun p hash hp => absurd hp (hs p hash), fun p hash hp => absurd hp (hs p hash)⟩
  | @branch d p hash lref rref l r lcells rcells hhash hl hr ihl ihr =>
    have hnode := stored_branch hbase.head
    rcases reaches_branch hnode h with rfl | h | h
    · refine ⟨?_, ?_⟩
      · intro q hash' hq
        cases hq
        refine ⟨_, hnode, ?_, ?_⟩
        · rw [Node.hash, preimage_branch]
          exact Rep.hash_branch hhash hl hr
        · intro key child hext
          cases hext
      · intro q hash' hq
        cases hq
        simp only [pointers_add, pointers_single, Multiset.mem_add, Multiset.mem_singleton,
          true_or]
    · obtain ⟨hsound, hin⟩ := ihl hbase.right.left h
      exact ⟨hsound, fun q hash' hq => by
        simp only [pointers_add, Multiset.mem_add, hin q hash' hq, true_or, or_true]⟩
    · obtain ⟨hsound, hin⟩ := ihr hbase.right.right h
      exact ⟨hsound, fun q hash' hq => by
        simp only [pointers_add, Multiset.mem_add, hin q hash' hq, or_true]⟩
  | @ext d p hash key cref c ccells hhash ho hc ih =>
    obtain ⟨key', hnode, ho', hb'⟩ := stored_ext hbase.head
    rcases reaches_ext hnode h with rfl | h
    · refine ⟨?_, ?_⟩
      · intro q hash' hq
        cases hq
        refine ⟨_, hnode, ?_, ?_⟩
        · rw [Node.hash, preimage_extension, ho', hb']
          exact Rep.hash_ext hhash ho hc
        · intro key₁ child hext
          cases hext
          refine ⟨key'.bits_ne_nil, ?_⟩
          rw [ho', ho]
          rfl
      · intro q hash' hq
        cases hq
        simp only [pointers_add, pointers_single, Multiset.mem_add, Multiset.mem_singleton,
          true_or]
    · rw [hb'] at h
      obtain ⟨hsound, hin⟩ := ih hbase.right h
      exact ⟨hsound, fun q hash' hq => by
        simp only [pointers_add, Multiset.mem_add, hin q hash' hq, or_true]⟩

/-- Every block of the tree is pointed at. -/
theorem Rep.covers (hrep : Rep digest d ref t cells) (hbase : InBase heap cells)
    (hp : p ∈ pointers cells) :
    ∃ e hash, Reaches heap ⟨slot, d, ref⟩ e ∧ e.PointsTo p hash := by
  induction hrep generalizing slot with
  | value => cases hp
  | pruned hhash => cases hp
  | @branch d q hash lref rref l r lcells rcells hhash hl hr ihl ihr =>
    have hnode := stored_branch hbase.head
    simp only [pointers_add, pointers_single, Multiset.mem_add, Multiset.mem_singleton] at hp
    rcases hp with rfl | hp | hp
    · exact ⟨_, hash, .refl, rfl⟩
    · obtain ⟨e, hash', hreach, hpt⟩ := ihl hbase.right.left hp
      exact ⟨e, hash', .head (.left rfl hnode) hreach, hpt⟩
    · obtain ⟨e, hash', hreach, hpt⟩ := ihr hbase.right.right hp
      exact ⟨e, hash', .head (.right rfl hnode) hreach, hpt⟩
  | @ext d q hash key cref c ccells hhash ho hc ih =>
    obtain ⟨key', hnode, -, hb'⟩ := stored_ext hbase.head
    simp only [pointers_add, pointers_single, Multiset.mem_add, Multiset.mem_singleton] at hp
    rcases hp with rfl | hp
    · exact ⟨_, hash, .refl, rfl⟩
    · obtain ⟨e, hash', hreach, hpt⟩ := ih hbase.right hp
      refine ⟨e, hash', .head (.child rfl hnode) ?_, hpt⟩
      rw [hb']
      exact hreach

/-- No block is pointed at from two places. -/
theorem Rep.unique (hrep : Rep digest d ref t cells) (hbase : InBase heap cells)
    (hnodup : (pointers cells).Nodup) {hash' : CryptoHash}
    (h : Reaches heap ⟨slot, d, ref⟩ e) (h' : Reaches heap ⟨slot, d, ref⟩ e')
    (hp : e.PointsTo p hash) (hp' : e'.PointsTo p hash') : e = e' := by
  induction hrep generalizing slot with
  | value => exact absurd hp (reaches_of_sealed (by simp) h _ _)
  | pruned hhash => exact absurd hp (reaches_of_sealed (by simp) h _ _)
  | @branch d q hash₀ lref rref l r lcells rcells hhash hl hr ihl ihr =>
    have hnode := stored_branch hbase.head
    have hbl := hbase.right.left
    have hbr := hbase.right.right
    rw [pointers_add, pointers_single, pointers_add, Multiset.singleton_add, Multiset.nodup_cons,
      Multiset.mem_add, not_or, Multiset.nodup_add] at hnodup
    obtain ⟨⟨hql, hqr⟩, hnl, hnr, hdis⟩ := hnodup
    rcases reaches_branch hnode h with rfl | hs | hs <;>
      rcases reaches_branch hnode h' with rfl | hs' | hs'
    · rfl
    · cases hp
      exact absurd ((hl.reaches hbl hs').2 _ _ hp') hql
    · cases hp
      exact absurd ((hr.reaches hbr hs').2 _ _ hp') hqr
    · cases hp'
      exact absurd ((hl.reaches hbl hs).2 _ _ hp) hql
    · exact ihl hbl hnl hs hs'
    · exact absurd ((hr.reaches hbr hs').2 _ _ hp')
        (Multiset.disjoint_left.mp hdis ((hl.reaches hbl hs).2 _ _ hp))
    · cases hp'
      exact absurd ((hr.reaches hbr hs).2 _ _ hp) hqr
    · exact absurd ((hr.reaches hbr hs).2 _ _ hp)
        (Multiset.disjoint_left.mp hdis ((hl.reaches hbl hs').2 _ _ hp'))
    · exact ihr hbr hnr hs hs'
  | @ext d q hash₀ key cref c ccells hhash ho hc ih =>
    obtain ⟨key', hnode, -, hb'⟩ := stored_ext hbase.head
    have hb := hbase.right
    rw [pointers_add, pointers_single, Multiset.singleton_add, Multiset.nodup_cons] at hnodup
    obtain ⟨hq, hn⟩ := hnodup
    have hr := reaches_ext hnode h
    have hr' := reaches_ext hnode h'
    rw [hb'] at hr hr'
    rcases hr with rfl | hs <;> rcases hr' with rfl | hs'
    · rfl
    · cases hp
      exact absurd ((hc.reaches hb hs').2 _ _ hp') hq
    · cases hp'
      exact absurd ((hc.reaches hb hs).2 _ _ hp) hq
    · exact ih hb hn hs hs'

section

variable {A : Type} [LawfulAllocator A RawNode] {s : State A} {root : Root}

def Trie.entry (t : Trie A) : Entry := ⟨.root, 0, .node ⟨t.rootPtr, t.rootHash⟩⟩

/-- What a missing root pointer stands for: the trie is empty, or its root was a
branch both of whose children are sealed. -/
def RootGone (digest : List Byte → CryptoHash) (s : State A) : Prop :=
  (s.trie.rootHash = emptyTrieRoot ∧ ∀ k, s.bindings k = none) ∨
    (∃ l r : Ref, l.isSealed ∧ r.isSealed ∧ s.trie.rootHash = (Node.branch l r).hash digest) ∧
      ∀ k h sealed, s.bindings k = some (h, sealed) → sealed = true

structure WellShaped (digest : List Byte → CryptoHash) (s : State A) : Prop where
  gone : s.trie.rootPtr = none → RootGone digest s
  sound : ∀ e, Reaches (cell s.trie.alloc) s.trie.entry e → e.Sound digest (cell s.trie.alloc)
  allocated : ∀ p, (cell s.trie.alloc p).isSome ↔
    ∃ e hash, Reaches (cell s.trie.alloc) s.trie.entry e ∧ e.PointsTo p hash
  unique : ∀ p e e' hash hash', Reaches (cell s.trie.alloc) s.trie.entry e →
    Reaches (cell s.trie.alloc) s.trie.entry e' → e.PointsTo p hash → e'.PointsTo p hash' → e = e'

theorem exists_sealed_ref (digest : List Byte → CryptoHash) (h : t.isSealed = true) (d : Nat) :
    ∃ ref : Ref, ref.isSealed = true ∧ ref.parts = t.parts digest d := by
  cases t with
  | value sealed hash => exact ⟨.value ⟨sealed, hash⟩, h, rfl⟩
  | pruned l r => exact ⟨.node ⟨none, ((Tree.pruned l r).parts digest d).2⟩, rfl, rfl⟩
  | branch l r => cases h
  | ext key child => cases h

theorem rootGone_of_holds (h : s.Holds digest root) (hp : s.trie.rootPtr = none) :
    RootGone digest s := by
  cases root with
  | none => exact Or.inl ⟨h.rep.2.1, h.bindings⟩
  | some tree =>
    obtain ⟨cells, hrep, hwf, -⟩ := h.rep
    rw [hp] at hrep
    cases hrep with
    | @pruned _ _ l r hhash =>
      obtain ⟨lref, hls, hlp⟩ := exists_sealed_ref digest hwf.2.2.1 1
      obtain ⟨rref, hrs, hrp⟩ := exists_sealed_ref digest hwf.2.2.2 1
      refine Or.inr ⟨⟨lref, rref, hls, hrs, ?_⟩, ?_⟩
      · rw [hhash, Node.hash, preimage_branch, hlp, hrp]
        rfl
      · intro k hash sealed hk
        rw [h.bindings] at hk
        exact Tree.lookup_of_isSealed hwf rfl hk

/-- In every reachable trie: the root hash is that of the root node, or that of
the empty trie; recorded hashes are those of the nodes stored; keys of extensions
are not empty and start at their depth; and allocated blocks are exactly those
which are pointed at, each from one place. -/
theorem reachable_wellShaped (hd : ∀ b, digest b ≠ emptyTrieRoot) (hs : Reachable digest s) :
    WellShaped digest s := by
  obtain ⟨root, h⟩ := hs.holds hd
  cases root with
  | none =>
    obtain ⟨hptr, hhash, hown⟩ := h.rep
    have hno : ∀ e, Reaches (cell s.trie.alloc) s.trie.entry e → ∀ p hash, ¬ e.PointsTo p hash :=
      fun e he => reaches_of_sealed (by simp [hptr]) he
    refine ⟨rootGone_of_holds h, ?_, ?_, ?_⟩
    · intro e he p hash hp
      exact absurd hp (hno e he p hash)
    · intro p
      rw [owns_zero_iff.mp hown p]
      refine ⟨fun hp => absurd hp (by simp), ?_⟩
      rintro ⟨e, hash, he, hp⟩
      exact absurd hp (hno e he p hash)
    · intro p e e' hash hash' he _ hp
      exact absurd hp (hno e he p hash)
  | some tree =>
    obtain ⟨cells, hrep, hwf, hown⟩ := h.rep
    have hbase := Owns.inBase hown
    refine ⟨rootGone_of_holds h, ?_, ?_, ?_⟩
    · intro e he
      exact (hrep.reaches hbase he).1
    · intro p
      rw [hown.isSome_iff]
      refine ⟨fun hp => hrep.covers hbase hp, ?_⟩
      rintro ⟨e, hash, he, hp⟩
      exact (hrep.reaches hbase he).2 p hash hp
    · intro p e e' hash hash' he he' hp hp'
      exact hrep.unique hbase hown.nodup he he' hp hp'

/-- In the sample trie, which is not empty, the root hash is recorded right. -/
theorem reachable_wellShaped_sample :
    sampleState.trie.rootPtr.isSome ∧
      sampleState.trie.entry.Sound sampleDigest (cell sampleState.trie.alloc) :=
  ⟨by decide +kernel, (reachable_wellShaped sampleDigest_ne
    (Reachable.intro sampleAlloc_empty sampleCalls)).sound _ .refl⟩

end

end SealableTrie
