import EmulatedLightClient.TreeInvariant

/-!
# Trees in memory

`Rep d ref t cells` says that the reference, met at depth `d`, stands for the
tree and that `cells` are the blocks of its nodes. `Holds` is the assertion
about write logs the operations are specified with; besides the blocks it keeps
the number of requests the allocator is known to serve.
-/

namespace SealableTrie

open ByteBits Bits Nodes Memory ListPrefix FailingState FailingState.Op HeapOwnership

variable (digest : List Byte → CryptoHash)

namespace Tree

/-- Kind and hash of a reference to the tree at depth `d`. -/
def parts : Tree → Nat → Bool × CryptoHash
  | value _ hash, _ => (true, hash)
  | pruned left right, d =>
    (false, digest (branchPreimage (left.parts (d + 1)) (right.parts (d + 1))))
  | branch left right, d =>
    (false, digest (branchPreimage (left.parts (d + 1)) (right.parts (d + 1))))
  | ext key child, d =>
    (false, digest (extPreimage (U3.wrap d) key (child.parts (d + key.length))))

end Tree

abbrev NodeCells := Cells Ptr RawNode

inductive Rep : Nat → Ref → Tree → NodeCells → Prop
  | value {d : Nat} {isSealed : Bool} {hash : CryptoHash} :
    Rep d (.value ⟨isSealed, hash⟩) (.value isSealed hash) 0
  | pruned {d : Nat} {hash : CryptoHash} {left right : Tree}
      (hhash : hash = ((Tree.pruned left right).parts digest d).2) :
    Rep d (.node ⟨none, hash⟩) (.pruned left right) 0
  | branch {d : Nat} {p : Ptr} {hash : CryptoHash} {lref rref : Ref} {left right : Tree}
      {lcells rcells : NodeCells}
      (hhash : hash = ((Tree.branch left right).parts digest d).2)
      (hleft : Rep (d + 1) lref left lcells) (hright : Rep (d + 1) rref right rcells) :
    Rep d (.node ⟨some p, hash⟩) (.branch left right)
      ({(p, RawNode.branch lref rref)} + (lcells + rcells))
  | ext {d : Nat} {p : Ptr} {hash : CryptoHash} {key : ExtKey} {cref : Ref} {child : Tree}
      {cells : NodeCells}
      (hhash : hash = ((Tree.ext key.bits child).parts digest d).2)
      (hoff : key.offset = U3.wrap d) (hchild : Rep (d + key.bits.length) cref child cells) :
    Rep d (.node ⟨some p, hash⟩) (.ext key.bits child)
      ({(p, RawNode.extension key cref)} + cells)

variable {digest} {d : Nat} {ref : Ref} {t : Tree} {cells frame : NodeCells}

theorem Rep.parts_eq (h : Rep digest d ref t cells) : ref.parts = t.parts digest d := by
  cases h with
  | value => rfl
  | pruned hhash => exact Prod.ext rfl hhash
  | branch hhash _ _ => exact Prod.ext rfl hhash
  | ext hhash _ _ => exact Prod.ext rfl hhash

theorem Rep.isSealed_eq (h : Rep digest d ref t cells) : ref.isSealed = t.isSealed := by
  cases h <;> rfl

theorem offset_wrap {offset : U3} (h : offset.val = d % 8) : offset = U3.wrap d := Fin.ext h

/-- The trees right below the node of a tree. -/
def Tree.children : Tree → List Tree
  | .value _ _ => []
  | .pruned _ _ => []
  | .branch left right => [left, right]
  | .ext _ child => [child]

theorem popFront_cases {key : Slice} (ho : key.offset = U3.wrap d) :
    (key.popFront = none ∧ key.bits = []) ∨
      ∃ bit key', key.popFront = some (bit, key') ∧ key.bits = bit :: key'.bits ∧
        key'.offset = U3.wrap (d + 1) := by
  cases hb : key.bits with
  | nil => exact Or.inl ⟨Slice.popFront_of_nil hb, rfl⟩
  | cons bit rest =>
    obtain ⟨key', hpop, hbits, hoff⟩ := Slice.popFront_of_cons hb
    refine Or.inr ⟨bit, key', hpop, by rw [hbits], offset_wrap ?_⟩
    rw [hoff, ho, U3.val_wrap]
    omega

theorem stripPrefix_cases {key : Slice} {extKey : ExtKey} (ho : key.offset = U3.wrap d)
    (hk : extKey.offset = U3.wrap d) :
    (key.stripPrefix extKey.slice = none ∧ ¬ extKey.bits <+: key.bits) ∨
      ∃ key', key.stripPrefix extKey.slice = some key' ∧ key.bits = extKey.bits ++ key'.bits ∧
        key'.offset = U3.wrap (d + extKey.bits.length) := by
  have hoff : key.offset = extKey.slice.offset := ho.trans hk.symm
  cases hs : key.stripPrefix extKey.slice with
  | none => exact Or.inl ⟨rfl, (Slice.stripPrefix_none hoff).mp hs⟩
  | some key' =>
    obtain ⟨-, hbits, ho'⟩ := Slice.stripPrefix_spec hs
    refine Or.inr ⟨key', rfl, hbits, offset_wrap ?_⟩
    rw [ho', ho, U3.val_wrap, ExtKey.bits, Slice.length_bits]
    omega

/-- The raw node decodes to a node with given preimage. -/
def Decodes (raw : RawNode) (pre : List Byte) : Prop :=
  ∃ node, raw.decode = .ok node ∧ node.preimage = pre

theorem decodes_branch (lref rref : Ref) :
    Decodes (RawNode.branch lref rref) (branchPreimage lref.parts rref.parts) :=
  ⟨_, RawNode.decode_branch lref rref, preimage_branch lref rref⟩

theorem decodes_extension (key : ExtKey) (cref : Ref) :
    Decodes (RawNode.extension key cref) (extPreimage key.offset key.bits cref.parts) := by
  obtain ⟨key', hdec, ho, hb⟩ := RawNode.decode_extension key cref
  exact ⟨_, hdec, by rw [preimage_extension, ho, hb]⟩

theorem rep_branch {p : Ptr} {lref rref : Ref} {l r : Tree} {lcells rcells : NodeCells}
    (hl : Rep digest (d + 1) lref l lcells) (hr : Rep digest (d + 1) rref r rcells) :
    Rep digest d (.node ⟨some p, digest (branchPreimage lref.parts rref.parts)⟩) (.branch l r)
      ({(p, RawNode.branch lref rref)} + (lcells + rcells)) :=
  .branch (by rw [hl.parts_eq, hr.parts_eq]; rfl) hl hr

theorem rep_ext {p : Ptr} {key : ExtKey} {bits : List Bool} {cref : Ref} {c : Tree}
    {ccells : NodeCells} (ho : key.offset = U3.wrap d) (hb : key.bits = bits)
    (hc : Rep digest (d + bits.length) cref c ccells) :
    Rep digest d (.node ⟨some p, digest (extPreimage key.offset key.bits cref.parts)⟩)
      (.ext bits c) ({(p, RawNode.extension key cref)} + ccells) := by
  subst hb
  exact .ext (by rw [hc.parts_eq, ho]; rfl) ho hc

section

variable {A : Type} [LawfulAllocator A RawNode]

theorem readNode_branch {a : A} {p : Ptr} {hash : CryptoHash} {lref rref : Ref}
    (hget : Allocator.get a p = some (RawNode.branch lref rref))
    (hhash : hash = digest (branchPreimage lref.parts rref.parts)) :
    readNode digest a p hash = .ok (.branch lref rref) := by
  simp only [readNode, hget, RawNode.decode_branch]
  rw [if_pos]
  rw [hhash, Node.hash, preimage_branch]

theorem readNode_ext {a : A} {p : Ptr} {hash : CryptoHash} {key : ExtKey} {cref : Ref}
    (hget : Allocator.get a p = some (RawNode.extension key cref))
    (hhash : hash = digest (extPreimage key.offset key.bits cref.parts)) :
    ∃ key', readNode digest a p hash = .ok (.extension key' cref) ∧
      key'.offset = key.offset ∧ key'.bits = key.bits := by
  obtain ⟨key', hdec, ho, hb⟩ := RawNode.decode_extension key cref
  refine ⟨key', ?_, ho, hb⟩
  simp only [readNode, hget, hdec]
  rw [if_pos]
  rw [hhash, Node.hash, preimage_extension, ho, hb]

theorem Rep.hash_branch {hash : CryptoHash} {l r : Tree} {lref rref : Ref}
    {lcells rcells : NodeCells} (hhash : hash = ((Tree.branch l r).parts digest d).2)
    (hl : Rep digest (d + 1) lref l lcells) (hr : Rep digest (d + 1) rref r rcells) :
    hash = digest (branchPreimage lref.parts rref.parts) := by
  rw [hhash, hl.parts_eq, hr.parts_eq]
  rfl

theorem Rep.hash_ext {hash : CryptoHash} {key : ExtKey} {c : Tree} {cref : Ref}
    {ccells : NodeCells} (hhash : hash = ((Tree.ext key.bits c).parts digest d).2)
    (ho : key.offset = U3.wrap d) (hc : Rep digest (d + key.bits.length) cref c ccells) :
    hash = digest (extPreimage key.offset key.bits cref.parts) := by
  rw [hhash, hc.parts_eq, ho]
  rfl

structure Holds (base : Ptr → Option RawNode) (n : Nat) (w : WriteLog A RawNode)
    (cells : NodeCells) : Prop where
  pending : WriteLog.Pending base w
  owns : Owns w.view cells
  serves : Serves n w.alloc

variable {base : Ptr → Option RawNode} {n : Nat} {w : WriteLog A RawNode}

theorem Holds.new {a : A} (h : Owns (cell a) cells) (hs : Serves n a) :
    Holds (cell a) n (WriteLog.new a) cells :=
  ⟨WriteLog.pending_new a, by rw [WriteLog.view_new]; exact h, hs⟩

theorem ends_alloc (h : Holds base n w cells) (raw : RawNode) :
    Ends (LogOp.alloc raw) w (fun p w' => Holds base (n - 1) w' ({(p, raw)} + cells))
      (fun e w' => e = .err .outOfMemory ∧ WriteLog.Pending base w' ∧ n = 0) := by
  have hspec := h.pending.allocate raw
  unfold Ends LogOp.alloc
  cases hres : w.allocate raw with
  | mk r w' =>
    rw [hres] at hspec
    cases r with
    | ok p =>
      obtain ⟨hpend, hfresh, hview⟩ := hspec
      refine ⟨hpend, by rw [hview]; exact h.owns.insert hfresh, ?_⟩
      cases n with
      | zero => trivial
      | succ n =>
        obtain ⟨p', w'', hres', hs⟩ := WriteLog.allocate_of_serves h.serves raw
        rw [hres] at hres'
        cases hres'
        exact hs
    | error e =>
      refine ⟨rfl, hspec.1, ?_⟩
      cases n with
      | zero => rfl
      | succ n =>
        obtain ⟨p', w'', hres', hs⟩ := WriteLog.allocate_of_serves h.serves raw
        rw [hres] at hres'
        cases hres'

theorem ends_set {p : Ptr} {raw raw' : RawNode} {bad : Failure → WriteLog A RawNode → Prop}
    (h : Holds base n w ({(p, raw)} + cells)) :
    Ends (LogOp.set p raw') w (fun _ w' => Holds base n w' ({(p, raw')} + cells)) bad := by
  obtain ⟨hpend, hview⟩ := h.pending.set h.owns.head raw'
  exact ⟨hpend, by rw [hview]; exact h.owns.write, h.serves⟩

theorem ends_free {p : Ptr} {raw : RawNode} {bad : Failure → WriteLog A RawNode → Prop}
    (h : Holds base n w ({(p, raw)} + cells)) :
    Ends (LogOp.free p) w (fun _ w' => Holds base n w' cells) bad := by
  obtain ⟨hpend, hview⟩ := h.pending.free h.owns.head
  exact ⟨hpend, by rw [hview]; exact h.owns.remove, h.serves⟩

theorem ends_read {p : Ptr} {hash : CryptoHash} {node : Node (Option Ptr) Bool}
    {good : Node (Option Ptr) Bool → WriteLog A RawNode → Prop}
    {bad : Failure → WriteLog A RawNode → Prop}
    (hread : readNode digest w.alloc p hash = .ok node) (h : good node w) :
    Ends (LogOp.readNode digest p hash) w good bad := by
  unfold Ends LogOp.readNode
  rw [hread]
  exact h

/-- Blocks of the base are read as they were when the log was opened. -/
theorem Holds.get (h : Holds base n w cells) {p : Ptr} {raw : RawNode}
    (hb : base p = some raw) : Allocator.get w.alloc p = some raw :=
  h.pending.get_base hb

/-- All cells listed are in the base. -/
def InBase (base : Ptr → Option RawNode) (cells : NodeCells) : Prop :=
  ∀ c ∈ cells, base c.1 = some c.2

theorem InBase.left {more : NodeCells} (h : InBase base (cells + more)) : InBase base cells :=
  fun c hc => h c (Multiset.mem_add.mpr (Or.inl hc))

theorem InBase.right {more : NodeCells} (h : InBase base (cells + more)) : InBase base more :=
  fun c hc => h c (Multiset.mem_add.mpr (Or.inr hc))

theorem InBase.head {p : Ptr} {raw : RawNode} (h : InBase base ({(p, raw)} + cells)) :
    base p = some raw :=
  h (p, raw) (by simp)

/-- Reading the node of a branch. -/
theorem Rep.reads_branch {a : A} {nref : NodeRef (Option Ptr)} {l r : Tree}
    (h : Rep digest d (.node nref) (.branch l r) cells) (hbase : InBase (cell a) cells) :
    ∃ p lref rref lcells rcells, nref.ptr = some p ∧
      readNode digest a p nref.hash = .ok (.branch lref rref) ∧
      Rep digest (d + 1) lref l lcells ∧ Rep digest (d + 1) rref r rcells ∧
      InBase (cell a) lcells ∧ InBase (cell a) rcells := by
  cases h with
  | branch hhash hl hr =>
    exact ⟨_, _, _, _, _, rfl, readNode_branch (LawfulAllocator.get_of_cell hbase.head)
      (Rep.hash_branch hhash hl hr), hl, hr, hbase.right.left, hbase.right.right⟩

/-- Reading the node of an extension. -/
theorem Rep.reads_ext {a : A} {nref : NodeRef (Option Ptr)} {bits : List Bool} {c : Tree}
    (h : Rep digest d (.node nref) (.ext bits c) cells) (hbase : InBase (cell a) cells) :
    ∃ p key cref ccells, nref.ptr = some p ∧
      readNode digest a p nref.hash = .ok (.extension key cref) ∧ key.offset = U3.wrap d ∧
      key.bits = bits ∧ Rep digest (d + bits.length) cref c ccells ∧ InBase (cell a) ccells := by
  generalize ht : Tree.ext bits c = t at h
  cases h with
  | pruned => cases ht
  | branch => cases ht
  | ext hhash hoff hc =>
    cases ht
    obtain ⟨key', hread, ho', hb'⟩ := readNode_ext (LawfulAllocator.get_of_cell hbase.head)
      (Rep.hash_ext hhash hoff hc)
    exact ⟨_, key', _, _, rfl, hread, ho'.trans hoff, hb', hc, hbase.right⟩

end

/-- The keys are the chunks, the last one first, of bits met at depth `d`. -/
inductive Chunks (d : Nat) : List Bool → List ExtKey → Prop
  | nil : Chunks d [] []
  | cons {front : List Bool} {key : ExtKey} {rest : List ExtKey}
      (hcut : Tree.cutAt (d % 8) (front.length + key.bits.length) = front.length)
      (hoff : key.offset = U3.wrap (d + front.length)) (hrest : Chunks d front rest) :
    Chunks d (front ++ key.bits) (key :: rest)

theorem chunks_chunksRev {s : Slice} (ho : s.bits ≠ [] → s.offset = U3.wrap d) :
    Chunks d s.bits s.chunksRev := by
  induction hn : s.length using Nat.strong_induction_on generalizing s with
  | _ n ih =>
    by_cases hs : s.bits = []
    · rw [Slice.chunksRev_of_nil hs, hs]
      exact .nil
    · obtain ⟨key, s', hnext, hbits, hoff, hoff', hcut⟩ := Slice.nextBack_spec hs
      have hval : s.offset.val = d % 8 := by rw [ho hs]; rfl
      rw [Slice.chunksRev_cons hnext, hbits]
      refine .cons ?_ ?_ (ih s'.length ?_ (fun hne => (hoff' hne).trans (ho hs)) rfl)
      · have hpos := List.length_pos_iff.mpr hcut.nonempty
        have hshort := hcut.short
        have hstart := hcut.start
        rw [hval] at hshort hstart
        simp only [Tree.cutAt, Tree.maxBits]
        rcases hstart with hnil | hdvd
        · rw [hnil] at hshort ⊢
          simp only [List.length_nil] at hshort ⊢
          omega
        · omega
      · apply offset_wrap
        rw [hoff, hval, Slice.length_bits]
        omega
      · rw [← hn]
        exact Slice.nextBack_length hnext

theorem Chunks.length_le {bits : List Bool} {keys : List ExtKey} (h : Chunks d bits keys) :
    keys.length ≤ (d % 8 + bits.length + 271) / 272 := by
  induction h with
  | nil => simp
  | @cons front key rest hcut _ hrest ih =>
    have hpos := List.length_pos_iff.mpr key.bits_ne_nil
    simp only [Tree.cutAt, Tree.maxBits, List.length_append, List.length_cons] at *
    by_cases hz : front.length = 0
    · have hf := List.length_eq_zero_iff.mp hz
      have hr : rest = [] := by
        cases hrest with
        | nil => rfl
        | @cons front' key' => exact absurd (List.append_eq_nil_iff.mp hf).2 key'.bits_ne_nil
      rw [hr, List.length_nil]
      omega
    · omega

end SealableTrie
