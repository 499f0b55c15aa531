import EmulatedLightClient.SetRefines
import EmulatedLightClient.TrieDel

/-!
# Deleting a value does what it does on trees

The action handed to the parent stands for the action of the tree. Keys which
are put together never outgrow sixteen bits since all keys of a well-formed
tree are short.
-/

namespace SealableTrie

open ByteBits Bits Nodes Memory ListPrefix FailingState FailingState.Op HeapOwnership

theorem Tree.WF.depth_le {t : Tree} {d : Nat} (h : t.WF d) : d ≤ Tree.maxKey := by
  obtain ⟨key, x, hl⟩ := t.exists_lookup
  have := (Tree.lookup_length h hl).2
  omega

variable {digest : List Byte → CryptoHash} {A : Type} [LawfulAllocator A RawNode]
  {base : Ptr → Option RawNode} {d : Nat} {w : WriteLog A RawNode} {cells frame : NodeCells}

namespace Del

inductive ActRep (digest : List Byte → CryptoHash) (d : Nat) :
    Action → Tree.Action → NodeCells → Prop
  | drop : ActRep digest d .drop .drop 0
  | ref {r : Ref} {t : Tree} {cells : NodeCells} (hrep : Rep digest d r t cells) :
    ActRep digest d (.ref r) (.ref t) cells
  | ext {key : Owned} {r : Ref} {t : Tree} {cells : NodeCells} (hoff : key.offset = U3.wrap d)
      (hrep : Rep digest (d + key.bits.length) r t cells) :
    ActRep digest d (.ext key r) (.ext key.bits t) cells

theorem ends_setNode {p : Ptr} {raw raw' : RawNode} {pre : List Byte} {n : Nat}
    {bad : Failure → WriteLog A RawNode → Prop} (hraw : Decodes raw' pre)
    (h : Holds base n w ({(p, raw)} + cells)) :
    Ends (setNode digest p raw') w
      (fun r w' => r = .node ⟨some p, digest pre⟩ ∧ Holds base n w' ({(p, raw')} + cells)) bad := by
  obtain ⟨node, hdec, rfl⟩ := hraw
  simp only [setNode, hdec]
  exact (ends_set h).bind fun _ w' hw => ends_pure ⟨rfl, hw⟩

theorem ends_extendChunks {bits : List Bool} {keys : List ExtKey} {child : Ref} {t : Tree}
    {n : Nat} (hkeys : Chunks d bits keys) (hrep : Rep digest (d + bits.length) child t cells)
    (h : Holds base n w (cells + frame)) :
    Ends (extendChunks digest keys child) w
      (fun r w' => ∃ cells', Rep digest d r (Tree.chain d bits t) cells' ∧
        Holds base (n - keys.length) w' (cells' + frame))
      (fun e w' => e = .err .outOfMemory ∧ WriteLog.Pending base w' ∧ n < keys.length) := by
  induction hkeys generalizing child t cells n w with
  | nil =>
    rw [Tree.chain_nil]
    exact ends_pure ⟨cells, hrep, h⟩
  | @cons front key rest hcut hoff _ ih =>
    rw [Tree.chain_append t key.bits_ne_nil hcut]
    obtain ⟨node, hdec, hpre⟩ := decodes_extension key child
    unfold extendChunks
    simp only [hdec]
    refine ((ends_alloc h _).mono (fun _ _ hg => hg) ?_).bind ?_
    · rintro e w' ⟨he, hp, hn⟩
      refine ⟨he, hp, ?_⟩
      rw [List.length_cons]
      omega
    · intro p w' hw
      rw [List.length_append, ← Nat.add_assoc] at hrep
      rw [← add_assoc] at hw
      rw [Node.hash, hpre]
      refine (ih (rep_ext hoff rfl hrep) hw).mono ?_ ?_
      · rintro r w'' ⟨cells', hr, hh⟩
        refine ⟨cells', hr, ?_⟩
        rwa [List.length_cons, Nat.add_comm, ← Nat.sub_sub]
      · rintro e w'' ⟨he, hp, hn⟩
        refine ⟨he, hp, ?_⟩
        rw [List.length_cons]
        omega

/-- What is left of the action in the place of the reference. -/
def TreeDone (digest : List Byte → CryptoHash) (base : Ptr → Option RawNode) (d : Nat)
    (frame : NodeCells) (expected : Option Tree) (o : Option Ref) (w : WriteLog A RawNode) : Prop :=
  match o, expected with
  | none, none => Holds base 0 w frame
  | some r, some t => ∃ cells, Rep digest d r t cells ∧ Holds base 0 w (cells + frame)
  | _, _ => False

theorem ends_refFromAction {act : Action} {a : Tree.Action} (hact : ActRep digest d act a cells)
    (h : Holds base 0 w (cells + frame)) :
    Ends (refFromAction digest act) w (TreeDone digest base d frame (a.toTree d))
      (fun e w' => e = .err .outOfMemory ∧ WriteLog.Pending base w') := by
  cases hact with
  | drop =>
    rw [zero_add] at h
    exact ends_pure h
  | ref hrep => exact ends_pure ⟨_, hrep, h⟩
  | @ext key r t _ hoff hrep =>
    unfold refFromAction
    have hkeys : Chunks d key.bits key.asSlice.chunksRev :=
      chunks_chunksRev (s := key.asSlice) fun _ => hoff
    refine ((ends_extendChunks hkeys hrep h).mono (fun _ _ hg => hg) ?_).bind ?_
    · rintro e w' ⟨he, hp, -⟩
      exact ⟨he, hp⟩
    · rintro r' w' ⟨cells', hr, hh⟩
      rw [Nat.zero_sub] at hh
      exact ends_pure ⟨cells', hr, hh⟩

/-- The remaining child of a branch becomes an extension for the parent. -/
theorem ends_leftOver {side : Bool} {offset : U3} {oref : Ref} {other : Tree}
    {bad : Failure → WriteLog A RawNode → Prop} (hoff : offset = U3.wrap d)
    (hrep : Rep digest (d + 1) oref other cells) (hwf : other.WF (d + 1))
    (hbase : InBase base cells) (h : Holds base 0 w (cells + frame)) :
    Ends (maybePopExtension digest oref fun key => Owned.concatBit (!side) key.slice) w
      (fun popped w' => ∃ cells',
        ActRep digest d (popped.getD (.ext (Owned.bit (!side) offset) oref))
          (Tree.leftOver (!side) other) cells' ∧ Holds base 0 w' (cells' + frame)) bad := by
  have hbit : ∀ t, Rep digest (d + 1) oref t cells →
      ActRep digest d (.ext (Owned.bit (!side) offset) oref) (.ext [!side] t) cells := by
    intro t hr
    have hact : ActRep digest d (.ext (Owned.bit (!side) offset) oref)
        (.ext (Owned.bit (!side) offset).bits t) cells := .ext hoff (by rwa [Owned.bit_bits])
    rwa [Owned.bit_bits] at hact
  cases hrep with
  | value => exact ends_pure ⟨_, hbit _ .value, h⟩
  | pruned hhash => exact ends_pure ⟨_, hbit _ (.pruned hhash), h⟩
  | branch hhash hl hr =>
    have hread := readNode_branch (h.get hbase.head) (Rep.hash_branch hhash hl hr)
    exact ends_bind (ends_read hread (ends_pure ⟨_, hbit _ (.branch hhash hl hr), h⟩))
  | @ext _ p hash key cref c ccells hhash ho hc =>
    obtain ⟨key', hread, ho', hb'⟩ := readNode_ext (h.get hbase.head) (Rep.hash_ext hhash ho hc)
    have hlen : 1 + key'.slice.length < 2 ^ 16 := by
      have := hwf.2.2.depth_le
      have hkl : key'.slice.length = key.bits.length := by
        rw [← Slice.length_bits]
        exact congrArg List.length hb'
      rw [hkl]
      simp only [Tree.maxKey] at this
      omega
    obtain ⟨owned, hcat, hob, hoo⟩ := Owned.concatBit_spec (!side) hlen
    refine ends_bind (ends_read hread ?_)
    rw [add_assoc] at h
    refine (ends_free h).bind fun _ w' hw => ?_
    simp only [hcat]
    refine ends_pure ⟨ccells, ?_, hw⟩
    have hbits : owned.bits = (!side) :: key.bits := by
      rw [hob]
      exact congrArg _ hb'
    have hown : owned.offset = U3.wrap d := by
      apply offset_wrap
      rw [hoo, show key'.slice.offset = key'.offset from rfl, ho', ho, U3.val_wrap]
      omega
    have hact : ActRep digest d (.ext owned cref) (.ext owned.bits c) ccells := by
      refine .ext hown ?_
      rw [hbits, List.length_cons, show d + (key.bits.length + 1) = d + 1 + key.bits.length by
        omega]
      exact hc
    rwa [hbits] at hact

/-- The action of the operation stands for the one expected. -/
def ActDone (digest : List Byte → CryptoHash) (base : Ptr → Option RawNode) (d : Nat)
    (frame : NodeCells) (expected : Except Error Tree.Action) (act : Action)
    (w : WriteLog A RawNode) : Prop :=
  ∃ a cells, expected = .ok a ∧ ActRep digest d act a cells ∧ Holds base 0 w (cells + frame)

/-- Handling a reference to the tree does what is done on the tree. -/
def Refines (digest : List Byte → CryptoHash) (A : Type) [LawfulAllocator A RawNode]
    (t : Tree) : Prop :=
  ∀ {base : Ptr → Option RawNode} {d : Nat} {w : WriteLog A RawNode} {cells frame : NodeCells}
    {ref : Ref} {key : Slice}, Rep digest d ref t cells → t.WF d → InBase base cells →
    key.offset = U3.wrap d → Holds base 0 w (cells + frame) →
    Ends (handleReference digest key ref) w (ActDone digest base d frame (t.del d key.bits))
      (Refused base 0 1 (t.del d key.bits))

/-- What is done in a branch once the child on the side of the bit is handled. -/
theorem ends_inBranch {p : Ptr} {lref rref oref : Ref} {side : Bool} {act : Action}
    {a : Tree.Action} {other : Tree} {acells ocells : NodeCells} {raw : RawNode} {offset : U3}
    {expected : Except Error Tree.Action} (hoff : offset = U3.wrap d)
    (hside : oref = if side then lref else rref)
    (hact : ActRep digest (d + 1) act a acells) (hother : Rep digest (d + 1) oref other ocells)
    (hwf : other.WF (d + 1)) (hbase : InBase base ocells)
    (hexp : expected = .ok (a.inBranch d side other))
    (h : Holds base 0 w (acells + ({(p, raw)} + (ocells + frame)))) :
    Ends (do
        match ← refFromAction digest act with
        | some child =>
          let node := if side then RawNode.branch lref child else RawNode.branch child rref
          return .ref (← setNode digest p node)
        | none => do
          delNode p
          let child := if side then lref else rref
          let popped ← maybePopExtension digest child fun key => Owned.concatBit (!side) key.slice
          return popped.getD (.ext (Owned.bit (!side) offset) child)) w
      (ActDone digest base d frame expected) (Refused base 0 1 expected) := by
  refine ((ends_refFromAction hact h).mono (fun _ _ hg => hg) ?_).bind ?_
  · rintro e w' ⟨he, hp⟩
    exact ⟨hp, Or.inl ⟨he, by omega, _, hexp⟩⟩
  intro o w' hdone
  unfold TreeDone at hdone
  cases ho : a.toTree (d + 1) with
  | none =>
    rw [ho] at hdone
    have hin : a.inBranch d side other = Tree.leftOver (!side) other := by
      unfold Tree.Action.inBranch
      rw [ho]
    cases o with
    | some r => exact absurd hdone id
    | none =>
      refine (ends_free hdone).bind fun _ w'' hw => ?_
      rw [← hside]
      refine (ends_leftOver hoff hother hwf hbase hw).bind ?_
      rintro popped w₃ ⟨cells', hrep, hw₃⟩
      exact ends_pure ⟨_, cells', by rw [hexp, hin], hrep, hw₃⟩
  | some t =>
    rw [ho] at hdone
    have hin : a.inBranch d side other = .ref (Tree.join side t other) := by
      unfold Tree.Action.inBranch
      rw [ho]
    cases o with
    | none => exact absurd hdone id
    | some r =>
      obtain ⟨cells', hrep, hw⟩ := hdone
      rw [add_left_comm] at hw
      cases side with
      | false =>
        subst hside
        refine (ends_setNode (decodes_branch r oref) hw).bind ?_
        rintro ref w'' ⟨rfl, hw''⟩
        refine ends_pure ⟨_, _, hexp.trans (congrArg _ hin), .ref (rep_branch hrep hother), ?_⟩
        rwa [add_assoc, add_assoc]
      | true =>
        subst hside
        refine (ends_setNode (decodes_branch oref r) hw).bind ?_
        rintro ref w'' ⟨rfl, hw''⟩
        refine ends_pure ⟨_, _, hexp.trans (congrArg _ hin), .ref (rep_branch hother hrep), ?_⟩
        rwa [add_assoc, add_assoc, add_left_comm ocells]

theorem ends_handleBranch {l r : Tree} (hl : Refines digest A l) (hr : Refines digest A r)
    {p : Ptr} {lref rref : Ref} {lcells rcells : NodeCells} {key : Slice}
    (hlrep : Rep digest (d + 1) lref l lcells) (hrrep : Rep digest (d + 1) rref r rcells)
    (hwf : (Tree.branch l r).WF d) (hbase : InBase base (lcells + rcells))
    (ho : key.offset = U3.wrap d)
    (h : Holds base 0 w ({(p, RawNode.branch lref rref)} + (lcells + rcells) + frame)) :
    Ends (handleBranch digest key p lref rref) w
      (ActDone digest base d frame ((Tree.branch l r).del d key.bits))
      (Refused base 0 1 ((Tree.branch l r).del d key.bits)) := by
  unfold handleBranch
  obtain ⟨hpop, hnil⟩ | ⟨side, key', hpop, hbits, ho'⟩ := popFront_cases ho
  · split
    · rw [hnil]
      exact ends_fail ⟨h.pending, Or.inr ⟨_, rfl, rfl⟩⟩
    · rename_i hpop'
      rw [hpop] at hpop'
      cases hpop'
  · split
    · rename_i hpop'
      rw [hpop] at hpop'
      cases hpop'
    · rename_i side₁ key₁ hpop'
      rw [hpop] at hpop'
      cases hpop'
      rw [hbits]
      cases side with
      | false =>
        rw [show ({(p, RawNode.branch lref rref)} + (lcells + rcells) + frame) =
          lcells + ({(p, RawNode.branch lref rref)} + (rcells + frame)) by ac_rfl] at h
        refine ((hl hlrep hwf.1 hbase.left ho' h).mono (fun _ _ hg => hg) ?_).bind ?_
        · intro e w' hb
          exact hb.map rfl
        · rintro act w' ⟨a, cells', hdel, hact, hw⟩
          exact ends_inBranch ho rfl hact hrrep hwf.2 hbase.right
            (by simp only [Tree.del, hdel, Except.map]) hw
      | true =>
        rw [show ({(p, RawNode.branch lref rref)} + (lcells + rcells) + frame) =
          rcells + ({(p, RawNode.branch lref rref)} + (lcells + frame)) by ac_rfl] at h
        refine ((hr hrrep hwf.2 hbase.right ho' h).mono (fun _ _ hg => hg) ?_).bind ?_
        · intro e w' hb
          exact hb.map rfl
        · rintro act w' ⟨a, cells', hdel, hact, hw⟩
          exact ends_inBranch ho rfl hact hlrep hwf.1 hbase.left
            (by simp only [Tree.del, hdel, Except.map]) hw

theorem ends_handleExtension {c : Tree} (hc : Refines digest A c) {p : Ptr} {raw : RawNode}
    {extKey : ExtKey} {cref : Ref} {ccells : NodeCells} {key : Slice}
    (hext : extKey.offset = U3.wrap d)
    (hcrep : Rep digest (d + extKey.bits.length) cref c ccells)
    (hwf : (Tree.ext extKey.bits c).WF d) (hbase : InBase base ccells)
    (ho : key.offset = U3.wrap d) (h : Holds base 0 w ({(p, raw)} + ccells + frame)) :
    Ends (handleExtension digest key p extKey cref) w
      (ActDone digest base d frame ((Tree.ext extKey.bits c).del d key.bits))
      (Refused base 0 1 ((Tree.ext extKey.bits c).del d key.bits)) := by
  unfold handleExtension
  obtain ⟨hstrip, hno⟩ | ⟨key', hstrip, hbits, ho'⟩ := stripPrefix_cases ho hext
  · split
    · exact ends_fail ⟨h.pending, Or.inr ⟨_, rfl, by simp only [Tree.del, if_neg hno]⟩⟩
    · rename_i hs
      rw [hstrip] at hs
      cases hs
  · split
    · rename_i hs
      rw [hstrip] at hs
      cases hs
    · rename_i key₁ hs
      rw [hstrip] at hs
      cases hs
      have hdel : (Tree.ext extKey.bits c).del d key.bits =
          (c.del (d + extKey.bits.length) key'.bits).map (Tree.Action.extend extKey.bits) := by
        simp only [Tree.del, hbits, List.prefix_append, if_true, List.drop_left]
      rw [hdel]
      rw [add_assoc] at h
      refine (ends_free h).bind fun _ w₁ hw₁ => ?_
      refine ((hc hcrep hwf.2.2 hbase ho' hw₁).mono (fun _ _ hg => hg) ?_).bind ?_
      · intro e w' hb
        exact hb.map rfl
      · rintro act w' ⟨a, cells', hok, hact, hw⟩
        have hawf := Tree.del_wf hwf.2.2 hok
        rw [hok]
        cases hact with
        | drop => exact ends_pure ⟨_, 0, rfl, .drop, hw⟩
        | @ref r t _ hrep =>
          refine ends_pure ⟨_, cells', rfl, ?_, hw⟩
          have hact : ActRep digest d (.ext (Owned.ofSlice extKey.slice) r)
              (.ext (Owned.ofSlice extKey.slice).bits t) cells' :=
            .ext hext (by rw [Owned.ofSlice_bits]; exact hrep)
          rwa [Owned.ofSlice_bits] at hact
        | @ext suffix r t _ hoff hrep =>
          have hlen : extKey.slice.length + suffix.asSlice.length < 2 ^ 16 := by
            have := hawf.2.depth_le
            have h1 : extKey.slice.length = extKey.bits.length := (Slice.length_bits _).symm
            have h2 : suffix.asSlice.length = suffix.bits.length := (Slice.length_bits _).symm
            rw [h1, h2]
            simp only [Tree.maxKey] at this
            omega
          have hal : suffix.asSlice.offset.val =
              (extKey.slice.offset.val + extKey.slice.length) % 8 := by
            rw [Owned.asSlice_offset, hoff, show extKey.slice.offset = extKey.offset from rfl, hext,
              U3.val_wrap, U3.val_wrap, ← Slice.length_bits extKey.slice]
            change (d + extKey.bits.length) % 8 = (d % 8 + extKey.bits.length) % 8
            omega
          obtain ⟨owned, hcat, hob, hoo⟩ := Owned.concat_spec hal hlen
          simp only [hcat]
          have hbits' : owned.bits = extKey.bits ++ suffix.bits := hob
          refine ends_pure ⟨_, cells', rfl, ?_, hw⟩
          have hact : ActRep digest d (.ext owned r) (.ext owned.bits t) cells' := by
            refine .ext (hoo.trans hext) ?_
            rw [hbits', List.length_append, ← Nat.add_assoc]
            exact hrep
          rwa [hbits'] at hact

theorem ends_handle {t : Tree} (hsub : ∀ c ∈ t.children, Refines digest A c)
    {nref : NodeRef (Option Ptr)} {key : Slice} (hrep : Rep digest d (.node nref) t cells)
    (hwf : t.WF d) (hbase : InBase base cells) (ho : key.offset = U3.wrap d)
    (h : Holds base 0 w (cells + frame)) :
    Ends (handle digest key nref) w (ActDone digest base d frame (t.del d key.bits))
      (Refused base 0 1 (t.del d key.bits)) := by
  cases hrep with
  | pruned hhash =>
    unfold handle
    exact ends_fail ⟨h.pending, Or.inr ⟨_, rfl, rfl⟩⟩
  | branch hhash hl hr =>
    have hread := readNode_branch (h.get hbase.head) (Rep.hash_branch hhash hl hr)
    unfold handle
    exact ends_bind (ends_read hread (ends_handleBranch (hsub _ (by simp [Tree.children]))
      (hsub _ (by simp [Tree.children])) hl hr hwf hbase.right ho h))
  | ext hhash hoff hc =>
    obtain ⟨key', hread, ho', hb'⟩ := readNode_ext (h.get hbase.head) (Rep.hash_ext hhash hoff hc)
    rw [← hb'] at hc hwf ⊢
    unfold handle
    exact ends_bind (ends_read hread (ends_handleExtension (hsub _ (by simp [Tree.children]))
      (ho'.trans hoff) hc hwf hbase.right ho h))

theorem refines (t : Tree) : Refines digest A t := by
  have hnode : ∀ {t : Tree}, (∀ c ∈ t.children, Refines digest A c) →
      (∀ s h, t ≠ .value s h) → Refines digest A t := by
    intro t hsub hnv base d w cells frame ref key hrep hwf hbase ho h
    cases ref with
    | value vref => cases hrep; exact absurd rfl (hnv _ _)
    | node nref =>
      unfold handleReference
      exact ends_handle hsub hrep hwf hbase ho h
  induction t with
  | value s h₀ =>
    intro base d w cells frame ref key hrep hwf hbase ho h
    cases hrep
    unfold handleReference
    simp only [Tree.del]
    cases s with
    | true => exact ends_fail ⟨h.pending, Or.inr ⟨_, rfl, rfl⟩⟩
    | false =>
      by_cases hk : key.bits = []
      · rw [if_pos (Slice.isEmpty_iff.mpr hk), if_pos hk]
        exact ends_pure ⟨_, 0, rfl, .drop, h⟩
      · have hempty : ¬ key.isEmpty = true := fun he => hk (Slice.isEmpty_iff.mp he)
        rw [if_neg hempty, if_neg hk]
        exact ends_fail ⟨h.pending, Or.inr ⟨_, rfl, rfl⟩⟩
  | pruned l r => exact hnode (by simp [Tree.children]) (by simp)
  | branch l r ihl ihr => exact hnode (by simp [Tree.children, ihl, ihr]) (by simp)
  | ext key child ih => exact hnode (by simp [Tree.children, ih]) (by simp)

end Del

end SealableTrie
