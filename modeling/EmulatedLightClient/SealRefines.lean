import EmulatedLightClient.Represent
import EmulatedLightClient.TrieSeal

/-!
# Sealing a value does what it does on trees

Sealing changes no hash. It is refused before anything has been written, so the
allocator is returned as it was.
-/

namespace SealableTrie

open ByteBits Bits Nodes Memory ListPrefix FailingState FailingState.Op HeapOwnership

variable {digest : List Byte → CryptoHash} {A : Type} [LawfulAllocator A RawNode] {d : Nat}
  {a : A} {cells frame : NodeCells}

namespace Tree

theorem parts_join (bit : Bool) (this other : Tree) :
    (join bit this other).parts digest d =
      (false, digest (if bit then branchPreimage (other.parts digest (d + 1))
        (this.parts digest (d + 1)) else branchPreimage (this.parts digest (d + 1))
        (other.parts digest (d + 1)))) := by
  cases bit <;> rfl

theorem parts_sealJoin (bit : Bool) (this other : Tree) :
    (sealJoin bit this other).parts digest d = (join bit this other).parts digest d := by
  unfold sealJoin join
  split <;> cases bit <;> rfl

theorem sealKey_parts {t t' : Tree} {key : List Bool} (h : t.sealKey key = .ok t') :
    t'.parts digest d = t.parts digest d := by
  induction t generalizing d key t' with
  | value s h₀ =>
    unfold sealKey at h
    split at h
    · cases h
    · split at h
      · cases h
        rfl
      · cases h
  | pruned l r => cases h
  | branch l r ihl ihr =>
    rcases key with _ | ⟨_ | _, key⟩
    · cases h
    · obtain ⟨l', hl, rfl⟩ := map_eq_ok h
      rw [parts_sealJoin, parts_join, ihl hl]
      rfl
    · obtain ⟨r', hr, rfl⟩ := map_eq_ok h
      rw [parts_sealJoin, parts_join, ihr hr]
      rfl
  | ext extKey child ih =>
    unfold sealKey at h
    split at h
    · obtain ⟨c, hc, rfl⟩ := map_eq_ok h
      simp only [parts, ih hc]
    · cases h

end Tree

/-- Nothing is stored below a sealed reference. -/
theorem Rep.cells_of_isSealed {ref : Ref} {t : Tree} (h : Rep digest d ref t cells)
    (hs : t.isSealed = true) : cells = 0 := by
  cases h with
  | value => rfl
  | pruned hhash => rfl
  | branch hhash hl hr => cases hs
  | ext hhash ho hc => cases hs

namespace Seal

theorem ends_allocSet {p : Ptr} {raw raw' : RawNode} {bad : Failure → A → Prop}
    (h : Owns (cell a) ({(p, raw)} + cells)) :
    Ends (allocSet p raw') a (fun _ a' => Owns (cell a') ({(p, raw')} + cells)) bad := by
  obtain ⟨a', hset, hcell⟩ := LawfulAllocator.set_of_cell raw' h.head
  unfold Ends allocSet
  rw [hset]
  change Owns (cell a') _
  rw [hcell]
  exact h.write

theorem ends_allocFree {p : Ptr} {raw : RawNode} {bad : Failure → A → Prop}
    (h : Owns (cell a) ({(p, raw)} + cells)) :
    Ends (allocFree p) a (fun _ a' => Owns (cell a') cells) bad := by
  obtain ⟨a', hfree, hcell⟩ := LawfulAllocator.free_of_cell h.head
  unfold Ends allocFree
  rw [hfree]
  change Owns (cell a') _
  rw [hcell]
  exact h.remove

theorem ends_read {p : Ptr} {hash : CryptoHash} {node : Node (Option Ptr) Bool}
    {good : Node (Option Ptr) Bool → A → Prop} {bad : Failure → A → Prop}
    (hread : SealableTrie.readNode digest a p hash = .ok node) (h : good node a) :
    Ends (readNode digest p hash) a good bad := by
  unfold Ends readNode
  rw [hread]
  exact h

/-- The operation was refused as on the tree and has not touched the allocator. -/
def Refused (a : A) (expected : Except Error Tree) (e : Failure) (a' : A) : Prop :=
  a' = a ∧ ∃ err, e = .err err ∧ expected = .error err

def NodeDone (digest : List Byte → CryptoHash) (d : Nat) (frame : NodeCells)
    (nref : NodeRef (Option Ptr)) (expected : Except Error Tree) (removed : Bool) (a : A) : Prop :=
  ∃ t cells, expected = .ok t ∧
    Rep digest d (.node ⟨if removed then none else nref.ptr, nref.hash⟩) t cells ∧
    removed = t.isSealed ∧ Owns (cell a) (cells + frame)

def ChildDone (digest : List Byte → CryptoHash) (d : Nat) (frame : NodeCells) (ref : Ref)
    (expected : Except Error Tree) (o : Option Ref) (a : A) : Prop :=
  ∃ t cells, expected = .ok t ∧ Rep digest d (o.getD ref) t cells ∧ o.isSome = t.isSealed ∧
    Owns (cell a) (cells + frame)

/-- Sealing below a reference to the tree does what is done on the tree. -/
def Refines (digest : List Byte → CryptoHash) (A : Type) [LawfulAllocator A RawNode]
    (t : Tree) : Prop :=
  ∀ {d : Nat} {a : A} {cells frame : NodeCells} {ref : Ref} {key : Slice},
    Rep digest d ref t cells → key.offset = U3.wrap d → Owns (cell a) (cells + frame) →
    Ends (sealChild digest key ref) a (ChildDone digest d frame ref (t.sealKey key.bits))
      (Refused a (t.sealKey key.bits))

/-- The tree the node at `p` is going to stand for once the result is applied. -/
def ResultRep (digest : List Byte → CryptoHash) (d : Nat) (p : Ptr) (hash : CryptoHash)
    (raw : RawNode) (t : Tree) (cells : NodeCells) : SealResult → Prop
  | .free => Rep digest d (.node ⟨none, hash⟩) t 0 ∧ cells = 0
  | .replace node => Rep digest d (.node ⟨some p, hash⟩) t ({(p, node)} + cells)
  | .done => Rep digest d (.node ⟨some p, hash⟩) t ({(p, raw)} + cells)

def ResultDone (digest : List Byte → CryptoHash) (d : Nat) (frame : NodeCells) (p : Ptr)
    (hash : CryptoHash) (raw : RawNode) (expected : Except Error Tree) (res : SealResult)
    (a : A) : Prop :=
  ∃ t cells, expected = .ok t ∧ ResultRep digest d p hash raw t cells res ∧
    Owns (cell a) ({(p, raw)} + cells + frame)

/-- A branch with both children sealed is left without nodes. -/
theorem rep_sealJoin_freed {hash : CryptoHash} {ref oref : Ref} (side : Bool) {t other : Tree}
    {tcells ocells : NodeCells} (hrep : Rep digest (d + 1) ref t tcells)
    (hother : Rep digest (d + 1) oref other ocells)
    (hhash : hash = ((Tree.join side t other).parts digest d).2) (ht : t.isSealed = true)
    (ho : other.isSealed = true) :
    Rep digest d (.node ⟨none, hash⟩) (Tree.sealJoin side t other) 0 ∧ tcells + ocells = 0 := by
  refine ⟨?_, by rw [hrep.cells_of_isSealed ht, hother.cells_of_isSealed ho, add_zero]⟩
  have hjoin : Tree.sealJoin side t other =
      if side then Tree.pruned other t else Tree.pruned t other := by
    unfold Tree.sealJoin
    rw [ht, ho]
    rfl
  rw [hjoin]
  cases side
  · exact .pruned hhash
  · exact .pruned hhash

/-- Any other branch is kept. -/
theorem rep_sealJoin_kept {p : Ptr} {hash : CryptoHash} {ref oref : Ref} (side : Bool)
    {t other : Tree} {tcells ocells : NodeCells} (hrep : Rep digest (d + 1) ref t tcells)
    (hother : Rep digest (d + 1) oref other ocells)
    (hhash : hash = ((Tree.join side t other).parts digest d).2)
    (hns : ¬ (t.isSealed = true ∧ other.isSealed = true)) :
    Rep digest d (.node ⟨some p, hash⟩) (Tree.sealJoin side t other)
      ({(p, if side then RawNode.branch oref ref else RawNode.branch ref oref)} +
        (tcells + ocells)) := by
  have hjoin : Tree.sealJoin side t other = Tree.join side t other := by
    unfold Tree.sealJoin
    rw [if_neg]
    simpa using hns
  rw [hjoin]
  cases side with
  | false => exact .branch hhash hrep hother
  | true => rw [add_comm tcells]; exact .branch hhash hother hrep

/-- What is done in a branch once the child on the side of the bit is sealed. -/
theorem sealJoin_result {p : Ptr} {hash : CryptoHash} {lref rref this oref : Ref}
    (side : Bool) {t other : Tree} {tcells ocells : NodeCells} {o : Option Ref}
    (hthis : this = if side then rref else lref) (hoth : oref = if side then lref else rref)
    (hrep : Rep digest (d + 1) (o.getD this) t tcells) (hsome : o.isSome = t.isSealed)
    (hother : Rep digest (d + 1) oref other ocells)
    (hhash : hash = ((Tree.join side t other).parts digest d).2)
    (h : Owns (cell a) (tcells + ({(p, RawNode.branch lref rref)} + (ocells + frame)))) :
    Ends (match o with
        | none => return .done
        | some child =>
          if (if side then lref else rref).isSealed then return .free
          else if side then return .replace (RawNode.branch lref child)
          else return .replace (RawNode.branch child rref) : AllocOp A SealResult) a
      (ResultDone digest d frame p hash (RawNode.branch lref rref)
        (.ok (Tree.sealJoin side t other)))
      (fun _ _ => False) := by
  rw [← hoth]
  rw [show tcells + ({(p, RawNode.branch lref rref)} + (ocells + frame)) =
    {(p, RawNode.branch lref rref)} + (tcells + ocells) + frame by ac_rfl] at h
  cases o with
  | none =>
    have hns : ¬ (t.isSealed = true ∧ other.isSealed = true) := by rw [← hsome]; simp
    refine ends_pure ⟨_, tcells + ocells, rfl, ?_, h⟩
    have hk := rep_sealJoin_kept (p := p) side hrep hother hhash hns
    rw [Option.getD_none] at hk
    cases side with
    | false => subst hthis hoth; exact hk
    | true => subst hthis hoth; exact hk
  | some child =>
    have ht : t.isSealed = true := hsome.symm
    simp only
    by_cases hos : oref.isSealed = true
    · rw [if_pos hos]
      exact ends_pure ⟨_, tcells + ocells, rfl, rep_sealJoin_freed side hrep hother hhash ht (hother.isSealed_eq ▸ hos), h⟩
    · rw [if_neg hos]
      have hns : ¬ (t.isSealed = true ∧ other.isSealed = true) :=
        fun hb => hos (hother.isSealed_eq ▸ hb.2)
      have hk := rep_sealJoin_kept (p := p) side hrep hother hhash hns
      rw [Option.getD_some] at hk
      cases side with
      | false =>
        subst hoth
        exact ends_pure ⟨_, tcells + ocells, rfl, hk, h⟩
      | true =>
        subst hoth
        exact ends_pure ⟨_, tcells + ocells, rfl, hk, h⟩

theorem ends_sealBranch {l r : Tree} (hl : Refines digest A l) (hr : Refines digest A r)
    {p : Ptr} {hash : CryptoHash} {lref rref : Ref} {lcells rcells : NodeCells} {key : Slice}
    (hhash : hash = ((Tree.branch l r).parts digest d).2)
    (hlrep : Rep digest (d + 1) lref l lcells) (hrrep : Rep digest (d + 1) rref r rcells)
    (ho : key.offset = U3.wrap d)
    (h : Owns (cell a) ({(p, RawNode.branch lref rref)} + (lcells + rcells) + frame)) :
    Ends (sealBranch digest key lref rref) a
      (ResultDone digest d frame p hash (RawNode.branch lref rref)
        ((Tree.branch l r).sealKey key.bits))
      (Refused a ((Tree.branch l r).sealKey key.bits)) := by
  unfold sealBranch
  obtain ⟨hpop, hnil⟩ | ⟨side, key', hpop, hbits, ho'⟩ := popFront_cases ho
  · split
    · rw [hnil]
      exact ends_fail ⟨rfl, _, rfl, rfl⟩
    · rename_i hpop'
      rw [hpop] at hpop'
      cases hpop'
  · split
    · rename_i hpop'
      rw [hpop] at hpop'
      cases hpop'
    · rename_i side₁ key₁ hpop'
      rw [hpop] at hpop'
      cases hpop'
      rw [hbits]
      cases side with
      | false =>
        rw [show ({(p, RawNode.branch lref rref)} + (lcells + rcells) + frame) =
          lcells + ({(p, RawNode.branch lref rref)} + (rcells + frame)) by ac_rfl] at h
        refine ((hl hlrep ho' h).mono (fun _ _ hg => hg) ?_).bind ?_
        · rintro e a' ⟨ha, err, he, herr⟩
          exact ⟨ha, err, he, by simp only [Tree.sealKey, herr, Except.map]⟩
        · rintro o a' ⟨t, cells', hseal, hrep, hsome, hown⟩
          simp only [Tree.sealKey, hseal, Except.map]
          refine (sealJoin_result false rfl rfl hrep hsome hrrep ?_ hown).mono
            (fun _ _ hg => hg) fun _ _ hf => hf.elim
          rw [hhash, Tree.parts_join, Tree.sealKey_parts hseal]
          rfl
      | true =>
        rw [show ({(p, RawNode.branch lref rref)} + (lcells + rcells) + frame) =
          rcells + ({(p, RawNode.branch lref rref)} + (lcells + frame)) by ac_rfl] at h
        refine ((hr hrrep ho' h).mono (fun _ _ hg => hg) ?_).bind ?_
        · rintro e a' ⟨ha, err, he, herr⟩
          exact ⟨ha, err, he, by simp only [Tree.sealKey, herr, Except.map]⟩
        · rintro o a' ⟨t, cells', hseal, hrep, hsome, hown⟩
          simp only [Tree.sealKey, hseal, Except.map]
          refine (sealJoin_result true rfl rfl hrep hsome hlrep ?_ hown).mono
            (fun _ _ hg => hg) fun _ _ hf => hf.elim
          rw [hhash, Tree.parts_join, Tree.sealKey_parts hseal]
          rfl

theorem ends_sealExtension {c : Tree} (hc : Refines digest A c) {p : Ptr} {hash : CryptoHash}
    {key₀ extKey : ExtKey} {cref : Ref} {ccells : NodeCells} {key : Slice}
    (hhash : hash = ((Tree.ext extKey.bits c).parts digest d).2)
    (hext : extKey.offset = U3.wrap d) (hsame : key₀.offset = extKey.offset)
    (hsame' : key₀.bits = extKey.bits)
    (hcrep : Rep digest (d + extKey.bits.length) cref c ccells) (ho : key.offset = U3.wrap d)
    (h : Owns (cell a) ({(p, RawNode.extension key₀ cref)} + ccells + frame)) :
    Ends (sealExtension digest key extKey cref) a
      (ResultDone digest d frame p hash (RawNode.extension key₀ cref)
        ((Tree.ext extKey.bits c).sealKey key.bits))
      (Refused a ((Tree.ext extKey.bits c).sealKey key.bits)) := by
  unfold sealExtension
  obtain ⟨hstrip, hno⟩ | ⟨key', hstrip, hbits, ho'⟩ := stripPrefix_cases ho hext
  · split
    · exact ends_fail ⟨rfl, _, rfl, by simp only [Tree.sealKey, if_neg hno]⟩
    · rename_i hs
      rw [hstrip] at hs
      cases hs
  · split
    · rename_i hs
      rw [hstrip] at hs
      cases hs
    · rename_i key₁ hs
      rw [hstrip] at hs
      cases hs
      have hseal : (Tree.ext extKey.bits c).sealKey key.bits =
          (c.sealKey key'.bits).map (Tree.ext extKey.bits) := by
        simp only [Tree.sealKey, hbits, List.prefix_append, if_true, List.drop_left]
      rw [hseal]
      rw [show ({(p, RawNode.extension key₀ cref)} + ccells + frame) =
        ccells + ({(p, RawNode.extension key₀ cref)} + frame) by ac_rfl] at h
      refine ((hc hcrep ho' h).mono (fun _ _ hg => hg) ?_).bind ?_
      · rintro e a' ⟨ha, err, he, herr⟩
        exact ⟨ha, err, he, by rw [herr]; rfl⟩
      · rintro o a' ⟨t, cells', hok, hrep, hsome, hown⟩
        rw [show cells' + ({(p, RawNode.extension key₀ cref)} + frame) =
          {(p, RawNode.extension key₀ cref)} + cells' + frame by ac_rfl] at hown
        rw [hok]
        have hhash' : hash = ((Tree.ext extKey.bits t).parts digest d).2 := by
          rw [hhash]
          simp only [Tree.parts, Tree.sealKey_parts hok]
        cases o with
        | some child =>
          exact ends_pure ⟨_, cells', rfl, .ext hhash' hext hrep, hown⟩
        | none =>
          refine ends_pure ⟨_, cells', rfl, ?_, hown⟩
          rw [RawNode.extension_congr cref hsame hsame']
          exact .ext hhash' hext hrep

/-- Applying the result makes the reference stand for the sealed tree. -/
theorem ends_apply {p : Ptr} {hash : CryptoHash} {raw : RawNode} {res : SealResult}
    {expected : Except Error Tree} {bad : Failure → A → Prop}
    (h : ResultDone digest d frame p hash raw expected res a) :
    Ends (applyResult p res) a
      (NodeDone digest d frame ⟨some p, hash⟩ expected) bad := by
  obtain ⟨t, cells', hexp, hres, hown⟩ := h
  cases res with
  | replace node =>
    rw [add_assoc] at hown
    refine (ends_allocSet hown).bind fun _ a' ha => ?_
    exact ends_pure ⟨t, _, hexp, hres, hres.isSealed_eq, by rwa [add_assoc]⟩
  | free =>
    obtain ⟨hrep, hz⟩ := hres
    rw [hz, add_zero] at hown
    refine (ends_allocFree hown).bind fun _ a' ha => ?_
    exact ends_pure ⟨t, 0, hexp, hrep, hrep.isSealed_eq, by rwa [zero_add]⟩
  | done => exact ends_pure ⟨t, _, hexp, hres, hres.isSealed_eq, hown⟩

theorem ends_sealNode {t : Tree} (hsub : ∀ c ∈ t.children, Refines digest A c)
    {nref : NodeRef (Option Ptr)} {key : Slice} (hrep : Rep digest d (.node nref) t cells)
    (ho : key.offset = U3.wrap d) (h : Owns (cell a) (cells + frame)) :
    Ends (sealNode digest key nref) a
      (NodeDone digest d frame nref (t.sealKey key.bits)) (Refused a (t.sealKey key.bits)) := by
  cases hrep with
  | pruned hhash =>
    unfold sealNode
    exact ends_fail ⟨rfl, _, rfl, rfl⟩
  | branch hhash hl hr =>
    have hget := LawfulAllocator.get_of_cell (add_assoc _ _ frame ▸ h).head
    have hread := readNode_branch hget (Rep.hash_branch hhash hl hr)
    unfold sealNode
    refine ends_bind (ends_read hread ?_)
    exact (ends_sealBranch (hsub _ (by simp [Tree.children])) (hsub _ (by simp [Tree.children]))
      hhash hl hr ho h).bind fun res a' hres => ends_apply hres
  | @ext _ p hash key₀ cref c ccells hhash hoff hc =>
    have hget := LawfulAllocator.get_of_cell (add_assoc _ _ frame ▸ h).head
    obtain ⟨key', hread, ho', hb'⟩ := readNode_ext hget (Rep.hash_ext hhash hoff hc)
    have hsame := hb'.symm
    rw [← hb'] at hc hhash ⊢
    unfold sealNode
    refine ends_bind (ends_read hread ?_)
    exact (ends_sealExtension (hsub _ (by simp [Tree.children])) hhash (ho'.trans hoff) ho'.symm
      hsame hc ho h).bind fun res a' hres => ends_apply hres

theorem refines (t : Tree) : Refines digest A t := by
  have hnode : ∀ {t : Tree}, (∀ c ∈ t.children, Refines digest A c) →
      (∀ s h, t ≠ .value s h) → Refines digest A t := by
    intro t hsub hnv d a cells frame ref key hrep ho h
    cases ref with
    | value vref => cases hrep; exact absurd rfl (hnv _ _)
    | node nref =>
      unfold sealChild
      refine (ends_sealNode hsub hrep ho h).bind ?_
      rintro removed a' ⟨t', cells', hok, hrep', hsealed, hown⟩
      cases removed with
      | true => exact ends_pure ⟨t', cells', hok, hrep', hsealed, hown⟩
      | false => exact ends_pure ⟨t', cells', hok, hrep', hsealed, hown⟩
  induction t with
  | value s h₀ =>
    intro d a cells frame ref key hrep ho h
    cases hrep
    unfold sealChild
    simp only [Tree.sealKey]
    cases s with
    | true => exact ends_fail ⟨rfl, _, rfl, rfl⟩
    | false =>
      by_cases hk : key.bits = []
      · rw [if_pos (Slice.isEmpty_iff.mpr hk), if_pos hk]
        exact ends_pure ⟨_, 0, rfl, .value, rfl, h⟩
      · have hempty : ¬ key.isEmpty = true := fun he => hk (Slice.isEmpty_iff.mp he)
        rw [if_neg hempty, if_neg hk]
        exact ends_fail ⟨rfl, _, rfl, rfl⟩
  | pruned l r => exact hnode (by simp [Tree.children]) (by simp)
  | branch l r ihl ihr => exact hnode (by simp [Tree.children, ihl, ihr]) (by simp)
  | ext key child ih => exact hnode (by simp [Tree.children, ih]) (by simp)

end Seal

end SealableTrie
