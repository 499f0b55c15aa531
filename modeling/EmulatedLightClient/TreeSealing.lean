import EmulatedLightClient.TreeInvariant
import EmulatedLightClient.Represent

/-!
# Trees with more of them sealed

`MoreSealed t t'` says that `t'` is `t` after some of it has been sealed. The
operations do the same on both trees, except that they are refused with `Sealed`
where they run into what has been sealed.
-/

namespace SealableTrie

open ByteBits Bits Nodes ListPrefix BitMaps FailingState

namespace Tree

variable {t t' : Tree} {d : Nat} {key : List Bool} {v h₀ : CryptoHash}

inductive MoreSealed : Tree → Tree → Prop
  | value {s s' : Bool} {h : CryptoHash} (hs : s = true → s' = true) :
    MoreSealed (value s h) (value s' h)
  | pruned {l l' r r' : Tree} (hl : MoreSealed l l') (hr : MoreSealed r r') :
    MoreSealed (pruned l r) (pruned l' r')
  | branch {l l' r r' : Tree} (hl : MoreSealed l l') (hr : MoreSealed r r') :
    MoreSealed (branch l r) (branch l' r')
  | prune {l l' r r' : Tree} (hl : MoreSealed l l') (hr : MoreSealed r r') :
    MoreSealed (branch l r) (pruned l' r')
  | ext {key : List Bool} {c c' : Tree} (hc : MoreSealed c c') :
    MoreSealed (ext key c) (ext key c')

namespace MoreSealed

theorem refl (t : Tree) : MoreSealed t t := by
  induction t with
  | value s h => exact .value id
  | pruned l r ihl ihr => exact .pruned ihl ihr
  | branch l r ihl ihr => exact .branch ihl ihr
  | ext key child ih => exact .ext ih

/-- Hashes do not change. -/
theorem parts_eq (h : MoreSealed t t') (digest : List Byte → CryptoHash) (d : Nat) :
    t'.parts digest d = t.parts digest d := by
  induction h generalizing d with
  | value _ => rfl
  | pruned _ _ ihl ihr => simp only [parts, ihl, ihr]
  | branch _ _ ihl ihr => simp only [parts, ihl, ihr]
  | prune _ _ ihl ihr => simp only [parts, ihl, ihr]
  | ext _ ih => simp only [parts, ih]

theorem join {bit : Bool} {this this' other other' : Tree} (h : MoreSealed this this')
    (ho : MoreSealed other other') :
    MoreSealed (Tree.join bit this other) (Tree.join bit this' other') := by
  cases bit
  · exact .branch h ho
  · exact .branch ho h

theorem sealJoin (bit : Bool) {this this' other : Tree} (h : MoreSealed this this') :
    MoreSealed (Tree.join bit this other) (Tree.sealJoin bit this' other) := by
  unfold Tree.sealJoin
  split
  · cases bit
    · exact .prune h (refl other)
    · exact .prune (refl other) h
  · exact h.join (refl other)

theorem prepend (h : MoreSealed t t') (key : List Bool) :
    MoreSealed (Tree.prepend key t) (Tree.prepend key t') := by
  cases key with
  | nil => exact h
  | cons bit key => exact .ext h

theorem chain (h : MoreSealed t t') (d : Nat) (bits : List Bool) :
    MoreSealed (Tree.chain d bits t) (Tree.chain d bits t') := by
  induction bits, t using Tree.chain.induct d generalizing t' with
  | case1 t =>
    rw [chain_nil, chain_nil]
    exact h
  | case2 bits t hne _ ih =>
    have hcut : ∀ t, Tree.chain d bits t = Tree.chain d (bits.take (cutAt (d % 8) bits.length))
        (.ext (bits.drop (cutAt (d % 8) bits.length)) t) := by
      intro t
      conv_lhs => unfold Tree.chain
      rw [dif_neg hne]
    rw [hcut t, hcut t']
    exact ih (.ext h)

end MoreSealed

theorem sealKey_moreSealed (h : t.sealKey key = .ok t') : MoreSealed t t' := by
  induction t generalizing key t' with
  | value s h₁ =>
    unfold sealKey at h
    split at h
    · cases h
    · split at h
      · cases h
        exact .value fun _ => rfl
      · cases h
  | pruned l r => cases h
  | branch l r ihl ihr =>
    rcases key with _ | ⟨_ | _, key⟩
    · cases h
    · obtain ⟨l', hl, rfl⟩ := map_eq_ok h
      exact MoreSealed.sealJoin false (ihl hl)
    · obtain ⟨r', hr, rfl⟩ := map_eq_ok h
      exact MoreSealed.sealJoin true (ihr hr)
  | ext extKey child ih =>
    unfold sealKey at h
    split at h
    · obtain ⟨c, hc, rfl⟩ := map_eq_ok h
      exact .ext (ih hc)
    · cases h

/-- The second outcome follows the first unless it is a refusal with `sealed`. -/
inductive Follows {α : Type} (R : α → α → Prop) : Except Error α → Except Error α → Prop
  | sealed {r : Except Error α} : Follows R r (.error .sealed)
  | error {e : Error} : Follows R (.error e) (.error e)
  | ok {x x' : α} (h : R x x') : Follows R (.ok x) (.ok x')

theorem Follows.map {α β : Type} {R : α → α → Prop} {R' : β → β → Prop} {f f' : α → β}
    {r r' : Except Error α} (h : Follows R r r') (hf : ∀ x x', R x x' → R' (f x) (f' x')) :
    Follows R' (r.map f) (r'.map f') := by
  cases h with
  | sealed => exact .sealed
  | error => exact .error
  | ok h => exact .ok (hf _ _ h)

theorem MoreSealed.set (h : MoreSealed t t') (v : CryptoHash) (d : Nat) (key : List Bool) :
    Follows MoreSealed (t.set v d key) (t'.set v d key) := by
  induction h generalizing d key with
  | @value s s' h₁ hs =>
    simp only [Tree.set]
    split
    · exact .error
    · cases s' with
      | true => exact .sealed
      | false =>
        cases s with
        | true => cases hs rfl
        | false => exact .ok (refl _)
  | pruned => exact .sealed
  | prune => exact .sealed
  | @branch l l' r r' hl hr ihl ihr =>
    rcases key with _ | ⟨_ | _, key⟩
    · exact .error
    · exact (ihl (d + 1) key).map fun _ _ hx => .branch hx hr
    · exact (ihr (d + 1) key).map fun _ _ hx => .branch hl hx
  | @ext extKey c c' hc ih =>
    simp only [Tree.set]
    split
    · exact .error
    · split
      · exact (ih _ _).map fun _ _ hx => .ext hx
      · split
        · exact .error
        · exact .ok (((refl _).join (hc.prepend _)).prepend _)

inductive Action.MoreSealed : Action → Action → Prop
  | drop : Action.MoreSealed .drop .drop
  | ext {key : List Bool} {c c' : Tree} (hc : Tree.MoreSealed c c') :
    Action.MoreSealed (.ext key c) (.ext key c')
  | ref {t t' : Tree} (h : Tree.MoreSealed t t') : Action.MoreSealed (.ref t) (.ref t')

theorem MoreSealed.leftOver (h : MoreSealed t t') (bit : Bool) :
    Action.MoreSealed (Tree.leftOver bit t) (Tree.leftOver bit t') := by
  cases h with
  | value hs => exact .ext (.value hs)
  | pruned hl hr => exact .ext (.pruned hl hr)
  | branch hl hr => exact .ext (.branch hl hr)
  | prune hl hr => exact .ext (.prune hl hr)
  | ext hc => exact .ext hc

namespace Action.MoreSealed

variable {a a' : Action}

/-- What is left in the place of the tree on either side. -/
def Left : Option Tree → Option Tree → Prop
  | none, none => True
  | some t, some t' => Tree.MoreSealed t t'
  | _, _ => False

theorem toTree (h : Action.MoreSealed a a') (d : Nat) : Left (a.toTree d) (a'.toTree d) := by
  cases h with
  | drop => trivial
  | ext hc => exact hc.chain d _
  | ref h => exact h

theorem inBranch (h : Action.MoreSealed a a') (d : Nat) (bit : Bool) {other other' : Tree}
    (ho : Tree.MoreSealed other other') :
    Action.MoreSealed (a.inBranch d bit other) (a'.inBranch d bit other') := by
  have hleft := h.toTree (d + 1)
  unfold Action.inBranch
  cases ht : a.toTree (d + 1) with
  | none =>
    cases ht' : a'.toTree (d + 1) with
    | none => exact ho.leftOver (!bit)
    | some t' => rw [ht, ht'] at hleft; exact hleft.elim
  | some t =>
    cases ht' : a'.toTree (d + 1) with
    | none => rw [ht, ht'] at hleft; exact hleft.elim
    | some t' =>
      rw [ht, ht'] at hleft
      exact .ref (hleft.join ho)

theorem extend (h : Action.MoreSealed a a') (key : List Bool) :
    Action.MoreSealed (a.extend key) (a'.extend key) := by
  cases h with
  | drop => exact .drop
  | ext hc => exact .ext hc
  | ref h => exact .ext h

end Action.MoreSealed

theorem MoreSealed.del (h : MoreSealed t t') (d : Nat) (key : List Bool) :
    Follows Action.MoreSealed (t.del d key) (t'.del d key) := by
  induction h generalizing d key with
  | @value s s' h₁ hs =>
    simp only [Tree.del]
    cases s' with
    | true => exact .sealed
    | false =>
      cases s with
      | true => cases hs rfl
      | false =>
        split
        · contradiction
        · split
          · exact .ok .drop
          · exact .error
  | pruned => exact .sealed
  | prune => exact .sealed
  | @branch l l' r r' hl hr ihl ihr =>
    rcases key with _ | ⟨_ | _, key⟩
    · exact .error
    · exact (ihl (d + 1) key).map fun _ _ hx => hx.inBranch d false hr
    · exact (ihr (d + 1) key).map fun _ _ hx => hx.inBranch d true hl
  | @ext extKey c c' hc ih =>
    simp only [Tree.del]
    split
    · exact (ih _ _).map fun _ _ hx => hx.extend extKey
    · exact .error

end Tree

end SealableTrie
