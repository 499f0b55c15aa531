import EmulatedLightClient.HeldAccounts
import EmulatedLightClient.TrieRun

/-!
# The trie over an account follows the trie over a heap

Each function of the trie, run over the account, does what it does over the heap beside
the account. What it takes is that values and digests are not zero: then so are the hashes
of all references which are read, written or handed on.
-/

namespace SolanaTrie

open ByteBits Bits Nodes Memory SealableTrie FailingState FailingState.Op

variable {D : Type} [DataRef D]

def Held.log (w : WriteLog (Held D) RawNode) : WriteLog (Account D) RawNode :=
  ⟨w.alloc.account, w.writeLog, w.allocated, w.freed⟩

structure CleanLog (w : WriteLog (Held D) RawNode) : Prop where
  alloc : w.alloc.AllClean
  writes : ∀ e ∈ w.writeLog, Clean e.2

abbrev LogFollows {α : Type} (x : LogOp (Account D) α) (y : LogOp (Held D) α) (Q : α → Prop) : Prop :=
  Follows Held.log CleanLog Failure.panic x y Q

variable {digest : List Byte → CryptoHash}

theorem CleanLog.set {w : WriteLog (Held D) RawNode} (hw : CleanLog w) {raw : RawNode} (hraw : Clean raw) (ptr : Ptr) :
    CleanLog (w.set ptr raw) := by
  refine ⟨hw.alloc, ?_⟩
  intro e he
  rcases List.mem_append.mp he with hmem | hmem
  · exact hw.writes e hmem
  · rw [List.mem_singleton.mp hmem]
    exact hraw

theorem follows_set {raw : RawNode} (hraw : Clean raw) (ptr : Ptr) :
    LogFollows (D := D) (LogOp.set ptr raw) (LogOp.set ptr raw) fun _ => True :=
  follows_modify fun _ hw => ⟨rfl, hw.set hraw ptr⟩

theorem follows_free (ptr : Ptr) : LogFollows (D := D) (LogOp.free ptr) (LogOp.free ptr) fun _ => True :=
  follows_modify fun _ hw => ⟨rfl, hw.alloc, hw.writes⟩

theorem follows_alloc {raw : RawNode} (hraw : Clean raw) :
    LogFollows (D := D) (LogOp.alloc raw) (LogOp.alloc raw) fun _ => True := by
  intro w hw
  right
  obtain ⟨l, writes, allocated, freed⟩ := w
  cases freed with
  | cons ptr freed => exact ⟨rfl, CleanLog.set (w := ⟨l, writes, allocated, freed⟩) ⟨hw.alloc, hw.writes⟩ hraw ptr, fun _ _ => trivial⟩
  | nil =>
    have hclean := Held.AllClean.alloc hw.alloc hraw
    have haccount := l.alloc_account raw
    unfold LogOp.alloc WriteLog.allocate Held.log
    dsimp only at hclean ⊢
    rw [haccount]
    cases halloc : Memory.Allocator.alloc l raw with
    | mk r l' =>
      rw [halloc] at hclean
      cases r with
      | ok ptr => exact ⟨rfl, ⟨hclean, hw.writes⟩, fun _ _ => trivial⟩
      | error e => exact ⟨rfl, ⟨hclean, hw.writes⟩, fun _ _ => trivial⟩

theorem readNode_account {l : Held D} (hl : l.AllClean) (ptr : Ptr) (hash : CryptoHash) :
    SealableTrie.readNode digest l ptr hash = .error .panic ∨
      (SealableTrie.readNode digest l.account ptr hash = SealableTrie.readNode digest l ptr hash ∧
        ∀ node, SealableTrie.readNode digest l ptr hash = .ok node → CleanNode node) := by
  unfold SealableTrie.readNode
  cases hget : Memory.Allocator.get l ptr with
  | none => exact Or.inl rfl
  | some raw =>
    rw [Held.get_account hget]
    refine Or.inr ⟨rfl, ?_⟩
    intro node hnode
    dsimp only at hnode
    split at hnode
    · cases hnode
    · rename_i node' hdecode
      split at hnode
      · cases hnode
        exact (hl ptr raw hget).decode hdecode
      · cases hnode

theorem follows_readNode (ptr : Ptr) (hash : CryptoHash) :
    LogFollows (D := D) (LogOp.readNode digest ptr hash) (LogOp.readNode digest ptr hash) CleanNode := by
  intro w hw
  rcases readNode_account hw.alloc ptr hash with hpanic | ⟨hsame, hclean⟩
  · exact Or.inl hpanic
  · exact Or.inr ⟨Prod.ext hsame rfl, hw, hclean⟩

namespace FollowSet

open SealableTrie.Set

variable (hd : ∀ b, digest b ≠ emptyTrieRoot)

include hd in
theorem follows_setNode {node : RawNode} (hnode : Clean node) (ptr : Ptr) :
    LogFollows (D := D) (setNode digest ptr node) (setNode digest ptr node) fun r => r.2 ≠ emptyTrieRoot := by
  unfold setNode
  split
  · exact follows_fail _
  · exact (follows_set hnode ptr).bind fun _ _ => follows_pure (hd _)

include hd in
theorem follows_allocNode {node : RawNode} (hnode : Clean node) :
    LogFollows (D := D) (allocNode digest node) (allocNode digest node) fun r => r.2 ≠ emptyTrieRoot := by
  unfold allocNode
  split
  · exact follows_fail _
  · exact (follows_alloc hnode).bind fun _ _ => follows_pure (hd _)

include hd in
theorem follows_insertChunks {chunks : List ExtKey} {ptr : Option Ptr} {hash : CryptoHash} (hhash : hash ≠ emptyTrieRoot) :
    LogFollows (D := D) (insertChunks digest chunks ptr hash) (insertChunks digest chunks ptr hash)
      fun r => r.toRef.parts.2 ≠ emptyTrieRoot := by
  induction chunks generalizing ptr hash with
  | nil =>
    cases ptr with
    | none => exact follows_pure hhash
    | some ptr => exact follows_pure hhash
  | cons chunk rest ih =>
    cases ptr with
    | none =>
      have hclean : Clean (RawNode.extension chunk (.value ⟨false, hash⟩)) := .extension hhash
      exact (follows_allocNode hd hclean).bind fun r hr => ih hr
    | some ptr =>
      have hclean : Clean (RawNode.extension chunk (.node ⟨some ptr, hash⟩)) := .extension hhash
      exact (follows_allocNode hd hclean).bind fun r hr => ih hr

include hd in
theorem follows_theirRef {suffix : Slice} {child : Ref} (hchild : child.parts.2 ≠ emptyTrieRoot) :
    LogFollows (D := D) (theirRef digest suffix child) (theirRef digest suffix child)
      fun r => r.parts.2 ≠ emptyTrieRoot := by
  unfold theirRef
  split
  · exact (follows_allocNode hd (.extension hchild)).bind fun r hr => follows_pure hr
  · exact follows_pure hchild
  · exact follows_fail _

variable {valueHash : CryptoHash} (hv : valueHash ≠ emptyTrieRoot) {key : Slice}
  (ih : ∀ key' : Slice, key'.length < key.length → ∀ child : Ref, child.parts.2 ≠ emptyTrieRoot →
    LogFollows (D := D) (handleReference digest key' valueHash child) (handleReference digest key' valueHash child)
      fun r => r.toRef.parts.2 ≠ emptyTrieRoot)

include hd ih in
theorem follows_handleBranch {left right : Ref} (hleft : left.parts.2 ≠ emptyTrieRoot) (hright : right.parts.2 ≠ emptyTrieRoot)
    (nptr : Ptr) :
    LogFollows (D := D) (handleBranch digest key valueHash nptr left right)
      (handleBranch digest key valueHash nptr left right) fun r => r.2 ≠ emptyTrieRoot := by
  unfold handleBranch
  split
  · exact follows_fail _
  · rename_i bit key' hpop
    have hchild : (if bit then right else left).parts.2 ≠ emptyTrieRoot := by
      split
      · exact hright
      · exact hleft
    have hlength := Slice.popFront_length hpop
    refine (ih key' (by omega) _ hchild).bind ?_
    intro owned howned
    split
    · exact follows_setNode hd (.branch hleft howned) nptr
    · exact follows_setNode hd (.branch howned hright) nptr

include hd ih hv in
theorem follows_handleExtension {extKey : ExtKey} {child : Ref} (hchild : child.parts.2 ≠ emptyTrieRoot) (nptr : Ptr) :
    LogFollows (D := D) (handleExtension digest key valueHash nptr extKey child)
      (handleExtension digest key valueHash nptr extKey child) fun r => r.2 ≠ emptyTrieRoot := by
  unfold handleExtension
  split
  · exact follows_fail _
  · split
    · exact follows_fail _
    · rename_i pre key' hcommon
      split
      · exact follows_fail _
      · have hlength := Slice.forwardCommonPrefix_length hcommon
        have hpos := extKey.nonempty
        refine (ih key' (by omega) child hchild).bind ?_
        intro owned howned
        exact follows_setNode hd (.extension howned) nptr
    · rename_i pre suffix key' hcommon
      split
      · exact follows_fail _
      · rename_i our key'' hour
        split
        · exact follows_fail _
        · rename_i theirs suffix' htheirs
          split
          · exact follows_fail _
          · refine (follows_insertChunks hd hv).bind ?_
            intro ourRef hourRef
            refine (follows_theirRef hd hchild).bind ?_
            intro theirRef htheirRef
            have hnode : Clean (if our then RawNode.branch theirRef ourRef.toRef else RawNode.branch ourRef.toRef theirRef) := by
              split
              · exact .branch htheirRef hourRef
              · exact .branch hourRef htheirRef
            refine (follows_setNode hd hnode nptr).bind ?_
            rintro ⟨ptr, hash⟩ hhash
            cases pre with
            | some pre =>
              have hclean : Clean (RawNode.extension pre (.node ⟨some ptr, hash⟩)) := .extension hhash
              exact follows_allocNode hd hclean
            | none => exact follows_pure hhash

include hd ih hv in
theorem follows_handle (nref : NodeRef (Option Ptr)) :
    LogFollows (D := D) (handle digest key valueHash nref) (handle digest key valueHash nref)
      fun r => r.2 ≠ emptyTrieRoot := by
  unfold handle
  split
  · exact follows_fail _
  · rename_i nptr hptr
    refine (follows_readNode nptr nref.hash).bind ?_
    intro node hnode
    cases node with
    | branch left right => exact follows_handleBranch hd ih hnode.1 hnode.2 nptr
    | extension extKey child => exact follows_handleExtension hd hv ih hnode nptr

omit ih in
include hd hv in
theorem follows_handleReference (child : Ref) (hchild : child.parts.2 ≠ emptyTrieRoot) :
    LogFollows (D := D) (handleReference digest key valueHash child) (handleReference digest key valueHash child)
      fun r => r.toRef.parts.2 ≠ emptyTrieRoot := by
  induction hn : key.length using Nat.strongRecOn generalizing key child with
  | ind n ih =>
    have hshorter : ∀ key' : Slice, key'.length < key.length → ∀ child : Ref, child.parts.2 ≠ emptyTrieRoot →
        LogFollows (D := D) (handleReference digest key' valueHash child) (handleReference digest key' valueHash child)
          fun r => r.toRef.parts.2 ≠ emptyTrieRoot :=
      fun key' hlt child hchild => ih key'.length (hn ▸ hlt) child hchild rfl
    unfold handleReference
    cases child with
    | node nref => exact (follows_handle hd hv hshorter nref).bind fun r hr => follows_pure hr
    | value vref =>
      dsimp only
      split
      · exact follows_fail _
      · split
        · exact follows_fail _
        · exact follows_pure hv

variable (key) in
omit ih in
include hd hv in
theorem follows_body (rootPtr : Option Ptr) (rootHash : CryptoHash) :
    LogFollows (D := D) (body digest key valueHash rootPtr rootHash) (body digest key valueHash rootPtr rootHash)
      fun _ => True := by
  unfold body
  split
  · refine (follows_handle hd hv ?_ _).mono fun _ _ => trivial
    intro key' _ child hchild
    exact follows_handleReference hd hv child hchild
  · split
    · exact follows_fail _
    · refine (follows_insertChunks hd hv).bind ?_
      intro owned _
      cases owned with
      | node ptr hash => exact follows_pure trivial
      | value hash => exact follows_fail _

end FollowSet

namespace FollowDel

open SealableTrie.Del

def CleanAction : Action → Prop
  | .drop => True
  | .ext _ child => child.parts.2 ≠ emptyTrieRoot
  | .ref owned => owned.parts.2 ≠ emptyTrieRoot

variable (hd : ∀ b, digest b ≠ emptyTrieRoot)

include hd in
theorem follows_setNode {node : RawNode} (hnode : Clean node) (ptr : Ptr) :
    LogFollows (D := D) (setNode digest ptr node) (setNode digest ptr node) fun r => r.parts.2 ≠ emptyTrieRoot := by
  unfold setNode
  split
  · exact follows_fail _
  · exact (follows_set hnode ptr).bind fun _ _ => follows_pure (hd _)

include hd in
theorem follows_extendChunks {chunks : List ExtKey} {child : OwnedRef} (hchild : child.parts.2 ≠ emptyTrieRoot) :
    LogFollows (D := D) (extendChunks digest chunks child) (extendChunks digest chunks child)
      fun r => r.parts.2 ≠ emptyTrieRoot := by
  induction chunks generalizing child with
  | nil => exact follows_pure hchild
  | cons chunk rest ih =>
    refine (follows_alloc (.extension hchild)).bind ?_
    intro ptr _
    split
    · exact follows_fail _
    · exact ih (hd _)

include hd in
theorem follows_refFromAction {action : Action} (haction : CleanAction action) :
    LogFollows (D := D) (refFromAction digest action) (refFromAction digest action)
      fun r => ∀ owned, r = some owned → owned.parts.2 ≠ emptyTrieRoot := by
  cases action with
  | drop =>
    refine follows_pure ?_
    intro owned howned
    cases howned
  | ext key child =>
    refine (follows_extendChunks hd haction).bind ?_
    intro r hr
    refine follows_pure ?_
    intro owned howned
    cases howned
    exact hr
  | ref owned =>
    refine follows_pure ?_
    intro owned' howned
    cases howned
    exact haction

theorem follows_maybePopExtension (child : Ref) (makeKey : ExtKey → Except ConcatError Owned) :
    LogFollows (D := D) (maybePopExtension digest child makeKey) (maybePopExtension digest child makeKey)
      fun r => ∀ action, r = some action → CleanAction action := by
  unfold maybePopExtension
  split
  · rename_i ptr hash
    refine (follows_readNode ptr hash).bind ?_
    intro node hnode
    cases node with
    | branch left right =>
      refine follows_pure ?_
      intro action haction
      cases haction
    | extension key child =>
      refine (follows_free ptr).bind ?_
      intro _ _
      split
      · refine follows_pure ?_
        intro action haction
        cases haction
        exact hnode
      · exact follows_fail _
  · refine follows_pure ?_
    intro action haction
    cases haction

variable {key : Slice}
  (ih : ∀ key' : Slice, key'.length < key.length → ∀ child : Ref, child.parts.2 ≠ emptyTrieRoot →
    LogFollows (D := D) (handleReference digest key' child) (handleReference digest key' child) CleanAction)

include hd ih in
theorem follows_handleBranch {left right : Ref} (hleft : left.parts.2 ≠ emptyTrieRoot) (hright : right.parts.2 ≠ emptyTrieRoot)
    (ptr : Ptr) :
    LogFollows (D := D) (handleBranch digest key ptr left right) (handleBranch digest key ptr left right) CleanAction := by
  unfold handleBranch
  dsimp only
  split
  · exact follows_fail _
  · rename_i side key' hpop
    have hlength := Slice.popFront_length hpop
    have hours : (if side then right else left).parts.2 ≠ emptyTrieRoot := by
      split
      · exact hright
      · exact hleft
    have htheirs : (if side then left else right).parts.2 ≠ emptyTrieRoot := by
      split
      · exact hleft
      · exact hright
    refine (ih key' (by omega) _ hours).bind ?_
    intro action haction
    refine (follows_refFromAction hd haction).bind ?_
    intro owned howned
    cases owned with
    | some child =>
      have hchild := howned child rfl
      have hnode : Clean (if side then RawNode.branch left child else RawNode.branch child right) := by
        split
        · exact .branch hleft hchild
        · exact .branch hchild hright
      exact (follows_setNode hd hnode ptr).bind fun _ hr => follows_pure hr
    | none =>
      refine (follows_free ptr).bind ?_
      intro _ _
      refine (follows_maybePopExtension _ _).bind ?_
      intro popped hpopped
      refine follows_pure ?_
      cases popped with
      | some action => exact hpopped action rfl
      | none => exact htheirs

include ih in
theorem follows_handleExtension {extKey : ExtKey} {child : Ref} (hchild : child.parts.2 ≠ emptyTrieRoot) (ptr : Ptr) :
    LogFollows (D := D) (handleExtension digest key ptr extKey child) (handleExtension digest key ptr extKey child)
      CleanAction := by
  unfold handleExtension
  split
  · exact follows_fail _
  · rename_i key' hstrip
    have hlength := Slice.stripPrefix_length hstrip
    have hpos := extKey.nonempty
    refine (follows_free ptr).bind ?_
    intro _ _
    refine (ih key' (by omega) child hchild).bind ?_
    intro action haction
    cases action with
    | drop => exact follows_pure trivial
    | ref child => exact follows_pure haction
    | ext suffix child =>
      dsimp only
      split
      · exact follows_pure haction
      · exact follows_fail _

include hd ih in
theorem follows_handle (nref : NodeRef (Option Ptr)) :
    LogFollows (D := D) (handle digest key nref) (handle digest key nref) CleanAction := by
  unfold handle
  split
  · exact follows_fail _
  · rename_i ptr hptr
    refine (follows_readNode ptr nref.hash).bind ?_
    intro node hnode
    cases node with
    | branch left right => exact follows_handleBranch hd ih hnode.1 hnode.2 ptr
    | extension extKey child => exact follows_handleExtension ih hnode ptr

omit ih in
include hd in
theorem follows_handleReference (child : Ref) (hchild : child.parts.2 ≠ emptyTrieRoot) :
    LogFollows (D := D) (handleReference digest key child) (handleReference digest key child) CleanAction := by
  induction hn : key.length using Nat.strongRecOn generalizing key child with
  | ind n ih =>
    unfold handleReference
    cases child with
    | node nref =>
      exact follows_handle hd (fun key' hlt child hchild => ih key'.length (hn ▸ hlt) child hchild rfl) nref
    | value vref =>
      dsimp only
      split
      · exact follows_fail _
      · split
        · exact follows_pure trivial
        · exact follows_fail _

variable (key) in
omit ih in
include hd in
theorem follows_body (rootPtr : Option Ptr) (rootHash : CryptoHash) :
    LogFollows (D := D) (body digest key rootPtr rootHash) (body digest key rootPtr rootHash) fun _ => True := by
  unfold body
  split
  · exact follows_fail _
  · refine (follows_handle hd (fun key' _ => follows_handleReference hd) _).bind ?_
    intro action haction
    refine (follows_refFromAction hd haction).bind ?_
    intro owned _
    cases owned with
    | none => exact follows_pure trivial
    | some owned =>
      cases owned with
      | node nref => exact follows_pure trivial
      | value vref => exact follows_fail _

end FollowDel

namespace FollowSeal

open SealableTrie.Seal

abbrev AllocFollows {α : Type} (x : AllocOp (Account D) α) (y : AllocOp (Held D) α) (Q : α → Prop) : Prop :=
  Follows Held.account Held.AllClean Failure.panic x y Q

theorem follows_allocSet {node : RawNode} (hnode : Clean node) (ptr : Ptr) :
    AllocFollows (D := D) (allocSet ptr node) (allocSet ptr node) fun _ => True := by
  intro l hl
  unfold allocSet
  cases hset : Memory.Allocator.set l ptr node with
  | none => exact Or.inl rfl
  | some l' =>
    rw [Held.set_account hset]
    exact Or.inr ⟨rfl, hl.set hnode hset, fun _ _ => trivial⟩

theorem follows_allocFree (ptr : Ptr) : AllocFollows (D := D) (allocFree ptr) (allocFree ptr) fun _ => True := by
  intro l hl
  unfold allocFree
  cases hfree : Memory.Allocator.free l ptr with
  | none => exact Or.inl rfl
  | some l' =>
    rw [Held.free_account hl hfree]
    exact Or.inr ⟨rfl, hl.free hfree, fun _ _ => trivial⟩

theorem follows_readNode (ptr : Ptr) (hash : CryptoHash) :
    AllocFollows (D := D) (readNode digest ptr hash) (readNode digest ptr hash) CleanNode := by
  intro l hl
  rcases readNode_account hl ptr hash with hpanic | ⟨hsame, hclean⟩
  · exact Or.inl hpanic
  · exact Or.inr ⟨Prod.ext hsame rfl, hl, hclean⟩

def CleanResult : SealResult → Prop
  | .replace node => Clean node
  | _ => True

theorem follows_applyResult {result : SealResult} (hresult : CleanResult result) (ptr : Ptr) :
    AllocFollows (D := D) (applyResult ptr result) (applyResult ptr result) fun _ => True := by
  cases result with
  | free => exact (follows_allocFree ptr).bind fun _ _ => follows_pure trivial
  | replace node => exact (follows_allocSet hresult ptr).bind fun _ _ => follows_pure trivial
  | done => exact follows_pure trivial

variable {key : Slice}
  (ih : ∀ key' : Slice, key'.length < key.length → ∀ child : Ref, child.parts.2 ≠ emptyTrieRoot →
    AllocFollows (D := D) (sealChild digest key' child) (sealChild digest key' child)
      fun r => ∀ ref, r = some ref → ref.parts.2 ≠ emptyTrieRoot)

include ih in
theorem follows_sealBranch {left right : Ref} (hleft : left.parts.2 ≠ emptyTrieRoot) (hright : right.parts.2 ≠ emptyTrieRoot) :
    AllocFollows (D := D) (sealBranch digest key left right) (sealBranch digest key left right) CleanResult := by
  unfold sealBranch
  split
  · exact follows_fail _
  · rename_i side key' hpop
    have hlength := Slice.popFront_length hpop
    have hours : (if side then right else left).parts.2 ≠ emptyTrieRoot := by
      split
      · exact hright
      · exact hleft
    refine (ih key' (by omega) _ hours).bind ?_
    intro sealed hsealed
    cases sealed with
    | none => exact follows_pure trivial
    | some child =>
      have hchild := hsealed child rfl
      by_cases htheirs : (if side then left else right).isSealed
      · simp only [if_pos htheirs]
        exact follows_pure trivial
      · simp only [if_neg htheirs]
        split
        · exact follows_pure (.branch hleft hchild)
        · exact follows_pure (.branch hchild hright)

include ih in
theorem follows_sealExtension {extKey : ExtKey} {child : Ref} (hchild : child.parts.2 ≠ emptyTrieRoot) :
    AllocFollows (D := D) (sealExtension digest key extKey child) (sealExtension digest key extKey child) CleanResult := by
  unfold sealExtension
  split
  · exact follows_fail _
  · rename_i key' hstrip
    have hlength := Slice.stripPrefix_length hstrip
    have hpos := extKey.nonempty
    refine (ih key' (by omega) child hchild).bind ?_
    intro sealed hsealed
    cases sealed with
    | none => exact follows_pure trivial
    | some child => exact follows_pure (.extension (hsealed child rfl))

include ih in
theorem follows_sealNode (nref : NodeRef (Option Ptr)) :
    AllocFollows (D := D) (sealNode digest key nref) (sealNode digest key nref) fun _ => True := by
  unfold sealNode
  split
  · exact follows_fail _
  · rename_i ptr hptr
    refine (follows_readNode ptr nref.hash).bind ?_
    intro node hnode
    cases node with
    | branch left right =>
      exact (follows_sealBranch ih hnode.1 hnode.2).bind fun result hresult => follows_applyResult hresult ptr
    | extension extKey child =>
      exact (follows_sealExtension ih hnode).bind fun result hresult => follows_applyResult hresult ptr

omit ih in
theorem follows_sealChild (child : Ref) (hchild : child.parts.2 ≠ emptyTrieRoot) :
    AllocFollows (D := D) (sealChild digest key child) (sealChild digest key child)
      fun r => ∀ ref, r = some ref → ref.parts.2 ≠ emptyTrieRoot := by
  induction hn : key.length using Nat.strongRecOn generalizing key child with
  | ind n ih =>
    unfold sealChild
    cases child with
    | node nref =>
      refine (follows_sealNode (fun key' hlt child hchild => ih key'.length (hn ▸ hlt) child hchild rfl) nref).bind ?_
      intro removed _
      split
      · refine follows_pure ?_
        intro ref href
        cases href
        exact hchild
      · refine follows_pure ?_
        intro ref href
        cases href
    | value vref =>
      dsimp only
      split
      · exact follows_fail _
      · split
        · refine follows_pure ?_
          intro ref href
          cases href
          exact hchild
        · exact follows_fail _

end FollowSeal

end SolanaTrie
