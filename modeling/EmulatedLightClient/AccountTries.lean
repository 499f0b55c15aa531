import EmulatedLightClient.AccountPanics
import EmulatedLightClient.IbcCompleteness

/-!
# Tries kept in an account

What an account stands for between the calls of a program: the map which its trie binds. Calls change it as they change
the map, closing the account and opening it again does not, and what is looked up in the bytes of the account or proven
from them is what the map says.
-/

namespace SolanaTrie

open ByteBits Bits Nodes Memory SealableTrie FailingState TrieProof

section

variable {D : Type} [DataRef D]

/-- The byte string is what is hashed for some block of the account, read as a node. -/
def Stored (t : Trie (Account D)) (b : List Byte) : Prop :=
  ∃ p raw, Memory.Allocator.get t.alloc p = some raw ∧ Decodes raw b

/-- Updates the header; nothing can be closed after a panic. -/
def closeTrie (t : Trie (Account D)) : Option D :=
  match t.alloc with
  | .live a => TrieAccount.drop ⟨t.rootPtr, t.rootHash, a⟩
  | .panicked => none

variable (digest : List Byte → CryptoHash) (S : Set (List Byte))

/-- The account holds a trie which binds what the map does. What is hashed for its nodes is in the set. -/
def Carries (t : Trie (Account D)) (m : Bindings) : Prop :=
  ∃ (l : Trie (Held D)) (root : Root), t = Held.trie l ∧ l.alloc.AllClean ∧ State.Holds digest ⟨l, m⟩ root ∧
    root.Hashed digest S

variable {digest S} {t : Trie (Account D)} {m : Bindings} {key : List Byte}

theorem stored_of_stores {l : Trie (Held D)} {b : List Byte} (h : l.Stores b) : Stored (Held.trie l) b := by
  obtain ⟨p, raw, hcell, hdecodes⟩ := h
  exact ⟨p, raw, Held.get_account hcell, hdecodes⟩

theorem carries_of_zeros {data : D} (hlen : blockSize ≤ DataRef.len data) (hzero : ∀ b ∈ DataRef.bytes data, b = 0#8) :
    ∃ t, openTrie data = some t ∧ Carries digest S t fun _ => none := by
  obtain ⟨a, hnew, hr⟩ := new_of_zeros hlen hzero
  refine ⟨_, by rw [openTrie, hnew]; rfl, Trie.new ⟨a, Heap.empty, 1, hr⟩, none, rfl, ?_, State.empty_holds fun _ => rfl,
    trivial⟩
  intro p v hp
  cases hp

/-- The account can be closed, and what is opened later carries the same map under the same root. -/
theorem Carries.close (h : Carries digest S t m) : ∃ closed, closeTrie t = some closed ∧
    ∀ (d : D) (rest : List Byte), DataRef.bytes d = DataRef.bytes closed ++ rest →
      ∃ t', openTrie d = some t' ∧ t'.rootHash = t.rootHash ∧ Carries digest S t' m := by
  obtain ⟨⟨rootPtr, rootHash, l⟩, root, rfl, hclean, hholds, hhashed⟩ := h
  obtain ⟨n, hr⟩ := l.holds
  obtain ⟨closed, hclosed, hopen⟩ := hr.reopen_spec rootPtr rootHash
  refine ⟨closed, hclosed, ?_⟩
  intro d rest hd
  obtain ⟨a, hnew, -, -, hr'⟩ := hopen d rest hd
  let l' : Trie (Held D) := ⟨rootPtr, rootHash, ⟨a, l.heap, n, hr'⟩⟩
  refine ⟨Held.trie l', by rw [openTrie, hnew]; rfl, rfl, l', root, rfl, hclean, ?_, hhashed⟩
  exact hholds.unchanged ⟨rfl, rfl, rfl⟩

theorem tries_of_whole {A : Type} [LawfulAllocator A RawNode] {c : SealableTrie.Call} (h : ∀ key v, c ≠ .setAndSeal key v) (t : Trie A) :
    c.tries digest t = [(c.make digest t).2] := by
  cases c with
  | setAndSeal key v => exact absurd rfl (h key v)
  | _ => rfl

/-- What a call may do to the account: succeed and change the map, or fail without a panic and leave the map. -/
def Carried (digest : List Byte → CryptoHash) (S : Set (List Byte)) (m : Bindings) (c : SealableTrie.Call) :
    Result Bool × Trie (Account D) → Prop
  | (.ok _, t) => Carries digest S t (c.apply m)
  | (.error e, t) => e ≠ .panic ∧ Carries digest S t m

theorem Carries.call (hd : ∀ b, digest b ≠ emptyTrieRoot) (h : Carries digest S t m) {c : SealableTrie.Call} (hc : StoresNonzero c)
    (hwhole : ∀ key v, c ≠ .setAndSeal key v) (hS : ∀ b, Stored (makeCall digest t c).2 b → b ∈ S) :
    Carried digest S m c (makeCall digest t c) := by
  obtain ⟨l, root, rfl, hclean, hholds, hhashed⟩ := h
  have hmake : makeCall digest l c = c.make digest l := by
    cases c <;> rfl
  have hdone := Call.make_done hd hholds c
  have hfollows := follows_makeCall hd hc l hclean
  dsimp only at hfollows hdone
  rw [hmake] at hfollows
  cases hcall : c.make digest l with
  | mk r l' =>
    rw [hcall] at hfollows hdone
    dsimp only at hfollows
    have hne : r ≠ .error .panic := by
      rintro rfl
      obtain ⟨-, err, he⟩ := hdone
      cases he
    obtain ⟨hsame, hclean', -⟩ := hfollows.resolve_left hne
    rw [hsame] at hS ⊢
    cases r with
    | error e => exact ⟨fun he => hne (congrArg _ he), l', root, rfl, hclean', hholds.unchanged hdone.1, hhashed⟩
    | ok found =>
      have hstores : ∀ t ∈ c.tries digest l, ∀ b, t.Stores b → b ∈ S := by
        intro t ht b hb
        rw [tries_of_whole hwhole, hcall, List.mem_singleton] at ht
        subst ht
        exact hS b (stored_of_stores hb)
      obtain ⟨root', hholds', hhashed'⟩ := State.step_hashed hd hholds hhashed hstores
      rw [State.step, hcall] at hholds'
      exact ⟨l', root', rfl, hclean', hholds', hhashed'⟩

theorem readNode_held {l : Held D} (hl : l.AllClean) {ptr : Ptr} {hash : CryptoHash}
    {r : SealableTrie.Result (Node (Option Ptr) Bool)} (hread : SealableTrie.readNode digest l ptr hash = r)
    (h : r ≠ .error .panic) : SealableTrie.readNode digest l.account ptr hash = r := by
  subst hread
  exact ((readNode_account hl ptr hash).resolve_left h).1

theorem ok_ne_panic {α : Type} (x : α) : (.ok x : SealableTrie.Result α) ≠ .error .panic := by
  rintro ⟨⟩

/-- Wherever the lookup over the heap does not panic, the one over the account does the same. -/
theorem getLoop_account {l : Held D} (hl : l.AllClean) (key : Slice) (ptr : Option Ptr) (hash : CryptoHash)
    (builder : Option Builder) : getLoop digest l key ptr hash builder ≠ .error .panic →
      getLoop digest l.account key ptr hash builder = getLoop digest l key ptr hash builder := by
  induction key, ptr, hash, builder using getLoop.induct digest l
    (fun key ref builder => getLoop.afterChild digest l key ref builder ≠ .error .panic →
      getLoop.afterChild digest l.account key ref builder = getLoop.afterChild digest l key ref builder) with
  | case1 key builder nref ih h =>
    rw [getLoop.afterChild_node] at h ⊢
    rw [getLoop.afterChild_node]
    exact ih h
  | case2 | case3 | case4 => rw [getLoop.afterChild_value, getLoop.afterChild_value]
  | case5 key nodeHash builder =>
    intro _
    rw [getLoop_none, getLoop_none]
  | case6 key nodeHash builder ptr e hread =>
    intro h
    rw [getLoop_of_error digest hread] at h
    have hne : (.error e : SealableTrie.Result (Node (Option Ptr) Bool)) ≠ .error .panic := by
      rintro ⟨⟩
      exact h rfl
    rw [getLoop_of_error digest hread, getLoop_of_error digest (readNode_held hl hread hne)]
  | case7 key nodeHash builder ptr left right hread hpop =>
    rw [getLoop_of_branch digest hread, getLoop_of_branch digest (readNode_held hl hread (ok_ne_panic _)), hpop]
    exact fun _ => rfl
  | case8 key nodeHash builder ptr left right hread us key' hpop hlen ih =>
    rw [getLoop_of_branch digest hread, getLoop_of_branch digest (readNode_held hl hread (ok_ne_panic _)), hpop]
    exact ih
  | case9 key nodeHash builder ptr extKey child hread hstrip =>
    rw [getLoop_of_extension digest hread, getLoop_of_extension digest (readNode_held hl hread (ok_ne_panic _)), hstrip]
    exact fun _ => rfl
  | case10 key nodeHash builder ptr extKey child hread key' hstrip hlen hne hnew =>
    rw [getLoop_of_extension digest hread, getLoop_of_extension digest (readNode_held hl hread (ok_ne_panic _)), hstrip, hnew]
    exact fun _ => rfl
  | case11 key nodeHash builder ptr extKey child hread key' hstrip hlen hne len hnew ih =>
    rw [getLoop_of_extension digest hread, getLoop_of_extension digest (readNode_held hl hread (ok_ne_panic _)), hstrip, hnew]
    exact ih

theorem getImpl_account {l : Trie (Held D)} (hl : l.alloc.AllClean) {includeProof : Bool}
    (h : l.getImpl digest key includeProof ≠ .error .panic) :
    (Held.trie l).getImpl digest key includeProof = l.getImpl digest key includeProof := by
  unfold Trie.getImpl at h ⊢
  cases hslice : Trie.sliceOf key with
  | error e => rfl
  | ok slice =>
    have hsame : (Held.trie l).rootHash = l.rootHash := rfl
    simp only [hslice] at h ⊢
    by_cases hroot : l.rootHash = emptyTrieRoot
    · rw [if_pos (hsame.trans hroot), if_pos hroot]
    · rw [if_neg hroot] at h ⊢
      rw [if_neg (hsame ▸ hroot)]
      exact getLoop_account hl _ _ _ _ h

theorem get_account {l : Trie (Held D)} (hl : l.alloc.AllClean) (h : l.get digest key ≠ .error .panic) :
    (Held.trie l).get digest key = l.get digest key := by
  unfold Trie.get at h ⊢
  rw [getImpl_account hl]
  intro hpanic
  rw [hpanic] at h
  exact h rfl

theorem prove_account {l : Trie (Held D)} (hl : l.alloc.AllClean) (h : l.prove digest key ≠ .error .panic) :
    (Held.trie l).prove digest key = l.prove digest key := by
  unfold Trie.prove at h ⊢
  rw [getImpl_account hl]
  intro hpanic
  rw [hpanic] at h
  exact h rfl

theorem ne_panic_of_agrees {r : SealableTrie.Result (Option CryptoHash)} (h : GetAgrees m key r) : r ≠ .error .panic := by
  rintro rfl
  unfold GetAgrees at h
  split at h
  · cases h
  · cases h
  · rcases h with h | ⟨h, -⟩
    · cases h
    · cases h

/-- What is looked up in the account is what the map says. -/
theorem Carries.get (hd : ∀ b, digest b ≠ emptyTrieRoot) (h : Carries digest S t m) (hk : key.length ≤ maxKeyBytes) :
    GetAgrees m key (t.get digest key) := by
  obtain ⟨l, root, rfl, hclean, hholds, -⟩ := h
  have hagrees : GetAgrees m key (l.get digest key) := getAgrees_of_holds hd hholds hk
  rw [get_account hclean (ne_panic_of_agrees hagrees)]
  exact hagrees

/-- What is proven under the root of the account is what the map says. -/
theorem Carries.verify (hd : ∀ b, digest b ≠ emptyTrieRoot) (hinj : Set.InjOn digest S) (h : Carries digest S t m)
    {proof : Proof} {value : Option CryptoHash} (hin : ∀ b ∈ proof.hashed digest key value, b ∈ S)
    (hv : proof.verify digest t.rootHash key value = true) : m.valueOf key = value := by
  obtain ⟨l, root, rfl, -, hholds, hhashed⟩ := h
  have hbindings : m key = _ := hholds.bindings key
  rw [Bindings.valueOf, hbindings]
  cases root with
  | none =>
    have hempty : l.rootHash = emptyTrieRoot := hholds.rep.2.1
    have hroot : (Held.trie l).rootHash = emptyTrieRoot := hempty
    rw [hroot] at hv
    cases proof with
    | positive p => cases value <;> cases hv
    | negative p =>
      cases value with
      | none => rfl
      | some hash => cases hv
  | some tree =>
    obtain ⟨cells, hrep, hwf, -⟩ := hholds.rep
    exact verify_tree hinj hhashed hwf hrep.parts_eq.symm (hrep.hash_ne hd) hin hv

/-- Whatever can be looked up in the account can be proven from it. -/
theorem Carries.prove (hd : ∀ b, digest b ≠ emptyTrieRoot) (h : Carries digest S t m) (hk : key.length ≤ maxKeyBytes)
    {value : Option CryptoHash} (hget : t.get digest key = .ok value) :
    ∃ proof, t.prove digest key = .ok (value, proof) ∧ proof.Writable ∧ proof.verify digest t.rootHash key value = true := by
  obtain ⟨l, root, rfl, hclean, hholds, -⟩ := h
  have hagrees : GetAgrees m key (l.get digest key) := getAgrees_of_holds hd hholds hk
  rw [get_account hclean (ne_panic_of_agrees hagrees), get_spec hd hholds.rep hk] at hget
  have hroot : (Held.trie l).rootHash = l.rootHash := rfl
  cases root with
  | none =>
    obtain ⟨slice, hslice, -⟩ := sliceOf_spec hk
    have hempty : l.rootHash = emptyTrieRoot := hholds.rep.2.1
    cases hget
    refine ⟨Proof.emptyTrie, ?_, ⟨nofun, nofun⟩, ?_⟩
    · simp only [Trie.prove, Trie.getImpl, hslice, hroot, hempty, if_true]
    · rw [hroot, hempty]
      rfl
  | some tree =>
    have hprove := prove_spec hd hholds.rep hk
    rw [Root.get] at hget
    cases hg : tree.get (bitsOf key) with
    | error e =>
      rw [hg] at hget
      cases hget
    | ok value' =>
      rw [hg] at hprove hget
      cases hget
      obtain ⟨proof, hprove, hclimb⟩ := hprove
      obtain ⟨cells, hrep, -⟩ := hholds.rep
      refine ⟨proof, ?_, CfGuest.prove_writable hprove, verify_of_climbs hd hrep hk hclimb⟩
      rw [prove_account hclean (by rw [hprove]; exact ok_ne_panic _), hprove]

end

end SolanaTrie
