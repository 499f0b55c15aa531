import EmulatedLightClient.TrieRun
import EmulatedLightClient.TestAllocator

/-!
# The trie is a map

Lookups in every reachable trie return what the abstract map holds, and calls
which fail leave no trace.
-/

namespace SealableTrie

open ByteBits Bits Nodes Memory ListPrefix FailingState HeapOwnership TrieProof

variable {digest : List Byte → CryptoHash} {A : Type} [LawfulAllocator A RawNode]
  {t : Trie A} {root : Root} {key : List Byte} {v : CryptoHash} {s : State A}

def ofTree {α : Type} : Except Error α → Result α
  | .ok a => .ok a
  | .error e => .error (.err e)

theorem getImpl_spec (hd : ∀ b, digest b ≠ emptyTrieRoot) {tree : Tree}
    (h : TrieRep digest t (some tree)) (hk : key.length ≤ maxKeyBytes) (includeProof : Bool) :
    Found digest 0 tree (bitsOf key) (if includeProof then some Builder.new else none)
      (t.getImpl digest key includeProof) := by
  obtain ⟨slice, hs, hslice, hb⟩ := sliceOf_spec hk
  obtain ⟨cells, hrep, hwf, hown⟩ := h
  unfold Trie.getImpl
  rw [hs]
  simp only
  rw [if_neg (hrep.hash_ne hd), ← hb]
  exact found_node (fun c _ => finds c) hrep (Owns.inBase hown)
    (show slice.offset = U3.wrap 0 from hslice.offset)

theorem get_spec (hd : ∀ b, digest b ≠ emptyTrieRoot) (h : TrieRep digest t root)
    (hk : key.length ≤ maxKeyBytes) : t.get digest key = ofTree (root.get (bitsOf key)) := by
  unfold Trie.get
  cases root with
  | none =>
    obtain ⟨slice, hs, -⟩ := sliceOf_spec hk
    simp [Trie.getImpl, hs, h.2.1, Root.get, ofTree]
  | some tree =>
    have hfound := getImpl_spec hd h hk false
    unfold Found at hfound
    cases hg : tree.get (bitsOf key) with
    | error e =>
      rw [hg] at hfound
      simp only [hfound, Root.get, hg, ofTree]
    | ok value =>
      rw [hg] at hfound
      have hfound : t.getImpl digest key false = .ok (value, none) := hfound
      simp only [hfound, Root.get, hg, ofTree]

/-- Some bound key extends the bit string and all bound keys which do are sealed. -/
def SealedUnder (m : Bindings) (p : List Bool) : Prop :=
  (∃ k, (m k).isSome ∧ p <+: bitsOf k) ∧
    ∀ k h s, m k = some (h, s) → p <+: bitsOf k → s = true

/-- What a lookup has to return when the map is `m`. -/
def GetAgrees (m : Bindings) (key : List Byte) (res : Result (Option CryptoHash)) : Prop :=
  match m key with
  | some (h, false) => res = .ok (some h)
  | some (_, true) => res = .error (.err .sealed)
  | none => res = .ok none ∨
      (res = .error (.err .sealed) ∧ ∃ p, p <+: bitsOf key ∧ SealedUnder m p)

theorem sealedUnder_of_tree {tree : Tree} {m : Bindings} {p : List Bool} (hwf : tree.WF 0)
    (hm : ∀ k, m k = tree.lookup (bitsOf k)) (h : tree.SealedBelow p) : SealedUnder m p := by
  obtain ⟨⟨rest, x, hx⟩, hall⟩ := h
  refine ⟨?_, ?_⟩
  · have hlen := (Tree.lookup_length hwf hx).1
    rw [Nat.zero_add] at hlen
    obtain ⟨k, hk⟩ := exists_bitsOf hlen
    refine ⟨k, ?_, rest, hk.symm⟩
    rw [hm, hk, hx]
    rfl
  · rintro k h s hk ⟨rest', hrest⟩
    rw [hm, ← hrest] at hk
    exact hall rest' h s hk

theorem getAgrees_of_holds (hd : ∀ b, digest b ≠ emptyTrieRoot) (h : s.Holds digest root)
    (hk : key.length ≤ maxKeyBytes) : GetAgrees s.bindings key (s.trie.get digest key) := by
  rw [get_spec hd h.rep hk]
  unfold GetAgrees
  rw [h.bindings key]
  cases root with
  | none => exact Or.inl rfl
  | some tree =>
    have hwf := h.rep.wf
    have hmap : Root.lookup (some tree) (bitsOf key) = tree.lookup (bitsOf key) := rfl
    rw [hmap, Root.get]
    cases hg : tree.get (bitsOf key) with
    | ok o =>
      rw [Tree.get_ok hwf hg]
      cases o with
      | none => exact Or.inl rfl
      | some h' => rfl
    | error e =>
      obtain ⟨rfl, hm⟩ := Tree.get_error hwf hg
      cases hl : tree.lookup (bitsOf key) with
      | none =>
        obtain ⟨p, hp, hs⟩ := hm
        exact Or.inr ⟨rfl, p, hp, sealedUnder_of_tree hwf h.bindings hs⟩
      | some x =>
        obtain ⟨h', sealed⟩ := x
        cases sealed with
        | false => exact absurd hl (hm.lookup_ne h')
        | true => rfl

theorem State.step_bindings_of_ne (s : State A) (c : Call) (hne : c.target ≠ key) :
    (s.step digest c).bindings key = s.bindings key := by
  unfold State.step
  cases hm : c.make digest s.trie with
  | mk r t' =>
    cases r with
    | error e => rfl
    | ok found => cases c <;> exact Function.update_of_ne (Ne.symm hne) _ _

theorem State.run_bindings_of_ne (s : State A) {calls : List Call}
    (hne : ∀ c ∈ calls, c.target ≠ key) :
    (s.run digest calls).bindings key = s.bindings key := by
  induction calls generalizing s with
  | nil => rfl
  | cons c calls ih =>
    change ((s.step digest c).run digest calls).bindings key = _
    rw [ih _ fun c' hc' => hne c' (List.mem_cons_of_mem _ hc'),
      s.step_bindings_of_ne c (hne c (List.mem_cons_self ..))]

/-- After any sequence of calls on an empty trie a lookup returns what the map
maintained by the successful calls holds. A call changes the binding of its own
key only. -/
theorem get_run_agrees (hd : ∀ b, digest b ≠ emptyTrieRoot) {a : A}
    (hempty : ∀ p, cell a p = none) (calls : List Call) (hk : key.length ≤ maxKeyBytes) :
    GetAgrees ((State.empty a).run digest calls).bindings key
        (((State.empty a).run digest calls).trie.get digest key) ∧
      ∀ c : Call, c.target ≠ key →
        ((State.empty a).run digest (calls ++ [c])).bindings key =
          ((State.empty a).run digest calls).bindings key := by
  obtain ⟨root, hholds⟩ := State.run_holds hd (State.empty_holds hempty) calls
  refine ⟨getAgrees_of_holds hd hholds hk, ?_⟩
  intro c hne
  rw [State.run, List.foldl_append]
  exact State.step_bindings_of_ne _ c hne

def hashOf (n : BitVec 256) : CryptoHash :=
  ⟨(List.range 32).map fun i => n.extractLsb' (8 * (31 - i)) 8, by simp⟩

def sampleValue (b : Byte) : CryptoHash := ⟨List.replicate 32 b, by simp⟩

/-- SHA-256 of the nodes of a trie with values at `a` and `b`: the only node
while `a` is alone, then the two leaves, the branch and the root. -/
def sampleNodes : List (List Byte × CryptoHash) :=
  let alone := hashOf 0x873da2d245b3501fb25100e8d9b03835c789478ea2fd3272c688a13db63aa85e
  let left := hashOf 0xbf369592ec8bf72d774127c77bdb2484e2105256b5281be8b49c08353a65092c
  let right := hashOf 0x3f26e863e9d81c17abba610e3656b24f8c13521498b146da8abcf2c055fd62df
  let branch := hashOf 0xd7b9ad290dc1d4809843c0609909f6832fbf473449377509ea73012ba308eb8e
  let root := hashOf 0x81c7cc1a08d1dfa7c0bb016a2aebf9d47afcff79e9e0bdc26e0ca4bc5005633e
  [(extPreimage 0 (bitsOf [0x61#8]) (true, sampleValue 1#8), alone),
    (extPreimage 7 [true] (true, sampleValue 1#8), left),
    (extPreimage 7 [false] (true, sampleValue 2#8), right),
    (branchPreimage (false, left) (false, right), branch),
    (extPreimage 0 [false, true, true, false, false, false] (false, branch), root)]

/-- A digest function given by a table of the byte strings which matter. -/
def tableDigest (nodes : List (List Byte × CryptoHash)) (bytes : List Byte) : CryptoHash :=
  match nodes.find? fun node => node.1 == bytes with
  | some node => node.2
  | none => hashOf 1

theorem tableDigest_ne {nodes : List (List Byte × CryptoHash)}
    (h : ∀ node ∈ nodes, node.2 ≠ emptyTrieRoot) (bytes : List Byte) :
    tableDigest nodes bytes ≠ emptyTrieRoot := by
  unfold tableDigest
  cases hf : nodes.find? fun node => node.1 == bytes with
  | some node => exact h node (List.mem_of_find?_eq_some hf)
  | none => decide

/-- No two of the byte strings have one hash if the hashes in the table are all different. -/
theorem tableDigest_injOn {nodes : List (List Byte × CryptoHash)} (h : (nodes.map Prod.snd).Nodup) :
    Set.InjOn (tableDigest nodes) {bytes | bytes ∈ nodes.map Prod.fst} := by
  have hfound : ∀ bytes ∈ nodes.map Prod.fst, ∃ node ∈ nodes, node.1 = bytes ∧ tableDigest nodes bytes = node.2 := by
    intro bytes hbytes
    unfold tableDigest
    cases hf : nodes.find? fun node => node.1 == bytes with
    | some node => exact ⟨node, List.mem_of_find?_eq_some hf, by simpa using List.find?_some hf, rfl⟩
    | none =>
      obtain ⟨node, hnode, rfl⟩ := List.mem_map.mp hbytes
      exact absurd (List.find?_eq_none.mp hf node hnode) (by simp)
  intro a ha b hb heq
  obtain ⟨node, hnode, rfl, hhash⟩ := hfound a ha
  obtain ⟨node', hnode', rfl, hhash'⟩ := hfound b hb
  rw [List.inj_on_of_nodup_map h hnode hnode' (hhash.symm.trans (heq.trans hhash'))]

/-- Agrees with SHA-256 on the nodes above. -/
def sampleDigest : List Byte → CryptoHash := tableDigest sampleNodes

theorem sampleDigest_ne (bytes : List Byte) : sampleDigest bytes ≠ emptyTrieRoot :=
  tableDigest_ne (by decide) bytes

def sampleAlloc : TestAllocator RawNode := TestAllocator.new 8

theorem sampleAlloc_empty (p : Ptr) : cell sampleAlloc p = none := TestAllocator.cell_new 8 p

/-- Sets `a` and `b` and seals `a`. -/
def sampleCalls : List Call :=
  [.set [0x61#8] (sampleValue 1#8), .set [0x62#8] (sampleValue 2#8), .sealValue [0x61#8]]

def sampleState : State (TestAllocator RawNode) :=
  (State.empty sampleAlloc).run sampleDigest sampleCalls

/-- After the calls `a` is sealed, `b` is readable and `c` is not there. -/
theorem get_run_agrees_sample :
    sampleState.bindings [0x62#8] = some (sampleValue 2#8, false) ∧
      GetAgrees sampleState.bindings [0x62#8] (sampleState.trie.get sampleDigest [0x62#8]) ∧
      sampleState.bindings [0x61#8] = some (sampleValue 1#8, true) ∧
      GetAgrees sampleState.bindings [0x61#8] (sampleState.trie.get sampleDigest [0x61#8]) ∧
      sampleState.bindings [0x63#8] = none ∧
      GetAgrees sampleState.bindings [0x63#8] (sampleState.trie.get sampleDigest [0x63#8]) :=
  ⟨by decide +kernel,
    (get_run_agrees sampleDigest_ne sampleAlloc_empty sampleCalls (by decide)).1,
    by decide +kernel,
    (get_run_agrees sampleDigest_ne sampleAlloc_empty sampleCalls (by decide)).1,
    by decide +kernel,
    (get_run_agrees sampleDigest_ne sampleAlloc_empty sampleCalls (by decide)).1⟩

/-- A call which fails, or finds nothing to delete, leaves the root, the set of
allocated nodes and their contents as they were. `setAndSeal` fails only if its
first half does. -/
theorem failed_call_unchanged (hd : ∀ b, digest b ≠ emptyTrieRoot) (hs : Reachable digest s)
    (key : List Byte) (v : CryptoHash) :
    (∀ e t', s.trie.set digest key v = (.error e, t') → Unchanged s.trie t') ∧
      (∀ e t', s.trie.del digest key = (.error e, t') → Unchanged s.trie t') ∧
      (∀ t', s.trie.del digest key = (.ok false, t') → Unchanged s.trie t') ∧
      (∀ e t', s.trie.sealValue digest key = (.error e, t') → Unchanged s.trie t') ∧
      (∀ e t', s.trie.setAndSeal digest key v = (.error e, t') →
        Unchanged s.trie t' ∧ s.trie.set digest key v = (.error e, t')) := by
  obtain ⟨root, hholds⟩ := hs.holds hd
  refine ⟨?_, ?_, ?_, ?_, ?_⟩
  · intro e t' h
    have hdone := Call.make_done hd hholds (.set key v)
    rw [Call.make_set h] at hdone
    exact hdone.1
  · intro e t' h
    have hdone := Call.make_done hd hholds (.del key)
    rw [show Call.make digest s.trie (.del key) = _ from h] at hdone
    exact hdone.1
  · intro t' h
    have hdone := Call.make_done hd hholds (.del key)
    rw [show Call.make digest s.trie (.del key) = _ from h] at hdone
    exact hdone.2 rfl
  · intro e t' h
    have hdone := Call.make_done hd hholds (.sealValue key)
    rw [Call.make_sealValue h] at hdone
    exact hdone.1
  · intro e t' h
    have hdone := Call.make_done hd hholds (.setAndSeal key v)
    rw [Call.make_setAndSeal h] at hdone
    refine ⟨hdone.1, ?_⟩
    by_cases hk : key.length ≤ maxKeyBytes
    · have hspec := setAndSeal_spec (v := v) hd hholds.rep hk
      rw [h] at hspec
      exact hspec.2.1
    · have hlong := sliceOf_too_long (Nat.lt_of_not_le hk)
      rw [Trie.setAndSeal, hlong] at h
      rw [Trie.set, hlong]
      exact h

/-- A trie with `a` on an allocator which is too small for the nodes `b` needs. -/
def smallState : State (TestAllocator RawNode) :=
  (State.empty (TestAllocator.new 3)).run sampleDigest [.set [0x61#8] (sampleValue 1#8)]

theorem failed_call_unchanged_small :
    (smallState.trie.set sampleDigest [0x62#8] (sampleValue 2#8)).1 =
        .error (.err .outOfMemory) ∧
      Unchanged smallState.trie
        (smallState.trie.set sampleDigest [0x62#8] (sampleValue 2#8)).2 :=
  have hfail : (smallState.trie.set sampleDigest [0x62#8] (sampleValue 2#8)).1 =
      .error (.err .outOfMemory) := by decide +kernel
  ⟨hfail, (failed_call_unchanged sampleDigest_ne
    (Reachable.intro (TestAllocator.cell_new 3) _) [0x62#8] (sampleValue 2#8)).1 _ _
      (Prod.ext hfail rfl)⟩

end SealableTrie
