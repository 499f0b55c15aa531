import EmulatedLightClient.DelRefines
import EmulatedLightClient.SealRefines
import EmulatedLightClient.GetRefines

/-!
# Tries as trees

`TrieRep` ties a trie to the tree it holds, or to none when it is empty. Every
operation of the trie is specified by the operation of the tree; operations
which fail leave the trie unchanged.
-/

namespace SealableTrie

open ByteBits Bits Nodes Memory ListPrefix FailingState FailingState.Op HeapOwnership TrieProof

abbrev Root := Option Tree

namespace Root

def lookup : Root → List Bool → Option (CryptoHash × Bool)
  | none => fun _ => none
  | some t => t.lookup

def get : Root → List Bool → Except Error (Option CryptoHash)
  | none, _ => .ok none
  | some t, key => t.get key

def set (v : CryptoHash) : Root → List Bool → Except Error Tree
  | none, key => if key = [] then .error .emptyKey else .ok (.chain 0 key (.value false v))
  | some t, key => t.set v 0 key

def del : Root → List Bool → Except Error Root
  | none, _ => .error .notFound
  | some t, key => (t.del 0 key).map (Tree.Action.toTree 0)

def sealKey : Root → List Bool → Except Error Tree
  | none, _ => .error .notFound
  | some t, key => t.sealKey key

def WF : Root → Prop
  | none => True
  | some t => t.WF 0

end Root

variable (digest : List Byte → CryptoHash) {A : Type} [LawfulAllocator A RawNode]

def TrieRep (t : Trie A) : Root → Prop
  | none => t.rootPtr = none ∧ t.rootHash = emptyTrieRoot ∧ Owns (cell t.alloc) 0
  | some tree => ∃ cells, Rep digest 0 (.node ⟨t.rootPtr, t.rootHash⟩) tree cells ∧ tree.WF 0 ∧
      Owns (cell t.alloc) cells

variable {digest} {t t' : Trie A} {root : Root} {v : CryptoHash}

theorem TrieRep.wf (h : TrieRep digest t root) : root.WF := by
  cases root with
  | none => trivial
  | some tree =>
    obtain ⟨cells, hrep, hwf, hown⟩ := h
    exact hwf

/-- The two tries have one root and the same blocks with the same contents. -/
structure Unchanged (t t' : Trie A) : Prop where
  rootPtr : t'.rootPtr = t.rootPtr
  rootHash : t'.rootHash = t.rootHash
  cells : cell t'.alloc = cell t.alloc

theorem Unchanged.refl (t : Trie A) : Unchanged t t := ⟨rfl, rfl, rfl⟩

theorem Unchanged.rep (h : Unchanged t t') (hrep : TrieRep digest t root) :
    TrieRep digest t' root := by
  cases root with
  | none => exact ⟨h.rootPtr.trans hrep.1, h.rootHash.trans hrep.2.1, h.cells ▸ hrep.2.2⟩
  | some tree =>
    obtain ⟨cells, hr, hwf, hown⟩ := hrep
    exact ⟨cells, by rw [h.rootPtr, h.rootHash]; exact hr, hwf, h.cells ▸ hown⟩

theorem trieRep_new {a : A} (h : ∀ p, cell a p = none) : TrieRep digest (Trie.new a) none :=
  ⟨rfl, rfl, owns_zero_iff.mpr h⟩

theorem Rep.hash_ne {d : Nat} {nref : NodeRef (Option Ptr)} {tree : Tree} {cells : NodeCells}
    (hd : ∀ b, digest b ≠ emptyTrieRoot) (h : Rep digest d (.node nref) tree cells) :
    nref.hash ≠ emptyTrieRoot := by
  cases h with
  | pruned hhash => rw [hhash]; exact hd _
  | branch hhash hl hr => rw [hhash]; exact hd _
  | ext hhash ho hc => rw [hhash]; exact hd _

theorem Rep.ne_value {d : Nat} {nref : NodeRef (Option Ptr)} {tree : Tree} {cells : NodeCells}
    (h : Rep digest d (.node nref) tree cells) (s : Bool) (hash : CryptoHash) :
    tree ≠ .value s hash := by
  rintro rfl
  cases h

theorem Owns.inBase {base : Ptr → Option RawNode} {cells : NodeCells}
    (h : HeapOwnership.Owns base cells) : InBase base cells :=
  fun c hc => h.get (p := c.1) (v := c.2) hc

/-- Successful transactions leave what the log shows, failed ones what was there. -/
def Transacted {α : Type} (a : A) (good : α → WriteLog A RawNode → Prop)
    (bad : Failure → WriteLog A RawNode → Prop) : Result α × A → Prop
  | (.ok r, a') => ∃ w, good r w ∧ cell a' = w.view
  | (.error e, a') => ∃ w, bad e w ∧ cell a' = cell a

theorem transact_ends {α : Type} {op : LogOp A α} {a : A}
    {good : α → WriteLog A RawNode → Prop} {bad : Failure → WriteLog A RawNode → Prop}
    (h : Ends op (WriteLog.new a) good bad)
    (hgood : ∀ r w, good r w → WriteLog.Pending (cell a) w)
    (hbad : ∀ e w, bad e w → WriteLog.Pending (cell a) w) :
    Transacted a good bad (transact op a) := by
  unfold transact Op.run
  unfold Ends at h
  cases hop : op (WriteLog.new a) with
  | mk r w =>
    rw [hop] at h
    cases r with
    | ok r =>
      obtain ⟨a', hcommit, hcell⟩ := (hgood r w h).commit
      simp only [hcommit]
      exact ⟨w, h, hcell⟩
    | error e =>
      obtain ⟨a', hdrop, hcell⟩ := (hbad e w h).drop
      simp only [hdrop]
      exact ⟨w, h, hcell⟩

theorem Tree.chain_eq_ext {d : Nat} {bits : List Bool} {t : Tree}
    (h : bits ≠ [] ∨ ∃ k c, t = .ext k c) : ∃ k c, Tree.chain d bits t = .ext k c := by
  induction bits, t using Tree.chain.induct d with
  | case1 t =>
    rw [Tree.chain_nil]
    exact h.resolve_left fun hne => hne rfl
  | case2 bits t hne _ ih =>
    rw [Tree.chain, dif_neg hne]
    exact ih (Or.inr ⟨_, _, rfl⟩)

theorem ends_setBody {key : Slice} {n : Nat} (hd : ∀ b, digest b ≠ emptyTrieRoot)
    (h : TrieRep digest t root) (ho : key.offset = 0) (hs : Serves n t.alloc) :
    Ends (Set.body digest key v t.rootPtr t.rootHash) (WriteLog.new t.alloc)
      (Set.NodeDone digest (cell t.alloc) 0 0 (root.set v key.bits))
      (Refused (cell t.alloc) n (Set.budget key.bits.length) (root.set v key.bits)) := by
  have ho' : key.offset = U3.wrap 0 := ho
  have hlen : Set.budget key.bits.length = Set.budget (0 + key.bits.length) := by
    rw [Nat.zero_add]
  cases root with
  | none =>
    obtain ⟨hptr, hhash, hown⟩ := h
    have hholds : Holds (cell t.alloc) n (WriteLog.new t.alloc) 0 := Holds.new hown hs
    unfold Set.body
    rw [hptr, hhash]
    simp only [ne_eq, not_true_eq_false, if_false]
    refine ((Set.ends_insertValue ho' hholds).mono (fun _ _ hg => hg) ?_).bind ?_
    · rintro e w ⟨he, hp, hn⟩
      have hpos : n < Set.budget key.bits.length := by
        have := Set.chunksRev_le ho'
        unfold Set.budget
        omega
      have hk : key.bits ≠ [] := by
        intro hnil
        rw [Slice.chunksRev_of_nil hnil] at hn
        exact absurd hn (Nat.not_lt_zero n)
      exact ⟨hp, Or.inl ⟨he, hpos, _, if_neg hk⟩⟩
    · rintro o w ⟨cells, hrep, hw⟩
      simp only [Root.set]
      by_cases hk : key.bits = []
      · rw [if_pos hk]
        rw [hk, Tree.chain_nil] at hrep
        cases o with
        | node p hash => cases hrep
        | value hash => exact ends_fail ⟨hw.pending, Or.inr ⟨_, rfl, rfl⟩⟩
      · rw [if_neg hk]
        obtain ⟨k, c, hext⟩ := Tree.chain_eq_ext (d := 0) (t := .value false v) (Or.inl hk)
        cases o with
        | node p hash => exact ends_pure ⟨_, cells, _, rfl, hrep, hw⟩
        | value hash =>
          rw [hext] at hrep
          cases hrep
  | some tree =>
    obtain ⟨cells, hrep, hwf, hown⟩ := h
    have hholds : Holds (cell t.alloc) n (WriteLog.new t.alloc) (cells + 0) :=
      Holds.new (by rwa [add_zero]) hs
    unfold Set.body
    rw [hlen]
    cases hptr : t.rootPtr with
    | some p =>
      rw [hptr] at hrep
      exact Set.ends_handle (fun c _ => Set.refines c) hrep (Owns.inBase hown) ho' hholds
    | none =>
      simp only
      rw [if_pos (hrep.hash_ne hd)]
      rw [hptr] at hrep
      cases hrep with
      | pruned hhash => exact ends_fail ⟨hholds.pending, Or.inr ⟨_, rfl, rfl⟩⟩

theorem Root.set_wf {key : List Bool} {tree : Tree} (hwf : root.WF) (hbyte : 8 ∣ key.length)
    (hmax : key.length ≤ Tree.maxKey) (h : root.set v key = .ok tree) : tree.WF 0 := by
  cases root with
  | none =>
    simp only [Root.set] at h
    split at h
    · cases h
    · cases h
      exact Tree.chain_wf (by rw [Nat.zero_add]; exact ⟨hbyte, hmax⟩)
  | some t₀ => exact Tree.set_wf hwf (by rwa [Nat.zero_add]) (by rwa [Nat.zero_add]) h

/-- Byte-aligned keys which fit a slice. -/
structure KeySlice (key : Slice) : Prop where
  offset : key.offset = 0
  byte : 8 ∣ key.bits.length

theorem KeySlice.le_maxKey {key : Slice} (h : KeySlice key) : key.bits.length ≤ Tree.maxKey := by
  have h1 := h.byte
  have h2 := key.length_lt
  rw [Slice.length_bits] at *
  simp only [Tree.maxKey]
  omega

theorem setImpl_spec {key : Slice} (hd : ∀ b, digest b ≠ emptyTrieRoot)
    (h : TrieRep digest t root) (hk : KeySlice key) :
    match t.setImpl digest key v with
    | (.ok _, t') => ∃ tree, root.set v key.bits = .ok tree ∧ TrieRep digest t' (some tree)
    | (.error e, t') => Unchanged t t' ∧
        ((e = .err .outOfMemory ∧ ¬ Serves (Set.budget key.bits.length) t.alloc ∧
            ∃ tree, root.set v key.bits = .ok tree) ∨
          ∃ err, e = .err err ∧ root.set v key.bits = .error err) := by
  have hone : ∀ n, Serves n t.alloc →
      Transacted t.alloc (Set.NodeDone digest (cell t.alloc) 0 0 (root.set v key.bits))
        (Refused (cell t.alloc) n (Set.budget key.bits.length) (root.set v key.bits))
        (Set.set digest t.alloc key v t.rootPtr t.rootHash) := by
    intro n hs
    refine transact_ends (ends_setBody hd h hk.offset hs) ?_ ?_
    · rintro r w ⟨tree, cells, m, -, -, hw⟩
      exact hw.pending
    · rintro e w ⟨hp, -⟩
      exact hp
  have hzero := hone 0 trivial
  unfold Trie.setImpl
  cases hset : Set.set digest t.alloc key v t.rootPtr t.rootHash with
  | mk r a' =>
    rw [hset] at hzero hone
    cases r with
    | ok res =>
      obtain ⟨w, ⟨tree, cells, m, hok, hrep, hw⟩, hcell⟩ := hzero
      refine ⟨tree, hok, cells, hrep, Root.set_wf h.wf hk.byte hk.le_maxKey hok, ?_⟩
      rw [hcell]
      simpa using hw.owns
    | error e =>
      obtain ⟨w, ⟨hp, hcase⟩, hcell⟩ := hzero
      refine ⟨⟨rfl, rfl, hcell⟩, ?_⟩
      rcases hcase with ⟨he, -, hok⟩ | hcase
      · by_cases hs : Serves (Set.budget key.bits.length) t.alloc
        · obtain ⟨w', ⟨-, ⟨-, hlt, -⟩ | hcase'⟩, -⟩ := hone _ hs
          · omega
          · exact Or.inr hcase'
        · exact Or.inl ⟨he, hs, hok⟩
      · exact Or.inr hcase

theorem sealImpl_spec {key : Slice} (h : TrieRep digest t (some tree)) (hk : KeySlice key) :
    match t.sealImpl digest key with
    | (.ok _, t') => ∃ tree', tree.sealKey key.bits = .ok tree' ∧ TrieRep digest t' (some tree') ∧
        t'.rootHash = t.rootHash
    | (.error e, t') => t' = t ∧ ∃ err, e = .err err ∧ tree.sealKey key.bits = .error err := by
  obtain ⟨cells, hrep, hwf, hown⟩ := h
  have hzero : Owns (cell t.alloc) (cells + 0) := by rwa [add_zero]
  have hends := Seal.ends_sealNode (fun c _ => Seal.refines (A := A) c) hrep
    (show key.offset = U3.wrap 0 from hk.offset) hzero
  unfold Trie.sealImpl
  cases hrun : (Seal.sealNode digest key ⟨t.rootPtr, t.rootHash⟩).run t.alloc with
  | mk r a' =>
    cases r with
    | ok removed =>
      obtain ⟨tree', cells', hok, hrep', -, hown'⟩ := hends.of_ok hrun
      rw [add_zero] at hown'
      cases removed with
      | true => exact ⟨tree', hok, ⟨cells', hrep', Tree.sealKey_wf hwf hok, hown'⟩, rfl⟩
      | false => exact ⟨tree', hok, ⟨cells', hrep', Tree.sealKey_wf hwf hok, hown'⟩, rfl⟩
    | error e =>
      obtain ⟨rfl, herr⟩ := hends.of_error hrun
      exact ⟨rfl, herr⟩

theorem Root.del_wf {key : List Bool} {root' : Root} (hwf : root.WF)
    (h : root.del key = .ok root') : root'.WF := by
  cases root with
  | none => cases h
  | some tree =>
    obtain ⟨a, ha, rfl⟩ := map_eq_ok h
    have haw := Tree.del_wf hwf ha
    cases ht : a.toTree 0 with
    | none => trivial
    | some tree' => exact Tree.Action.toTree_wf haw ht

/-- Deleting below a node never leaves a bare value. -/
theorem Tree.del_toTree_ne_value {tree : Tree} {key : List Bool} {a : Tree.Action} {s : Bool}
    {h : CryptoHash} {d : Nat} (hok : tree.del d key = .ok a) (hwf : tree.WF d)
    (hnv : ∀ s h, tree ≠ .value s h) : a.toTree d ≠ some (.value s h) := by
  intro ht
  have hbits : ∀ key' child, a = .ext key' child → False := by
    rintro key' child rfl
    have haw := Tree.del_wf hwf hok
    obtain ⟨k, c, hext⟩ := Tree.chain_eq_ext (d := d) (t := child) (Or.inl haw.1)
    rw [Tree.Action.toTree, hext] at ht
    cases ht
  cases a with
  | drop => cases ht
  | ext key' child => exact hbits _ _ rfl
  | ref tree' =>
    cases ht
    cases tree with
    | value s₀ h₀ => exact hnv _ _ rfl
    | pruned l r => cases hok
    | branch l r =>
      have hin : ∀ {a' : Tree.Action} {bit other},
          Tree.Action.inBranch d bit other a' ≠ .ref (.value s h) := by
        intro a' bit other he
        unfold Tree.Action.inBranch at he
        split at he
        · cases bit <;> cases he
        · cases other <;> cases he
      match key with
      | [] => cases hok
      | false :: key =>
        obtain ⟨a', -, he⟩ := map_eq_ok hok
        exact hin he
      | true :: key =>
        obtain ⟨a', -, he⟩ := map_eq_ok hok
        exact hin he
    | ext k c =>
      unfold Tree.del at hok
      split at hok
      · obtain ⟨a', -, he⟩ := map_eq_ok hok
        cases a' <;> cases he
      · cases hok

def DelDone (digest : List Byte → CryptoHash) (base : Ptr → Option RawNode)
    (expected : Except Error Root) (res : Option (Option Ptr × CryptoHash))
    (w : WriteLog A RawNode) : Prop :=
  ∃ root, expected = .ok root ∧
    match res, root with
    | none, none => Holds base 0 w 0
    | some (ptr, hash), some tree =>
      ∃ cells, Rep digest 0 (.node ⟨ptr, hash⟩) tree cells ∧ Holds base 0 w cells
    | _, _ => False

theorem ends_delBody {key : Slice} (hd : ∀ b, digest b ≠ emptyTrieRoot)
    (h : TrieRep digest t root) (ho : key.offset = 0) :
    Ends (Del.body digest key t.rootPtr t.rootHash) (WriteLog.new t.alloc)
      (DelDone digest (cell t.alloc) (root.del key.bits))
      (Refused (cell t.alloc) 0 1 (root.del key.bits)) := by
  cases root with
  | none =>
    obtain ⟨hptr, hhash, hown⟩ := h
    unfold Del.body
    rw [if_pos hhash]
    exact ends_fail ⟨WriteLog.pending_new _, Or.inr ⟨_, rfl, rfl⟩⟩
  | some tree =>
    obtain ⟨cells, hrep, hwf, hown⟩ := h
    have hholds : Holds (cell t.alloc) 0 (WriteLog.new t.alloc) (cells + 0) :=
      Holds.new (by rwa [add_zero]) trivial
    unfold Del.body
    rw [if_neg (hrep.hash_ne hd)]
    have hnv := hrep.ne_value
    refine ((Del.ends_handle (fun c _ => Del.refines c) hrep hwf (Owns.inBase hown)
      (show key.offset = U3.wrap 0 from ho) hholds).mono (fun _ _ hg => hg) ?_).bind ?_
    · intro e w hb
      exact hb.map rfl
    · rintro act w ⟨a, cells', hok, hact, hw⟩
      have hroot : Root.del (some tree) key.bits = .ok (a.toTree 0) := by
        simp only [Root.del, hok, Except.map]
      rw [hroot]
      refine ((Del.ends_refFromAction hact hw).mono (fun _ _ hg => hg) ?_).bind ?_
      · rintro e w' ⟨he, hp⟩
        exact ⟨hp, Or.inl ⟨he, by omega, _, rfl⟩⟩
      · intro o w' hdone
        unfold Del.TreeDone at hdone
        cases ht : a.toTree 0 with
        | none =>
          rw [ht] at hdone
          cases o with
          | some r => exact absurd hdone id
          | none => exact ends_pure ⟨none, rfl, hdone⟩
        | some tree' =>
          rw [ht] at hdone
          cases o with
          | none => exact absurd hdone id
          | some r =>
            obtain ⟨cells'', hrep'', hw''⟩ := hdone
            rw [add_zero] at hw''
            cases r with
            | node nref => exact ends_pure ⟨some tree', rfl, cells'', hrep'', hw''⟩
            | value vref =>
              cases hrep''
              exact absurd ht (Tree.del_toTree_ne_value hok hwf hnv)

theorem del_spec {key : Slice} (hd : ∀ b, digest b ≠ emptyTrieRoot)
    (h : TrieRep digest t root) (hk : KeySlice key) :
    match Del.del digest t.alloc key t.rootPtr t.rootHash with
    | (.ok res, a') => ∃ root', root.del key.bits = .ok root' ∧
        TrieRep digest ⟨(res.getD (none, emptyTrieRoot)).1, (res.getD (none, emptyTrieRoot)).2, a'⟩
          root'
    | (.error e, a') => cell a' = cell t.alloc ∧
        ((e = .err .outOfMemory ∧ ∃ root', root.del key.bits = .ok root') ∨
          ∃ err, e = .err err ∧ root.del key.bits = .error err) := by
  have hspec := transact_ends (ends_delBody hd h hk.offset) (by
    rintro r w ⟨root', -, hm⟩
    cases r with
    | none =>
      cases root' with
      | none => exact hm.pending
      | some tree => exact hm.elim
    | some r =>
      cases root' with
      | none => exact hm.elim
      | some tree =>
        obtain ⟨cells, -, hw⟩ := hm
        exact hw.pending) (by
    rintro e w ⟨hp, -⟩
    exact hp)
  unfold Del.del
  cases htr : transact (Del.body digest key t.rootPtr t.rootHash) t.alloc with
  | mk r a' =>
    rw [htr] at hspec
    cases r with
    | error e =>
      obtain ⟨w, ⟨-, ⟨he, -, hok⟩ | herr⟩, hcell⟩ := hspec
      · exact ⟨hcell, Or.inl ⟨he, hok⟩⟩
      · exact ⟨hcell, Or.inr herr⟩
    | ok res =>
      obtain ⟨w, ⟨root', hok, hm⟩, hcell⟩ := hspec
      refine ⟨root', hok, ?_⟩
      have hwf' := Root.del_wf h.wf hok
      cases res with
      | none =>
        cases root' with
        | none => exact ⟨rfl, rfl, by rw [hcell]; exact hm.owns⟩
        | some tree => exact hm.elim
      | some r =>
        obtain ⟨ptr, hash⟩ := r
        cases root' with
        | none => exact hm.elim
        | some tree =>
          obtain ⟨cells, hrep, hw⟩ := hm
          exact ⟨cells, hrep, hwf', by rw [hcell]; exact hw.owns⟩

end SealableTrie
