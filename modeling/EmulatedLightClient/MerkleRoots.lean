import EmulatedLightClient.MerkleCodec
import EmulatedLightClient.TrieRefinement

/-!
# Roots of account trees

The two loops over the tree, the one for the root and the one for a proof, walk the same levels. They part
at nodes which have no siblings: the root takes them one level up, a proof cannot.
-/

namespace CfSolana

open ByteBits Nodes Buffers HashTrees

variable (digest : List Byte → CryptoHash)

/-- A node of the tree from the ones below. -/
def nodeHash (chunk : List CryptoHash) : CryptoHash := digest (concatHashes chunk)

/-- Hashes are written behind those which are still to be read. -/
theorem inPlace_loop (hashes : List CryptoHash) (m : Nat) (hm : m ≤ chunkCount merkleFanout hashes.length) :
    (List.range' 0 m merkleFanout).foldl
      (fun (hashes, out) idx => (hashes.set out (digest (concatHashes ((hashes.drop idx).take merkleFanout))), out + 1))
      (hashes, 0) =
      ((level merkleFanout (nodeHash digest) hashes).take m ++ hashes.drop m, m) := by
  induction m with
  | zero => rfl
  | succ m ih =>
    have hlt : m < (level merkleFanout (nodeHash digest) hashes).length := by rwa [length_level]
    have hread : merkleFanout * m < hashes.length := (lt_chunkCount (by decide)).mp hm
    have hle : m ≤ merkleFanout * m := Nat.le_mul_of_pos_left m (by decide)
    have htaken : ((level merkleFanout (nodeHash digest) hashes).take m).length = m :=
      List.length_take_of_le hlt.le
    have hchunk : (((level merkleFanout (nodeHash digest) hashes).take m ++ hashes.drop m).drop (merkleFanout * m)).take
        merkleFanout = slice hashes (merkleFanout * m) merkleFanout := by
      rw [List.drop_append, htaken, List.drop_eq_nil_of_le (by omega), List.nil_append, List.drop_drop, slice,
        Nat.add_sub_cancel' hle]
    have hnext : (level merkleFanout (nodeHash digest) hashes)[m] =
        digest (concatHashes (slice hashes (merkleFanout * m) merkleFanout)) :=
      Option.some.inj ((List.getElem?_eq_getElem hlt).symm.trans (getElem?_level hm))
    rw [List.range'_concat, List.foldl_append, ih (by omega)]
    simp only [List.foldl_cons, List.foldl_nil, Nat.zero_add, hchunk]
    refine Prod.ext ?_ rfl
    rw [List.take_succ_eq_append_getElem hlt, hnext, List.set_append, htaken, if_neg (by omega), Nat.sub_self,
      List.drop_eq_getElem_cons (by omega : m < hashes.length), List.set_cons_zero, List.append_assoc]
    rfl

theorem nextLevelInPlace_eq (hashes : List CryptoHash) :
    nextLevelInPlace digest hashes = level merkleFanout (nodeHash digest) hashes := by
  have hloop := inPlace_loop digest hashes _ le_rfl
  have hlength : (level merkleFanout (nodeHash digest) hashes).length = chunkCount merkleFanout hashes.length :=
    length_level
  unfold nextLevelInPlace
  simp only [hloop]
  rw [← hlength, List.take_length, List.take_left]

theorem reduceHashes_eq (fuel : Nat) (hashes : List CryptoHash) :
    reduceHashes digest fuel hashes = topmost merkleFanout (nodeHash digest) fuel hashes := by
  induction fuel generalizing hashes with
  | zero => rfl
  | succ fuel ih => rw [reduceHashes, topmost, nextLevelInPlace_eq, ih]

variable {PubKey : Type}

/-- Hashes of the accounts, the bottom of the tree. -/
def leaves (accounts : List (PubKey × CryptoHash)) : List CryptoHash := accounts.map (·.2)

theorem firstLevel_eq (accounts : List (PubKey × CryptoHash)) :
    ((chunks merkleFanout accounts).map fun chunk => digest (chunk.flatMap (·.2.bytes))) =
      level merkleFanout (nodeHash digest) (leaves accounts) := by
  rw [level, chunks, chunks, List.map_map, List.map_map, leaves, List.length_map]
  refine List.map_congr_left fun i _ => ?_
  simp only [Function.comp_apply, nodeHash, concatHashes, slice, ← List.map_drop, ← List.map_take, List.flatMap_map]

theorem computeMerkleRoot_eq (accounts : List (PubKey × CryptoHash)) :
    computeMerkleRoot digest accounts =
      ((topmost merkleFanout (nodeHash digest) (chunkCount merkleFanout accounts.length)
        (level merkleFanout (nodeHash digest) (leaves accounts))).head?).getD CryptoHash.default := by
  unfold computeMerkleRoot
  simp only [firstLevel_eq, reduceHashes_eq, length_level, leaves, List.length_map]

/-- With more than one account the root is what is at the top of their hashes. -/
theorem computeMerkleRoot_of_lt {accounts : List (PubKey × CryptoHash)} (h : 1 < accounts.length) :
    computeMerkleRoot digest accounts =
      ((topmost merkleFanout (nodeHash digest) accounts.length (leaves accounts)).head?).getD CryptoHash.default := by
  have hlength : (leaves accounts).length = accounts.length := List.length_map ..
  have hshrinks := chunkCount_lt (k := merkleFanout) (by decide) h
  obtain ⟨n, hn⟩ : ∃ n, accounts.length = n + 1 := ⟨accounts.length - 1, by omega⟩
  rw [computeMerkleRoot_eq, hn, topmost_of_lt (by omega), ← hn]
  congr 2
  refine topmost_stable (by decide) ?_ ?_
  · rw [length_level, hlength]
  · rw [length_level, hlength]
    omega

theorem expectedRoot_eq (p : MerkleProof) (account : CryptoHash) :
    p.expectedRoot digest account = p.levels.map (climb (nodeHash digest) · account) := rfl

theorem subslice_chunk {α : Type} {l : List α} {pos : Nat} (h : pos < l.length) :
    subslice l (pos / merkleFanout * merkleFanout) (min (pos / merkleFanout * merkleFanout + merkleFanout) l.length) =
      some (slice l (merkleFanout * (pos / merkleFanout)) merkleFanout) := by
  have hle : pos / merkleFanout * merkleFanout ≤ pos := Nat.div_mul_le_self pos merkleFanout
  have hfanout : merkleFanout = 16 := rfl
  rw [subslice, if_pos (by omega), Nat.mul_comm merkleFanout]
  generalize pos / merkleFanout * merkleFanout = start at hle ⊢
  refine congrArg some (List.take_eq_take_iff.mpr ?_)
  rw [List.length_drop]
  omega

theorem MerkleProof.pushLevel_spec (p : MerkleProof) {chunk : List CryptoHash} {index : Nat} (hindex : index < chunk.length)
    (hchunk : chunk.length ≤ merkleFanout) (hdepth : p.path.length < maxDepth) :
    (chunk.eraseIdx index = [] ∧ p.pushLevel chunk index = none) ∨
      (chunk.eraseIdx index ≠ [] ∧ ∃ p', p.pushLevel chunk index = some p' ∧ p'.path.length = p.path.length + 1) := by
  have hlength := List.length_eraseIdx_of_lt hindex
  have hfanout : merkleFanout = 16 := rfl
  unfold pushLevel
  rw [if_pos hindex, packIndexLen, ← List.length_eq_zero_iff, Ne, ← List.length_eq_zero_iff, hlength]
  rcases Nat.eq_zero_or_pos (chunk.length - 1) with hzero | hpos
  · rw [if_neg (by omega)]
    exact Or.inl ⟨hzero, rfl⟩
  · rw [if_pos ⟨hpos, by omega, by omega⟩]
    simp only
    rw [dif_pos hdepth]
    exact Or.inr ⟨by omega, _, rfl, by rw [List.length_append, List.length_singleton]⟩

/-- The loop gives a proof with the levels of the path upwards if all of them have siblings. -/
theorem pushLevels_spec {fuel pos : Nat} {hashes : List CryptoHash} {p : MerkleProof}
    {ls : List (Nat × List CryptoHash)} (hpos : pos < hashes.length) (hfuel : hashes.length ≤ fuel)
    (hroom : hashes.length ≤ merkleFanout ^ (maxDepth - p.path.length)) (hp : p.levels = some ls) :
    ((∀ step ∈ pathUp merkleFanout (nodeHash digest) fuel hashes pos, step.2 ≠ []) ∧
      ∃ p', pushLevels digest fuel hashes pos p = some p' ∧
        p'.levels = some (ls ++ pathUp merkleFanout (nodeHash digest) fuel hashes pos)) ∨
    (¬ (∀ step ∈ pathUp merkleFanout (nodeHash digest) fuel hashes pos, step.2 ≠ []) ∧
      pushLevels digest fuel hashes pos p = none) := by
  induction fuel generalizing hashes pos p ls with
  | zero => omega
  | succ fuel ih =>
    rw [pathUp, pushLevels]
    split
    · rename_i hlt
      have hshrinks := chunkCount_lt (k := merkleFanout) (by decide) hlt
      have hdepth : p.path.length < maxDepth := by
        by_contra hfull
        rw [Nat.sub_eq_zero_of_le (not_lt.mp hfull), Nat.pow_zero] at hroom
        omega
      have hchunk := length_chunk hashes merkleFanout (pos / merkleFanout)
      have hdiv := Nat.div_add_mod pos merkleFanout
      have hmod : pos % merkleFanout < merkleFanout := Nat.mod_lt pos (by decide)
      have hindex : pos % merkleFanout < (slice hashes (merkleFanout * (pos / merkleFanout)) merkleFanout).length := by
        omega
      simp only [subslice_chunk hpos, Option.bind_eq_bind, Option.bind_some, List.forall_mem_cons]
      obtain ⟨hnil, hpush⟩ | ⟨hne, p', hpush, hlength⟩ := p.pushLevel_spec hindex (by omega) hdepth
      · rw [hpush]
        exact Or.inr ⟨fun h => h.1 hnil, rfl⟩
      · have hlevels := MerkleProof.levels_pushLevel hpush hp
        have hroom' : (level merkleFanout (nodeHash digest) hashes).length ≤
            merkleFanout ^ (maxDepth - p'.path.length) := by
          obtain ⟨m, hm⟩ : ∃ m, maxDepth - p.path.length = m + 1 := ⟨maxDepth - p.path.length - 1, by omega⟩
          have hm' : maxDepth - p'.path.length = m := by omega
          rw [hm, Nat.pow_succ'] at hroom
          rw [length_level, hm', ← Nat.not_lt, lt_chunkCount (by decide), Nat.not_lt]
          exact hroom
        have hpos' : pos / merkleFanout < (level merkleFanout (nodeHash digest) hashes).length := by
          rw [length_level]
          exact div_lt_chunkCount (by decide) hpos
        rw [hpush, Option.bind_some]
        obtain ⟨hsiblings, p'', hrest, hlevels'⟩ | ⟨halone, hrest⟩ :=
          ih hpos' (by rw [length_level]; omega) hroom' hlevels
        · refine Or.inl ⟨⟨hne, hsiblings⟩, p'', hrest, ?_⟩
          rw [hlevels', List.append_assoc]
          rfl
        · exact Or.inr ⟨fun h => halone h.2, hrest⟩
    · refine Or.inl ⟨List.forall_mem_nil _, p, rfl, ?_⟩
      rw [List.append_nil]
      exact hp

/-- However deep the tree is, a proof which is given has the levels of the path upwards. -/
theorem pushLevels_levels {fuel pos : Nat} {hashes : List CryptoHash} {p p' : MerkleProof}
    {ls : List (Nat × List CryptoHash)} (hpos : pos < hashes.length) (hp : p.levels = some ls)
    (h : pushLevels digest fuel hashes pos p = some p') :
    p'.levels = some (ls ++ pathUp merkleFanout (nodeHash digest) fuel hashes pos) := by
  induction fuel generalizing hashes pos p ls with
  | zero =>
    cases h
    rw [pathUp, List.append_nil]
    exact hp
  | succ fuel ih =>
    rw [pushLevels] at h
    rw [pathUp]
    split
    · rename_i hlt
      rw [if_pos hlt] at h
      simp only [subslice_chunk hpos, Option.bind_eq_bind, Option.bind_some] at h
      obtain ⟨next, hnext, hrest⟩ := Option.bind_eq_some_iff.mp h
      have hpos' : pos / merkleFanout < (level merkleFanout (nodeHash digest) hashes).length := by
        rw [length_level]
        exact div_lt_chunkCount (by decide) hpos
      rw [ih hpos' (MerkleProof.levels_pushLevel hnext hp) hrest, List.append_assoc]
      rfl
    · rename_i hle
      rw [if_neg hle] at h
      cases h
      rw [List.append_nil]
      exact hp

open SealableTrie (hashOf tableDigest)

/-- BLAKE3 of no bytes and of one zero byte. -/
def firstHash : CryptoHash := hashOf 0xaf1349b9f5f9a1a6a0404dea36dcc9499bcb25c9adc112b7cc9a93cae41f3262

def secondHash : CryptoHash := hashOf 0x2d3adedff11b61f14c886e35afa036736dcd87a74d27b5c1510225d0f592e213

def sampleBlake3 (bytes : List Byte) : CryptoHash := if bytes = [] then firstHash else secondHash

def sampleAccounts : List (Nat × CryptoHash) := [(1, firstHash), (2, secondHash)]

def manyAccounts : List (Nat × CryptoHash) := (List.range 17).map fun key => (key, firstHash)

/-- SHA-256 of the chunks of two accounts and of one. -/
def sampleDigest : List Byte → CryptoHash := tableDigest
  [(concatHashes [firstHash, secondHash], hashOf 0x457200aad5e729c945c8bcae893ec024dd34510c5130d5fd75f94daf3b1cdff3),
    (concatHashes [firstHash], hashOf 0x41647e8353c7a76a2c15f997632d9a9c79acc8837c65e6c0e01f85cafab5f6d3)]

theorem sampleProof_depth : [0x11#8].length ≤ maxDepth := by decide

def sampleProof : MerkleProof := ⟨[0x11#8], [firstHash], sampleProof_depth⟩

/-- What the path from an account leads to is the root, but not if there are no other accounts. -/
theorem climb_eq_root_iff {accounts : List (PubKey × CryptoHash)} {pos : Nat} {account : CryptoHash}
    (h : (leaves accounts)[pos]? = some account) :
    climb (nodeHash digest) (pathUp merkleFanout (nodeHash digest) accounts.length (leaves accounts) pos) account =
      computeMerkleRoot digest accounts ↔ (accounts.length = 1 → digest account.bytes = account) := by
  have hlength : (leaves accounts).length = accounts.length := List.length_map ..
  obtain ⟨hpos, hget⟩ := List.getElem?_eq_some_iff.mp h
  rcases Nat.lt_or_ge 1 accounts.length with hlt | hle
  · have hclimb := climb_pathUp (k := merkleFanout) (nodeHash digest) (by decide) h hlength.le
    rw [computeMerkleRoot_of_lt digest hlt, hclimb]
    exact iff_of_true rfl fun hone => absurd hone hlt.ne'
  · obtain ⟨x, hx⟩ := List.length_eq_one_iff.mp (by omega : (leaves accounts).length = 1)
    have hx' : x = account := by
      have hpos' : pos = 0 := by omega
      subst hpos'
      simpa [hx] using h
    have hbytes : concatHashes [account] = account.bytes := List.append_nil _
    have hcount : chunkCount merkleFanout accounts.length ≤ 1 := (chunkCount_le_one (by decide)).mpr (hle.trans (by decide))
    subst hx'
    have hpath : pathUp merkleFanout (nodeHash digest) accounts.length [x] pos = [] := by
      cases accounts.length <;> rfl
    rw [computeMerkleRoot_eq, hx, hpath, level_singleton (by decide), topmost_of_le_one le_rfl, nodeHash, hbytes]
    constructor
    · exact fun heq _ => heq.symm
    · exact fun himp => (himp (by omega)).symm

section

variable [LinearOrder PubKey]

/-- How many accounts come before the one with given key. -/
def rank (accounts : List (PubKey × CryptoHash)) (pubkey : PubKey) : Nat := accounts.countP fun item => item.1 < pubkey

variable {accounts : List (PubKey × CryptoHash)} {pubkey : PubKey} {account : CryptoHash}

theorem sortAccounts_perm (accounts : List (PubKey × CryptoHash)) : (sortAccounts accounts).Perm accounts :=
  List.perm_insertionSort _ accounts

theorem sortAccounts_sorted (h : (accounts.map (·.1)).Nodup) :
    (sortAccounts accounts).Pairwise fun a b => a.1 < b.1 := by
  have : Std.Total fun a b : PubKey × CryptoHash => a.1 ≤ b.1 := ⟨fun a b => le_total a.1 b.1⟩
  have : IsTrans (PubKey × CryptoHash) fun a b => a.1 ≤ b.1 := ⟨fun a b c => le_trans⟩
  have hle : (sortAccounts accounts).Pairwise fun a b => a.1 ≤ b.1 := List.pairwise_insertionSort _ accounts
  have hne : ((sortAccounts accounts).map (·.1)).Nodup := (((sortAccounts_perm accounts).map _).nodup_iff).mpr h
  refine (hle.and (List.pairwise_map.mp hne)).imp ?_
  rintro a b ⟨hab, hneq⟩
  exact lt_of_le_of_ne hab hneq

/-- An account is found at its rank. -/
theorem findIdx?_sortAccounts (h : (accounts.map (·.1)).Nodup) (hmem : (pubkey, account) ∈ accounts) :
    ((sortAccounts accounts).findIdx? fun item => item.1 = pubkey) = some (rank accounts pubkey) ∧
      (leaves (sortAccounts accounts))[rank accounts pubkey]? = some account := by
  have hsorted := sortAccounts_sorted h
  obtain ⟨before, after, hsplit⟩ := List.append_of_mem ((sortAccounts_perm accounts).mem_iff.mpr hmem)
  rw [hsplit, List.pairwise_append, List.pairwise_cons] at hsorted
  obtain ⟨-, ⟨hafter, -⟩, hcross⟩ := hsorted
  have hbefore : ∀ item ∈ before, item.1 < pubkey := fun item hitem => hcross item hitem _ List.mem_cons_self
  have hrank : rank accounts pubkey = before.length := by
    rw [rank, ← (sortAccounts_perm accounts).countP_eq, hsplit, List.countP_append, List.countP_cons,
      List.countP_eq_length.mpr fun item hitem => decide_eq_true (hbefore item hitem),
      List.countP_eq_zero.mpr fun item hitem => by simpa using (hafter item hitem).le]
    simp
  constructor
  · rw [hsplit, hrank, List.findIdx?_append, List.findIdx?_eq_none_iff.mpr fun item hitem => by
      simpa using (hbefore item hitem).ne, List.findIdx?_cons]
    simp
  · rw [leaves, List.getElem?_map, hsplit, hrank, List.getElem?_append_right le_rfl, Nat.sub_self]
    rfl

/-- The order in which accounts are given does not matter. -/
theorem sortAccounts_congr {accounts' : List (PubKey × CryptoHash)} (hperm : accounts.Perm accounts')
    (hdistinct : (accounts.map (·.1)).Nodup) : sortAccounts accounts = sortAccounts accounts' := by
  have hdistinct' : (accounts'.map (·.1)).Nodup := ((hperm.map _).nodup_iff).mp hdistinct
  have hsame : (sortAccounts accounts).Perm (sortAccounts accounts') :=
    (sortAccounts_perm accounts).trans (hperm.trans (sortAccounts_perm accounts').symm)
  refine hsame.eq_of_pairwise ?_ (sortAccounts_sorted hdistinct) (sortAccounts_sorted hdistinct')
  intro a b _ _ hab hba
  exact absurd hba hab.asymm

theorem generate_congr {accounts' : List (PubKey × CryptoHash)} (hperm : accounts.Perm accounts')
    (hdistinct : (accounts.map (·.1)).Nodup) (pubkey : PubKey) :
    MerkleProof.generate digest accounts pubkey = MerkleProof.generate digest accounts' pubkey := by
  unfold MerkleProof.generate
  rw [sortAccounts_congr hperm hdistinct]

/-- Among several accounts, a proof which is generated leads to the root. -/
theorem generate_expectedRoot {root : CryptoHash} {proof : MerkleProof} (hdistinct : (accounts.map (·.1)).Nodup)
    (hmem : (pubkey, account) ∈ accounts) (hseveral : 1 < accounts.length)
    (h : (MerkleProof.generate digest accounts pubkey).2 = some (some (root, proof))) :
    root = computeMerkleRoot digest (sortAccounts accounts) ∧ proof.expectedRoot digest account = some root := by
  obtain ⟨hfind, hleaf⟩ := findIdx?_sortAccounts hdistinct hmem
  have hcount : (sortAccounts accounts).length = accounts.length := (sortAccounts_perm accounts).length_eq
  obtain ⟨hpos, -⟩ := List.getElem?_eq_some_iff.mp hleaf
  unfold MerkleProof.generate at h
  simp only [hfind] at h
  obtain ⟨proof', hproof, heq⟩ := Option.map_eq_some_iff.mp h
  cases heq
  have hdefault : MerkleProof.default.levels = some [] := rfl
  have hlevels := pushLevels_levels digest hpos hdefault hproof
  rw [List.nil_append] at hlevels
  have hroot := (climb_eq_root_iff digest hleaf).mpr fun hone => by omega
  refine ⟨rfl, ?_⟩
  rw [expectedRoot_eq, hlevels, Option.map_some, ← hroot]

/-- A generated proof leads from the account to the root exactly if at every level the node above the
account has siblings; the only account of a block must be its own hash. -/
theorem generate_complete_iff (hlength : accounts.length < 2 ^ 64) (hdistinct : (accounts.map (·.1)).Nodup)
    (hmem : (pubkey, account) ∈ accounts) :
    (∃ root proof, (MerkleProof.generate digest accounts pubkey).2 = some (some (root, proof)) ∧
      proof.expectedRoot digest account = some root) ↔
    (accounts.length = 1 → digest account.bytes = account) ∧
      HasSiblings merkleFanout accounts.length (rank accounts pubkey) := by
  obtain ⟨hfind, hleaf⟩ := findIdx?_sortAccounts hdistinct hmem
  have hcount : (sortAccounts accounts).length = accounts.length := (sortAccounts_perm accounts).length_eq
  have hleaves : (leaves (sortAccounts accounts)).length = accounts.length := by
    rw [leaves, List.length_map, hcount]
  obtain ⟨hpos, -⟩ := List.getElem?_eq_some_iff.mp hleaf
  have hgenerate : (MerkleProof.generate digest accounts pubkey).2 =
      (pushLevels digest accounts.length (leaves (sortAccounts accounts)) (rank accounts pubkey) .default).map
        fun proof => some (computeMerkleRoot digest (sortAccounts accounts), proof) := by
    unfold MerkleProof.generate
    simp only [hfind, generateMerkleProof, hcount, leaves]
  have hroom : (leaves (sortAccounts accounts)).length ≤ merkleFanout ^ (maxDepth - MerkleProof.default.path.length) := by
    rw [hleaves]
    exact hlength.le.trans (by decide)
  have hsiblings := pathUp_ne_nil_iff (k := merkleFanout) (nodeHash digest) (by decide) hpos hleaves.le
  rw [hleaves] at hsiblings
  have hroot := climb_eq_root_iff digest hleaf
  rw [hcount] at hroot
  have hdefault : MerkleProof.default.levels = some [] := rfl
  rw [hgenerate, ← hsiblings]
  obtain ⟨hhas, proof, hgen, hlevels⟩ | ⟨hnot, hgen⟩ := pushLevels_spec digest hpos hleaves.le hroom hdefault
  · rw [List.nil_append] at hlevels
    rw [hgen, ← hroot]
    constructor
    · rintro ⟨root, p, heq, hexp⟩
      cases heq
      rw [expectedRoot_eq, hlevels] at hexp
      exact ⟨Option.some.inj hexp, hhas⟩
    · rintro ⟨heq, -⟩
      refine ⟨_, proof, rfl, ?_⟩
      rw [expectedRoot_eq, hlevels, Option.map_some, heq]
  · rw [hgen]
    refine iff_of_false ?_ fun h => hnot h.2
    rintro ⟨root, p, heq, -⟩
    cases heq

/-- The second of two accounts and, alone in the second chunk, the last of 17. -/
theorem generate_complete_sample :
    (∃ root proof, (MerkleProof.generate sampleDigest sampleAccounts 2).2 = some (some (root, proof)) ∧
      proof.expectedRoot sampleDigest secondHash = some root) ∧
    ¬ ∃ root proof, (MerkleProof.generate sampleDigest manyAccounts 16).2 = some (some (root, proof)) ∧
      proof.expectedRoot sampleDigest firstHash = some root := by
  constructor
  · refine (generate_complete_iff sampleDigest (by decide) (by decide) (by decide)).mpr ⟨nofun, ?_⟩
    rw [hasSiblings_iff (by decide)]
    exact ⟨fun _ => by decide, hasSiblings_of_le_one (by decide) (by decide)⟩
  · intro h
    obtain ⟨-, halone⟩ := (generate_complete_iff sampleDigest (by decide) (by decide) (by decide)).mp h
    exact halone 0 (by decide) (by decide)

/-- The proof for the last of 17 accounts is a panic; the one for a single account does not lead to the
root. -/
theorem generate_incomplete :
    (manyAccounts.map (·.1)).Nodup ∧ (16, firstHash) ∈ manyAccounts ∧
      (MerkleProof.generate sampleDigest manyAccounts 16).2.isNone ∧
      (MerkleProof.generate sampleDigest [(1, firstHash)] 1).2.map
        (Option.map fun result => decide (result.2.expectedRoot sampleDigest firstHash = some result.1)) =
          some (some false) := by
  refine ⟨by decide, by decide, by decide, by decide⟩

end

/-- Byte strings hashed to compute the root. -/
def rootInputs (accounts : List (PubKey × CryptoHash)) : List (List Byte) :=
  (chunks merkleFanout (leaves accounts) ++
    topmostInputs merkleFanout (nodeHash digest) (chunkCount merkleFanout accounts.length)
      (level merkleFanout (nodeHash digest) (leaves accounts))).map concatHashes

/-- Byte strings hashed to compute the root expected by a proof. -/
def MerkleProof.inputs (p : MerkleProof) (account : CryptoHash) : List (List Byte) :=
  (pathInputs (nodeHash digest) (p.levels.getD []) account).map concatHashes

theorem nodeHash_injOn {S : Set (List Byte)} (h : Set.InjOn digest S) :
    Set.InjOn (nodeHash digest) {chunk | concatHashes chunk ∈ S} :=
  fun _ ha _ hb heq => concatHashes_injective (h ha hb heq)

/-- Where SHA-256 has no collisions and its outputs are neither BLAKE3 outputs nor zero (each on what is
hashed), any proof of the root of a list of accounts proves data whose hash is in the list. The root
of no accounts is zero, so there the hash of the data must not be. -/
theorem expectedRoot_sound {S T : Set (List Byte)} {blake3 : List Byte → CryptoHash} (hinj : Set.InjOn digest S)
    (hsep : ∀ b ∈ S, digest b ≠ CryptoHash.default ∧ ∀ d ∈ T, digest b ≠ blake3 d)
    {accounts : List (PubKey × CryptoHash)}
    (haccounts : ∀ a ∈ accounts, a.2 = CryptoHash.default ∨ ∃ d ∈ T, a.2 = blake3 d)
    (hroot : ∀ b ∈ rootInputs digest accounts, b ∈ S) {p : MerkleProof} {d : List Byte} (hd : d ∈ T)
    (hzero : accounts = [] → blake3 d ≠ CryptoHash.default)
    (hproof : ∀ b ∈ p.inputs digest (blake3 d), b ∈ S)
    (h : p.expectedRoot digest (blake3 d) = some (computeMerkleRoot digest accounts)) :
    ∃ a ∈ accounts, a.2 = blake3 d := by
  rw [expectedRoot_eq] at h
  obtain ⟨ls, hls, hclimb⟩ := Option.map_eq_some_iff.mp h
  have hinj' := nodeHash_injOn digest hinj
  have hsteps : ∀ c ∈ pathInputs (nodeHash digest) ls (blake3 d), c ∈ {chunk | concatHashes chunk ∈ S} := by
    intro c hc
    refine hproof _ (List.mem_map_of_mem ?_)
    rwa [hls]
  have hx : ∀ c ∈ {chunk | concatHashes chunk ∈ S}, nodeHash digest c ≠ blake3 d :=
    fun c hc => (hsep _ hc).2 d hd
  have hleaf : ∀ a ∈ accounts, ∀ c ∈ {chunk | concatHashes chunk ∈ S}, nodeHash digest c ≠ a.2 := by
    intro a ha c hc heq
    rcases haccounts a ha with hdefault | ⟨d', hd', hblake⟩
    · exact (hsep _ hc).1 (heq.trans hdefault)
    · exact (hsep _ hc).2 d' hd' (heq.trans hblake)
  have hlength : (level merkleFanout (nodeHash digest) (leaves accounts)).length =
      chunkCount merkleFanout accounts.length := by
    rw [length_level, leaves, List.length_map]
  rw [computeMerkleRoot_eq] at hclimb
  by_cases hne : level merkleFanout (nodeHash digest) (leaves accounts) = []
  · -- The root of no accounts is zero, which nothing that is hashed gives.
    rw [hne, topmost_of_le_one (Nat.zero_le _)] at hclimb
    have hnone : accounts = [] := by
      have hcount := (chunkCount_pos (k := merkleFanout) (n := accounts.length) (by decide)).not
      rw [← hlength, hne] at hcount
      exact List.length_eq_zero_iff.mp (Nat.eq_zero_of_not_pos (hcount.mp (Nat.lt_irrefl 0)))
    exact absurd (start_of_climb hsteps (fun c hc => (hsep _ hc).1) hclimb) (hzero hnone)
  · obtain ⟨x, htop⟩ := List.length_eq_one_iff.mp 
      (length_topmost (k := merkleFanout) (by decide) hne hlength.le)
    have hreach : climb (nodeHash digest) ls (blake3 d) ∈ topmost merkleFanout (nodeHash digest)
        (chunkCount merkleFanout accounts.length) (level merkleFanout (nodeHash digest) (leaves accounts)) := by
      rw [hclimb, htop]
      exact List.mem_cons_self
    obtain ⟨before, after, rfl, hbefore⟩ := climb_mem_of_topmost hinj' hx
      (fun c hc => hroot _ (List.mem_map_of_mem (List.mem_append_right _ hc))) hsteps hreach
    rw [pathInputs_append] at hsteps
    have hinputs := fun c hc => hsteps c (List.mem_append_left _ hc)
    obtain ⟨before', step, rfl, hmem⟩ := climb_mem_below hinj'
      (fun c hc => hroot _ (List.mem_map_of_mem (List.mem_append_left _ hc))) hinputs hx hbefore
    rw [pathInputs_append] at hinputs
    obtain ⟨a, ha, heq⟩ := List.mem_map.mp hmem
    have hstart := start_of_climb (fun c hc => hinputs c (List.mem_append_left _ hc)) (hleaf a ha) heq.symm
    exact ⟨a, ha, hstart.symm⟩

/-- A proof of the second of two accounts. -/
theorem expectedRoot_sound_sample :
    sampleProof.expectedRoot sampleDigest (sampleBlake3 [0#8]) = some (computeMerkleRoot sampleDigest sampleAccounts) ∧
      ∃ a ∈ sampleAccounts, a.2 = sampleBlake3 [0#8] := by
  have hproof : sampleProof.expectedRoot sampleDigest (sampleBlake3 [0#8]) =
      some (computeMerkleRoot sampleDigest sampleAccounts) := by decide
  refine ⟨hproof, expectedRoot_sound sampleDigest (S := {b | b = concatHashes [firstHash, secondHash]})
    (T := {b | b = [] ∨ b = [0#8]}) ?_ ?_ ?_ ?_ (Or.inr rfl) nofun ?_ hproof⟩
  · rintro _ rfl _ rfl _
    rfl
  · rintro _ rfl
    refine ⟨by decide, ?_⟩
    rintro _ (rfl | rfl) <;> decide
  · intro a ha
    right
    rcases List.mem_cons.mp ha with rfl | ha
    · exact ⟨[], Or.inl rfl, by decide⟩
    · rw [List.mem_singleton.mp ha]
      exact ⟨[0#8], Or.inr rfl, by decide⟩
  · decide
  · decide

end CfSolana
