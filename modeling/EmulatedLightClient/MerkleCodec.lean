import EmulatedLightClient.MerkleProof

/-!
# Binary form of Merkle proofs

What is read from bytes are proofs whose levels use up the siblings, and it is written back as the same
bytes. Bytes come from others: the position in a byte of the path may exceed the number of siblings,
which is not refused but asserted.
-/

namespace CfSolana

open ByteBits Nodes Buffers HashTrees

theorem length_concatHashes (hashes : List CryptoHash) : (concatHashes hashes).length = 32 * hashes.length := by
  have hsize : ∀ r ∈ hashes.map (·.bytes), r.length = 32 := by
    intro r hr
    obtain ⟨h, -, rfl⟩ := List.mem_map.mp hr
    exact h.size
  rw [concatHashes, List.flatMap_def, length_flatten hsize, List.length_map]

theorem filterMap_bytes (hashes : List CryptoHash) : (hashes.map (·.bytes)).filterMap CryptoHash.tryFrom = hashes := by
  induction hashes with
  | nil => rfl
  | cons h hashes ih => rw [List.map_cons, List.filterMap_cons_some (CryptoHash.tryFrom_bytes h), ih]

theorem asHashes_concatHashes (hashes : List CryptoHash) : asHashes (concatHashes hashes) = (hashes, []) := by
  have hsizes : ∀ r ∈ hashes.map (·.bytes), r.length = 32 := by
    intro r hr
    obtain ⟨h, -, rfl⟩ := List.mem_map.mp hr
    exact h.size
  have hrecords := records_flatten hsizes
  rw [List.length_map] at hrecords
  have hcount : (concatHashes hashes).length / 32 = hashes.length := by
    rw [length_concatHashes, Nat.mul_div_cancel_left _ (by omega)]
  unfold asHashes
  simp only [hcount]
  refine Prod.ext ?_ ?_
  · rw [concatHashes, List.flatMap_def, hrecords, filterMap_bytes]
  · exact List.drop_eq_nil_of_le (by rw [length_concatHashes]; omega)

theorem concatHashes_injective : Function.Injective concatHashes := by
  intro a b h
  have := congrArg asHashes h
  rw [asHashes_concatHashes, asHashes_concatHashes] at this
  exact (Prod.mk.inj this).1

theorem concatHashes_filterMap {rs : List (List Byte)} (h : ∀ r ∈ rs, r.length = 32) :
    concatHashes (rs.filterMap CryptoHash.tryFrom) = rs.flatten := by
  induction rs with
  | nil => rfl
  | cons r rs ih =>
    obtain ⟨hr, hrs⟩ := List.forall_mem_cons.mp h
    have htry : CryptoHash.tryFrom r = some ⟨r, hr⟩ := dif_pos hr
    rw [List.filterMap_cons_some htry, List.flatten_cons, ← ih hrs]
    rfl

theorem concatHashes_asHashes (bytes : List Byte) : concatHashes (asHashes bytes).1 ++ (asHashes bytes).2 = bytes := by
  have hle : 0 + 32 * (bytes.length / 32) ≤ bytes.length := by omega
  unfold asHashes
  simp only
  rw [concatHashes_filterMap (length_of_mem_records hle), flatten_records hle, slice, List.drop_zero, Nat.mul_comm,
    List.take_append_drop]

namespace MerkleProof

theorem unpack_of_pack {index len : Nat} {byte : Byte} (h : packIndexLen index len = some byte) :
    unpackIndexLen byte = some (index, len) ∧ 0 < len ∧ len < merkleFanout ∧ index ≤ len := by
  unfold packIndexLen at h
  split at h
  · rename_i hbounds
    cases h
    have hall : ∀ i < 16, ∀ n < 16, i ≤ n →
        unpackIndexLen (BitVec.ofNat 8 i <<< 4 ||| BitVec.ofNat 8 n) = some (i, n) := by decide
    exact ⟨hall index (hbounds.2.2.trans_lt hbounds.2.1) len hbounds.2.1 hbounds.2.2, hbounds⟩
  · cases h

variable {path path' : List Byte} {siblings siblings' : List CryptoHash} {ls : List (Nat × List CryptoHash)}

theorem levelsOf_append (h : levelsOf path siblings = some ls) :
    levelsOf (path ++ path') (siblings ++ siblings') = (levelsOf path' siblings').map (ls ++ ·) := by
  induction path generalizing siblings ls with
  | nil =>
    rw [levelsOf] at h
    split at h
    · rename_i hnil
      cases h
      rw [hnil]
      simp
    · cases h
  | cons byte path ih =>
    rw [levelsOf] at h
    rw [List.cons_append, levelsOf]
    cases hu : unpackIndexLen byte with
    | none =>
      rw [hu] at h
      cases h
    | some pair =>
      obtain ⟨index, len⟩ := pair
      rw [hu] at h
      simp only at h ⊢
      split at h
      · rename_i hle
        obtain ⟨ls', hls', rfl⟩ := Option.map_eq_some_iff.mp h
        rw [if_pos (by rw [List.length_append]; omega), List.drop_append_of_le_length hle,
          List.take_append_of_le_length hle, ih hls', Option.map_map]
        rfl
      · cases h

theorem levelsOf_singleton {byte : Byte} {index len : Nat} (hu : unpackIndexLen byte = some (index, len))
    (hlen : siblings.length = len) : levelsOf [byte] siblings = some [(index, siblings)] := by
  subst hlen
  simp [levelsOf, hu]

/-- There are levels if no byte of the path is bad and the siblings are as many as it says. -/
theorem levelsOf_isSome_iff : (levelsOf path siblings).isSome ↔
    ∃ unpacked, path.mapM unpackIndexLen = some unpacked ∧ siblings.length = (unpacked.map (·.2)).sum := by
  induction path generalizing siblings with
  | nil =>
    rw [levelsOf, List.mapM_nil]
    split
    · rename_i hnil
      exact iff_of_true rfl ⟨[], rfl, by rw [hnil]; rfl⟩
    · rename_i hne
      refine iff_of_false nofun ?_
      rintro ⟨unpacked, hu, hlen⟩
      cases hu
      exact hne (List.length_eq_zero_iff.mp hlen)
  | cons byte path ih =>
    rw [levelsOf, List.mapM_cons]
    cases hu : unpackIndexLen byte with
    | none => exact iff_of_false nofun nofun
    | some pair =>
      obtain ⟨index, len⟩ := pair
      simp only [Option.bind_eq_bind, Option.bind_some, Option.pure_def]
      constructor
      · intro h
        split at h
        · rename_i hle
          rw [Option.isSome_map] at h
          obtain ⟨unpacked, hpath, hlen⟩ := ih.mp h
          refine ⟨(index, len) :: unpacked, by rw [hpath, Option.bind_some], ?_⟩
          rw [List.length_drop] at hlen
          rw [List.map_cons, List.sum_cons]
          omega
        · cases h
      · rintro ⟨unpacked, hpath, hlen⟩
        obtain ⟨unpacked', hpath', heq⟩ := Option.bind_eq_some_iff.mp hpath
        cases heq
        rw [List.map_cons, List.sum_cons] at hlen
        rw [if_pos (by omega), Option.isSome_map]
        exact ih.mpr ⟨unpacked', hpath', by rw [List.length_drop]; omega⟩

/-- A level which is pushed comes last. -/
theorem levels_pushLevel {p p' : MerkleProof} {chunk : List CryptoHash} {index : Nat}
    (h : p.pushLevel chunk index = some p') (hp : p.levels = some ls) :
    p'.levels = some (ls ++ [(index, chunk.eraseIdx index)]) := by
  unfold pushLevel at h
  split at h
  · rename_i hlt
    split at h
    · cases h
    · rename_i byte hbyte
      obtain ⟨hu, -⟩ := unpack_of_pack hbyte
      split at h
      · cases h
        have hlast := levelsOf_singleton hu (List.length_eraseIdx_of_lt hlt)
        exact (levelsOf_append hp).trans (by rw [hlast]; rfl)
      · cases h
  · cases h

/-- What can be made by adding levels to the empty proof. -/
inductive Built : MerkleProof → Prop
  | default : Built default
  | pushLevel {p p' : MerkleProof} (hp : Built p) (chunk : List CryptoHash) (idxInChunk : Nat)
      (h : p.pushLevel chunk idxInChunk = some p') : Built p'

theorem Built.levels {p : MerkleProof} (h : Built p) : p.levels.isSome := by
  induction h with
  | default => rfl
  | pushLevel _ chunk index h ih =>
    obtain ⟨ls, hls⟩ := Option.isSome_iff_exists.mp ih
    rw [levels_pushLevel h hls]
    rfl

theorem toNat_depth (p : MerkleProof) : (BitVec.ofNat 8 p.path.length).toNat = p.path.length := by
  have hle := p.depth_le
  unfold maxDepth at hle
  rw [BitVec.toNat_ofNat]
  omega

/-- A proof which has levels is read back. -/
theorem fromBinary_toBinary {p : MerkleProof} (h : p.levels.isSome) : fromBinary p.toBinary = some (some p) := by
  obtain ⟨unpacked, hpath, hlen⟩ := levelsOf_isSome_iff.mp h
  have htake : (p.path ++ concatHashes p.siblings).take p.path.length = p.path := List.take_left
  have hdrop : (p.path ++ concatHashes p.siblings).drop p.path.length = concatHashes p.siblings := List.drop_left
  unfold toBinary fromBinary
  simp only [toNat_depth, htake, hdrop, asHashes_concatHashes, hpath]
  rw [if_pos (by rw [List.length_append]; omega), dif_pos p.depth_le, if_pos ⟨trivial, hlen⟩]

/-- The path which bytes claim to hold, if they are long enough and it is not too long. -/
def pathIn : List Byte → Option (List Byte)
  | [] => none
  | depth :: bytes =>
    if depth.toNat ≤ bytes.length ∧ depth.toNat ≤ maxDepth then some (bytes.take depth.toNat) else none

/-- Reading panics exactly at paths with an index which is out of range. -/
theorem fromBinary_eq_none_iff {bytes : List Byte} :
    fromBinary bytes = none ↔ ∃ path, pathIn bytes = some path ∧ path.mapM unpackIndexLen = none := by
  cases bytes with
  | nil =>
    refine iff_of_false (Option.some_ne_none _) ?_
    rintro ⟨path, hsome, -⟩
    cases hsome
  | cons depth bytes =>
    simp only [fromBinary, pathIn]
    split
    · rename_i hlen
      have htake : (bytes.take depth.toNat).length = depth.toNat := List.length_take_of_le hlen
      split
      · rename_i hdepth
        rw [htake] at hdepth
        rw [if_pos ⟨hlen, hdepth⟩]
        cases hpath : (bytes.take depth.toNat).mapM unpackIndexLen with
        | none => exact iff_of_true rfl ⟨_, rfl, hpath⟩
        | some unpacked =>
          refine iff_of_false ?_ ?_
          · simp only
            split <;> exact Option.some_ne_none _
          · rintro ⟨path, hsome, hnone⟩
            cases hsome
            cases hpath.symm.trans hnone
      · rename_i hdepth
        rw [htake] at hdepth
        rw [if_neg fun h => hdepth h.2]
        refine iff_of_false (Option.some_ne_none _) ?_
        rintro ⟨path, hsome, -⟩
        cases hsome
    · rename_i hlen
      rw [if_neg fun h => hlen h.1]
      refine iff_of_false (Option.some_ne_none _) ?_
      rintro ⟨path, hsome, -⟩
      cases hsome

/-- What is read has levels and is written as it was. -/
theorem fromBinary_some {bytes : List Byte} {p : MerkleProof} (h : fromBinary bytes = some (some p)) :
    p.toBinary = bytes ∧ p.levels.isSome := by
  cases bytes with
  | nil => cases h
  | cons depth bytes =>
    simp only [fromBinary] at h
    split at h
    · rename_i hlen
      split at h
      · split at h
        · cases h
        · rename_i unpacked hpath
          split at h
          · rename_i hrest
            cases h
            refine ⟨?_, levelsOf_isSome_iff.mpr ⟨unpacked, hpath, hrest.2⟩⟩
            have hbytes := concatHashes_asHashes (bytes.drop depth.toNat)
            rw [hrest.1, List.append_nil] at hbytes
            rw [toBinary]
            simp only [hbytes, List.length_take, min_eq_left hlen, BitVec.ofNat_toNat, BitVec.setWidth_eq,
              List.take_append_drop]
          · cases h
      · cases h
    · cases h

theorem mapM_unpack_eq_none_iff {path : List Byte} :
    path.mapM unpackIndexLen = none ↔ ∃ byte ∈ path, (byte &&& 15#8).toNat < (byte >>> 4).toNat := by
  induction path with
  | nil => exact iff_of_false nofun nofun
  | cons byte path ih =>
    rw [List.mapM_cons, List.exists_mem_cons_iff, ← ih]
    by_cases hle : (byte >>> 4).toNat ≤ (byte &&& 15#8).toNat
    · have hu : unpackIndexLen byte = some ((byte >>> 4).toNat, (byte &&& 15#8).toNat) := if_pos hle
      rw [hu, Option.bind_eq_bind, Option.bind_some]
      cases path.mapM unpackIndexLen with
      | none => exact iff_of_true rfl (Or.inr rfl)
      | some unpacked =>
        refine iff_of_false nofun ?_
        rintro (hlt | hnone)
        · exact absurd hle (not_le.mpr hlt)
        · cases hnone
    · have hu : unpackIndexLen byte = none := if_neg hle
      rw [hu]
      exact iff_of_true rfl (Or.inl (not_le.mp hle))

/-- No index in the path exceeds the number of siblings. -/
def IndicesInRange (bytes : List Byte) : Prop :=
  ∀ path, pathIn bytes = some path → ∀ byte ∈ path, (byte >>> 4).toNat ≤ (byte &&& 15#8).toNat

/-- Bytes are read without a panic, into a proof which is written as the same bytes and has a root for
every account, exactly if no index in their path is out of range. Proofs made level by level are read
back. -/
theorem codec_exact_iff (bytes : List Byte) :
    ((∃ res, fromBinary bytes = some res ∧ ∀ p, res = some p →
        p.toBinary = bytes ∧ ∀ digest account, (p.expectedRoot digest account).isSome) ↔ IndicesInRange bytes) ∧
      ∀ p, Built p → fromBinary p.toBinary = some (some p) := by
  refine ⟨?_, fun p hp => fromBinary_toBinary hp.levels⟩
  have hnone : fromBinary bytes ≠ none ↔ IndicesInRange bytes := by
    rw [Ne, fromBinary_eq_none_iff]
    simp only [mapM_unpack_eq_none_iff]
    constructor
    · intro h path hpath byte hbyte
      refine not_lt.mp fun hlt => h ⟨path, hpath, byte, hbyte, hlt⟩
    · rintro h ⟨path, hpath, byte, hbyte, hlt⟩
      exact absurd (h path hpath byte hbyte) (not_le.mpr hlt)
  rw [← hnone]
  constructor
  · rintro ⟨res, hres, -⟩
    rw [hres]
    nofun
  · intro h
    obtain ⟨res, hres⟩ := Option.ne_none_iff_exists'.mp h
    refine ⟨res, hres, ?_⟩
    rintro p rfl
    obtain ⟨hbytes, hlevels⟩ := fromBinary_some hres
    refine ⟨hbytes, fun digest account => ?_⟩
    rw [expectedRoot, Option.isSome_map]
    exact hlevels

/-- Depth one, and a path which puts the node second among itself and no siblings. -/
theorem fromBinary_panics :
    ¬ ∃ res, fromBinary [1#8, 0x10#8] = some res ∧ ∀ p, res = some p →
      p.toBinary = [1#8, 0x10#8] ∧ ∀ digest account, (p.expectedRoot digest account).isSome := by
  rintro ⟨res, hres, -⟩
  have hnone : (fromBinary [1#8, 0x10#8]).isNone := by decide
  rw [hres] at hnone
  cases hnone

end MerkleProof

end CfSolana
