import EmulatedLightClient.SolanaHeader

/-!
# Conversions of messages

A header converts from a message exactly if all its fields read. Filling in the fields which the second
header of a misbehaviour leaves out comes to the same as converting the completed header, except that
owned messages take the account data out of the message first and never look for them in the other one.
-/

namespace CfSolana

open ByteBits MachineInts Nodes Buffers

section

variable {α β : Type}

@[simp] theorem okOr_some_bind (a : α) (f : α → Conversion β) : (okOr (some a) >>= f) = f a := rfl

@[simp] theorem okOr_none_bind (f : α → Conversion β) : (okOr none >>= f) = throw .badMessage := rfl

@[simp] theorem throw_bind (f : α → Conversion β) : ((throw .badMessage : Conversion α) >>= f) = throw .badMessage := rfl

@[simp] theorem panic_bind (f : α → Conversion β) : ((ExceptT.mk none : Conversion α) >>= f) = ExceptT.mk none := rfl

theorem pure_ne_throw (a : α) : (pure a : Conversion α) ≠ throw .badMessage := nofun

theorem panic_ne_throw : (ExceptT.mk none : Conversion α) ≠ throw .badMessage := nofun

/-- A conversion fails, panics or has a value. -/
theorem conversion_cases (x : Conversion α) : x = throw .badMessage ∨ x = ExceptT.mk none ∨ ∃ a, x = pure a :=
  match x with
  | none => .inr (.inl rfl)
  | some (.error .badMessage) => .inl rfl
  | some (.ok a) => .inr (.inr ⟨a, rfl⟩)

theorem bind_eq_throw_iff {x : Conversion α} {f : α → Conversion β} :
    (x >>= f) = throw .badMessage ↔ x = throw .badMessage ∨ ∃ a, x = pure a ∧ f a = throw .badMessage := by
  rcases conversion_cases x with rfl | rfl | ⟨a, rfl⟩
  · exact iff_of_true rfl (.inl rfl)
  · refine iff_of_false panic_ne_throw ?_
    rintro (h | ⟨a, h, -⟩) <;> cases h
  · rw [pure_bind]
    constructor
    · intro h
      exact .inr ⟨a, rfl, h⟩
    · rintro (h | ⟨a', h, hf⟩)
      · cases h
      · cases h
        exact hf

theorem okOr_bind_eq_throw_iff {o : Option α} {f : α → Conversion β} :
    (okOr o >>= f) = throw .badMessage ↔ ∀ a, o = some a → f a = throw .badMessage := by
  cases o with
  | none => exact iff_of_true rfl nofun
  | some a =>
    rw [okOr_some_bind]
    constructor
    · rintro h a ⟨⟩
      exact h
    · intro h
      exact h a rfl

end

namespace DeltaHashProof

variable (parent delta blockhash : CryptoHash) (numSigs : Fin (2 ^ 64))

theorem ofShort_eq :
    ofShort (parent.bytes ++ delta.bytes ++ leBytes 8 numSigs ++ blockhash.bytes) =
      some ⟨parent, delta, numSigs, blockhash, none⟩ := by
  have h₁ : slice (parent.bytes ++ delta.bytes ++ leBytes 8 numSigs ++ blockhash.bytes) 0 32 = parent.bytes := by
    have := slice_append_mid (l := []) (t := delta.bytes ++ leBytes 8 numSigs ++ blockhash.bytes) rfl parent.size
    simpa using this
  have h₂ : slice (parent.bytes ++ delta.bytes ++ leBytes 8 numSigs ++ blockhash.bytes) 32 32 = delta.bytes := by
    have := slice_append_mid (t := leBytes 8 numSigs ++ blockhash.bytes) parent.size delta.size
    simpa using this
  have h₃ : slice (parent.bytes ++ delta.bytes ++ leBytes 8 numSigs ++ blockhash.bytes) 64 8 = leBytes 8 numSigs :=
    slice_append_mid (by rw [List.length_append, parent.size, delta.size]) (length_leBytes 8 numSigs)
  have h₄ : slice (parent.bytes ++ delta.bytes ++ leBytes 8 numSigs ++ blockhash.bytes) 72 32 = blockhash.bytes := by
    have hlen : (parent.bytes ++ delta.bytes ++ leBytes 8 numSigs).length = 72 := by
      rw [List.length_append, List.length_append, parent.size, delta.size, length_leBytes]
    have := slice_append_mid (t := []) hlen blockhash.size
    rwa [List.append_nil] at this
  have hsigs : Fin.ofNat (2 ^ 64) (ofLeBytes (leBytes 8 numSigs)) = numSigs := by
    rw [ofLeBytes_leBytes (Nat.lt_of_lt_of_le numSigs.isLt (by decide))]
    exact Fin.ext (Nat.mod_eq_of_lt numSigs.isLt)
  simp only [ofShort, h₁, h₂, h₃, h₄, hsigs, CryptoHash.tryFrom_bytes, Option.bind_eq_bind, Option.bind_some, Option.pure_def]

theorem length_short :
    (parent.bytes ++ delta.bytes ++ leBytes 8 numSigs ++ blockhash.bytes).length = 104 := by
  rw [List.length_append, List.length_append, List.length_append, parent.size, delta.size, blockhash.size,
    length_leBytes]

theorem fromBinary_toBinary (p : DeltaHashProof) : fromBinary p.toBinary = some p := by
  rcases p with ⟨parent, delta, numSigs, blockhash, epoch⟩
  have hshort := length_short parent delta blockhash numSigs
  cases epoch with
  | none =>
    simp only [toBinary, Option.map_none, Option.getD_none, List.append_nil, fromBinary, if_pos hshort]
    exact ofShort_eq parent delta blockhash numSigs
  | some hash =>
    have hlen : (parent.bytes ++ delta.bytes ++ leBytes 8 numSigs ++ blockhash.bytes ++ hash.bytes).length = 136 := by
      rw [List.length_append, hshort, hash.size]
    have hpart : slice (parent.bytes ++ delta.bytes ++ leBytes 8 numSigs ++ blockhash.bytes ++ hash.bytes) 0 104 =
        slice (parent.bytes ++ delta.bytes ++ leBytes 8 numSigs ++ blockhash.bytes) 0 104 :=
      slice_append_left (Nat.le_of_eq hshort.symm)
    have hwhole : slice (parent.bytes ++ delta.bytes ++ leBytes 8 numSigs ++ blockhash.bytes) 0 104 =
        parent.bytes ++ delta.bytes ++ leBytes 8 numSigs ++ blockhash.bytes := by
      rw [slice, List.drop_zero, ← hshort, List.take_length]
    have hhash : slice (parent.bytes ++ delta.bytes ++ leBytes 8 numSigs ++ blockhash.bytes ++ hash.bytes) 104 32 =
        hash.bytes := by
      have := slice_append_mid (t := []) hshort hash.size
      rwa [List.append_nil] at this
    simp only [toBinary, Option.map_some, Option.getD_some, fromBinary, hlen, hpart, hwhole, hhash, ofShort_eq,
      CryptoHash.tryFrom_bytes, Option.bind_eq_bind, Option.bind_some, Option.pure_def]
    rfl

theorem ofShort_isSome {short : List Byte} (h : short.length = 104) : (ofShort short).isSome := by
  have hslice (off : Nat) (hoff : off + 32 ≤ 104) : ∃ hash, CryptoHash.tryFrom (slice short off 32) = some hash :=
    ⟨⟨_, length_slice (h ▸ hoff)⟩, dif_pos (length_slice (h ▸ hoff))⟩
  obtain ⟨parent, h₁⟩ := hslice 0 (by decide)
  obtain ⟨delta, h₂⟩ := hslice 32 (by decide)
  obtain ⟨blockhash, h₃⟩ := hslice 72 (by decide)
  simp only [ofShort, h₁, h₂, h₃, Option.bind_eq_bind, Option.bind_some, Option.pure_def, Option.isSome_some]

theorem fromBinary_isSome_iff {bytes : List Byte} :
    (fromBinary bytes).isSome ↔ bytes.length = 104 ∨ bytes.length = 136 := by
  unfold fromBinary
  split
  · rename_i h
    exact iff_of_true (ofShort_isSome h) (.inl h)
  · rename_i h₁
    split
    · rename_i h
      refine iff_of_true ?_ (.inr h)
      have hlen : (slice bytes 0 104).length = 104 := length_slice (by omega)
      obtain ⟨p, hp⟩ := Option.isSome_iff_exists.mp (ofShort_isSome hlen)
      have hhash : (slice bytes 104 32).length = 32 := length_slice (by omega)
      simp only [hp, CryptoHash.tryFrom, dif_pos hhash, Option.bind_eq_bind, Option.bind_some, Option.pure_def,
        Option.isSome_some]
    · rename_i h₂
      refine iff_of_false Bool.false_ne_true ?_
      rintro (h | h)
      · exact h₁ h
      · exact h₂ h

end DeltaHashProof

namespace Proto.Header

/-- The message with the fields it leaves out taken from the other one. -/
def complete (msg base : Proto.Header) : Proto.Header where
  slot := if msg.slot.val = 0 then base.slot else msg.slot
  bankHash := if msg.bankHash = [] then base.bankHash else msg.bankHash
  deltaHashProof := if msg.deltaHashProof = [] then base.deltaHashProof else msg.deltaHashProof
  accountHashData := if msg.accountHashData = [] then base.accountHashData else msg.accountHashData
  accountMerkleProof := if msg.accountMerkleProof = [] then base.accountMerkleProof else msg.accountMerkleProof

/-- What is checked before the Merkle proof is read. -/
structure FieldsRead (msg : Proto.Header) : Prop where
  slot : msg.slot.val ≠ 0
  bankHash : msg.bankHash.length = 32
  deltaHashProof : msg.deltaHashProof.length = 104 ∨ msg.deltaHashProof.length = 136
  accountHashData : AccountHashData.lengthFor 0 ≤ msg.accountHashData.length

/-- Whether the header is not refused; reading the Merkle proof of one that is not may still panic. -/
def NotRefused (msg : Proto.Header) : Prop :=
  FieldsRead msg ∧ MerkleProof.fromBinary msg.accountMerkleProof ≠ some none

end Proto.Header

namespace Header

theorem pick_none (field : Proto.Header → List Byte) (msg : Proto.Header) :
    pick field msg none = okOr ((some (field msg)).filter (· ≠ [])) := by
  rw [pick, Option.map_none, Option.filter_none, Option.or_none]

theorem filter_given {bytes : List Byte} (h : bytes ≠ []) : (some bytes).filter (· ≠ []) = some bytes :=
  Option.filter_some_pos (decide_eq_true h)

theorem filter_nonempty (a b : List Byte) :
    ((some a).filter (· ≠ [])).or ((some b).filter (· ≠ [])) = (some (if a = [] then b else a)).filter (· ≠ []) := by
  by_cases h : a = []
  · rw [if_pos h, h]
    rfl
  · rw [if_neg h, filter_given h, Option.some_or]

/-- Picking a field is completing the message. -/
theorem pick_some (field : Proto.Header → List Byte) {msg base : Proto.Header}
    (h : field (msg.complete base) = if field msg = [] then field base else field msg) :
    pick field msg (some base) = pick field (msg.complete base) none := by
  rw [pick_none, pick, Option.map_some, filter_nonempty, h]

theorem slot_complete (msg base : Proto.Header) :
    (NonZero.new msg.slot).or (NonZero.new base.slot) = NonZero.new (msg.complete base).slot := by
  unfold Proto.Header.complete
  by_cases h : msg.slot.val = 0
  · rw [if_pos h]
    have hnone : NonZero.new msg.slot = none := dif_neg (by omega)
    rw [hnone, Option.none_or]
  · rw [if_neg h]
    have hsome : (NonZero.new msg.slot).isSome := by
      rw [NonZero.new, dif_pos (Nat.pos_of_ne_zero h)]
      rfl
    obtain ⟨slot, hslot⟩ := Option.isSome_iff_exists.mp hsome
    rw [hslot, Option.some_or]

/-- Converting against a base is converting the completed message. -/
theorem tryFromProto_base (msg base : Proto.Header) :
    tryFromProto msg none (some base) = tryFromRef (msg.complete base) := by
  unfold tryFromRef tryFromProto
  rw [Option.bind_some, slot_complete, Option.bind_none, Option.or_none]
  rw [pick_some (·.bankHash) rfl, pick_some (·.deltaHashProof) rfl, pick_some (·.accountHashData) rfl,
    pick_some (·.accountMerkleProof) rfl]

/-- Account data which are not empty may as well be taken out first. -/
theorem tryFromProto_taken {msg : Proto.Header} (base : Option Proto.Header) (h : msg.accountHashData ≠ []) :
    tryFromProto { msg with accountHashData := [] } (some msg.accountHashData) base = tryFromProto msg none base := by
  have hpick : pick (·.accountHashData) msg base = pure msg.accountHashData := by
    rw [pick, filter_given h, Option.some_or]
    rfl
  unfold tryFromProto
  simp only [hpick, pure_bind]
  rfl

/-- Without account data an owned message is always refused. -/
theorem tryFromProto_nil (msg : Proto.Header) (base : Option Proto.Header) :
    tryFromProto msg (some []) base = throw .badMessage := by
  unfold tryFromProto
  refine okOr_bind_eq_throw_iff.mpr fun slot _ => ?_
  refine okOr_bind_eq_throw_iff.mpr fun bankHash _ => ?_
  refine okOr_bind_eq_throw_iff.mpr fun bankHash _ => ?_
  refine okOr_bind_eq_throw_iff.mpr fun deltaHashProof _ => ?_
  exact okOr_bind_eq_throw_iff.mpr fun deltaHashProof _ => rfl

/-- Owned headers and borrowed ones convert alike. -/
theorem tryFromOwned_eq (msg : Proto.Header) : tryFromOwned msg = tryFromRef msg := by
  unfold tryFromOwned
  by_cases h : msg.accountHashData = []
  · rw [h, tryFromProto_nil]
    symm
    unfold tryFromRef tryFromProto
    refine okOr_bind_eq_throw_iff.mpr fun slot _ => ?_
    refine okOr_bind_eq_throw_iff.mpr fun bankHash _ => ?_
    refine okOr_bind_eq_throw_iff.mpr fun bankHash _ => ?_
    refine okOr_bind_eq_throw_iff.mpr fun deltaHashProof _ => ?_
    refine okOr_bind_eq_throw_iff.mpr fun deltaHashProof _ => ?_
    have hpick : pick (·.accountHashData) msg none = throw .badMessage := by
      rw [pick_none, h]
      rfl
    simp only [hpick, throw_bind]
  · exact tryFromProto_taken none h

/-- A field which is there is what is picked. -/
theorem pick_eq {field : Proto.Header → List Byte} {msg : Proto.Header} (h : field msg ≠ []) :
    pick field msg none = pure (field msg) := by
  rw [pick_none, filter_given h]
  rfl

theorem tryFrom_isSome_iff {bytes : List Byte} : (CryptoHash.tryFrom bytes).isSome ↔ bytes.length = 32 := by
  unfold CryptoHash.tryFrom
  split <;> simp [*]

/-- Once the other fields read, the conversion is that of the Merkle proof. -/
theorem tryFromRef_of_fieldsRead {msg : Proto.Header} (h : msg.FieldsRead) :
    ∃ f : { p : MerkleProof // p.levels.isSome } → Header,
      tryFromRef msg = readProof msg.accountMerkleProof >>= fun p => pure (f p) := by
  obtain ⟨bankHash, hbank⟩ := Option.isSome_iff_exists.mp (tryFrom_isSome_iff.mpr h.bankHash)
  obtain ⟨deltaHashProof, hdelta⟩ :=
    Option.isSome_iff_exists.mp (DeltaHashProof.fromBinary_isSome_iff.mpr h.deltaHashProof)
  obtain ⟨slot, hslot⟩ : ∃ slot, NonZero.new msg.slot = some slot := ⟨_, dif_pos (Nat.pos_of_ne_zero h.slot)⟩
  obtain ⟨data, hdata⟩ : ∃ data, AccountHashData.tryFrom msg.accountHashData = some data :=
    ⟨_, dif_pos h.accountHashData⟩
  have hpick₁ : pick (·.bankHash) msg none = pure msg.bankHash :=
    pick_eq (List.ne_nil_of_length_pos (by rw [h.bankHash]; decide))
  have hpick₂ : pick (·.deltaHashProof) msg none = pure msg.deltaHashProof :=
    pick_eq (List.ne_nil_of_length_pos (by have := h.deltaHashProof; omega))
  have hpick₃ : pick (·.accountHashData) msg none = pure msg.accountHashData :=
    pick_eq (List.ne_nil_of_length_pos (Nat.lt_of_lt_of_le (by decide) h.accountHashData))
  unfold tryFromRef tryFromProto
  simp only [hslot, hbank, hdelta, hdata, hpick₁, hpick₂, hpick₃, pure_bind, Option.some_or, okOr_some_bind]
  refine ⟨fun p => ⟨slot, bankHash, deltaHashProof, ⟨data, p.1, p.2⟩⟩, ?_⟩
  by_cases hproof : msg.accountMerkleProof = []
  · rw [pick_none, hproof]
    rfl
  · rw [pick_eq hproof, pure_bind]

/-- A picked field is that of the message. -/
theorem pick_bind_eq_throw {α : Type} {field : Proto.Header → List Byte} {msg : Proto.Header} {f : List Byte → Conversion α}
    (h : f (field msg) = throw .badMessage) : (pick field msg none >>= f) = throw .badMessage := by
  by_cases hfield : field msg = []
  · rw [pick_none, hfield]
    rfl
  · rw [pick_eq hfield, pure_bind, h]

theorem tryFromRef_of_not_fieldsRead {msg : Proto.Header} (h : ¬ msg.FieldsRead) :
    tryFromRef msg = throw .badMessage := by
  unfold tryFromRef tryFromProto
  refine okOr_bind_eq_throw_iff.mpr fun slot hslot => ?_
  refine pick_bind_eq_throw (okOr_bind_eq_throw_iff.mpr fun bankHash hbank => ?_)
  refine pick_bind_eq_throw (okOr_bind_eq_throw_iff.mpr fun deltaHashProof hdelta => ?_)
  refine pick_bind_eq_throw (okOr_bind_eq_throw_iff.mpr fun data hdata => ?_)
  refine absurd ?_ h
  constructor
  · intro hzero
    rw [Option.bind_none, Option.or_none, NonZero.new, dif_neg (by omega)] at hslot
    cases hslot
  · exact tryFrom_isSome_iff.mp (Option.isSome_of_eq_some hbank)
  · exact DeltaHashProof.fromBinary_isSome_iff.mp (Option.isSome_of_eq_some hdelta)
  · refine not_lt.mp fun hlt => ?_
    rw [AccountHashData.tryFrom_eq_none_iff.mpr hlt] at hdata
    cases hdata

theorem readProof_eq_throw_iff {bytes : List Byte} :
    readProof bytes = throw .badMessage ↔ MerkleProof.fromBinary bytes = some none := by
  unfold readProof
  split
  · rename_i h
    exact iff_of_false panic_ne_throw (by rw [h]; nofun)
  · rename_i h
    exact iff_of_true rfl h
  · rename_i p h
    exact iff_of_false (pure_ne_throw _) (by rw [h]; nofun)

theorem readProof_eq_panic_iff {bytes : List Byte} :
    readProof bytes = ExceptT.mk none ↔ MerkleProof.fromBinary bytes = none := by
  unfold readProof
  split
  · rename_i h
    exact iff_of_true rfl h
  · rename_i h
    exact iff_of_false nofun (by rw [h]; nofun)
  · rename_i p h
    exact iff_of_false nofun (by rw [h]; nofun)

/-- The conversion fails exactly at the headers which are refused. -/
theorem tryFromRef_eq_throw_iff {msg : Proto.Header} : tryFromRef msg = throw .badMessage ↔ ¬ msg.NotRefused := by
  by_cases h : msg.FieldsRead
  · obtain ⟨f, hf⟩ := tryFromRef_of_fieldsRead h
    rw [hf, bind_eq_throw_iff, readProof_eq_throw_iff, Proto.Header.NotRefused, not_and, not_ne_iff]
    constructor
    · rintro (hbytes | ⟨p, -, hp⟩)
      · exact fun _ => hbytes
      · exact absurd hp (pure_ne_throw _)
    · intro hbytes
      exact .inl (hbytes h)
  · exact iff_of_true (tryFromRef_of_not_fieldsRead h) fun hr => h hr.1

theorem tryFromRef_eq_panic_iff {msg : Proto.Header} : tryFromRef msg = ExceptT.mk none ↔
    msg.FieldsRead ∧ MerkleProof.fromBinary msg.accountMerkleProof = none := by
  by_cases h : msg.FieldsRead
  · obtain ⟨f, hf⟩ := tryFromRef_of_fieldsRead h
    rw [hf, ← readProof_eq_panic_iff, and_iff_right h]
    rcases conversion_cases (readProof msg.accountMerkleProof) with hp | hp | ⟨p, hp⟩ <;> rw [hp]
    · exact iff_of_false nofun nofun
    · exact iff_of_true rfl rfl
    · exact iff_of_false nofun nofun
  · rw [tryFromRef_of_not_fieldsRead h]
    exact iff_of_false nofun fun hr => h hr.1

end Header

namespace Misbehaviour

/-- The second header completed by the first one, then the first one. -/
theorem tryFromRef_eq (header1 header2 : Proto.Header) :
    tryFromRef ⟨some header1, some header2⟩ = (do
      let header2 ← Header.tryFromRef (header2.complete header1)
      let header1 ← Header.tryFromRef header1
      return ⟨header1, header2⟩) := by
  unfold tryFromRef
  rw [okOr_some_bind, okOr_some_bind, Header.tryFromProto_base]

theorem tryFromOwned_of_ne_nil {header1 header2 : Proto.Header} (h : header2.accountHashData ≠ []) :
    tryFromOwned ⟨some header1, some header2⟩ = tryFromRef ⟨some header1, some header2⟩ := by
  unfold tryFromOwned tryFromRef
  simp only [okOr_some_bind, Header.tryFromProto_taken _ h, Header.tryFromOwned_eq]

theorem tryFromOwned_nil {header1 header2 : Proto.Header} (h : header2.accountHashData = []) :
    tryFromOwned ⟨some header1, some header2⟩ = throw .badMessage := by
  unfold tryFromOwned
  simp only [okOr_some_bind, h, Header.tryFromProto_nil, throw_bind]

/-- Both headers are needed. -/
theorem tryFromOwned_missing {msg : Proto.Misbehaviour} (h : msg.header1 = none ∨ msg.header2 = none) :
    tryFromOwned msg = tryFromRef msg := by
  unfold tryFromOwned tryFromRef
  rcases h with h | h
  · rw [h, okOr_none_bind, okOr_none_bind]
  · refine congrArg _ (funext fun header1 => ?_)
    rw [h, okOr_none_bind, okOr_none_bind]

/-- Whether a message about both headers is refused when its fields are inherited. -/
theorem tryFromRef_eq_throw_iff {header1 header2 : Proto.Header} :
    tryFromRef ⟨some header1, some header2⟩ = throw .badMessage ↔
      ¬ ((header2.complete header1).NotRefused ∧
        (MerkleProof.fromBinary (header2.complete header1).accountMerkleProof = none ∨ header1.NotRefused)) := by
  rw [tryFromRef_eq, bind_eq_throw_iff, Header.tryFromRef_eq_throw_iff]
  rcases conversion_cases (Header.tryFromRef (header2.complete header1)) with hc | hc | ⟨c, hc⟩
  · have hrefused := Header.tryFromRef_eq_throw_iff.mp hc
    exact iff_of_true (.inl hrefused) fun h => hrefused h.1
  · obtain ⟨hread, hpanic⟩ := Header.tryFromRef_eq_panic_iff.mp hc
    have hnot : (header2.complete header1).NotRefused := ⟨hread, by rw [hpanic]; nofun⟩
    refine iff_of_false ?_ (not_not_intro ⟨hnot, .inl hpanic⟩)
    rintro (h | ⟨c, h, -⟩)
    · exact h hnot
    · rw [hc] at h
      cases h
  · have hnot : (header2.complete header1).NotRefused :=
      not_not.mp fun h => pure_ne_throw c (hc ▸ Header.tryFromRef_eq_throw_iff.mpr h)
    have hpanic : MerkleProof.fromBinary (header2.complete header1).accountMerkleProof ≠ none := by
      intro h
      have := Header.tryFromRef_eq_panic_iff.mpr ⟨hnot.1, h⟩
      rw [hc] at this
      cases this
    rw [hc]
    simp only [hnot, hpanic, not_true_eq_false, false_or, true_and, ← Header.tryFromRef_eq_throw_iff]
    constructor
    · rintro ⟨c', -, h⟩
      rcases bind_eq_throw_iff.mp h with h₁ | ⟨_, _, h₁⟩
      · exact h₁
      · exact absurd h₁ (pure_ne_throw _)
    · intro h
      exact ⟨c, rfl, bind_eq_throw_iff.mpr (.inl h)⟩

end Misbehaviour

namespace Proto

/-- What is elided is found again in the other header. -/
theorem complete_dedup (base msg : Proto.Header) : (dedup base msg).complete base = msg.complete base := by
  unfold dedup
  split
  · rename_i h
    unfold Header.complete
    rw [if_pos rfl, h, ite_self]
  · rfl

theorem dedup_accountHashData (base msg : Proto.Header) : (dedup base msg).accountHashData = msg.accountHashData := by
  unfold dedup
  split <;> rfl

end Proto

namespace Header

theorem toProto_bankHash_ne_nil (h : Header) : h.toProto.bankHash ≠ [] :=
  List.ne_nil_of_length_pos (Nat.lt_of_lt_of_eq (by decide) h.bankHash.size.symm)

theorem toProto_deltaHashProof_ne_nil (h : Header) : h.toProto.deltaHashProof ≠ [] := by
  have hlen := DeltaHashProof.fromBinary_isSome_iff.mp
    (Option.isSome_of_eq_some (DeltaHashProof.fromBinary_toBinary h.deltaHashProof))
  have hpos : 0 < h.deltaHashProof.toBinary.length := by omega
  exact List.ne_nil_of_length_pos hpos

theorem toProto_accountHashData_ne_nil (h : Header) : h.toProto.accountHashData ≠ [] :=
  List.ne_nil_of_length_pos (Nat.lt_of_lt_of_le (by decide) h.witnessProof.accountHashData.long)

theorem toProto_accountMerkleProof_ne_nil (h : Header) : h.toProto.accountMerkleProof ≠ [] := List.cons_ne_nil _ _

/-- Nothing is left out of the encoding of a header. -/
theorem complete_toProto (h : Header) (base : Proto.Header) : h.toProto.complete base = h.toProto := by
  have hslot : h.toProto.slot.val ≠ 0 := Nat.pos_iff_ne_zero.mp h.slot.pos
  unfold Proto.Header.complete
  rw [if_neg h.toProto_bankHash_ne_nil, if_neg h.toProto_deltaHashProof_ne_nil, if_neg h.toProto_accountHashData_ne_nil,
    if_neg h.toProto_accountMerkleProof_ne_nil, if_neg hslot]

theorem readProof_toBinary {p : MerkleProof} (h : p.levels.isSome) : readProof p.toBinary = pure ⟨p, h⟩ := by
  have hbytes := MerkleProof.fromBinary_toBinary h
  unfold readProof
  split
  · rename_i hnone
    rw [hbytes] at hnone
    cases hnone
  · rename_i hnone
    rw [hbytes] at hnone
    cases hnone
  · rename_i p' hp'
    rw [hbytes] at hp'
    cases hp'
    rfl

theorem tryFromRef_toProto (h : Header) : tryFromRef h.toProto = pure h := by
  have hslot : NonZero.new h.toProto.slot = some h.slot := dif_pos h.slot.pos
  have hbank : CryptoHash.tryFrom h.toProto.bankHash = some h.bankHash := CryptoHash.tryFrom_bytes h.bankHash
  have hdelta : DeltaHashProof.fromBinary h.toProto.deltaHashProof = some h.deltaHashProof :=
    DeltaHashProof.fromBinary_toBinary h.deltaHashProof
  have hdata : AccountHashData.tryFrom h.toProto.accountHashData = some h.witnessProof.accountHashData :=
    AccountHashData.tryFrom_bytes _
  have hproof : readProof h.toProto.accountMerkleProof = pure ⟨h.witnessProof.proof, h.witnessProof.levels⟩ :=
    readProof_toBinary h.witnessProof.levels
  unfold tryFromRef tryFromProto
  simp only [pick_eq h.toProto_bankHash_ne_nil, pick_eq h.toProto_deltaHashProof_ne_nil,
    pick_eq h.toProto_accountHashData_ne_nil, pick_eq h.toProto_accountMerkleProof_ne_nil, pure_bind, hslot, hbank,
    hdelta, hdata, hproof, Option.some_or, okOr_some_bind]

end Header

namespace Misbehaviour

/-- Two messages about both headers which are the same once completed. -/
theorem toProto_eq (m : Misbehaviour) : ∃ header2 : Proto.Header,
    m.toProto = ⟨some m.header1.toProto, some header2⟩ ∧
      header2.complete m.header1.toProto = m.header2.toProto ∧ header2.accountHashData ≠ [] := by
  refine ⟨_, rfl, ?_, ?_⟩
  · rw [Proto.complete_dedup, Proto.complete_dedup, Proto.complete_dedup, Proto.complete_dedup, Header.complete_toProto]
  · rw [Proto.dedup_accountHashData, Proto.dedup_accountHashData, Proto.dedup_accountHashData, Proto.dedup_accountHashData]
    exact m.header2.toProto_accountHashData_ne_nil

theorem tryFromRef_toProto (m : Misbehaviour) : tryFromRef m.toProto = pure m := by
  obtain ⟨header2, hm, hcomplete, -⟩ := m.toProto_eq
  rw [hm, tryFromRef_eq, hcomplete, Header.tryFromRef_toProto, Header.tryFromRef_toProto, pure_bind, pure_bind]

theorem tryFromOwned_toProto (m : Misbehaviour) : tryFromOwned m.toProto = pure m := by
  obtain ⟨header2, hm, -, hdata⟩ := m.toProto_eq
  rw [← tryFromRef_toProto m, hm, tryFromOwned_of_ne_nil hdata]

end Misbehaviour

namespace Proto.Misbehaviour

/-- The ways of converting a message come to one result, in which the second header has the fields it
leaves out from the first one. -/
structure ConversionsAgree (msg : Proto.Misbehaviour) : Prop where
  owned : CfSolana.Misbehaviour.tryFromOwned msg = CfSolana.Misbehaviour.tryFromRef msg
  inherited : ∀ header1 header2, msg = ⟨some header1, some header2⟩ →
    CfSolana.Misbehaviour.tryFromOwned msg = (do
      let header2 ← CfSolana.Header.tryFromRef (header2.complete header1)
      let header1 ← CfSolana.Header.tryFromRef header1
      return ⟨header1, header2⟩)
  wrapped : ∀ (ε : Type) (W : Wire ε) (direct wrapped : List Byte), W.misbehaviour direct = .ok msg →
    W.clientMessage wrapped = .ok ⟨some (.misbehaviour msg)⟩ →
    CfSolana.ClientMessage.tryFromAny W ibcTypeUrl direct =
      CfSolana.ClientMessage.tryFromAny W ClientMessage.ibcTypeUrl wrapped

/-- A second header without account data is only fine if the completed header or the first one is malformed. -/
def DataGiven (msg : Proto.Misbehaviour) : Prop :=
  ∀ header1 header2, msg = ⟨some header1, some header2⟩ → header2.accountHashData = [] →
    ¬ ((header2.complete header1).NotRefused ∧
      (MerkleProof.fromBinary (header2.complete header1).accountMerkleProof = none ∨ header1.NotRefused))

end Proto.Misbehaviour

theorem mapError_ok {ε ε' M : Type} (f : ε → ε') (msg : M) : (Except.ok msg : Except ε M).mapError f = .ok msg := rfl

/-- Decoding takes the conversion of what has been parsed. -/
theorem decodeWith_of_parsed {ε M α : Type} {parse : List Byte → Except ε M} {buf : List Byte} {msg : M}
    (h : parse buf = .ok msg) (convert : M → Conversion α) :
    decodeWith parse convert buf = (convert msg).adapt fun _ => .badMessage := by
  unfold decodeWith
  rw [h]
  rfl

theorem adapt_map {ε : Type} {α β : Type} (x : Conversion α) (f : α → β) :
    ((f <$> x).adapt fun _ => (.badMessage : Proto.DecodeError ε)) = f <$> x.adapt fun _ => .badMessage := by
  rcases conversion_cases x with rfl | rfl | ⟨a, rfl⟩ <;> rfl

section

variable {ε : Type} (W : Proto.Wire ε) {direct wrapped : List Byte} {msg : Proto.Misbehaviour}

theorem tryFromAny_misbehaviour (h : W.misbehaviour direct = .ok msg) :
    ClientMessage.tryFromAny W Proto.Misbehaviour.ibcTypeUrl direct =
      ClientMessage.misbehaviour <$> (Misbehaviour.tryFromOwned msg).adapt fun _ => .badMessage := by
  unfold ClientMessage.tryFromAny
  rw [if_neg (by decide), if_neg (by decide), if_pos (by decide), Misbehaviour.decode, decodeWith_of_parsed h]

theorem tryFromAny_clientMessage (h : W.clientMessage wrapped = .ok ⟨some (.misbehaviour msg)⟩) :
    ClientMessage.tryFromAny W Proto.ClientMessage.ibcTypeUrl wrapped =
      ClientMessage.misbehaviour <$> (Misbehaviour.tryFromRef msg).adapt fun _ => .badMessage := by
  unfold ClientMessage.tryFromAny
  rw [if_pos (by decide), ClientMessage.decode, decodeWith_of_parsed h, ← adapt_map]
  rfl

end

/-- Encoded headers and messages about misbehaviour decode to themselves, and a message converts the same
way owned, borrowed and wrapped if and only if the second header has account data or is malformed. -/
theorem conversions_agree_iff (msg : Proto.Misbehaviour) : (msg.ConversionsAgree ↔ msg.DataGiven) ∧
    (∀ msg : Proto.Header, Header.tryFromOwned msg = Header.tryFromRef msg) ∧
    (∀ h : Header, Header.tryFromOwned h.toProto = pure h ∧ Header.tryFromRef h.toProto = pure h) ∧
    ∀ m : Misbehaviour, Misbehaviour.tryFromOwned m.toProto = pure m ∧ Misbehaviour.tryFromRef m.toProto = pure m := by
  refine ⟨?_, Header.tryFromOwned_eq, fun h => ?_, fun m => ?_⟩
  · constructor
    · rintro ⟨howned, -, -⟩ header1 header2 rfl hnil
      rw [Misbehaviour.tryFromOwned_nil hnil] at howned
      exact Misbehaviour.tryFromRef_eq_throw_iff.mp howned.symm
    · intro hgiven
      have howned : Misbehaviour.tryFromOwned msg = Misbehaviour.tryFromRef msg := by
        rcases msg with ⟨header1, header2⟩
        cases header1 with
        | none => exact Misbehaviour.tryFromOwned_missing (.inl rfl)
        | some header1 =>
          cases header2 with
          | none => exact Misbehaviour.tryFromOwned_missing (.inr rfl)
          | some header2 =>
            by_cases hnil : header2.accountHashData = []
            · rw [Misbehaviour.tryFromOwned_nil hnil, Misbehaviour.tryFromRef_eq_throw_iff.mpr (hgiven _ _ rfl hnil)]
            · exact Misbehaviour.tryFromOwned_of_ne_nil hnil
      refine ⟨howned, ?_, fun ε W direct wrapped hdirect hwrapped => ?_⟩
      · rintro header1 header2 rfl
        rw [howned, Misbehaviour.tryFromRef_eq]
      · rw [tryFromAny_misbehaviour W hdirect, tryFromAny_clientMessage W hwrapped, howned]
  · rw [Header.tryFromOwned_eq]
    exact ⟨h.tryFromRef_toProto, h.tryFromRef_toProto⟩
  · exact ⟨m.tryFromOwned_toProto, m.tryFromRef_toProto⟩

/-- A header with proofs of zeros and a Merkle proof without levels. -/
def zeroHeader : Proto.Header :=
  ⟨Fin.last (2 ^ 64 - 1), List.replicate 32 0#8, List.replicate 104 0#8, List.replicate 81 0#8, [0#8]⟩

/-- A second header which only gives its slot is inherited from a borrowed message and refused in an owned one. -/
theorem owned_data_not_inherited :
    ¬ Proto.Misbehaviour.ConversionsAgree ⟨some zeroHeader, some ⟨2, [], [], [], []⟩⟩ := by
  have hread : MerkleProof.fromBinary [0#8] ≠ some none := by
    have hsome : (MerkleProof.fromBinary [0#8]).any Option.isSome = true := by decide
    intro h
    rw [h] at hsome
    cases hsome
  have hzero : zeroHeader.NotRefused := ⟨⟨by decide, rfl, .inl rfl, by decide⟩, hread⟩
  have hcompleted : ((⟨2, [], [], [], []⟩ : Proto.Header).complete zeroHeader).NotRefused :=
    ⟨⟨by decide, rfl, .inl rfl, by decide⟩, hread⟩
  intro h
  have howned := h.owned
  rw [Misbehaviour.tryFromOwned_nil rfl] at howned
  exact Misbehaviour.tryFromRef_eq_throw_iff.mp howned.symm ⟨hcompleted, .inr hzero⟩

end CfSolana
