import EmulatedLightClient.MerkleRoots
import EmulatedLightClient.SlotAccumulation

/-!
# What a slot comes to

Only what was received about a slot matters for it, not when it was received, as long as no later slot is rooted
first.
-/

namespace CfSolana

open Nodes

variable {digest : List ByteBits.Byte → CryptoHash}

/-- A key which is among the accounts is found. -/
theorem generate_found {accounts : List (CryptoHash × CryptoHash)} {pubkey account : CryptoHash}
    (hdistinct : (accounts.map (·.1)).Nodup) (hmem : (pubkey, account) ∈ accounts) :
    (MerkleProof.generate digest accounts pubkey).2 ≠ some none := by
  obtain ⟨hfind, -⟩ := findIdx?_sortAccounts hdistinct hmem
  unfold MerkleProof.generate
  simp only [hfind]
  intro h
  obtain ⟨proof, -, heq⟩ := Option.map_eq_some_iff.mp h
  cases heq

theorem generateProof_snd {d : AccountHashData} {accounts : List (CryptoHash × CryptoHash)} {root : CryptoHash}
    {proof : MerkleProof} (h : (MerkleProof.generate digest accounts d.key).2 = some (some (root, proof))) :
    (d.generateProof digest accounts).2 = some (some (root, ⟨d, proof, MerkleProof.generate_levels digest h⟩)) := by
  unfold AccountHashData.generateProof
  simp only
  split
  · rename_i hnone
    cases hnone.symm.trans h
  · rename_i hnone
    cases hnone.symm.trans h
  · rename_i hsome
    cases hsome.symm.trans h
    rfl

end CfSolana

namespace TrieGeyser

open ByteBits CfSolana LinearMaps Nodes

variable {digest : List Byte → CryptoHash} {B : Blake3} {config : Config}

/-- What is recorded for a slot in which both of the accounts were updated. Signatures are counted modulo `2 ^ 64`. -/
structure Recorded (digest : List Byte → CryptoHash) (B : Blake3) (config : Config) (us : List AccountUpdateInfo)
    (numSigs : Nat) (block : BlockInfo) (data : SlotData) : Prop where
  parentBlockhash : data.deltaHashProof.parentBlockhash = block.parentBlockhash
  blockhash : data.deltaHashProof.blockhash = block.blockhash
  epochAccountsHash : data.deltaHashProof.epochAccountsHash = none
  numSigs : data.deltaHashProof.numSigs.val = numSigs % 2 ^ 64
  accountsDeltaHash : data.deltaHashProof.accountsDeltaHash = computeMerkleRoot digest (sortAccounts (accountSet B us))
  witness : ∃ u, Latest us u ∧ u.account.key = config.witnessAccount ∧ data.witnessProof.accountHashData = u.account
  proof : (MerkleProof.generate digest (accountSet B us) config.witnessAccount).2 =
    some (some (data.deltaHashProof.accountsDeltaHash, data.witnessProof.proof))
  expectedRoot : data.witnessProof.expectedRoot digest B = some data.deltaHashProof.accountsDeltaHash
  root : ∃ u, Latest us u ∧ u.account.key = config.rootAccount ∧ data.rootAccount = u.account

/-- What a slot comes to, which is nothing unless both of the accounts were updated. -/
def Outcome (digest : List Byte → CryptoHash) (B : Blake3) (config : Config) (us : List AccountUpdateInfo)
    (numSigs : Nat) (block : BlockInfo) : Option SlotData → Prop
  | none => ¬ (Updated us config.witnessAccount ∧ Updated us config.rootAccount)
  | some data => (Updated us config.witnessAccount ∧ Updated us config.rootAccount) ∧
      Recorded digest B config us numSigs block data

theorem mem_accountSet {us : List AccountUpdateInfo} {u : AccountUpdateInfo} (hu : Latest us u) :
    (u.account.key, u.account.calculateHash B) ∈ accountSet B us :=
  List.mem_map_of_mem (mem_latest.mpr hu)

theorem one_lt_length {α : Type} {l : List α} {a b : α} (ha : a ∈ l) (hb : b ∈ l) (hne : a ≠ b) : 1 < l.length := by
  obtain ⟨before, after, rfl⟩ := List.append_of_mem ha
  rw [List.length_append, List.length_cons]
  rcases List.mem_append.mp hb with hb | hb
  · have hpos := List.length_pos_of_mem hb
    omega
  · have hpos := List.length_pos_of_mem ((List.mem_cons.mp hb).resolve_left hne.symm)
    omega

section

variable {slot : Nat} {w : Worker} {acc : SlotAccumulator} {ms : List Message} {block : BlockInfo}

/-- Rooting a slot of which all that matters was accumulated. -/
theorem handleSlotRooted_spec (hconfig : w.config = config) (hdistinct : config.witnessAccount ≠ config.rootAccount)
    (hslot : w.slots.get slot = some acc) (hacc : acc.Accumulated ms) (hblock : blocks ms = [block])
    (hversions : DistinctVersions (updates ms))
    (hgenerates : (MerkleProof.generate digest (accountSet B (updates ms)) config.witnessAccount).2 ≠ none)
    (iteration : Iteration (Pubkey × Nat × AccountHashData)) :
    ∃ outcome, Outcome digest B config (updates ms) (sigCounts ms).sum block outcome ∧
      w.handleSlotRooted digest B iteration slot =
        some { (w.takeSlot slot).2 with db := outcome.elim w.db (w.db.add slot) } := by
  have htake : w.takeSlot slot = (some acc, (w.takeSlot slot).2) := Prod.ext ((w.takeSlot_fst slot).trans hslot) rfl
  subst hconfig
  have hsame : (w.takeSlot slot).2.config = w.config := rfl
  unfold Worker.handleSlotRooted
  rw [htake]
  simp only [hsame]
  by_cases hwitness : LinearMap.get w.config.witnessAccount acc.accounts = none
  · refine ⟨none, fun h => hacc.get_eq_none_iff.mp hwitness h.1, ?_⟩
    rw [if_pos hwitness]
    rfl
  by_cases hroot : LinearMap.get w.config.rootAccount acc.accounts = none
  · refine ⟨none, fun h => hacc.get_eq_none_iff.mp hroot h.2, ?_⟩
    rw [if_neg hwitness, if_pos hroot]
    rfl
  have hacc_block : acc.block = some block := by
    rw [hacc.block, hblock]
    rfl
  obtain ⟨item, hitem⟩ := Option.ne_none_iff_exists'.mp hwitness
  obtain ⟨item', hitem'⟩ := Option.ne_none_iff_exists'.mp hroot
  obtain ⟨u, hu, hkey, rfl⟩ := (hacc.get_iff hversions).mp hitem
  obtain ⟨v, hv, hkey', rfl⟩ := (hacc.get_iff hversions).mp hitem'
  have hset := nodup_accountSet B hversions
  have hperm := hacc.accounts_perm hversions B iteration
  rw [← hkey, ← generate_congr digest hperm (((hperm.map _).nodup_iff).mpr hset)] at hgenerates
  obtain ⟨generated, hgenerated⟩ := Option.ne_none_iff_exists'.mp hgenerates
  have hgenerated' := hgenerated
  rw [generate_congr digest hperm (((hperm.map _).nodup_iff).mpr hset)] at hgenerated'
  obtain ⟨⟨root, proof⟩, rfl⟩ : ∃ r, generated = some r := by
    rw [← Option.ne_none_iff_exists']
    rintro rfl
    exact generate_found hset (mem_accountSet hu) hgenerated'
  have hne : u.account.key ≠ v.account.key := by rwa [hkey, hkey']
  have hseveral : 1 < (accountSet B (updates ms)).length :=
    one_lt_length (mem_accountSet hu) (mem_accountSet hv) fun h => hne (congrArg Prod.fst h)
  obtain ⟨hcommitment, hexpected⟩ := generate_expectedRoot digest hset (mem_accountSet hu) hseveral hgenerated'
  have hremoved : LinearMap.get w.config.rootAccount (LinearMap.remove w.config.witnessAccount acc.accounts) =
      some (v.writeVersion, v.account) := by
    rw [LinearMap.get_remove acc.distinct, if_neg hdistinct.symm, hitem']
  refine ⟨some ⟨⟨block.parentBlockhash, root, ⟨acc.numSigs, acc.fits⟩, block.blockhash, none⟩,
    ⟨u.account, proof, MerkleProof.generate_levels digest hgenerated'⟩, v.account⟩, ⟨⟨⟨u, hu.1, hkey⟩, ⟨v, hv.1, hkey'⟩⟩, ?_⟩, ?_⟩
  · exact ⟨rfl, rfl, rfl, hacc.numSigs, hcommitment, ⟨u, hu, hkey, rfl⟩, hkey ▸ hgenerated', hexpected, ⟨v, hv, hkey', rfl⟩⟩
  · rw [if_neg hwitness, if_neg hroot, hacc_block]
    simp only [hitem, hremoved, generateProof_snd hgenerated, Option.bind_eq_bind, Option.bind_some]
    rfl

end

section

variable {slot t : Nat} {w w' : Worker} {ms : List Message} {m : Message} {received : List Received}
  {iteration : Iteration (Pubkey × Nat × AccountHashData)}

/-- What rooting some slot may change. -/
theorem handleSlotRooted_frame (h : w.handleSlotRooted digest B iteration t = some w') :
    w'.config = w.config ∧ w'.slots = (w.takeSlot t).2.slots ∧ (w'.db = w.db ∨ ∃ data, w'.db = w.db.add t data) := by
  unfold Worker.handleSlotRooted at h
  have hdb : (w.takeSlot t).2.db = w.db := rfl
  have hconfig : (w.takeSlot t).2.config = w.config := rfl
  split at h
  · rename_i dropped htake
    cases h
    rw [htake] at hdb hconfig ⊢
    exact ⟨hconfig, rfl, .inl hdb⟩
  · rename_i acc dropped htake
    rw [htake] at hdb hconfig ⊢
    split at h
    · cases h
      exact ⟨hconfig, rfl, .inl hdb⟩
    split at h
    · cases h
      exact ⟨hconfig, rfl, .inl hdb⟩
    split at h
    · cases h
      exact ⟨hconfig, rfl, .inl hdb⟩
    obtain ⟨⟨_, witness⟩, -, h⟩ := Option.bind_eq_some_iff.mp h
    obtain ⟨generated, -, h⟩ := Option.bind_eq_some_iff.mp h
    obtain ⟨⟨accountsDeltaHash, witnessProof⟩, -, h⟩ := Option.bind_eq_some_iff.mp h
    obtain ⟨⟨_, rootAccount⟩, -, h⟩ := Option.bind_eq_some_iff.mp h
    cases h
    exact ⟨hconfig, rfl, .inr ⟨_, by rw [← hdb]⟩⟩

/-- The worker knows what was received about the slot. -/
structure Tracks (config : Config) (slot : Nat) (ms : List Message) (w : Worker) : Prop where
  config : w.config = config
  accumulated : (w.slotOrDefault slot).Accumulated ms
  known : ms ≠ [] → ∃ acc, w.slots.get slot = some acc

theorem slotOrDefault_put (w : Worker) (t : Nat) (acc : SlotAccumulator) (slot : Nat) :
    (w.put t acc).slotOrDefault slot = if slot = t then acc else w.slotOrDefault slot := by
  unfold Worker.slotOrDefault
  rw [Worker.slots_put]
  split
  · rfl
  · rfl

theorem Tracks.put (h : Tracks config slot ms w) {acc : SlotAccumulator} (hacc : acc.Accumulated (ms ++ [m])) :
    Tracks config slot (ms ++ [m]) (w.put slot acc) := by
  refine ⟨h.config, ?_, fun _ => ⟨acc, ?_⟩⟩
  · rw [slotOrDefault_put, if_pos rfl]
    exact hacc
  · rw [Worker.slots_put, if_pos rfl]

theorem Tracks.put_other (h : Tracks config slot ms w) (ht : t ≠ slot) (acc : SlotAccumulator) :
    Tracks config slot ms (w.put t acc) := by
  refine ⟨h.config, ?_, fun hms => ?_⟩
  · rw [slotOrDefault_put, if_neg ht.symm]
    exact h.accumulated
  · rw [Worker.slots_put, if_neg ht.symm]
    exact h.known hms

theorem Tracks.rooted (h : Tracks config slot ms w) (ht : t < slot)
    (hrooted : w.handleSlotRooted digest B iteration t = some w') : Tracks config slot ms w' := by
  obtain ⟨hconfig, hslots, -⟩ := handleSlotRooted_frame hrooted
  have hget : w'.slots.get slot = w.slots.get slot := by
    rw [hslots, Worker.takeSlot_slots, if_neg (not_le.mpr ht)]
  refine ⟨hconfig.trans h.config, ?_, ?_⟩
  · unfold Worker.slotOrDefault
    rw [hget]
    exact h.accumulated
  · rw [hget]
    exact h.known

/-- One message, which may be about the slot or another one. -/
theorem Tracks.handle (h : Tracks config slot ms w) (hrooted : ∀ t, m = .slotRooted t → t < slot)
    (hm : w.handle digest B iteration m = some w') :
    Tracks config slot (if m.slot = slot then ms ++ [m] else ms) w' := by
  cases m with
  | account info =>
    cases hm
    split
    · rename_i heq
      obtain rfl : info.slot = slot := heq
      exact h.put (h.accumulated.update info)
    · rename_i hne
      exact h.put_other hne _
  | block t block =>
    cases hm
    split
    · rename_i heq
      obtain rfl : t = slot := heq
      exact h.put (h.accumulated.setBlock t block)
    · rename_i hne
      exact h.put_other hne _
  | slotRooted t =>
    have ht := hrooted t rfl
    have hne : (Message.slotRooted t).slot ≠ slot := ht.ne
    rw [if_neg hne]
    exact h.rooted ht hm
  | transaction t numSigs =>
    cases hm
    split
    · rename_i heq
      obtain rfl : t = slot := heq
      exact h.put (h.accumulated.addSigs t numSigs)
    · rename_i hne
      exact h.put_other hne _

/-- What was received about the slot is known at the end of a run in which no later slot is rooted. -/
theorem Tracks.run (h : Tracks config slot ms w) (hrooted : ∀ r ∈ received, ∀ t, r.2 = .slotRooted t → t < slot)
    (hrun : w.run digest B received = some w') : Tracks config slot (ms ++ about slot received) w' := by
  induction received generalizing ms w with
  | nil =>
    cases hrun
    rw [about, List.map_nil, List.filter_nil, List.append_nil]
    exact h
  | cons r received ih =>
    obtain ⟨hfirst, hrest⟩ := List.forall_mem_cons.mp hrooted
    obtain ⟨mid, hmid, hlater⟩ := Option.bind_eq_some_iff.mp hrun
    have hend := ih (h.handle hfirst hmid) hrest hlater
    have hsplit : ms ++ about slot (r :: received) =
        (if r.2.slot = slot then ms ++ [r.2] else ms) ++ about slot received := by
      rw [about, List.map_cons, List.filter_cons]
      simp only [decide_eq_true_eq]
      split
      · rw [List.append_assoc]
        rfl
      · rfl
    rwa [hsplit]

theorem slotNums_add (db : Database) (slot : Nat) (data : SlotData) {s : Nat} (h : s ∈ (db.add slot data).slotNums) :
    s ∈ db.slotNums ∨ s = slot := by
  unfold Database.add at h
  split at h
  · exact .inl h
  · rcases List.mem_append.mp h with h | h
    · exact .inl (db.popFront_sublist.mem h)
    · exact .inr (List.mem_singleton.mp h)

/-- As long as no later slot is rooted, none is recorded. -/
theorem run_earlier (hearlier : ∀ s ∈ w.db.slotNums, s < slot)
    (hrooted : ∀ r ∈ received, ∀ t, r.2 = .slotRooted t → t < slot) (hrun : w.run digest B received = some w') :
    ∀ s ∈ w'.db.slotNums, s < slot := by
  induction received generalizing w with
  | nil =>
    cases hrun
    exact hearlier
  | cons r received ih =>
    obtain ⟨hfirst, hrest⟩ := List.forall_mem_cons.mp hrooted
    obtain ⟨mid, hmid, hlater⟩ := Option.bind_eq_some_iff.mp hrun
    refine ih ?_ hrest hlater
    obtain ⟨iteration, m⟩ := r
    cases m with
    | account info =>
      cases hmid
      exact hearlier
    | block t block =>
      cases hmid
      exact hearlier
    | slotRooted t =>
      obtain ⟨-, -, hdb | ⟨data, hdb⟩⟩ := handleSlotRooted_frame hmid
      · rwa [hdb]
      · intro s hs
        rw [hdb] at hs
        rcases slotNums_add _ _ _ hs with hs | rfl
        · exact hearlier s hs
        · exact hfirst s rfl
    | transaction t numSigs =>
      cases hmid
      exact hearlier

end

namespace Database

variable {db : Database} {slot : Nat}

theorem get_eq_none (h : slot ∉ db.slotNums) : db.get slot = none := by
  unfold get
  split
  · rename_i index hfound
    exact absurd (List.mem_of_getElem? (SortedSearch.searchWindow_ok hfound)) h
  · rfl

/-- The data of a slot which is later than all others is found. -/
theorem get_add (hearlier : ∀ s ∈ db.slotNums, s < slot) (data : SlotData) : (db.add slot data).get slot = some data := by
  have horder : ¬ db.outOfOrder slot := by
    rintro ⟨last, hlast, hle⟩
    exact absurd (hearlier last (List.mem_of_getLast? hlast)) (not_lt.mpr hle)
  rw [add, dif_neg horder, get]
  have hmem : slot ∈ db.popFront.slotNums ++ [slot] := List.mem_append_right _ List.mem_cons_self
  have hsorted := sorted_concat horder
  have hfound := (SortedSearch.binarySearch_isOk (x := slot) (hsorted.imp fun h => h.le)).mpr hmem
  split
  · rename_i index hindex
    have hget := SortedSearch.searchWindow_ok hindex
    have hnodup : (db.popFront.slotNums ++ [slot]).Nodup := hsorted.imp fun h => h.ne
    have hlast : (db.popFront.slotNums ++ [slot])[db.popFront.slotNums.length]? = some slot := List.getElem?_concat_length
    have hat : index = db.popFront.slotNums.length := by
      obtain ⟨hlt, -⟩ := List.getElem?_eq_some_iff.mp hget
      exact (List.getElem?_inj hlt hnodup).mp (hget.trans hlast.symm)
    rw [hat, ← db.popFront.same]
    exact List.getElem?_concat_length
  · rename_i hnot
    rw [hnot] at hfound
    cases hfound

end Database

theorem Latest.perm {us us' : List AccountUpdateInfo} {u : AccountUpdateInfo} (hperm : us.Perm us') (h : Latest us u) :
    Latest us' u :=
  ⟨hperm.mem_iff.mp h.1, fun v hv => h.2 v (hperm.mem_iff.mpr hv)⟩

theorem updated_perm {us us' : List AccountUpdateInfo} (hperm : us.Perm us') (pubkey : Pubkey) :
    Updated us pubkey ↔ Updated us' pubkey := by
  simp only [Updated, hperm.mem_iff]

theorem Recorded.perm {us us' : List AccountUpdateInfo} {numSigs : Nat} {block : BlockInfo} {data : SlotData}
    (hperm : us.Perm us') (hversions : DistinctVersions us) (h : Recorded digest B config us numSigs block data) :
    Recorded digest B config us' numSigs block data := by
  have hset : (accountSet B us).Perm (accountSet B us') := (latest_perm hperm).map _
  obtain ⟨u, hu, hkey, hwitness⟩ := h.witness
  obtain ⟨v, hv, hkey', hroot⟩ := h.root
  exact { h with
    accountsDeltaHash := by rw [h.accountsDeltaHash, sortAccounts_congr hset (nodup_accountSet B hversions)]
    witness := ⟨u, hu.perm hperm, hkey, hwitness⟩
    proof := by rw [← generate_congr digest hset (nodup_accountSet B hversions), h.proof]
    root := ⟨v, hv.perm hperm, hkey', hroot⟩ }

/-- There is one thing to record. -/
theorem Recorded.unique {us : List AccountUpdateInfo} {numSigs : Nat} {block : BlockInfo} {data data' : SlotData}
    (hversions : DistinctVersions us) (h : Recorded digest B config us numSigs block data)
    (h' : Recorded digest B config us numSigs block data') : data = data' := by
  obtain ⟨u, hu, hkey, hwitness⟩ := h.witness
  obtain ⟨u', hu', hkey', hwitness'⟩ := h'.witness
  obtain rfl := hu.eq hversions hu' (hkey.trans hkey'.symm)
  obtain ⟨v, hv, hvkey, hroot⟩ := h.root
  obtain ⟨v', hv', hvkey', hroot'⟩ := h'.root
  obtain rfl := hv.eq hversions hv' (hvkey.trans hvkey'.symm)
  have hproof := h.proof.symm.trans h'.proof
  rw [Option.some_inj, Option.some_inj, Prod.mk.injEq] at hproof
  have hdelta : data.deltaHashProof = data'.deltaHashProof := by
    have hsigs := Fin.ext (h.numSigs.trans h'.numSigs.symm)
    have hparent := h.parentBlockhash.trans h'.parentBlockhash.symm
    have hblockhash := h.blockhash.trans h'.blockhash.symm
    have hepoch := h.epochAccountsHash.trans h'.epochAccountsHash.symm
    have hhash := hproof.1
    generalize data.deltaHashProof = p at *
    generalize data'.deltaHashProof = p' at *
    cases p
    cases p'
    simp_all
  have haccount : data.witnessProof = data'.witnessProof := by
    have hdata := hwitness.trans hwitness'.symm
    have hpath := hproof.2
    generalize data.witnessProof = p at *
    generalize data'.witnessProof = p' at *
    cases p
    cases p'
    simp_all
  have hlast := hroot.trans hroot'.symm
  cases data
  cases data'
  simp only at hdelta haccount hlast
  rw [hdelta, haccount, hlast]

theorem Outcome.unique {us : List AccountUpdateInfo} {numSigs : Nat} {block : BlockInfo}
    {outcome outcome' : Option SlotData} (hversions : DistinctVersions us)
    (h : Outcome digest B config us numSigs block outcome) (h' : Outcome digest B config us numSigs block outcome') :
    outcome = outcome' := by
  cases outcome with
  | none =>
    cases outcome' with
    | none => rfl
    | some data' => exact absurd h'.1 h
  | some data =>
    cases outcome' with
    | none => exact absurd h.1 h'
    | some data' => rw [h.2.unique hversions h'.2]

theorem Outcome.perm {us us' : List AccountUpdateInfo} {numSigs : Nat} {block : BlockInfo} {outcome : Option SlotData}
    (hperm : us.Perm us') (hversions : DistinctVersions us) (h : Outcome digest B config us numSigs block outcome) :
    Outcome digest B config us' numSigs block outcome := by
  cases outcome with
  | none =>
    unfold Outcome
    rwa [← updated_perm hperm, ← updated_perm hperm]
  | some data =>
    refine ⟨?_, h.2.perm hperm hversions⟩
    rw [← updated_perm hperm, ← updated_perm hperm]
    exact h.1

/-- A run from before anything was received about the slot, in which neither the slot nor a later one is rooted. -/
structure Delivered (digest : List Byte → CryptoHash) (B : Blake3) (config : Config) (slot : Nat) (start : Worker)
    (received : List Received) (w : Worker) : Prop where
  config : start.config = config
  fresh : start.slots.get slot = none
  rooted : ∀ r ∈ received, ∀ t, r.2 = .slotRooted t → t < slot
  run : start.run digest B received = some w

/-- Nothing is added to the database but what the slot comes to. -/
def Records (slot : Nat) (outcome : Option SlotData) (w w' : Worker) : Prop :=
  w'.db = outcome.elim w.db (w.db.add slot)

/-- Accumulators of the slot and of earlier ones are dropped, and others are kept. -/
def Drops (slot : Nat) (w w' : Worker) : Prop :=
  ∀ t, w'.slots.get t = if t ≤ slot then none else w.slots.get t

section

variable {slot : Nat} {start start₁ start₂ w w₁ w₂ : Worker} {received received₁ received₂ : List Received}
  {block : BlockInfo}

theorem Delivered.tracks (h : Delivered digest B config slot start received w) :
    Tracks config slot (about slot received) w := by
  have hstart : Tracks config slot [] start := by
    refine ⟨h.config, ?_, fun hne => absurd rfl hne⟩
    unfold Worker.slotOrDefault
    rw [h.fresh]
    exact SlotAccumulator.accumulated_default
  exact hstart.run h.rooted h.run

theorem Records.get {outcome : Option SlotData} {w' : Worker} (h : Records slot outcome w w')
    (hearlier : ∀ s ∈ w.db.slotNums, s < slot) : w'.db.get slot = outcome := by
  rw [h]
  cases outcome with
  | none => exact Database.get_eq_none fun hmem => lt_irrefl slot (hearlier slot hmem)
  | some data => exact Database.get_add hearlier data

/-- Rooting a slot after a run. -/
theorem Delivered.rooted_spec (h : Delivered digest B config slot start received w)
    (hdistinct : config.witnessAccount ≠ config.rootAccount) (hblock : blocks (about slot received) = [block])
    (hversions : DistinctVersions (updates (about slot received)))
    (hgenerates : (MerkleProof.generate digest (accountSet B (updates (about slot received)))
      config.witnessAccount).2 ≠ none) (iteration : Iteration (Pubkey × Nat × AccountHashData)) :
    ∃ outcome w', Outcome digest B config (updates (about slot received)) (sigCounts (about slot received)).sum block
        outcome ∧ w.handleSlotRooted digest B iteration slot = some w' ∧ Records slot outcome w w' := by
  have htracks := h.tracks
  have hne : about slot received ≠ [] := by
    rintro hnil
    rw [hnil] at hblock
    cases hblock
  obtain ⟨acc, hacc⟩ := htracks.known hne
  have haccumulated := htracks.accumulated
  unfold Worker.slotOrDefault at haccumulated
  rw [hacc, Option.getD_some] at haccumulated
  obtain ⟨outcome, houtcome, hrooted⟩ := handleSlotRooted_spec htracks.config hdistinct hacc haccumulated hblock hversions
    hgenerates iteration
  exact ⟨outcome, _, houtcome, hrooted, rfl⟩

theorem handleSlotRooted_drops {w' : Worker} {iteration : Iteration (Pubkey × Nat × AccountHashData)}
    (h : w.handleSlotRooted digest B iteration slot = some w') : Drops slot w w' := by
  obtain ⟨-, hslots, -⟩ := handleSlotRooted_frame h
  intro t
  rw [hslots, Worker.takeSlot_slots]

/-- In whatever order messages about the slot come, and whatever comes between them, the slot comes to the same. -/
theorem slot_outcome_order_free (hdistinct : config.witnessAccount ≠ config.rootAccount)
    (h₁ : Delivered digest B config slot start₁ received₁ w₁) (h₂ : Delivered digest B config slot start₂ received₂ w₂)
    (hperm : (about slot received₁).Perm (about slot received₂)) (hblock : blocks (about slot received₁) = [block])
    (hversions : DistinctVersions (updates (about slot received₁)))
    (hgenerates : (MerkleProof.generate digest (accountSet B (updates (about slot received₁)))
      config.witnessAccount).2 ≠ none) (iteration₁ iteration₂ : Iteration (Pubkey × Nat × AccountHashData)) :
    ∃ outcome w₁' w₂', w₁.handleSlotRooted digest B iteration₁ slot = some w₁' ∧
      w₂.handleSlotRooted digest B iteration₂ slot = some w₂' ∧
      Outcome digest B config (updates (about slot received₁)) (sigCounts (about slot received₁)).sum block outcome ∧
      Records slot outcome w₁ w₁' ∧ Records slot outcome w₂ w₂' ∧
      ((∀ s ∈ start₁.db.slotNums, s < slot) → w₁'.db.get slot = outcome) ∧
      ((∀ s ∈ start₂.db.slotNums, s < slot) → w₂'.db.get slot = outcome) ∧
      ∀ w w' t iteration, w.handleSlotRooted digest B iteration t = some w' → Drops t w w' := by
  have hupdates : (updates (about slot received₁)).Perm (updates (about slot received₂)) := hperm.filterMap _
  have hsums : (sigCounts (about slot received₂)).sum = (sigCounts (about slot received₁)).sum :=
    ((hperm.filterMap _).sum_nat).symm
  have hblocks : (blocks (about slot received₁)).Perm (blocks (about slot received₂)) := hperm.filterMap _
  have hblock₂ : blocks (about slot received₂) = [block] := by
    rw [hblock] at hblocks
    exact (List.singleton_perm.mp hblocks).symm
  have hset : (accountSet B (updates (about slot received₁))).Perm (accountSet B (updates (about slot received₂))) :=
    (latest_perm hupdates).map _
  have hgenerates₂ := hgenerates
  rw [generate_congr digest hset (nodup_accountSet B hversions)] at hgenerates₂
  obtain ⟨outcome, w₁', houtcome, hrooted₁, hw₁⟩ := h₁.rooted_spec hdistinct hblock hversions hgenerates iteration₁
  obtain ⟨outcome₂, w₂', houtcome₂, hrooted₂, hw₂⟩ := h₂.rooted_spec hdistinct hblock₂ (hversions.perm hupdates)
    hgenerates₂ iteration₂
  rw [hsums] at houtcome₂
  obtain rfl := (houtcome.perm hupdates hversions).unique (hversions.perm hupdates) houtcome₂
  refine ⟨outcome, w₁', w₂', hrooted₁, hrooted₂, houtcome, hw₁, hw₂, fun hearlier => ?_, fun hearlier => ?_, ?_⟩
  · exact hw₁.get (run_earlier hearlier h₁.rooted h₁.run)
  · exact hw₂.get (run_earlier hearlier h₂.rooted h₂.run)
  · exact fun _ _ _ _ h => handleSlotRooted_drops h

end

open SealableTrie (hashOf tableDigest)

def sampleConfig : Config := ⟨⟨List.replicate 32 1#8, rfl⟩, ⟨List.replicate 32 2#8, rfl⟩⟩

def programKey : Pubkey := ⟨List.replicate 32 9#8, rfl⟩

def rootUpdate : AccountUpdateInfo := ⟨5, 1, AccountHashData.new 5 programKey false 0 [] sampleConfig.rootAccount⟩

def oldUpdate : AccountUpdateInfo := ⟨5, 2, AccountHashData.new 7 programKey false 0 [] sampleConfig.witnessAccount⟩

def newUpdate : AccountUpdateInfo := ⟨5, 3, AccountHashData.new 7 programKey false 0 [3] sampleConfig.witnessAccount⟩

/-- BLAKE3 of the data of the two accounts. -/
def sampleHash : List Byte → CryptoHash := tableDigest
  [(rootUpdate.account.bytes, hashOf 0x124755495b884b9554c815d326b1a68395170198bf30c1932989e7c40a378541),
    (newUpdate.account.bytes, hashOf 0x649f43902f463d6d4183e7a96cd100563e9aa861d94afff96e849a820486a0d0)]

def sampleHasher : Blake3 := ⟨List Byte, [], (· ++ ·), sampleHash, sampleHash⟩

/-- SHA-256 of the two hashes. -/
def pairDigest : List Byte → CryptoHash := tableDigest
  [(concatHashes [hashOf 0x124755495b884b9554c815d326b1a68395170198bf30c1932989e7c40a378541,
      hashOf 0x649f43902f463d6d4183e7a96cd100563e9aa861d94afff96e849a820486a0d0],
    hashOf 0x900707e11a30a4201bf03be507248865b5b31542b30aaad7ea858673a0429c8d)]

def forwards : Iteration (Pubkey × Nat × AccountHashData) := ⟨id, List.Perm.refl⟩

def backwards : Iteration (Pubkey × Nat × AccountHashData) := ⟨List.reverse, List.reverse_perm⟩

def sampleBlock : BlockInfo := ⟨programKey, programKey⟩

def receivedEarly : List Received :=
  [(forwards, .account rootUpdate), (forwards, .transaction 5 2), (forwards, .account oldUpdate),
    (forwards, .account newUpdate), (forwards, .transaction 5 1), (forwards, .block 5 sampleBlock)]

/-- The other way round, with messages of other slots in between. -/
def receivedLate : List Received :=
  [(backwards, .block 5 sampleBlock), (backwards, .transaction 4 1), (backwards, .transaction 5 1),
    (backwards, .slotRooted 4), (backwards, .account newUpdate), (backwards, .account oldUpdate),
    (backwards, .block 6 sampleBlock), (backwards, .transaction 5 2), (backwards, .account rootUpdate)]

theorem delivered_early : ∃ w, Delivered pairDigest sampleHasher sampleConfig 5 (.new sampleConfig) receivedEarly w := by
  obtain ⟨w, hw⟩ := Option.isSome_iff_exists.mp
    (by decide : ((Worker.new sampleConfig).run pairDigest sampleHasher receivedEarly).isSome = true)
  refine ⟨w, rfl, rfl, fun r hr t ht => ?_, hw⟩
  simp [receivedEarly] at hr
  rcases hr with rfl | rfl | rfl | rfl | rfl | rfl <;> cases ht

theorem delivered_late : ∃ w, Delivered pairDigest sampleHasher sampleConfig 5 (.new sampleConfig) receivedLate w := by
  obtain ⟨w, hw⟩ := Option.isSome_iff_exists.mp
    (by decide : ((Worker.new sampleConfig).run pairDigest sampleHasher receivedLate).isSome = true)
  refine ⟨w, rfl, rfl, fun r hr t ht => ?_, hw⟩
  simp [receivedLate] at hr
  rcases hr with rfl | rfl | rfl | rfl | rfl | rfl | rfl | rfl | rfl <;> cases ht
  decide

/-- Both ways the newer of the updates of the witness account is recorded. -/
theorem slot_outcome_order_free_sample :
    ∃ w₁ w₂ w₁' w₂' data, (Worker.new sampleConfig).run pairDigest sampleHasher receivedEarly = some w₁ ∧
      (Worker.new sampleConfig).run pairDigest sampleHasher receivedLate = some w₂ ∧
      w₁.handleSlotRooted pairDigest sampleHasher forwards 5 = some w₁' ∧
      w₂.handleSlotRooted pairDigest sampleHasher backwards 5 = some w₂' ∧
      w₁'.db.get 5 = some data ∧ w₂'.db.get 5 = some data ∧ data.deltaHashProof.numSigs.val = 3 := by
  obtain ⟨w₁, h₁⟩ := delivered_early
  obtain ⟨w₂, h₂⟩ := delivered_late
  have hversions : DistinctVersions (updates (about 5 receivedEarly)) := by
    unfold DistinctVersions
    decide
  obtain ⟨outcome, w₁', w₂', hw₁, hw₂, houtcome, -, -, hget₁, hget₂, -⟩ := slot_outcome_order_free (by decide)
    h₁ h₂ (List.reverse_perm (about 5 receivedLate)) rfl hversions (by decide) forwards backwards
  have hupdated : Updated (updates (about 5 receivedEarly)) sampleConfig.witnessAccount ∧
      Updated (updates (about 5 receivedEarly)) sampleConfig.rootAccount := by
    unfold Updated
    decide
  cases outcome with
  | none => exact absurd hupdated houtcome
  | some data =>
    exact ⟨w₁, w₂, w₁', w₂', data, h₁.run, h₂.run, hw₁, hw₂, hget₁ nofun, hget₂ nofun, houtcome.2.numSigs⟩

end TrieGeyser
