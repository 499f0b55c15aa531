import EmulatedLightClient.GeyserWorker

/-!
# What is accumulated about a slot

Of the updates of an account the one with the highest version is left, whichever comes last. Accumulators are dropped
in the order of their slots.
-/

namespace TrieGeyser

open ByteBits CfSolana LinearMaps Nodes

abbrev Received := Iteration (Pubkey × Nat × AccountHashData) × Message

/-- The slot which a message is about. -/
def Message.slot : Message → Nat
  | .account info => info.slot
  | .block slot _ => slot
  | .slotRooted slot => slot
  | .transaction slot _ => slot

def about (slot : Nat) (received : List Received) : List Message :=
  (received.map Prod.snd).filter fun m => m.slot = slot

def updates (ms : List Message) : List AccountUpdateInfo :=
  ms.filterMap fun
    | .account info => some info
    | _ => none

def blocks (ms : List Message) : List BlockInfo :=
  ms.filterMap fun
    | .block _ block => some block
    | _ => none

def sigCounts (ms : List Message) : List Nat :=
  ms.filterMap fun
    | .transaction _ numSigs => some numSigs
    | _ => none

def Updated (us : List AccountUpdateInfo) (pubkey : Pubkey) : Prop := ∃ u ∈ us, u.account.key = pubkey

/-- No other update of the account has a higher version. -/
def Latest (us : List AccountUpdateInfo) (u : AccountUpdateInfo) : Prop :=
  u ∈ us ∧ ∀ v ∈ us, v.account.key = u.account.key → v.writeVersion ≤ u.writeVersion

def DistinctVersions (us : List AccountUpdateInfo) : Prop :=
  us.Pairwise fun u v => u.account.key = v.account.key → u.writeVersion ≠ v.writeVersion

/-- The latest updates of all accounts. -/
def latest (us : List AccountUpdateInfo) : List AccountUpdateInfo :=
  us.filter fun u => ∀ v ∈ us, v.account.key = u.account.key → v.writeVersion ≤ u.writeVersion

/-- Each account contributes its latest update. -/
def accountSet (B : Blake3) (us : List AccountUpdateInfo) : List (Pubkey × CryptoHash) :=
  (latest us).map fun u => (u.account.key, u.account.calculateHash B)

section

variable {us us' : List AccountUpdateInfo} {u v : AccountUpdateInfo}

theorem mem_latest : u ∈ latest us ↔ Latest us u := by
  rw [latest, List.mem_filter, decide_eq_true_eq, Latest]

theorem DistinctVersions.eq (h : DistinctVersions us) (hu : u ∈ us) (hv : v ∈ us)
    (hkey : u.account.key = v.account.key) (hversion : u.writeVersion = v.writeVersion) : u = v := by
  by_contra hne
  have hsymm : Std.Symm fun u v : AccountUpdateInfo =>
      u.account.key = v.account.key → u.writeVersion ≠ v.writeVersion :=
    ⟨fun _ _ huv hkey hversion => huv hkey.symm hversion.symm⟩
  exact h.forall hu hv hne hkey hversion

theorem Latest.eq (h : DistinctVersions us) (hu : Latest us u) (hv : Latest us v)
    (hkey : u.account.key = v.account.key) : u = v :=
  h.eq hu.1 hv.1 hkey (le_antisymm (hv.2 u hu.1 hkey) (hu.2 v hv.1 hkey.symm))

theorem DistinctVersions.perm (h : DistinctVersions us) (hperm : us.Perm us') : DistinctVersions us' :=
  (hperm.pairwise_iff fun huv hkey hversion => huv hkey.symm hversion.symm).mp h

theorem latest_perm (hperm : us.Perm us') : (latest us).Perm (latest us') := by
  unfold latest
  have hsame : ∀ u : AccountUpdateInfo, (∀ v ∈ us, v.account.key = u.account.key → v.writeVersion ≤ u.writeVersion) ↔
      ∀ v ∈ us', v.account.key = u.account.key → v.writeVersion ≤ u.writeVersion := by
    intro u
    simp only [hperm.mem_iff]
  simp only [hsame]
  exact hperm.filter _

theorem nodup_latest (h : DistinctVersions us) : ((latest us).map fun u => u.account.key).Nodup := by
  have hpairs : (latest us).Pairwise fun u v => u.account.key = v.account.key → u.writeVersion ≠ v.writeVersion :=
    h.filter _
  refine List.pairwise_map.mpr (hpairs.imp_of_mem fun {u v} hu hv huv hkey => ?_)
  exact huv hkey (congrArg _ (Latest.eq h (mem_latest.mp hu) (mem_latest.mp hv) hkey))

theorem nodup_accountSet (B : Blake3) (h : DistinctVersions us) : ((accountSet B us).map (·.1)).Nodup := by
  rw [accountSet, List.map_map]
  exact nodup_latest h

end

namespace SlotAccumulator

/-- The accumulator holds what the messages tell. -/
structure Accumulated (ms : List Message) (acc : SlotAccumulator) : Prop where
  sound : ∀ pubkey item, LinearMap.get pubkey acc.accounts = some item →
    ∃ u ∈ updates ms, (u.writeVersion, u.account) = item
  complete : ∀ u ∈ updates ms, ∃ item, LinearMap.get u.account.key acc.accounts = some item ∧ u.writeVersion ≤ item.1
  numSigs : acc.numSigs = (sigCounts ms).sum % 2 ^ 64
  block : acc.block = (blocks ms).getLast?

variable {ms : List Message} {acc : SlotAccumulator}

theorem accumulated_default : Accumulated [] default := ⟨nofun, nofun, rfl, rfl⟩

theorem le_later (item old : Nat × AccountHashData) : item.1 ≤ (later item old).1 ∧ old.1 ≤ (later item old).1 := by
  unfold later
  split
  · omega
  · omega

theorem later_eq (item old : Nat × AccountHashData) : later item old = item ∨ later item old = old := by
  unfold later
  split
  · exact .inl rfl
  · exact .inr rfl

/-- What is found under a key after an update. -/
theorem get_update (acc : SlotAccumulator) (info : AccountUpdateInfo) (pubkey : Pubkey) :
    LinearMap.get pubkey (acc.update info).accounts =
      if pubkey = info.account.key then
        some (later (info.writeVersion, info.account)
          ((LinearMap.get pubkey acc.accounts).getD (info.writeVersion, info.account)))
      else LinearMap.get pubkey acc.accounts := by
  rw [SlotAccumulator.update, LinearMap.get_upsert]
  split
  · rename_i hkey
    rw [hkey]
  · rfl

theorem Accumulated.update (h : Accumulated ms acc) (info : AccountUpdateInfo) :
    Accumulated (ms ++ [.account info]) (acc.update info) := by
  have hupdates : updates (ms ++ [.account info]) = updates ms ++ [info] := by simp [updates]
  refine ⟨fun pubkey item hget => ?_, fun u hu => ?_, ?_, ?_⟩
  · rw [hupdates]
    rw [get_update] at hget
    split at hget
    · cases hold : LinearMap.get pubkey acc.accounts with
      | none =>
        rw [hold, Option.getD_none, later_self] at hget
        exact ⟨info, by simp, Option.some.inj hget⟩
      | some old =>
        rw [hold, Option.getD_some, Option.some_inj] at hget
        rcases later_eq (info.writeVersion, info.account) old with hnew | hkept
        · exact ⟨info, by simp, hnew.symm.trans hget⟩
        · obtain ⟨u, hu, heq⟩ := h.sound pubkey old hold
          exact ⟨u, List.mem_append_left _ hu, by rw [heq, ← hget, hkept]⟩
    · obtain ⟨u, hu, heq⟩ := h.sound pubkey item hget
      exact ⟨u, List.mem_append_left _ hu, heq⟩
  · rw [hupdates] at hu
    rw [get_update]
    split
    · refine ⟨_, rfl, ?_⟩
      have hle := le_later (info.writeVersion, info.account)
        ((LinearMap.get u.account.key acc.accounts).getD (info.writeVersion, info.account))
      rcases List.mem_append.mp hu with hu | hu
      · obtain ⟨item, hitem, hversion⟩ := h.complete u hu
        rw [hitem, Option.getD_some] at hle ⊢
        exact hversion.trans hle.2
      · rw [List.mem_singleton.mp hu] at hle ⊢
        exact hle.1
    · rename_i hkey
      rcases List.mem_append.mp hu with hu | hu
      · exact h.complete u hu
      · exact absurd (congrArg (·.account.key) (List.mem_singleton.mp hu)) hkey
  · rw [SlotAccumulator.update, h.numSigs]
    simp [sigCounts]
  · rw [SlotAccumulator.update, h.block]
    simp [blocks]

theorem Accumulated.addSigs (h : Accumulated ms acc) (slot numSigs : Nat) :
    Accumulated (ms ++ [.transaction slot numSigs]) (acc.addSigs numSigs) := by
  have hupdates : updates (ms ++ [.transaction slot numSigs]) = updates ms := by simp [updates]
  have hcounts : sigCounts (ms ++ [.transaction slot numSigs]) = sigCounts ms ++ [numSigs] := by simp [sigCounts]
  refine ⟨?_, ?_, ?_, ?_⟩
  · rw [hupdates]
    exact h.sound
  · rw [hupdates]
    exact h.complete
  · rw [SlotAccumulator.addSigs, hcounts, List.sum_append, List.sum_singleton]
    simp only [h.numSigs]
    exact Nat.mod_add_mod _ _ _
  · simp [blocks, SlotAccumulator.addSigs, h.block]

theorem Accumulated.setBlock (h : Accumulated ms acc) (slot : Nat) (block : BlockInfo) :
    Accumulated (ms ++ [.block slot block]) { acc with block := some block } := by
  have hupdates : updates (ms ++ [.block slot block]) = updates ms := by simp [updates]
  refine ⟨?_, ?_, ?_, ?_⟩
  · rw [hupdates]
    exact h.sound
  · rw [hupdates]
    exact h.complete
  · simp [sigCounts, h.numSigs]
  · simp [blocks]

/-- With distinct versions, what is held are the latest updates. -/
theorem Accumulated.get_iff (h : Accumulated ms acc) (hversions : DistinctVersions (updates ms)) {pubkey : Pubkey}
    {item : Nat × AccountHashData} : LinearMap.get pubkey acc.accounts = some item ↔
      ∃ u, Latest (updates ms) u ∧ u.account.key = pubkey ∧ (u.writeVersion, u.account) = item := by
  have hlatest : ∀ {u}, u ∈ updates ms → LinearMap.get u.account.key acc.accounts = some (u.writeVersion, u.account) →
      Latest (updates ms) u := by
    intro u hu hget
    refine ⟨hu, fun v hv hkey => ?_⟩
    obtain ⟨item, hitem, hversion⟩ := h.complete v hv
    rw [hkey, hget, Option.some_inj] at hitem
    rwa [← hitem] at hversion
  constructor
  · intro hget
    obtain ⟨u, hu, rfl⟩ := h.sound pubkey item hget
    have hkey := acc.keyed pubkey (u.writeVersion, u.account) hget
    simp only at hkey
    subst hkey
    exact ⟨u, hlatest hu hget, rfl, rfl⟩
  · rintro ⟨u, hu, rfl, rfl⟩
    obtain ⟨item, hitem, hversion⟩ := h.complete u hu.1
    obtain ⟨v, hv, rfl⟩ := h.sound _ item hitem
    have hkey := acc.keyed u.account.key (v.writeVersion, v.account) hitem
    simp only at hkey
    rw [← hkey] at hitem
    rw [← hkey, hitem, hu.eq hversions (hlatest hv hitem) hkey.symm]

theorem Accumulated.get_eq_none_iff (h : Accumulated ms acc) {pubkey : Pubkey} :
    LinearMap.get pubkey acc.accounts = none ↔ ¬ Updated (updates ms) pubkey := by
  rw [← Option.not_isSome_iff_eq_none, Option.isSome_iff_exists]
  refine not_congr ⟨?_, ?_⟩
  · rintro ⟨item, hitem⟩
    obtain ⟨u, hu, rfl⟩ := h.sound pubkey item hitem
    exact ⟨u, hu, acc.keyed pubkey (u.writeVersion, u.account) hitem⟩
  · rintro ⟨u, hu, rfl⟩
    obtain ⟨item, hitem, -⟩ := h.complete u hu
    exact ⟨item, hitem⟩

/-- In whatever order they are walked, the accounts are those of the latest updates. -/
theorem Accumulated.accounts_perm (h : Accumulated ms acc) (hversions : DistinctVersions (updates ms)) (B : Blake3)
    (iteration : Iteration (Pubkey × Nat × AccountHashData)) :
    ((iteration.order acc.accounts).map fun (pubkey, _, account) => (pubkey, account.calculateHash B)).Perm
      (accountSet B (updates ms)) := by
  have hentries : acc.accounts.Perm
      ((latest (updates ms)).map fun u => (u.account.key, u.writeVersion, u.account)) := by
    refine (List.perm_ext_iff_of_nodup acc.distinct.of_map ?_).mpr fun e => ?_
    · exact List.Nodup.of_map (·.1) (by rw [List.map_map]; exact nodup_latest hversions)
    · obtain ⟨pubkey, item⟩ := e
      have hmem : (pubkey, item) ∈ acc.accounts ↔ LinearMap.get pubkey acc.accounts = some item :=
        ⟨LinearMap.get_of_mem acc.distinct, LinearMap.mem_of_get⟩
      rw [hmem, h.get_iff hversions, List.mem_map]
      simp only [mem_latest, Prod.mk.injEq]
  have hmapped := ((iteration.perm acc.accounts).trans hentries).map
    fun e : Pubkey × Nat × AccountHashData => (e.1, e.2.2.calculateHash B)
  rw [List.map_map] at hmapped
  exact hmapped

end SlotAccumulator

theorem dropThrough_spec {V : Type} (slot : Nat) {entries : List (Nat × V)}
    (hsorted : entries.Pairwise fun a b => a.1 < b.1) :
    (∀ v, (dropThrough slot entries).1 = some v ↔ (slot, v) ∈ entries) ∧
      (dropThrough slot entries).2 = entries.filter (slot < ·.1) := by
  induction entries with
  | nil => exact ⟨fun v => by simp [dropThrough], rfl⟩
  | cons e entries ih =>
    obtain ⟨key, value⟩ := e
    obtain ⟨hhead, htail⟩ := List.pairwise_cons.mp hsorted
    obtain ⟨hfound, hrest⟩ := ih htail
    rw [dropThrough]
    rcases Nat.lt_trichotomy key slot with hlt | rfl | hgt
    · rw [if_pos hlt.le, if_neg hlt.ne, hrest, List.filter_cons_of_neg (by simpa using hlt.le)]
      refine ⟨fun v => ?_, rfl⟩
      rw [hfound, List.mem_cons, Prod.mk.injEq]
      exact (or_iff_right fun h => hlt.ne' h.1).symm
    · have hafter : entries.filter (key < ·.1) = entries := by
        rw [List.filter_eq_self]
        exact fun b hb => decide_eq_true (hhead b hb)
      rw [if_pos le_rfl, if_pos rfl, List.filter_cons_of_neg (by simp), hafter]
      refine ⟨fun v => ?_, rfl⟩
      rw [List.mem_cons, Prod.mk.injEq, Option.some_inj]
      refine ⟨fun h => .inl ⟨rfl, h.symm⟩, fun h => ?_⟩
      rcases h with ⟨-, h⟩ | h
      · exact h.symm
      · exact absurd (hhead _ h) (lt_irrefl key)
    · have hafter : ∀ b ∈ (key, value) :: entries, slot < b.1 :=
        List.forall_mem_cons.mpr ⟨hgt, fun b hb => hgt.trans (hhead b hb)⟩
      rw [if_neg hgt.not_ge, List.filter_eq_self.mpr fun b hb => decide_eq_true (hafter b hb)]
      exact ⟨fun v => iff_of_false nofun fun h => lt_irrefl slot (hafter _ h), rfl⟩

namespace Worker

variable {w w' : Worker} {slot t : Nat}

theorem takeSlot_fst (w : Worker) (slot : Nat) : (w.takeSlot slot).1 = w.slots.get slot := by
  refine Option.ext fun v => ?_
  rw [BTreeMap.get_eq_some]
  exact (dropThrough_spec slot w.slots.sorted).1 v

/-- Accumulators of later slots are kept, and no others. -/
theorem takeSlot_slots (w : Worker) (slot t : Nat) :
    (w.takeSlot slot).2.slots.get t = if t ≤ slot then none else w.slots.get t := by
  have hentries : (w.takeSlot slot).2.slots.entries = w.slots.entries.filter (slot < ·.1) :=
    (dropThrough_spec slot w.slots.sorted).2
  refine Option.ext fun v => ?_
  rw [BTreeMap.get_eq_some, hentries, List.mem_filter, decide_eq_true_eq]
  split
  · rename_i hle
    exact iff_of_false (fun h => absurd h.2 hle.not_gt) nofun
  · rename_i hlt
    rw [BTreeMap.get_eq_some]
    exact and_iff_left (not_le.mp hlt)

theorem slots_put (w : Worker) (slot : Nat) (acc : SlotAccumulator) (t : Nat) :
    (w.put slot acc).slots.get t = if t = slot then some acc else w.slots.get t := by
  refine Option.ext fun v => ?_
  rw [put, BTreeMap.get_insert]
  split
  · rename_i heq
    simp [heq, eq_comm]
  · rename_i hne
    simp [hne]

end Worker

end TrieGeyser
