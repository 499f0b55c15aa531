import EmulatedLightClient.GuestChainInvariant
import Mathlib.Algebra.BigOperators.Group.Finset.Piecewise
import Mathlib.Algebra.Order.BigOperators.Group.Finset

/-!
# Signing of the pending block

While signatures of a block come in, the manager is determined by who has signed so far: their stake
is the signing stake, and as soon as it reaches the quorum the block is finalised.
-/

namespace GuestChain

open ByteBits MachineInts Nodes FailingState

section

variable {PK : Type} [DecidableEq PK]

def Epoch.stakeOfAll (e : Epoch PK) (keys : Finset PK) : Nat := ∑ pk ∈ keys, e.stakeOf pk

theorem sum_find_le (validators : List (Validator PK)) (keys : Finset PK) :
    ∑ pk ∈ keys, ((validators.find? fun v => v.pubkey = pk).elim 0 (·.stake.get)) ≤ totalOf validators := by
  induction validators with
  | nil => simp
  | cons v validators ih =>
    have hsplit : ∀ pk, ((v :: validators).find? fun v => v.pubkey = pk).elim 0 (·.stake.get) ≤
        (if v.pubkey = pk then v.stake.get else 0) +
          (validators.find? fun v => v.pubkey = pk).elim 0 (·.stake.get) := by
      intro pk
      by_cases hpk : v.pubkey = pk
      · simp [hpk]
      · simp [hpk]
    calc ∑ pk ∈ keys, ((v :: validators).find? fun v => v.pubkey = pk).elim 0 (·.stake.get)
        ≤ ∑ pk ∈ keys, ((if v.pubkey = pk then v.stake.get else 0) +
            (validators.find? fun v => v.pubkey = pk).elim 0 (·.stake.get)) :=
          Finset.sum_le_sum fun pk _ => hsplit pk
      _ = (if v.pubkey ∈ keys then v.stake.get else 0) +
            ∑ pk ∈ keys, (validators.find? fun v => v.pubkey = pk).elim 0 (·.stake.get) := by
          rw [Finset.sum_add_distrib, Finset.sum_ite_eq]
      _ ≤ v.stake.get + totalOf validators := by
          refine Nat.add_le_add ?_ ih
          split
          · exact le_rfl
          · exact Nat.zero_le _

theorem Epoch.stakeOfAll_lt (e : Epoch PK) (keys : Finset PK) : e.stakeOfAll keys < 2 ^ 128 := by
  have hle : e.stakeOfAll keys ≤ totalOf e.validators := sum_find_le e.validators keys
  rw [← e.total_eq] at hle
  exact hle.trans_lt e.totalStake.lt

theorem Epoch.stakeOfAll_insert (e : Epoch PK) {keys : Finset PK} {pk : PK} (h : pk ∉ keys) :
    e.stakeOfAll (insert pk keys) = e.stakeOfAll keys + e.stakeOf pk := by
  rw [stakeOfAll, Finset.sum_insert h, Nat.add_comm]
  rfl

theorem Epoch.stakeOfAll_mono (e : Epoch PK) {keys keys' : Finset PK} (h : keys ⊆ keys') :
    e.stakeOfAll keys ≤ e.stakeOfAll keys' :=
  Finset.sum_le_sum_of_subset h

end

variable {PK Sig E : Type} [PubKey PK] [OfUpdateCandidateError E]

namespace ChainManager

variable (m : ChainManager PK) (p : PendingBlock PK) (verifier : Verifier PK Sig)

/-- A validator of the epoch signed the block. -/
def Accepts (c : PK × Sig) : Prop :=
  (m.nextEpoch.validator c.1).isSome ∧ p.fingerprint.verify c.1 c.2 verifier = true

instance acceptsDecidable (c : PK × Sig) : Decidable (m.Accepts p verifier c) :=
  inferInstanceAs (Decidable (_ ∧ _))

/-- Validators of whom there is a valid signature. -/
def accepted (calls : List (PK × Sig)) : Finset PK :=
  ((calls.filter fun c => m.Accepts p verifier c).map Prod.fst).toFinset

/-- The manager once it has signatures of given validators. -/
def collecting (signers : Finset PK) : ChainManager PK :=
  if m.nextEpoch.stakeOfAll signers < m.nextEpoch.quorumStake.get then
    { m with pendingBlock := some { p with signers, signingStake := m.nextEpoch.stakeOfAll signers } }
  else m.finalise p.nextBlock

/-- What is reported of a signature when given validators have signed. -/
def effect (signers : Finset PK) (c : PK × Sig) : Except AddSignatureError AddSignatureEffect :=
  if m.nextEpoch.quorumStake.get ≤ m.nextEpoch.stakeOfAll signers then .error .noPendingBlock
  else if (m.nextEpoch.validator c.1).isNone then .error .badValidator
  else if p.fingerprint.verify c.1 c.2 verifier = false then .error .badSignature
  else if c.1 ∈ signers then .ok .duplicate
  else if m.nextEpoch.stakeOfAll (insert c.1 signers) < m.nextEpoch.quorumStake.get then .ok .noQuorumYet
  else .ok .gotQuorum

/-- Any number of calls, whatever they return. -/
def addSignatures (calls : List (PK × Sig)) : Option (ChainManager PK) :=
  calls.foldlM (fun m c => (m.addSignature c.1 c.2 verifier).map (·.2)) m

theorem mem_accepted {calls : List (PK × Sig)} {pk : PK} :
    pk ∈ m.accepted p verifier calls ↔ ∃ sig, (pk, sig) ∈ calls ∧ m.Accepts p verifier (pk, sig) := by
  simp [accepted]

theorem accepted_cons (c : PK × Sig) (calls : List (PK × Sig)) :
    m.accepted p verifier (c :: calls) =
      (if m.Accepts p verifier c then insert c.1 (m.accepted p verifier calls) else m.accepted p verifier calls) := by
  unfold accepted
  by_cases h : m.Accepts p verifier c <;> simp [h]

theorem accepted_singleton (c : PK × Sig) :
    m.accepted p verifier [c] = if m.Accepts p verifier c then {c.1} else ∅ := by
  rw [accepted_cons]
  rfl

theorem accepted_append (calls calls' : List (PK × Sig)) :
    m.accepted p verifier (calls ++ calls') = m.accepted p verifier calls ∪ m.accepted p verifier calls' := by
  simp [accepted]

variable {m p verifier}

theorem collecting_of_quorum {signers : Finset PK}
    (h : m.nextEpoch.quorumStake.get ≤ m.nextEpoch.stakeOfAll signers) :
    m.collecting p signers = m.finalise p.nextBlock := if_neg (not_lt.mpr h)

theorem collecting_of_lt {signers : Finset PK}
    (h : m.nextEpoch.stakeOfAll signers < m.nextEpoch.quorumStake.get) :
    m.collecting p signers =
      { m with pendingBlock := some { p with signers, signingStake := m.nextEpoch.stakeOfAll signers } } := if_pos h

omit [PubKey PK] in
theorem finalise_pending (pendingBlock : Option (PendingBlock PK)) (block : Block PK) :
    ({ m with pendingBlock } : ChainManager PK).finalise block = m.finalise block := rfl

variable (m p verifier) in
/-- One call moves on to the set with the new signer in it. -/
theorem addSignature_collecting (signers : Finset PK) (c : PK × Sig) :
    (m.collecting p signers).addSignature c.1 c.2 verifier =
      some (m.effect p verifier signers c, m.collecting p (signers ∪ m.accepted p verifier [c])) := by
  rw [accepted_singleton]
  rcases le_or_gt m.nextEpoch.quorumStake.get (m.nextEpoch.stakeOfAll signers) with hquorum | hbelow
  · have hsubset : signers ⊆ signers ∪ if m.Accepts p verifier c then {c.1} else ∅ := Finset.subset_union_left
    have hafter := hquorum.trans (m.nextEpoch.stakeOfAll_mono hsubset)
    rw [collecting_of_quorum hquorum, collecting_of_quorum hafter, effect, if_pos hquorum, addSignature,
      finalise_pendingBlock]
  · rw [collecting_of_lt hbelow, effect, if_neg (not_le.mpr hbelow), addSignature]
    simp only
    cases hv : m.nextEpoch.validator c.1 with
    | none =>
      have hno : ¬ m.Accepts p verifier c := fun h => by simp [Accepts, hv] at h
      simp [hno, collecting_of_lt hbelow]
    | some v =>
      cases hverify : p.fingerprint.verify c.1 c.2 verifier with
      | false =>
        have hno : ¬ m.Accepts p verifier c := fun h => by simp [Accepts, hverify] at h
        simp [hno, collecting_of_lt hbelow]
      | true =>
        have hyes : m.Accepts p verifier c := by simp [Accepts, hv, hverify]
        by_cases hmem : c.1 ∈ signers
        · have hsame : signers ∪ {c.1} = signers := by
            rw [Finset.union_comm, ← Finset.insert_eq, Finset.insert_eq_of_mem hmem]
          simp [hyes, hsame, hmem, collecting_of_lt hbelow]
        · have hinsert : signers ∪ {c.1} = insert c.1 signers := by
            rw [Finset.union_comm, ← Finset.insert_eq]
          have hstake := m.nextEpoch.stakeOfAll_insert hmem
          rw [Epoch.stakeOf_eq hv] at hstake
          have hfits := m.nextEpoch.stakeOfAll_lt (insert c.1 signers)
          have hadd : checkedAdd 128 (m.nextEpoch.stakeOfAll signers) v.stake.get =
              some (m.nextEpoch.stakeOfAll (insert c.1 signers)) := by
            rw [hstake] at hfits ⊢
            exact if_pos hfits
          simp only [hyes, if_true, hinsert, hmem, hadd, collecting]
          by_cases hlt : m.nextEpoch.stakeOfAll (insert c.1 signers) < m.nextEpoch.quorumStake.get
          · simp [hlt]
          · simp [hlt, finalise_pending]

theorem addSignatures_collecting (signers : Finset PK) (calls : List (PK × Sig)) :
    (m.collecting p signers).addSignatures verifier calls =
      some (m.collecting p (signers ∪ m.accepted p verifier calls)) := by
  induction calls generalizing signers with
  | nil =>
    have hnone : m.accepted p verifier [] = ∅ := rfl
    rw [hnone, Finset.union_empty]
    rfl
  | cons c calls ih =>
    have hcons : m.accepted p verifier (c :: calls) = m.accepted p verifier [c] ∪ m.accepted p verifier calls :=
      m.accepted_append p verifier [c] calls
    rw [hcons, ← Finset.union_assoc, ← ih, addSignatures, List.foldlM_cons, addSignature_collecting]
    rfl

/-- The block is finalised by the signature which brings stake of its signers to the quorum. -/
theorem effect_gotQuorum_iff {signers : Finset PK} {c : PK × Sig} :
    m.effect p verifier signers c = .ok .gotQuorum ↔
      m.nextEpoch.stakeOfAll signers < m.nextEpoch.quorumStake.get ∧
        m.nextEpoch.quorumStake.get ≤ m.nextEpoch.stakeOfAll (signers ∪ m.accepted p verifier [c]) := by
  rw [accepted_singleton]
  unfold effect
  split
  · rename_i hquorum
    simp [not_lt.mpr hquorum]
  · rename_i hbelow
    have hbelow := not_le.mp hbelow
    split
    · rename_i hv
      have hno : ¬ m.Accepts p verifier c := fun h => by simp [Accepts, Option.isNone_iff_eq_none.mp hv] at h
      simp [hno, hbelow]
    · rename_i hv
      split
      · rename_i hverify
        have hno : ¬ m.Accepts p verifier c := fun h => by simp [Accepts, hverify] at h
        simp [hno, hbelow]
      · rename_i hverify
        have hyes : m.Accepts p verifier c := by
          refine ⟨?_, by simpa using hverify⟩
          simpa [Option.isSome_iff_ne_none] using hv
        have hinsert : signers ∪ {c.1} = insert c.1 signers := by
          rw [Finset.union_comm, ← Finset.insert_eq]
        rw [if_pos hyes, hinsert]
        split
        · rename_i hmem
          rw [Finset.insert_eq_of_mem hmem]
          simp [hbelow]
        · split
          · rename_i hlt
            simp [hlt]
          · rename_i hge
            simp [hbelow, not_lt.mp hge]

theorem effect_noQuorumYet {signers : Finset PK} {c : PK × Sig}
    (h : m.effect p verifier signers c = .ok .noQuorumYet) :
    m.nextEpoch.stakeOfAll (insert c.1 signers) < m.nextEpoch.quorumStake.get := by
  unfold effect at h
  split at h
  · cases h
  split at h
  · cases h
  split at h
  · cases h
  split at h
  · cases h
  split at h
  · assumption
  · cases h

end ChainManager

/-- The pending block of a run and what the run has collected for it. -/
structure Collects (digest : List Byte → CryptoHash) (verifier : Verifier PK Sig) (s : ChainRun PK Sig)
    (p : PendingBlock PK) : Prop where
  fingerprint : p.fingerprint = Fingerprint.new digest s.manager.genesis p.nextBlock.header
  signed : ∀ pk ∈ p.signers, ∃ sig, (pk, sig) ∈ s.collected ∧ s.manager.Accepts p verifier (pk, sig)
  stake : p.signingStake = s.manager.nextEpoch.stakeOfAll p.signers
  below : p.signingStake < s.manager.nextEpoch.quorumStake.get

variable {digest : List Byte → CryptoHash} {verifier : Verifier PK Sig} {s s' : ChainRun PK Sig}
  {p : PendingBlock PK}

theorem Collects.collecting (h : Collects digest verifier s p) (hp : s.manager.pendingBlock = some p) :
    s.manager.collecting p p.signers = s.manager := by
  have hbelow := h.below
  have hstake := h.stake
  rw [hstake] at hbelow
  rw [ChainManager.collecting_of_lt hbelow, ← hstake, ← hp]

theorem Collects.recordSignature {pk : PK} {sig : Sig} {r : Except AddSignatureError AddSignatureEffect}
    {m' : ChainManager PK} (h : ∀ p, s.manager.pendingBlock = some p → Collects digest verifier s p)
    (hm : s.manager.addSignature pk sig verifier = some (r, m')) :
    ∀ p, m'.pendingBlock = some p → Collects digest verifier (s.recordSignature pk sig (r, m')) p := by
  intro p' hp'
  obtain ⟨rfl | ⟨e, rfl⟩, rfl⟩ | ⟨p, v, hp, hv, hverify, hnew, hr⟩ := ChainManager.addSignature_cases hm
  · exact h p' hp'
  · exact h p' hp'
  have hc := h p hp
  rcases hr with ⟨rfl, rfl⟩ | ⟨rfl, -, rfl⟩
  · cases hp'
    have heffect := s.manager.addSignature_collecting p verifier p.signers (pk, sig)
    rw [hc.collecting hp, hm, Option.some_inj, Prod.mk.injEq] at heffect
    have hbelow := ChainManager.effect_noQuorumYet heffect.1.symm
    have hstake := s.manager.nextEpoch.stakeOfAll_insert hnew
    rw [Epoch.stakeOf_eq hv, ← hc.stake] at hstake
    refine ⟨hc.fingerprint, ?_, hstake.symm, hstake ▸ hbelow⟩
    intro pk' hpk'
    rcases Finset.mem_insert.mp hpk' with rfl | hmem
    · refine ⟨sig, List.mem_append_right _ (List.mem_singleton.mpr rfl), ?_, hverify⟩
      exact Option.isSome_iff_exists.mpr ⟨v, hv⟩
    · obtain ⟨sig', hsig', hacc⟩ := hc.signed pk' hmem
      exact ⟨sig', List.mem_append_left _ hsig', hacc⟩
  · rw [ChainManager.finalise_pendingBlock] at hp'
    cases hp'

theorem Collects.step (c : Call PK Sig E) (h : ∀ p, s.manager.pendingBlock = some p → Collects digest verifier s p)
    (hs : s.step digest verifier c = some s') :
    ∀ p, s'.manager.pendingBlock = some p → Collects digest verifier s' p := by
  cases c with
  | generateNext hostHeight hostTimestamp stateRoot =>
    obtain ⟨⟨r, m'⟩, hm, rfl⟩ := Option.map_eq_some_iff.mp hs
    obtain ⟨e, rfl, rfl⟩ | ⟨block, rfl, -, -, -, rfl⟩ := ChainManager.generateNext_cases hm
    · exact h
    · intro p hp
      cases hp
      exact ⟨rfl, nofun, rfl, s.manager.nextEpoch.quorumStake.pos⟩
  | addSignature pk sig =>
    obtain ⟨⟨r, m'⟩, hm, rfl⟩ := Option.map_eq_some_iff.mp hs
    intro p hp
    refine Collects.recordSignature h hm p ?_
    rcases r with e | effect
    · exact hp
    · cases effect <;> exact hp
  | updateCandidate pk newStakeFn =>
    obtain ⟨⟨r, m'⟩, hm, rfl⟩ := Option.map_eq_some_iff.mp hs
    obtain ⟨config, candidates, rfl⟩ := ChainManager.updateCandidate_reconfigured hm
    intro p hp
    have hc := h p hp
    exact ⟨hc.fingerprint, hc.signed, hc.stake, hc.below⟩
  | updateConfig payload =>
    obtain ⟨⟨r, m'⟩, hm, rfl⟩ := Option.map_eq_some_iff.mp hs
    obtain ⟨config, candidates, rfl⟩ := ChainManager.updateConfig_reconfigured hm
    intro p hp
    have hc := h p hp
    exact ⟨hc.fingerprint, hc.signed, hc.stake, hc.below⟩

/-- Signing of the pending block of any reachable manager. The signing stake is what the distinct
signers have and below the quorum; further calls never overflow it and leave a manager which depends
on nothing but the set of validators who have signed by then. The call which brings their stake to the
quorum, and no other, finalises the block. -/
theorem pending_finalisation {config : Config} {genesis : Block PK} {m : ChainManager PK}
    {calls : List (Call PK Sig E)} (hnew : ChainManager.new digest config genesis = some (.ok m))
    (hrun : ChainRun.run digest verifier m calls = some s) (hp : s.manager.pendingBlock = some p) :
    Collects digest verifier s p ∧
      ∀ sigs : List (PK × Sig),
        s.manager.addSignatures verifier sigs =
          some (s.manager.collecting p (p.signers ∪ s.manager.accepted p verifier sigs)) ∧
        (∀ sigs' : List (PK × Sig), (∀ c, c ∈ sigs ↔ c ∈ sigs') →
          s.manager.addSignatures verifier sigs' = s.manager.addSignatures verifier sigs) ∧
        ∀ (m' : ChainManager PK) (c : PK × Sig), s.manager.addSignatures verifier sigs = some m' →
          ∃ r m'', m'.addSignature c.1 c.2 verifier = some (r, m'') ∧
            s.manager.addSignatures verifier (sigs ++ [c]) = some m'' ∧
            (r = .ok .gotQuorum ↔
              s.manager.nextEpoch.stakeOfAll (p.signers ∪ s.manager.accepted p verifier sigs) <
                  s.manager.nextEpoch.quorumStake.get ∧
                s.manager.nextEpoch.quorumStake.get ≤
                  s.manager.nextEpoch.stakeOfAll (p.signers ∪ s.manager.accepted p verifier (sigs ++ [c]))) ∧
            ((r = .ok .duplicate ∨ ∃ e, r = .error e) → m'' = m') := by
  have hstart : ∀ p, (ChainRun.start m : ChainRun PK Sig).manager.pendingBlock = some p →
      Collects digest verifier (ChainRun.start m) p := by
    intro p hp
    obtain ⟨-, -, -, -, hpending, -⟩ := ChainManager.new_ok hnew
    cases hpending.symm.trans hp
  have hc : Collects digest verifier s p :=
    foldlM_invariant (I := fun s => ∀ p, s.manager.pendingBlock = some p → Collects digest verifier s p)
      (fun _ c _ h hs => Collects.step c h hs) hstart hrun p hp
  have hall : ∀ sigs : List (PK × Sig), s.manager.addSignatures verifier sigs =
      some (s.manager.collecting p (p.signers ∪ s.manager.accepted p verifier sigs)) := by
    intro sigs
    rw [← ChainManager.addSignatures_collecting, hc.collecting hp]
  refine ⟨hc, fun sigs => ⟨hall sigs, ?_, ?_⟩⟩
  · intro sigs' hsame
    have haccepted : s.manager.accepted p verifier sigs' = s.manager.accepted p verifier sigs := by
      ext pk
      simp only [ChainManager.mem_accepted, hsame]
    rw [hall, hall, haccepted]
  · intro m' c hm'
    rw [hall, Option.some_inj] at hm'
    subst hm'
    have hcall := s.manager.addSignature_collecting p verifier (p.signers ∪ s.manager.accepted p verifier sigs) c
    rw [Finset.union_assoc, ← ChainManager.accepted_append] at hcall
    refine ⟨_, _, hcall, hall _, ?_, ?_⟩
    · rw [ChainManager.effect_gotQuorum_iff, Finset.union_assoc, ← ChainManager.accepted_append]
    · intro hr
      obtain ⟨-, hsame⟩ | ⟨_, _, -, -, -, -, ⟨hno, -⟩ | ⟨hno, -⟩⟩ := ChainManager.addSignature_cases hcall
      · exact hsame
      · rcases hr with hr | ⟨e, hr⟩ <;> cases hno.symm.trans hr
      · rcases hr with hr | ⟨e, hr⟩ <;> cases hno.symm.trans hr

/-- The last block of the sample run waits for signatures, which may come in any order. -/
theorem pending_finalisation_sample :
    ∃ s p, sampleRun = some s ∧ s.manager.pendingBlock = some p ∧
      Collects sampleDigest MockSignature.verify s p ∧
      ∀ a b : MockPubKey × MockSignature, s.manager.addSignatures MockSignature.verify [b, a] =
        s.manager.addSignatures MockSignature.verify [a, b] := by
  have hsome : (sampleRun.bind (·.manager.pendingBlock)).isSome := by decide +kernel
  obtain ⟨p, hp⟩ := Option.isSome_iff_exists.mp hsome
  obtain ⟨s, hs, hp⟩ := Option.bind_eq_some_iff.mp hp
  obtain ⟨m, hnew, hrun⟩ := sampleRun_manager hs
  obtain ⟨hcollects, hsigs⟩ := pending_finalisation hnew hrun hp
  refine ⟨s, p, hs, hp, hcollects, fun a b => (hsigs [a, b]).2.1 [b, a] fun c => ?_⟩
  simp only [List.mem_cons, List.not_mem_nil, or_false]
  exact or_comm

end GuestChain
