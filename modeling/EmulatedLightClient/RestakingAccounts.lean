import EmulatedLightClient.CandidatesRun
import EmulatedLightClient.PartialMaps
import EmulatedLightClient.RestakingOwners

/-!
# The accounts of restaking

What is owed to open vaults stands in four places: the total of the staking
parameters, the token accounts with the stake, the candidates of the guest chain
and the vaults themselves. An instruction changes one vault, and the three other
places by what the vault counts for.
-/

namespace SolanaIbc

open ByteBits GuestChain MachineInts Nodes

variable {PK : Type} [PubKey PK] {digest : List Byte → CryptoHash}

/-- The candidates are in order. -/
def ChainInner.Sound (c : ChainInner PK) : Prop :=
  c.manager.candidates.Sound ∧ (Candidates.keys c.manager.candidates.candidates).Nodup

def ChainInner.stakeOf (c : ChainInner PK) (k : PK) : Nat :=
  (Candidates.stakeOf c.manager.candidates.candidates k).elim 0 (·.get)

theorem maybeGenerateBlock_some {c c' : ChainInner PK} {stateRoot : CryptoHash} {clock : Clock}
    (h : c.maybeGenerateBlock digest stateRoot clock = some c') :
    (getHostHead clock).isSome ∧ ∃ changed, c'.manager.candidates = { c.manager.candidates with changed } := by
  obtain ⟨⟨hostHeight, hostTimestamp⟩, hhead, h⟩ := Option.bind_eq_some_iff.mp h
  refine ⟨Option.isSome_iff_exists.mpr ⟨_, hhead⟩, ?_⟩
  simp only at h
  split at h
  · cases h
    exact ⟨_, rfl⟩
  · obtain ⟨⟨r, manager⟩, hnext, h⟩ := Option.bind_eq_some_iff.mp h
    cases h
    rcases ChainManager.generateNext_cases hnext with ⟨-, -, rfl⟩ | ⟨block, -, -, -, -, rfl⟩
    · exact ⟨_, rfl⟩
    · simp only
      split
      · exact ⟨_, rfl⟩
      · exact ⟨_, rfl⟩

omit [PubKey PK] in
theorem sound_changed [LinearOrder PK] {c : Candidates PK} (h : c.Sound) (changed : Bool) :
    ({ c with changed } : Candidates PK).Sound :=
  ⟨h.sorted, h.headStake, h.fits⟩

/-- One validator's stake is set, the others' are as before. -/
theorem ChainData.setStake_spec {c c' : ChainData PK} {clock : Clock} {validator : PK} {amount : Fin (2 ^ 128)}
    (h : c.setStake digest clock validator amount = .ok c') :
    (getHostHead clock).isSome ∧ ∃ inner inner', c.inner = some inner ∧ c'.inner = some inner' ∧
      (inner.Sound → inner'.Sound ∧
        ∀ k, inner'.stakeOf k = if k = validator then amount.val else inner.stakeOf k) := by
  obtain ⟨inner, hinner, h⟩ := FailingState.bind_eq_ok.mp h
  have hsome : c.inner = some inner := by
    cases hc : c.inner with
    | none => simp [ChainData.get, hc] at hinner
    | some x =>
      simp only [ChainData.get, hc, Option.elim_some] at hinner
      rw [Except.ok.inj hinner]
  cases hblock : inner.maybeGenerateBlock digest c.stateRoot clock with
  | none => simp [hblock] at h
  | some inner₁ =>
    obtain ⟨hhead, changed, hcandidates⟩ := maybeGenerateBlock_some hblock
    simp only [hblock] at h
    cases hupdate : inner₁.manager.updateCandidate validator fun _ => (.ok amount : Except ChainError _) with
    | none => simp [hupdate] at h
    | some r =>
      obtain ⟨r, manager⟩ := r
      cases r with
      | error e => simp [hupdate] at h
      | ok u =>
        simp only [hupdate] at h
        cases h
        refine ⟨hhead, inner, _, hsome, rfl, fun hsound => ?_⟩
        obtain ⟨⟨res, candidates⟩, hcandidate, hmanager⟩ := Option.bind_eq_some_iff.mp hupdate
        cases hmanager
        have hsound₁ : inner₁.manager.candidates.Sound ∧
            (Candidates.keys inner₁.manager.candidates.candidates).Nodup := by
          rw [hcandidates]
          exact ⟨sound_changed hsound.1 changed, hsound.2⟩
        have hstep : candidates.Sound ∧ (Candidates.keys candidates.candidates).Nodup := by
          refine Candidates.step_sound
            (.update inner₁.manager.config validator fun _ => (.ok amount : Except ChainError _)) hsound₁ ?_
          simp [Candidates.step, hcandidate]
        refine ⟨hstep, fun k => ?_⟩
        obtain ⟨stake, hstake, heq⟩ := (hsound₁.1.lawful hsound₁.2).update_succeeds _ _ _ _ hcandidate
        cases hstake
        simp only [ChainInner.stakeOf]
        rw [heq, hcandidates]
        by_cases hk : k = validator
        · subst hk
          rw [Function.update_self, if_pos rfl]
          unfold NonZero.new
          split
          · rfl
          · simp only [Option.elim_none]
            omega
        · rw [Function.update_of_ne hk, if_neg hk]

end SolanaIbc

namespace Restaking

open ByteBits FailingState GuestChain MachineInts Nodes PartialMaps SolanaIbc TokenLedger

section

variable {K : Type} [PubKey K] [Addresses K] [TokenProgram K] [MetadataProgram K]
  {digest : List Byte → CryptoHash} {start s s' : State K} {signers : List K} {clock : Clock}

/-- Stake of a validator on the guest chain. -/
def stakeOn (chains : K → Option (ChainData K)) (k : K) : Nat :=
  ((chains Addresses.solanaIbc).bind (·.inner)).elim 0 (·.stakeOf k)

/-- The candidates of the guest chain, if there is one, are in order. -/
def ChainSound (chains : K → Option (ChainData K)) : Prop :=
  ∀ inner, (chains Addresses.solanaIbc).bind (·.inner) = some inner → inner.Sound

/-- What a vault counts for in the pool of a mint. -/
def inMint (t : K) (v : Vault K) : Nat := if v.stakeMint = t then v.stakeAmount else 0

/-- What a vault counts for in the stake of a validator. -/
def inService (k : K) (v : Vault K) : Nat :=
  if v.service.map Service.validator = some k then v.stakeAmount else 0

/-- The accounts agree about the open vaults. -/
structure Books (start s : State K) (F : Finset K) : Prop where
  vaults : IsDomain F s.vaults
  total : ∀ p, s.stakingParams = some p →
    p.totalDepositedAmount = sumOver F s.vaults (·.stakeAmount) ∧ p.totalDepositedAmount ≤ p.stakingCap
  pools : ∀ t, sumOver F s.vaults (inMint t) ≤ s.ledger.balance (vaultToken t)
  stakes : ∀ k, stakeOn s.chains k = stakeOn start.chains k + sumOver F s.vaults (inService k)

/-- A step which changes at most the vault of `m`, and the other accounts by what
the vault counts for. -/
structure Entered (s s' : State K) (m : K) : Prop where
  vaults : s'.vaults = Function.update s.vaults m (s'.vaults m)
  total : ∀ p', s'.stakingParams = some p' →
    (∃ p, s.stakingParams = some p ∧
      p'.totalDepositedAmount + (s.vaults m).elim 0 (·.stakeAmount) =
        p.totalDepositedAmount + (s'.vaults m).elim 0 (·.stakeAmount) ∧
      (p.totalDepositedAmount ≤ p.stakingCap → p'.totalDepositedAmount ≤ p'.stakingCap)) ∨
    (s.stakingParams = none ∧ p'.totalDepositedAmount = 0 ∧ s'.vaults m = s.vaults m)
  pools : ∀ t, s.ledger.balance (vaultToken t) + (s'.vaults m).elim 0 (inMint t) ≤
    s'.ledger.balance (vaultToken t) + (s.vaults m).elim 0 (inMint t)
  stakes : ChainSound s.chains → ChainSound s'.chains ∧ ∀ k, stakeOn s'.chains k + (s.vaults m).elim 0 (inService k) =
    stakeOn s.chains k + (s'.vaults m).elim 0 (inService k)

omit [MetadataProgram K] in
theorem Entered.books {m : K} {F : Finset K} (h : Entered s s' m) (hinv : Inv s) (hchain : ChainSound s.chains)
    (hbooks : Books start s F) : ChainSound s'.chains ∧ ∃ F', Books start s' F' := by
  obtain ⟨F', hdomain, hsum⟩ := hbooks.vaults.update m (s'.vaults m)
  rw [← h.vaults] at hdomain hsum
  obtain ⟨hchain', hstakes⟩ := h.stakes hchain
  refine ⟨hchain', F', hdomain, ?_, ?_, ?_⟩
  · intro p' hp'
    have hmoved := hsum (·.stakeAmount)
    rcases h.total p' hp' with ⟨p, hp, htotal, hcap⟩ | ⟨hnone, hzero, hsame⟩
    · obtain ⟨heq, hle⟩ := hbooks.total p hp
      exact ⟨by omega, hcap hle⟩
    · -- Before the parameters there are no vaults.
      have hempty : F = ∅ := by
        refine Finset.eq_empty_of_forall_notMem fun j hj => ?_
        obtain ⟨v, hv⟩ := Option.isSome_iff_exists.mp ((hbooks.vaults j).mp hj)
        obtain ⟨p, hp, -⟩ := (hinv.receipts j v hv).rewards
        exact Option.some_ne_none p (hp.symm.trans hnone)
      rw [hsame, hempty] at hmoved
      have hsumZero : sumOver ∅ s.vaults (fun v => v.stakeAmount) = 0 := rfl
      exact ⟨by omega, by omega⟩
  · intro t
    have hmoved := hsum (inMint t)
    have hpool := h.pools t
    have hbefore := hbooks.pools t
    omega
  · intro k
    have hmoved := hsum (inService k)
    have hstake := hstakes k
    have hbefore := hbooks.stakes k
    omega

/-- What a vault counts for anywhere. -/
def Vault.entry (v : Vault K) : K × Nat × Option (Service K) := (v.stakeMint, v.stakeAmount, v.service)

omit [PubKey K] [Addresses K] [TokenProgram K] [MetadataProgram K] in
theorem elim_eq_of_entry {o o' : Option (Vault K)} (h : o'.map Vault.entry = o.map Vault.entry)
    {f : Vault K → Nat} (hf : ∀ v v' : Vault K, v'.entry = v.entry → f v' = f v) :
    o'.elim 0 f = o.elim 0 f := by
  cases o with
  | none =>
    cases o' with
    | none => rfl
    | some v' => cases h
  | some v =>
    cases o' with
    | none => cases h
    | some v' => exact hf v v' (Option.some.inj h)

omit [PubKey K] [Addresses K] [TokenProgram K] [MetadataProgram K] in
theorem entry_inj {v v' : Vault K} (h : v'.entry = v.entry) :
    v'.stakeMint = v.stakeMint ∧ v'.stakeAmount = v.stakeAmount ∧ v'.service = v.service := by
  simpa [Vault.entry] using h

omit [TokenProgram K] [MetadataProgram K] in
theorem entered_of_same {m : K} (hvaults : s'.vaults = Function.update s.vaults m (s'.vaults m))
    (hentry : (s'.vaults m).map Vault.entry = (s.vaults m).map Vault.entry)
    (hchains : s'.chains = s.chains)
    (hfunded : ∀ a, IsVaultToken a → s.ledger.balance a ≤ s'.ledger.balance a)
    (hparams : ∀ p', s'.stakingParams = some p' →
      (∃ p, s.stakingParams = some p ∧ p'.totalDepositedAmount = p.totalDepositedAmount ∧
        p.stakingCap ≤ p'.stakingCap) ∨
      (s.stakingParams = none ∧ p'.totalDepositedAmount = 0 ∧ s'.vaults m = s.vaults m)) :
    Entered s s' m where
  vaults := hvaults
  total := by
    intro p' hp'
    have hamount := elim_eq_of_entry hentry (f := (·.stakeAmount)) fun v v' h => (entry_inj h).2.1
    rcases hparams p' hp' with ⟨p, hp, htotal, hcap⟩ | hnone
    · refine Or.inl ⟨p, hp, by rw [htotal, hamount], fun hle => ?_⟩
      rw [htotal]
      exact le_trans hle hcap
    · exact Or.inr hnone
  pools := by
    intro t
    have hmint := elim_eq_of_entry hentry (f := inMint t) fun v v' h => by
      obtain ⟨hm, ha, -⟩ := entry_inj h
      rw [inMint, inMint, hm, ha]
    rw [hmint]
    exact Nat.add_le_add_right (hfunded _ ⟨t, rfl⟩) _
  stakes := by
    intro hsound
    rw [hchains]
    refine ⟨hsound, fun k => ?_⟩
    · have hservice := elim_eq_of_entry hentry (f := inService k) fun v v' h => by
        obtain ⟨-, ha, hs⟩ := entry_inj h
        rw [inService, inService, hs, ha]
      rw [hservice]

omit [TokenProgram K] [MetadataProgram K] in
/-- Vaults as they were, apart from one whose new data count for the same. -/
theorem entered_update {m : K} {v v' : Vault K} {l : Ledger K} (hv : s.vaults m = some v)
    (hentry : v'.entry = v.entry) (hfunded : ∀ a, IsVaultToken a → s.ledger.balance a ≤ l.balance a) :
    Entered s { s with ledger := l, vaults := Function.update s.vaults m (some v') } m := by
  refine entered_of_same ?_ ?_ rfl hfunded fun p hp => Or.inl ⟨p, hp, rfl, le_rfl⟩
  · simp
  · simp only [Function.update_self, hv, Option.map_some, hentry]

omit [TokenProgram K] [MetadataProgram K] in
/-- A validator's stake moves from what it was. -/
theorem Restaked.stakeOn {validator : K} {f : Option (Candidate K) → Option (Fin (2 ^ 128))}
    {chains chains' : K → Option (ChainData K)} (h : Restaked digest clock validator f chains chains')
    (hsound : ChainSound chains) :
    (getHostHead clock).isSome ∧ ChainSound chains' ∧
    ∃ candidate stake, f candidate = some stake ∧
      stakeOn chains validator = candidate.elim 0 (·.stake.get) ∧
      ∀ k, stakeOn chains' k = if k = validator then stake.val else stakeOn chains k := by
  obtain ⟨c, candidate, stake, c', hc, hcandidate, hf, hc', rfl⟩ := h
  obtain ⟨hhead, inner, inner', hinner, hinner', hspec⟩ := ChainData.setStake_spec hc'
  have hbefore : (chains Addresses.solanaIbc).bind (·.inner) = some inner := by
    rw [hc, Option.bind_some, hinner]
  have hafter : (Function.update chains Addresses.solanaIbc (some c') Addresses.solanaIbc).bind (·.inner) =
      some inner' := by
    rw [Function.update_self, Option.bind_some, hinner']
  obtain ⟨hsound', hstakes⟩ := hspec (hsound inner hbefore)
  refine ⟨hhead, ?_, candidate, stake, hf, ?_, ?_⟩
  · intro x hx
    cases Option.some.inj (hafter.symm.trans hx)
    exact hsound'
  · obtain ⟨x, hx, hfound⟩ := bind_eq_ok.mp hcandidate
    simp only [ChainData.get, hinner, Option.elim_some] at hx
    cases hx
    cases hfound
    rw [Restaking.stakeOn, hbefore]
    simp only [Option.elim_some, ChainInner.stakeOf, Candidates.stakeOf]
    cases inner.manager.candidates.candidates.find? fun el => el.pubkey = validator with
    | none => rfl
    | some el => rfl
  · intro k
    rw [Restaking.stakeOn, hafter, Restaking.stakeOn, hbefore]
    exact hstakes k

omit [PubKey K] [Addresses K] [TokenProgram K] [MetadataProgram K] in
theorem addedStake_some {candidate : Option (Candidate K)} {amount : Nat} {stake : Fin (2 ^ 128)}
    (h : addedStake candidate amount = some stake) :
    stake.val = candidate.elim 0 (·.stake.get) + amount := by
  unfold addedStake at h
  simp only at h
  split at h
  · cases h
    rfl
  · cases h

omit [PubKey K] [Addresses K] [TokenProgram K] [MetadataProgram K] in
theorem removedStake_some {candidate : Option (Candidate K)} {amount : Nat} {stake : Fin (2 ^ 128)}
    (h : candidate.bind (removedStake · amount) = some stake) :
    stake.val + amount = candidate.elim 0 (·.stake.get) := by
  obtain ⟨c, rfl, hremoved⟩ := Option.bind_eq_some_iff.mp h
  unfold removedStake at hremoved
  split at hremoved
  · cases hremoved
    exact Nat.sub_add_cancel ‹_›
  · cases hremoved

/-- A deposit brings the tokens it counts for. -/
theorem deposit_funds {ctx : Deposit K} {service : Service K} {amount : Fin (2 ^ 64)} (hinv : Inv s)
    (hsigners : ∀ k ∈ signers, Addresses.canSign k = true)
    (h : deposit digest s signers clock ctx service amount = .ok s') :
    ∀ a, IsVaultToken a → s.ledger.balance a + (if a = vaultToken ctx.tokenMint then amount.val else 0) ≤
      s'.ledger.balance a := by
  obtain ⟨params, tokenMint, x, l₁, l₂, l₃, l₄, l₅, chains, hsigned, -, -, -, ⟨hx, -, hxowner⟩, -, hl₁, hl₂,
    hl₃, -, hl₄, hl₅, -, rfl⟩ := deposit_ok h
  have hnotVault := not_isVaultToken hinv.sound hx (hxowner ▸ signer_ne hsigners hsigned)
  have hbefore : Quiet (fun _ => False) IsVaultToken s.ledger l₃ :=
    ((initIfNeeded_quiet hl₁ (fun hk => hk) fun _ => rfl).trans (.initializeMint hl₂)).trans
      (.initializeAccount hl₃ (fun hk => hk) fun hk => absurd hk associatedToken_not_isVaultToken)
  have hafter : Quiet (fun _ => False) IsVaultToken l₄ l₅ := mintNft_quiet hl₅ fun hk => hk
  intro a ha
  refine le_trans ?_ (hafter.funded a ha)
  have hle := hbefore.funded a ha
  have hne : ctx.depositorTokenAccount ≠ a := fun heq => hnotVault (heq ▸ ha)
  obtain ⟨y, z, hy, hz, -, -, -, rfl⟩ := TokenProgram.transfer_some hl₄
  by_cases hpool : a = vaultToken ctx.tokenMint
  · subst hpool
    rw [if_pos rfl, Ledger.balance_transfer_dst hz hne, ← Ledger.balance_eq hz]
    exact Nat.add_le_add_right hle _
  · rw [if_neg hpool, Ledger.balance_transfer_of_ne hne.symm hpool]
    exact hle

theorem deposit_entered {ctx : Deposit K} {service : Service K} {amount : Fin (2 ^ 64)} (hinv : Inv s)
    (hsigners : ∀ k ∈ signers, Addresses.canSign k = true)
    (h : deposit digest s signers clock ctx service amount = .ok s') :
    Entered s s' ctx.receiptTokenMint := by
  have hfunds := deposit_funds hinv hsigners h
  obtain ⟨params, tokenMint, x, l₁, l₂, l₃, l₄, l₅, chains, -, hparams, -, -, -, hnone, -, -, -, hcap, -, -,
    hchains, rfl⟩ := deposit_ok h
  refine ⟨by simp, ?_, ?_, ?_⟩
  · intro p' hp'
    cases Option.some.inj hp'
    refine Or.inl ⟨params, hparams, ?_, fun _ => hcap⟩
    simp [hnone]
  · intro t
    have hfund := hfunds _ ⟨t, rfl⟩
    simp only [Function.update_self, hnone, Option.elim_some, Option.elim_none, inMint, Nat.add_zero]
    by_cases ht : ctx.tokenMint = t
    · subst ht
      rwa [if_pos rfl] at hfund ⊢
    · rw [if_neg ht]
      rw [if_neg fun heq => ht (Addresses.vaultToken_injective heq).symm] at hfund
      exact hfund
  · intro hsound
    simp only [Function.update_self, hnone, Option.elim_some, Option.elim_none, inService]
    rcases hchains with ⟨hguest, rfl⟩ | ⟨hguest, hrestaked⟩
    · refine ⟨hsound, fun k => ?_⟩
      simp [hguest]
    · obtain ⟨-, hsound', candidate, stake, hf, hcandidate, hstakes⟩ := hrestaked.stakeOn hsound
      refine ⟨hsound', fun k => ?_⟩
      rw [hstakes k, if_pos hguest, Option.map_some]
      have hadded := addedStake_some hf
      by_cases hk : k = service.validator
      · subst hk
        simp only [if_pos]
        omega
      · rw [if_neg hk, if_neg fun heq => hk (Option.some.inj heq).symm]

omit [TokenProgram K] [MetadataProgram K] in
theorem setService_entered {ctx : SetService K} {service : Service K}
    (h : setService digest s signers clock ctx service = .ok s') : Entered s s' ctx.receiptTokenMint := by
  obtain ⟨vault, params, chains, hvault, -, -, hnone, hrestaked, rfl⟩ := setService_ok h
  refine ⟨by simp, fun p hp => Or.inl ⟨p, hp, ?_, fun hle => hle⟩, fun t => ?_, fun hsound => ?_⟩
  · simp [hvault]
  · simp [hvault, inMint]
  · obtain ⟨-, hsound', candidate, stake, hf, hcandidate, hstakes⟩ := hrestaked.stakeOn hsound
    refine ⟨hsound', fun k => ?_⟩
    simp only [Function.update_self, hvault, Option.elim_some, inService, hnone, Option.map_some, Option.map_none]
    rw [hstakes k]
    have hadded := addedStake_some hf
    by_cases hk : k = service.validator
    · subst hk
      simp only [if_pos, reduceCtorEq, if_false]
      omega
    · rw [if_neg hk, if_neg fun heq => hk (Option.some.inj heq).symm]
      simp

theorem withdraw_entered {ctx : Withdraw K} (hinv : Inv s)
    (h : withdraw digest s signers clock ctx = .ok s') : Entered s s' ctx.receiptTokenMint := by
  obtain ⟨v, hv, haside, v', r', hv', -, hclosed, hpaid, -⟩ := withdraw_owned hinv h
  cases Option.some.inj (hv.symm.trans hv')
  obtain ⟨vault, params, request, service, x, l₁, l₂, chains, -, hvault, ⟨hparams, -⟩, -, -, -, -, -, -, hle,
    hservice, hrestaked, -, -, rfl⟩ := withdraw_ok h
  cases Option.some.inj (hv.symm.trans hvault)
  simp only at hpaid
  refine ⟨by simp, ?_, ?_, ?_⟩
  · intro p' hp'
    cases Option.some.inj hp'
    refine Or.inl ⟨params, hparams, ?_, fun hcap => le_trans (Nat.sub_le ..) hcap⟩
    simp only [Function.update_self, hv, Option.elim_some, Option.elim_none]
    omega
  · intro t
    simp only [Function.update_self, hv, Option.elim_some, Option.elim_none, inMint]
    by_cases ht : v.stakeMint = t
    · subst ht
      simp only [if_pos]
      omega
    · rw [if_neg ht]
      refine haside.ledger.funded _ ⟨⟨t, rfl⟩, fun heq => ht ?_⟩
      exact (Addresses.vaultToken_injective heq).symm
  · intro hsound
    obtain ⟨-, hsound', candidate, stake, hf, hcandidate, hstakes⟩ := hrestaked.stakeOn hsound
    refine ⟨hsound', fun k => ?_⟩
    simp only [Function.update_self, hv, Option.elim_some, Option.elim_none, inService, hservice,
      Option.map_some]
    rw [hstakes k]
    have hremoved := removedStake_some hf
    by_cases hk : k = service.validator
    · subst hk
      simp only [if_pos]
      omega
    · rw [if_neg hk, if_neg fun heq => hk (Option.some.inj heq).symm]

/-- The request pending for a vault. -/
def State.request (s : State K) (m : K) : Option (WithdrawalRequestParams K) :=
  (s.vaults m).bind (·.withdrawalRequest)

/-- What an instruction does to the vault of `m`. -/
inductive Moved (ix : Instruction K) (s s' : State K) (m : K) : Prop where
  | kept (hopen : (s'.vaults m).isSome = (s.vaults m).isSome) (hrequest : s'.request m = s.request m)
  | opened (hnew : s.ledger.mints m = none) (hopen : (s'.vaults m).isSome) (hrequest : s'.request m = none)
  | requested (ctx : WithdrawalRequest K) (hcall : ix.call = .withdrawalRequest ctx)
      (hm : m = ctx.receiptTokenMint) (hopen : (s.vaults m).isSome) (hopen' : (s'.vaults m).isSome)
      (hrequest : (s'.request m).map (·.timestampInSec) = some (timestampSec ix.clock))
  | cancelled (hopen : (s.vaults m).isSome) (hopen' : (s'.vaults m).isSome) (hrequest : s'.request m = none)
  | paid (r : WithdrawalRequestParams K) (hpaid : PaidOut s s' m) (hrequest : s.request m = some r)
      (htime : r.timestampInSec + unbondingPeriodInSec ≤ timestampSec ix.clock)
      (hhead : ChainSound s.chains → (getHostHead ix.clock).isSome)

/-- A new vault is of a new mint. -/
theorem deposit_new {ctx : Deposit K} {service : Service K} {amount : Fin (2 ^ 64)}
    (h : deposit digest s signers clock ctx service amount = .ok s') :
    s.ledger.mints ctx.receiptTokenMint = none := by
  obtain ⟨params, tokenMint, x, l₁, l₂, l₃, l₄, l₅, chains, -, -, -, -, -, -, hl₁, hl₂, -⟩ := deposit_ok h
  have hquiet : Quiet (fun _ => False) IsVaultToken s.ledger l₁ :=
    initIfNeeded_quiet hl₁ (fun hk => hk) fun _ => rfl
  rw [← Option.not_isSome_iff_eq_none]
  intro hsome
  have hsome₁ := hquiet.mints.isSome hsome
  rw [(Ledger.initializeMint_new hl₂).1] at hsome₁
  cases hsome₁

omit [TokenProgram K] [MetadataProgram K] in
theorem moved_update {ix : Instruction K} {m : K} {v v' : Vault K} {s s' : State K} (hv : s.vaults m = some v)
    (hv' : s'.vaults m = some v') (hrequest : v'.withdrawalRequest = v.withdrawalRequest) : Moved ix s s' m := by
  refine .kept ?_ ?_
  · rw [hv, hv']
    rfl
  · rw [State.request, State.request, hv, hv', Option.bind_some, Option.bind_some, hrequest]

omit [TokenProgram K] [MetadataProgram K] in
theorem moved_refl {ix : Instruction K} {m : K} (hvaults : s'.vaults = s.vaults) : Moved ix s s' m := by
  refine .kept ?_ ?_
  · rw [hvaults]
  · rw [State.request, State.request, hvaults]

/-- The guest chain is not yet attached. -/
def Unattached (s : State K) : Prop := ∀ p, s.stakingParams = some p → p.guestChainProgramId = none

/-- All of what an instruction means for the accounts. -/
structure Recorded (ix : Instruction K) (s s' : State K) (m : K) : Prop where
  entered : Entered s s' m
  moved : Moved ix s s' m
  mints : Ledger.KeepsMints s.ledger s'.ledger
  drained : ∀ t, s'.ledger.balance (vaultToken t) < s.ledger.balance (vaultToken t) →
    ∃ v, s.vaults m = some v ∧ v.stakeMint = t ∧ s'.vaults m = none
  unattached : Unattached s' → Unattached s ∧ s'.chains = s.chains

omit [MetadataProgram K] in
theorem Aside.recorded {touched : K → Prop} {ix : Instruction K} {m : K} (h : Aside touched IsVaultToken s s')
    (hentered : Entered s s' m) (hmoved : Moved ix s s' m)
    (hunattached : Unattached s' → Unattached s ∧ s'.chains = s.chains) : Recorded ix s s' m where
  entered := hentered
  moved := hmoved
  mints := h.ledger.mints
  drained := fun t hlt => absurd (h.ledger.funded _ ⟨t, rfl⟩) (Nat.not_le.mpr hlt)
  unattached := hunattached

theorem deposit_recorded {ix : Instruction K} {ctx : Deposit K} {service : Service K} {amount : Fin (2 ^ 64)}
    (hinv : Inv s) (hsigners : ∀ k ∈ ix.signers, Addresses.canSign k = true)
    (h : deposit digest s ix.signers ix.clock ctx service amount = .ok s') :
    Recorded ix s s' ctx.receiptTokenMint := by
  have hentered := deposit_entered hinv hsigners h
  have haside := (deposit_owned hinv hsigners h).2.1
  have hnew := deposit_new h
  obtain ⟨params, tokenMint, x, l₁, l₂, l₃, l₄, l₅, chains, -, hparams, -, -, -, -, -, -, -, -, -, -, hchains,
    rfl⟩ := deposit_ok h
  refine haside.recorded hentered (.opened hnew ?_ ?_) fun hnot => ?_
  · simp
  · simp [State.request]
  · have hguest := hnot _ rfl
    rcases hchains with ⟨-, rfl⟩ | ⟨hsome, -⟩
    · refine ⟨fun p hp => ?_, rfl⟩
      cases Option.some.inj (hp.symm.trans hparams)
      exact hguest
    · rw [show params.guestChainProgramId = none from hguest] at hsome
      cases hsome

theorem withdraw_recorded {ix : Instruction K} {ctx : Withdraw K} (hinv : Inv s)
    (h : withdraw digest s ix.signers ix.clock ctx = .ok s') : Recorded ix s s' ctx.receiptTokenMint := by
  have hentered := withdraw_entered hinv h
  obtain ⟨v, hv, haside, hpaid⟩ := withdraw_owned hinv h
  obtain ⟨vault, params, request, service, x, l₁, l₂, chains, -, hvault, ⟨hparams, hguest⟩, hrequest, -, -, -, -,
    htime, -, -, hrestaked, -, -, heq⟩ := withdraw_ok h
  refine ⟨hentered, .paid request hpaid ?_ htime fun hsound => (hrestaked.stakeOn hsound).1, haside.ledger.mints,
    ?_, fun hnot => ?_⟩
  · rw [State.request, hvault, Option.bind_some, hrequest]
  · intro t hlt
    obtain ⟨-, -, -, -, hclosed, -⟩ := hpaid
    exact ⟨v, hv, haside.stakeMint_eq hlt, hclosed⟩
  · rw [heq] at hnot
    have hnone := hnot _ rfl
    simp only at hnone
    rw [hnone] at hguest
    cases hguest

/-- Every instruction is recorded. -/
theorem step_recorded {ix : Instruction K} (hinv : Inv s) (h : s.step digest ix = .ok s') :
    ∃ m, Recorded ix s s' m := by
  obtain ⟨_, hcheck, hdispatch⟩ := bind_eq_ok.mp h
  have hsigners := check_ok.mp hcheck
  -- Where no vault changes, any of them can stand for the one that did not.
  have hsame : s'.vaults = s.vaults →
      s'.vaults = Function.update s.vaults Addresses.stakingParams (s'.vaults Addresses.stakingParams) := by
    intro heq
    rw [heq, Function.update_eq_self]
  cases hparams : ix.call.onParams with
  | true =>
    obtain ⟨p, p', hp, rfl, hrewards, htotal, hcap, hguest⟩ := dispatch_onParams hparams hdispatch
    refine ⟨Addresses.stakingParams, (aside_params hinv hp hrewards).recorded
      (entered_of_same (hsame rfl) rfl rfl (fun _ _ => le_rfl) ?_) (moved_refl rfl) ?_⟩
    · intro q hq
      cases Option.some.inj hq
      exact Or.inl ⟨p, hp, htotal, hcap⟩
    · intro hnot
      refine ⟨fun q hq => ?_, rfl⟩
      cases Option.some.inj (hq.symm.trans hp)
      exact hguest (hnot p' rfl)
  | false =>
    cases hix : ix.call with
    | initializeStaking ctx whitelistedTokens stakingCap =>
      simp only [State.dispatch, hix] at hdispatch
      have haside := initializeStaking_aside hinv hdispatch
      obtain ⟨l, params, hnone, -, -, -, hzero, rfl⟩ := initializeStaking_ok hdispatch
      refine ⟨Addresses.stakingParams, haside.recorded
        (entered_of_same (hsame rfl) rfl rfl haside.ledger.funded ?_) (moved_refl rfl) ?_⟩
      · intro q hq
        cases Option.some.inj hq
        exact Or.inr ⟨hnone, hzero, rfl⟩
      · exact fun _ => ⟨fun p hp => absurd (hp.symm.trans hnone) (Option.some_ne_none p), rfl⟩
    | deposit ctx service amount =>
      simp only [State.dispatch, hix] at hdispatch
      exact ⟨_, deposit_recorded hinv hsigners hdispatch⟩
    | withdrawalRequest ctx =>
      simp only [State.dispatch, hix] at hdispatch
      have haside := (withdrawalRequest_owned hinv hsigners hdispatch).1
      obtain ⟨v, _, _, _, _, _, _, _, _, _, _, _, -, hv, -, -, -, -, -, -, -, -, -, -, -, rfl⟩ :=
        withdrawalRequest_ok hdispatch
      refine ⟨_, haside.recorded (entered_update hv (by rfl) haside.ledger.funded)
        (.requested ctx hix rfl ?_ ?_ ?_) fun hnot => ⟨hnot, rfl⟩⟩
      · simp [hv]
      · simp
      · simp [State.request]
    | cancelWithdrawalRequest ctx =>
      simp only [State.dispatch, hix] at hdispatch
      have haside := (cancelWithdrawalRequest_owned hinv hdispatch).1
      obtain ⟨v, _, _, _, _, -, hv, -, -, -, -, rfl⟩ := cancelWithdrawalRequest_ok hdispatch
      refine ⟨_, haside.recorded (entered_update hv (by rfl) haside.ledger.funded)
        (.cancelled ?_ ?_ ?_) fun hnot => ⟨hnot, rfl⟩⟩
      · simp [hv]
      · simp
      · simp [State.request]
    | withdraw ctx =>
      simp only [State.dispatch, hix] at hdispatch
      exact ⟨_, withdraw_recorded hinv hdispatch⟩
    | claimRewards ctx =>
      simp only [State.dispatch, hix] at hdispatch
      have haside := claimRewards_aside hinv hdispatch
      obtain ⟨v, _, _, _, _, _, _, hv, -, -, -, -, -, rfl⟩ := claimRewards_ok hdispatch
      exact ⟨_, haside.recorded (entered_update hv (by rfl) haside.ledger.funded)
        (moved_update hv (Function.update_self ..) rfl) fun hnot => ⟨hnot, rfl⟩⟩
    | setService ctx service =>
      simp only [State.dispatch, hix] at hdispatch
      have haside := setService_aside hinv hdispatch
      have hentered := setService_entered hdispatch
      obtain ⟨v, params, chains, hv, hp, hguest, -, -, rfl⟩ := setService_ok hdispatch
      refine ⟨_, haside.recorded hentered (moved_update hv (Function.update_self ..) rfl) fun hnot => ?_⟩
      rw [hnot params hp] at hguest
      cases hguest
    | withdrawRewardFunds ctx =>
      simp only [State.dispatch, hix] at hdispatch
      have haside := withdrawRewardFunds_aside hinv hdispatch
      obtain ⟨_, _, l, -, -, -, -, rfl⟩ := withdrawRewardFunds_ok hdispatch
      refine ⟨Addresses.stakingParams, haside.recorded
        (entered_of_same (hsame rfl) rfl rfl haside.ledger.funded ?_) (moved_refl rfl) fun hnot => ⟨hnot, rfl⟩⟩
      exact fun p hp => Or.inl ⟨p, hp, rfl, le_rfl⟩
    | _ =>
      rw [hix] at hparams
      cases hparams

theorem exec_recorded (hinv : Inv s) (ix : Instruction K) :
    s.exec digest ix = s ∨ ∃ m, Recorded ix s (s.exec digest ix) m := by
  rcases exec_cases digest s ix with ⟨s', hs', heq⟩ | ⟨-, heq⟩
  · rw [heq]
    exact Or.inr (step_recorded hinv hs')
  · exact Or.inl heq

variable (digest) in
theorem execAll_concat (s : State K) (ixs : List (Instruction K)) (ix : Instruction K) :
    s.execAll digest (ixs ++ [ix]) = (s.execAll digest ixs).exec digest ix := by
  simp [State.execAll]

variable (digest) in
theorem execAll_books (hs : Fresh start) (hchain : ChainSound start.chains) (ixs : List (Instruction K)) :
    ChainSound (start.execAll digest ixs).chains ∧ (∃ F, Books start (start.execAll digest ixs) F) ∧
      (Unattached (start.execAll digest ixs) → (start.execAll digest ixs).chains = start.chains) := by
  induction ixs using List.reverseRecOn with
  | nil =>
    refine ⟨hchain, ⟨∅, ?_, ?_, ?_, ?_⟩, fun _ => rfl⟩
    · intro m
      simp [State.execAll, hs.vaults m]
    · intro p hp
      exact absurd (hp.symm.trans hs.stakingParams) (Option.some_ne_none p)
    · exact fun t => Nat.zero_le _
    · exact fun k => rfl
  | append_singleton ixs ix ih =>
    rw [execAll_concat]
    have hinv : Inv (start.execAll digest ixs) := execAll_inv hs.inv
    rcases exec_recorded hinv ix with heq | ⟨m, hrecorded⟩
    · rw [heq]
      exact ih
    · obtain ⟨hsound, ⟨F, hbooks⟩, hunattached⟩ := ih
      obtain ⟨hsound', hbooks'⟩ := hrecorded.entered.books hinv hsound hbooks
      refine ⟨hsound', hbooks', fun hnot => ?_⟩
      obtain ⟨hnot', hchains⟩ := hrecorded.unattached hnot
      rw [hchains, hunattached hnot']

omit [TokenProgram K] [MetadataProgram K] in
theorem Entered.vaults_of_ne {m m' : K} (h : Entered s s' m) (hm : m' ≠ m) : s'.vaults m' = s.vaults m' := by
  rw [h.vaults, Function.update_of_ne hm]

/-- The pending request was made by an instruction of the run and stayed since. -/
def RequestedBy (digest : List Byte → CryptoHash) (start : State K) (before : List (Instruction K)) (m : K)
    (r : WithdrawalRequestParams K) (ix₀ : Instruction K) : Prop :=
  ∃ pre post ctx, before = pre ++ ix₀ :: post ∧ ix₀.call = .withdrawalRequest ctx ∧ ctx.receiptTokenMint = m ∧
    r.timestampInSec = timestampSec ix₀.clock ∧
    ∀ p q, post = p ++ q → (start.execAll digest (pre ++ ix₀ :: p)).request m = some r

theorem RequestedBy.concat {before : List (Instruction K)} {m : K} {r : WithdrawalRequestParams K}
    {ix₀ ix : Instruction K} (h : RequestedBy digest start before m r ix₀)
    (hnow : (start.execAll digest (before ++ [ix])).request m = some r) :
    RequestedBy digest start (before ++ [ix]) m r ix₀ := by
  obtain ⟨pre, post, ctx, rfl, hcall, hm, htime, hsince⟩ := h
  refine ⟨pre, post ++ [ix], ctx, by simp, hcall, hm, htime, fun p q hpq => ?_⟩
  rcases List.eq_nil_or_concat q with rfl | ⟨q', last, rfl⟩
  · rw [List.append_nil] at hpq
    rw [← hpq]
    simpa using hnow
  · rw [List.concat_eq_append, ← List.append_assoc] at hpq
    exact hsince p q' (List.append_inj' hpq rfl).1

theorem request_origin (hs : Fresh start) {ixs : List (Instruction K)} {m : K}
    {r : WithdrawalRequestParams K} (h : (start.execAll digest ixs).request m = some r) :
    ∃ ix₀, RequestedBy digest start ixs m r ix₀ := by
  induction ixs using List.reverseRecOn with
  | nil =>
    simp [State.execAll, State.request, hs.vaults m] at h
  | append_singleton ixs ix ih =>
    have hinv : Inv (start.execAll digest ixs) := execAll_inv hs.inv
    have hstayed : (start.execAll digest ixs).request m = some r →
        ∃ ix₀, RequestedBy digest start (ixs ++ [ix]) m r ix₀ := by
      intro hbefore
      obtain ⟨ix₀, hix₀⟩ := ih hbefore
      exact ⟨ix₀, hix₀.concat h⟩
    have hnow := h
    rw [execAll_concat] at hnow
    rcases exec_recorded hinv ix with heq | ⟨m', hrecorded⟩
    · rw [heq] at hnow
      exact hstayed hnow
    · by_cases hm : m = m'
      · subst hm
        cases hrecorded.moved with
        | kept hopen hrequest => exact hstayed (hrequest ▸ hnow)
        | opened hnew hopen hrequest => exact absurd (hnow.symm.trans hrequest) (Option.some_ne_none r)
        | requested ctx hcall hctx hopen hopen' hrequest =>
          rw [hnow, Option.map_some] at hrequest
          refine ⟨ix, ixs, [], ctx, rfl, hcall, hctx.symm, Option.some.inj hrequest, fun p q hpq => ?_⟩
          obtain ⟨rfl, rfl⟩ := List.append_eq_nil_iff.mp hpq.symm
          exact h
        | cancelled hopen hopen' hrequest => exact absurd (hnow.symm.trans hrequest) (Option.some_ne_none r)
        | paid r' hpaid hrequest htime hhead =>
          obtain ⟨-, -, -, -, hclosed, -⟩ := hpaid
          rw [State.request, hclosed] at hnow
          cases hnow
      · refine hstayed ?_
        rwa [State.request, hrecorded.entered.vaults_of_ne hm] at hnow

/-- A vault which is closed stays closed, its mint is taken. -/
theorem closed_stays (hinv : Inv s) {m : K} (hmint : (s.ledger.mints m).isSome) (hclosed : s.vaults m = none)
    (later : List (Instruction K)) : (s.execAll digest later).vaults m = none := by
  induction later generalizing s with
  | nil => exact hclosed
  | cons ix later ih =>
    have hinv' : Inv (s.exec digest ix) := exec_inv hinv
    rcases exec_recorded hinv ix with heq | ⟨m', hrecorded⟩
    · rw [State.execAll, List.foldl_cons, heq]
      exact ih hinv hmint hclosed
    · refine ih hinv' (hrecorded.mints.isSome hmint) ?_
      by_cases hm : m = m'
      · subst hm
        cases hrecorded.moved with
        | kept hopen hrequest =>
          rw [hclosed] at hopen
          exact Option.not_isSome_iff_eq_none.mp (by rw [hopen]; exact Bool.false_ne_true)
        | opened hnew hopen hrequest =>
          rw [hnew] at hmint
          cases hmint
        | requested ctx hcall hctx hopen hopen' hrequest =>
          rw [hclosed] at hopen
          cases hopen
        | cancelled hopen hopen' hrequest =>
          rw [hclosed] at hopen
          cases hopen
        | paid r hpaid hrequest htime hhead =>
          obtain ⟨-, -, -, -, hclosed', -⟩ := hpaid
          exact hclosed'
      · rw [hrecorded.entered.vaults_of_ne hm]
        exact hclosed

/-- The clock of the host is a signed number of 64 bits. -/
def ClockFits (clock : Clock) : Prop := -2 ^ 63 ≤ clock.unixTimestamp ∧ clock.unixTimestamp < 2 ^ 63

theorem unbonded {clock₀ : Clock} (hfits : ClockFits clock₀) (hhead : (getHostHead clock).isSome)
    (h : timestampSec clock₀ + unbondingPeriodInSec ≤ timestampSec clock) :
    clock₀.unixTimestamp + unbondingPeriodInSec ≤ clock.unixTimestamp := by
  obtain ⟨hlow, hhigh⟩ := hfits
  have hpos : 0 < clock.unixTimestamp.toNat * 10 ^ 9 ∧ clock.unixTimestamp.toNat * 10 ^ 9 < 2 ^ 64 := by
    by_contra hnot
    simp only [getHostHead, dif_neg hnot] at hhead
    cases hhead
  unfold timestampSec at h
  omega

/-- What an instruction pays out was due, and is paid out once. -/
structure PaysDue (digest : List Byte → CryptoHash) (start : State K) (before : List (Instruction K))
    (ix : Instruction K) (s s' : State K) : Prop where
  closed : ∀ m, (s.vaults m).isSome → s'.vaults m = none → PaidOut s s' m
  drained : ∀ t, s'.ledger.balance (vaultToken t) < s.ledger.balance (vaultToken t) →
    ∃ m v, s.vaults m = some v ∧ v.stakeMint = t ∧ s'.vaults m = none
  due : ∀ m, PaidOut s s' m → ∃ r ix₀, s.request m = some r ∧ RequestedBy digest start before m r ix₀ ∧
    ix₀.clock.unixTimestamp + unbondingPeriodInSec ≤ ix.clock.unixTimestamp
  once : ∀ m, PaidOut s s' m → ∀ later, (s'.execAll digest later).vaults m = none

omit [TokenProgram K] [MetadataProgram K] in
/-- A vault is closed by a payout. -/
theorem Recorded.paid {ix : Instruction K} {m m' : K} (h : Recorded ix s s' m') (hopen : (s.vaults m).isSome)
    (hclosed : s'.vaults m = none) :
    PaidOut s s' m ∧ ∃ r, s.request m = some r ∧
      r.timestampInSec + unbondingPeriodInSec ≤ timestampSec ix.clock ∧
      (ChainSound s.chains → (getHostHead ix.clock).isSome) := by
  have hm : m = m' := by
    by_contra hne
    rw [h.entered.vaults_of_ne hne] at hclosed
    rw [hclosed] at hopen
    cases hopen
  subst hm
  cases h.moved with
  | kept hopen' hrequest =>
    rw [hclosed, hopen] at hopen'
    cases hopen'
  | paid r hpaid hrequest htime hhead => exact ⟨hpaid, r, hrequest, htime, hhead⟩
  | opened hnew hopen' hrequest =>
    rw [hclosed] at hopen'
    cases hopen'
  | requested ctx hcall hctx hopen hopen' hrequest =>
    rw [hclosed] at hopen'
    cases hopen'
  | cancelled hopen hopen' hrequest =>
    rw [hclosed] at hopen'
    cases hopen'

theorem exec_paysDue (hs : Fresh start) (hchain : ChainSound start.chains) {before : List (Instruction K)}
    {ix : Instruction K} (hclocks : ∀ ix ∈ before, ClockFits ix.clock) :
    PaysDue digest start before ix (start.execAll digest before)
      ((start.execAll digest before).exec digest ix) := by
  have hinv : Inv (start.execAll digest before) := execAll_inv hs.inv
  have hsound := (execAll_books digest hs hchain before).1
  have hopened : ∀ {m}, PaidOut (start.execAll digest before) ((start.execAll digest before).exec digest ix) m →
      ((start.execAll digest before).vaults m).isSome ∧
        ((start.execAll digest before).exec digest ix).vaults m = none := by
    rintro m ⟨v, r, hv, -, hclosed, -⟩
    exact ⟨Option.isSome_iff_exists.mpr ⟨v, hv⟩, hclosed⟩
  rcases exec_recorded hinv ix with heq | ⟨m', hrecorded⟩
  · -- An instruction which fails pays nothing.
    have hnot : ∀ {m}, ((start.execAll digest before).vaults m).isSome →
        ((start.execAll digest before).exec digest ix).vaults m = none → False := by
      intro m hopen hclosed
      rw [heq] at hclosed
      rw [hclosed] at hopen
      cases hopen
    refine ⟨fun m hopen hclosed => (hnot hopen hclosed).elim, ?_, ?_, ?_⟩
    · intro t hlt
      rw [heq] at hlt
      exact absurd hlt (Nat.lt_irrefl _)
    · exact fun m hpaid => (hnot (hopened hpaid).1 (hopened hpaid).2).elim
    · exact fun m hpaid => (hnot (hopened hpaid).1 (hopened hpaid).2).elim
  · refine ⟨fun m hopen hclosed => (hrecorded.paid hopen hclosed).1, ?_, ?_, ?_⟩
    · intro t hlt
      obtain ⟨v, hv, ht, hclosed⟩ := hrecorded.drained t hlt
      exact ⟨m', v, hv, ht, hclosed⟩
    · intro m hpaid
      obtain ⟨hopen, hclosed⟩ := hopened hpaid
      obtain ⟨-, r, hr, htime, hhead⟩ := hrecorded.paid hopen hclosed
      obtain ⟨ix₀, hix₀⟩ := request_origin hs hr
      refine ⟨r, ix₀, hr, hix₀, ?_⟩
      obtain ⟨pre, post, ctx, rfl, -, -, hmade, -⟩ := hix₀
      refine unbonded (hclocks ix₀ (by simp)) (hhead hsound) ?_
      rw [← hmade]
      exact htime
    · intro m hpaid later
      obtain ⟨hopen, hclosed⟩ := hopened hpaid
      obtain ⟨v, hv⟩ := Option.isSome_iff_exists.mp hopen
      obtain ⟨a, ha, -⟩ := (hinv.receipts m v hv).decimals
      exact closed_stays (exec_inv hinv) (hrecorded.mints.isSome (Option.isSome_iff_exists.mpr ⟨a, ha⟩)) hclosed
        later

variable (digest) in
/-- After every run the accounts agree about the open vaults, and whatever was paid
out in it was due. -/
theorem restaking_accounts_agree (hs : Fresh start) (hchain : ChainSound start.chains)
    (ixs : List (Instruction K)) (hclocks : ∀ ix ∈ ixs, ClockFits ix.clock) :
    (∃ F, Books start (start.execAll digest ixs) F) ∧
    (Unattached (start.execAll digest ixs) → (start.execAll digest ixs).chains = start.chains) ∧
    ∀ before ix after, ixs = before ++ ix :: after →
      PaysDue digest start before ix (start.execAll digest before)
        ((start.execAll digest before).exec digest ix) := by
  obtain ⟨-, hbooks, hunattached⟩ := execAll_books digest hs hchain ixs
  refine ⟨hbooks, hunattached, ?_⟩
  rintro before ix after rfl
  exact exec_paysDue hs hchain fun ix' hix' => hclocks ix' (List.mem_append_left _ hix')

end

namespace Sample

theorem start_chainSound : ChainSound start.chains := by
  intro inner hinner
  obtain rfl : _ = inner := Option.some.inj hinner
  exact ⟨⟨List.pairwise_singleton .., by decide, by decide⟩, List.nodup_singleton _⟩

def payOut (clock : Clock) : Instruction Address :=
  ⟨[alice], clock, .withdraw ⟨alice, alice, stakeMint, aliceTokens, receipt⟩⟩

end Sample

open Sample in
/-- The stake is paid out on the eighth day. -/
theorem restaking_accounts_sample :
    let digest : List Byte → CryptoHash := fun _ => CryptoHash.default
    let before := request ⟨1, 100⟩ 1000 7
    let ix := payOut ⟨1, 100 + unbondingPeriodInSec⟩
    let s := start.execAll digest before
    (∃ F, Books start (start.execAll digest (before ++ [ix])) F) ∧ PaidOut s (s.exec digest ix) receipt ∧
      PaysDue digest start before ix s (s.exec digest ix) := by
  intro digest before ix s
  have hclocks : ∀ ix' ∈ before ++ [ix], ClockFits ix'.clock := by
    intro ix' hix'
    rcases List.mem_append.mp hix' with hbefore | hlast
    · simp only [before, request, List.mem_cons, List.not_mem_nil, or_false] at hbefore
      rcases hbefore with rfl | rfl | rfl | rfl <;> exact ⟨by decide, by decide⟩
    · rw [List.mem_singleton.mp hlast]
      exact ⟨by decide, by decide⟩
  obtain ⟨hbooks, -, hpays⟩ := restaking_accounts_agree digest start_fresh start_chainSound
    (before ++ [ix]) hclocks
  have hdue : PaysDue digest start before ix s (s.exec digest ix) := hpays before ix [] rfl
  have hopen : (s.vaults receipt).isSome := by decide
  have hclosed : ((s.exec digest ix).vaults receipt).isNone = true := by decide
  have hpaid := hdue.closed receipt hopen (Option.isNone_iff_eq_none.mp hclosed)
  exact ⟨hbooks, hpaid, hdue⟩

end Restaking
