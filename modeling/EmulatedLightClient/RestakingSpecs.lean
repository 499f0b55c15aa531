import EmulatedLightClient.Restaking
import EmulatedLightClient.TokenHoldings

/-!
# What restaking instructions do

For each instruction, the checks it passed and the accounts it leaves when it
succeeds.
-/

namespace Restaking

open ByteBits FailingState GuestChain MachineInts Nodes SolanaIbc TokenLedger

variable {K : Type} [PubKey K] [Addresses K] [TokenProgram K] [MetadataProgram K]
  {digest : List Byte → CryptoHash} {s s' : State K} {signers : List K} {clock : Clock}
  {l l' : Ledger K} {k m mint owner authority payer src dst : K} {n : Nat} {x : TokenAccount K}

theorem pure_ok {α : Type} {a b : α} : (pure a : Except Fault α) = .ok b ↔ a = b := by
  change Except.ok a = Except.ok b ↔ _
  simp

omit [Addresses K] [TokenProgram K] [MetadataProgram K] in
theorem tokenAccount_ok : tokenAccount l k mint authority = .ok x ↔
    l.tokens k = some x ∧ x.mint = mint ∧ x.owner = authority := by
  simp only [tokenAccount, bind_eq_ok, orFault_ok, check_ok, pure_ok]
  constructor
  · rintro ⟨y, hy, -, hyes, rfl⟩
    exact ⟨hy, hyes⟩
  · rintro ⟨hx, hyes⟩
    exact ⟨x, hx, (), hyes, rfl⟩

omit [Addresses K] [MetadataProgram K] in
theorem init_ok : init l payer k mint owner = .ok l' ↔
    TokenProgram.initializeAccount l payer k mint owner = some l' := orFault_ok

omit [Addresses K] [MetadataProgram K] in
theorem transfer_ok : transfer l src dst authority n = .ok l' ↔
    TokenProgram.transfer l src dst authority n = some l' := orFault_ok

omit [Addresses K] [MetadataProgram K] in
theorem closeAccount_ok : closeAccount l k dst authority = .ok l' ↔
    TokenProgram.closeAccount l k dst authority = some l' := orFault_ok

omit [Addresses K] [MetadataProgram K] in
theorem initIfNeeded_ok (h : initIfNeeded l payer k mint owner = .ok l') :
    (TokenProgram.initializeAccount l payer k mint owner = some l') ∨
      (l' = l ∧ ∃ x, l.tokens k = some x ∧ x.mint = mint ∧ x.owner = owner) := by
  unfold initIfNeeded at h
  split at h
  · exact Or.inl (init_ok.mp h)
  · simp only [bind_eq_ok, tokenAccount_ok, pure_ok] at h
    obtain ⟨x, hx, rfl⟩ := h
    exact Or.inr ⟨rfl, x, hx⟩

omit [Addresses K] in
theorem mintNft_ok (h : mintNft l mint payer authority dst = .ok l') :
    ∃ l₁ l₂, TokenProgram.mintTo l mint dst authority 1 = some l₁ ∧
      MetadataProgram.createMetadata l₁ payer mint authority tokenName tokenSymbol tokenUri = some l₂ ∧
      MetadataProgram.createMasterEdition l₂ payer mint authority = some l' := by
  simp only [mintNft, bind_eq_ok, orFault_ok] at h
  obtain ⟨l₁, hl₁, l₂, hl₂, hl'⟩ := h
  exact ⟨l₁, l₂, hl₁, hl₂, hl'⟩

/-- A validator's stake on the guest chain becomes what `f` makes of its candidate. -/
def Restaked (digest : List Byte → CryptoHash) (clock : Clock) (validator : K)
    (f : Option (Candidate K) → Option (Fin (2 ^ 128))) (chains chains' : K → Option (ChainData K)) : Prop :=
  ∃ c candidate stake c', chains Addresses.solanaIbc = some c ∧ c.candidate validator = .ok candidate ∧
    f candidate = some stake ∧ c.setStake digest clock validator stake = .ok c' ∧
    chains' = Function.update chains Addresses.solanaIbc (some c')

omit [TokenProgram K] [MetadataProgram K] in
theorem setStake_ok {programId validator : K} {c : ChainData K} {amount : Fin (2 ^ 128)}
    (h : setStake digest s clock programId c validator amount = .ok s') :
    programId = Addresses.solanaIbc ∧ ∃ c', c.setStake digest clock validator amount = .ok c' ∧
      s' = { s with chains := Function.update s.chains Addresses.solanaIbc (some c') } := by
  simp only [setStake, bind_eq_ok, mapError_ok, check_ok, pure_ok] at h
  obtain ⟨-, rfl, c', hc', rfl⟩ := h
  exact ⟨rfl, c', hc', rfl⟩

omit [TokenProgram K] [MetadataProgram K] in
theorem addStake_ok {programId validator : K} {amount : Nat}
    (h : addStake digest s clock programId validator amount = .ok s') :
    ∃ chains, Restaked digest clock validator (addedStake · amount) s.chains chains ∧
      s' = { s with chains } := by
  simp only [addStake, bind_eq_ok, mapError_ok, orFault_ok] at h
  obtain ⟨c, hc, candidate, hcandidate, stake, hstake, h⟩ := h
  obtain ⟨rfl, c', hc', rfl⟩ := setStake_ok h
  exact ⟨_, ⟨c, candidate, stake, c', hc, hcandidate, hstake, hc', rfl⟩, rfl⟩

omit [MetadataProgram K] in
theorem initializeStaking_ok {ctx : Initialize K} {whitelistedTokens : List K} {stakingCap : Fin (2 ^ 128)}
    (h : initializeStaking s signers ctx whitelistedTokens stakingCap = .ok s') :
    ∃ l params, s.stakingParams = none ∧ (s.ledger.mints ctx.rewardsTokenMint).isSome ∧
      TokenProgram.initializeAccount s.ledger ctx.admin Addresses.rewards ctx.rewardsTokenMint
        Addresses.stakingParams = some l ∧
      params.rewardsTokenMint = ctx.rewardsTokenMint ∧ params.totalDepositedAmount = 0 ∧
      s' = { s with ledger := l, stakingParams := some params } := by
  simp only [initializeStaking, bind_eq_ok, orFault_ok, check_ok, init_ok, pure_ok, exists_const] at h
  obtain ⟨⟨-, hnone⟩, mint, hmint, l, hl, rfl⟩ := h
  exact ⟨l, _, Option.isNone_iff_eq_none.mp hnone, Option.isSome_iff_exists.mpr ⟨mint, hmint⟩, hl, rfl,
    rfl, rfl⟩

theorem deposit_ok {ctx : Deposit K} {service : Service K} {amount : Fin (2 ^ 64)}
    (h : deposit digest s signers clock ctx service amount = .ok s') :
    ∃ params tokenMint x l₁ l₂ l₃ l₄ l₅ chains,
      ctx.depositor ∈ signers ∧ s.stakingParams = some params ∧
      s.ledger.mints ctx.tokenMint = some tokenMint ∧ tokenMint.decimals = 9 ∧
      (s.ledger.tokens ctx.depositorTokenAccount = some x ∧ x.mint = ctx.tokenMint ∧
        x.owner = ctx.depositor) ∧
      s.vaults ctx.receiptTokenMint = none ∧
      initIfNeeded s.ledger ctx.depositor (vaultToken ctx.tokenMint) ctx.tokenMint
        Addresses.stakingParams = .ok l₁ ∧
      TokenProgram.initializeMint l₁ ctx.depositor ctx.receiptTokenMint 0 ctx.depositor = some l₂ ∧
      TokenProgram.initializeAccount l₂ ctx.depositor (associatedToken ctx.depositor ctx.receiptTokenMint)
        ctx.receiptTokenMint ctx.depositor = some l₃ ∧
      params.totalDepositedAmount + amount ≤ params.stakingCap ∧
      TokenProgram.transfer l₃ ctx.depositorTokenAccount (vaultToken ctx.tokenMint) ctx.depositor
        amount = some l₄ ∧
      mintNft l₄ ctx.receiptTokenMint ctx.depositor ctx.depositor
        (associatedToken ctx.depositor ctx.receiptTokenMint) = .ok l₅ ∧
      ((params.guestChainProgramId = none ∧ chains = s.chains) ∨
        (params.guestChainProgramId.isSome ∧
          Restaked digest clock service.validator (addedStake · amount) s.chains chains)) ∧
      s' =
        { ledger := l₅
          stakingParams := some
            { params with totalDepositedAmount := params.totalDepositedAmount + amount }
          vaults := Function.update s.vaults ctx.receiptTokenMint (some
            { stakeTimestampSec := clock.unixTimestamp
              service := if params.guestChainProgramId.isSome then some service else none
              stakeAmount := amount
              stakeMint := ctx.tokenMint
              lastReceivedRewardsHeight := 0
              withdrawalRequest := none })
          chains } := by
  simp only [deposit, bind_eq_ok, orFault_ok, check_ok, tokenAccount_ok, init_ok, transfer_ok,
    checkedAdd_eq_some, exists_const] at h
  obtain ⟨⟨hdepositor, -⟩, params, hparams, tokenMint, hmint, hdecimals, x, hx, hvault, h⟩ := h
  obtain ⟨l₁, hl₁, l₂, hl₂, l₃, hl₃, -, total, ⟨-, rfl⟩, hcap, l₄, hl₄, l₅, hl₅, h⟩ := h
  have hnew := Option.isNone_iff_eq_none.mp hvault
  cases hguest : params.guestChainProgramId with
  | none =>
    rw [hguest] at h
    cases h
    exact ⟨params, tokenMint, x, l₁, l₂, l₃, l₄, l₅, s.chains, hdepositor, hparams, hmint, hdecimals, hx,
      hnew, hl₁, hl₂, hl₃, hcap, hl₄, hl₅, Or.inl ⟨hguest, rfl⟩, by rw [hguest]⟩
  | some programId =>
    rw [hguest] at h
    obtain ⟨-, -, h⟩ := bind_eq_ok.mp h
    obtain ⟨chains, hchains, rfl⟩ := addStake_ok h
    exact ⟨params, tokenMint, x, l₁, l₂, l₃, l₄, l₅, chains, hdepositor, hparams, hmint, hdecimals, hx,
      hnew, hl₁, hl₂, hl₃, hcap, hl₄, hl₅, Or.inr ⟨by rw [hguest]; rfl, hchains⟩, by rw [hguest]⟩

theorem withdrawalRequest_ok {ctx : WithdrawalRequest K}
    (h : withdrawalRequest s signers clock ctx = .ok s') :
    ∃ vault params x y z l₁ l₂ l₃ l₄ l₅ rewards height,
      ctx.withdrawer ∈ signers ∧ s.vaults ctx.receiptTokenMint = some vault ∧
      s.stakingParams = some params ∧ params.rewardsTokenMint = ctx.rewardsTokenMint ∧
      (s.ledger.tokens ctx.withdrawerTokenAccount = some x ∧ x.mint = ctx.tokenMint ∧
        x.owner = ctx.withdrawer) ∧
      (s.ledger.tokens Addresses.rewards = some y ∧ y.mint = ctx.rewardsTokenMint ∧
        y.owner = Addresses.stakingParams) ∧
      (s.ledger.tokens ctx.receiptTokenAccount = some z ∧ z.mint = ctx.receiptTokenMint ∧
        z.owner = ctx.withdrawer) ∧
      initIfNeeded s.ledger ctx.withdrawer (associatedToken ctx.withdrawer ctx.rewardsTokenMint)
        ctx.rewardsTokenMint ctx.withdrawer = .ok l₁ ∧
      TokenProgram.initializeAccount l₁ ctx.withdrawer (escrowReceipt ctx.receiptTokenMint)
        ctx.receiptTokenMint Addresses.stakingParams = some l₂ ∧
      ctx.tokenMint = vault.stakeMint ∧
      TokenProgram.transfer l₂ Addresses.rewards (associatedToken ctx.withdrawer ctx.rewardsTokenMint)
        Addresses.stakingParams rewards = some l₃ ∧
      TokenProgram.transfer l₃ ctx.receiptTokenAccount (escrowReceipt ctx.receiptTokenMint)
        ctx.withdrawer 1 = some l₄ ∧
      TokenProgram.closeAccount l₄ ctx.receiptTokenAccount ctx.withdrawer ctx.withdrawer = some l₅ ∧
      s' = { s with
        ledger := l₅
        vaults := Function.update s.vaults ctx.receiptTokenMint (some { vault with
          lastReceivedRewardsHeight := height
          withdrawalRequest := some
            { timestampInSec := timestampSec clock
              owner := ctx.withdrawer
              tokenAccount := ctx.withdrawerTokenAccount } }) } := by
  simp only [withdrawalRequest, bind_eq_ok, orFault_ok, check_ok, tokenAccount_ok, init_ok, transfer_ok,
    closeAccount_ok, mapError_ok, pure_ok, exists_const] at h
  obtain ⟨hsigned, vault, hvault, params, hparams, hrewards, chain, -, -, -, x, hx, -, -, -, -, y, hy, h⟩ := h
  obtain ⟨-, -, z, hz, l₁, hl₁, l₂, hl₂, -, hmint, h⟩ := h
  obtain ⟨service, -, ⟨rewards, height⟩, -, l₃, hl₃, l₄, hl₄, l₅, hl₅, rfl⟩ := h
  exact ⟨vault, params, x, y, z, l₁, l₂, l₃, l₄, l₅, rewards, height, hsigned, hvault, hparams, hrewards,
    hx, hy, hz, hl₁, hl₂, hmint, hl₃, hl₄, hl₅, rfl⟩

theorem cancelWithdrawalRequest_ok {ctx : CancelWithdrawalRequest K}
    (h : cancelWithdrawalRequest s signers ctx = .ok s') :
    ∃ vault request l₁ l₂ l₃,
      ctx.withdrawer ∈ signers ∧ s.vaults ctx.receiptTokenMint = some vault ∧
      vault.withdrawalRequest = some request ∧
      TokenProgram.initializeAccount s.ledger ctx.withdrawer
        (associatedToken ctx.withdrawer ctx.receiptTokenMint) ctx.receiptTokenMint ctx.withdrawer = some l₁ ∧
      TokenProgram.transfer l₁ (escrowReceipt ctx.receiptTokenMint)
        (associatedToken ctx.withdrawer ctx.receiptTokenMint) Addresses.stakingParams 1 = some l₂ ∧
      TokenProgram.closeAccount l₂ (escrowReceipt ctx.receiptTokenMint) ctx.withdrawer
        Addresses.stakingParams = some l₃ ∧
      s' = { s with
        ledger := l₃
        vaults := Function.update s.vaults ctx.receiptTokenMint
          (some { vault with withdrawalRequest := none }) } := by
  simp only [cancelWithdrawalRequest, bind_eq_ok, orFault_ok, check_ok, tokenAccount_ok, init_ok,
    transfer_ok, closeAccount_ok, pure_ok, exists_const] at h
  obtain ⟨⟨hsigned, -⟩, vault, hvault, -, -, -, -, l₁, hl₁, request, hrequest, l₂, hl₂, l₃, hl₃, rfl⟩ := h
  exact ⟨vault, request, l₁, l₂, l₃, hsigned, hvault, hrequest, hl₁, hl₂, hl₃, rfl⟩

theorem withdraw_ok {ctx : Withdraw K} (h : withdraw digest s signers clock ctx = .ok s') :
    ∃ vault params request service x l₁ l₂ chains,
      ctx.withdrawer ∈ signers ∧ s.vaults ctx.receiptTokenMint = some vault ∧
      (s.stakingParams = some params ∧ params.guestChainProgramId.isSome) ∧
      vault.withdrawalRequest = some request ∧
      ctx.tokenMint = vault.stakeMint ∧ ctx.withdrawer = request.owner ∧
      ctx.withdrawerTokenAccount = request.tokenAccount ∧
      (s.ledger.tokens request.tokenAccount = some x ∧ x.mint = vault.stakeMint) ∧
      request.timestampInSec + unbondingPeriodInSec ≤ timestampSec clock ∧
      vault.stakeAmount ≤ params.totalDepositedAmount ∧ vault.service = some service ∧
      Restaked digest clock service.validator (·.bind (removedStake · vault.stakeAmount)) s.chains chains ∧
      TokenProgram.transfer s.ledger (vaultToken vault.stakeMint) request.tokenAccount
        Addresses.stakingParams vault.stakeAmount = some l₁ ∧
      MetadataProgram.burnNft l₁ Addresses.stakingParams ctx.receiptTokenMint
        (escrowReceipt ctx.receiptTokenMint) = some l₂ ∧
      s' =
        { ledger := l₂
          stakingParams := some
            { params with totalDepositedAmount := params.totalDepositedAmount - vault.stakeAmount }
          vaults := Function.update s.vaults ctx.receiptTokenMint none
          chains } := by
  simp only [withdraw, bind_eq_ok, orFault_ok, check_ok, tokenAccount_ok, transfer_ok, mapError_ok,
    checkedAdd_eq_some, checkedSub_eq_some, pure_ok, exists_const] at h
  obtain ⟨-, vault, hvault, params, hparams, chain, hchain, -, -, x, hx, hxmint, h⟩ := h
  obtain ⟨-, -, -, -, -, -, hguest, hmint, h⟩ := h
  obtain ⟨request, hrequest, howner, haccount, period, ⟨-, rfl⟩, htime, service, hservice, total, ⟨hle, rfl⟩, h⟩ := h
  obtain ⟨candidate, hcandidate, validator, hvalidator, stake, hstake, hsigned, s₁, hs₁, l₁, hl₁, l₂, hl₂, rfl⟩ := h
  obtain ⟨-, c', hc', rfl⟩ := setStake_ok hs₁
  rw [haccount] at hx hl₁
  rw [hmint] at hxmint hl₁
  refine ⟨vault, params, request, service, x, l₁, l₂, _, hsigned, hvault, ⟨hparams, hguest⟩, hrequest, hmint, howner,
    haccount, ⟨hx, hxmint⟩, htime, hle, hservice, ?_, hl₁, hl₂, rfl⟩
  exact ⟨chain, candidate, stake, c', hchain, hcandidate, hvalidator ▸ hstake, hc', rfl⟩

omit [MetadataProgram K] in
theorem claimRewards_ok {ctx : Claim K} (h : claimRewards s signers ctx = .ok s') :
    ∃ vault params y l₁ l₂ rewards height,
      s.vaults ctx.receiptTokenMint = some vault ∧ s.stakingParams = some params ∧
      params.rewardsTokenMint = ctx.rewardsTokenMint ∧
      (s.ledger.tokens Addresses.rewards = some y ∧ y.mint = ctx.rewardsTokenMint ∧
        y.owner = Addresses.stakingParams) ∧
      initIfNeeded s.ledger ctx.claimer (associatedToken ctx.claimer ctx.rewardsTokenMint)
        ctx.rewardsTokenMint ctx.claimer = .ok l₁ ∧
      TokenProgram.transfer l₁ Addresses.rewards (associatedToken ctx.claimer ctx.rewardsTokenMint)
        Addresses.stakingParams rewards = some l₂ ∧
      s' = { s with
        ledger := l₂
        vaults := Function.update s.vaults ctx.receiptTokenMint
          (some { vault with lastReceivedRewardsHeight := height }) } := by
  simp only [claimRewards, bind_eq_ok, orFault_ok, check_ok, tokenAccount_ok, transfer_ok, mapError_ok,
    pure_ok, exists_const] at h
  obtain ⟨-, vault, hvault, params, hparams, hrewards, chain, -, -, -, y, hy, -, -, -, receipt, -, h⟩ := h
  obtain ⟨l₁, hl₁, -, -, service, -, ⟨rewards, height⟩, -, l₂, hl₂, rfl⟩ := h
  exact ⟨vault, params, y, l₁, l₂, rewards, height, hvault, hparams, hrewards, hy, hl₁, hl₂, rfl⟩

omit [TokenProgram K] [MetadataProgram K] in
theorem setService_ok {ctx : SetService K} {service : Service K}
    (h : setService digest s signers clock ctx service = .ok s') :
    ∃ vault params chains, s.vaults ctx.receiptTokenMint = some vault ∧ s.stakingParams = some params ∧
      params.guestChainProgramId.isSome ∧ vault.service = none ∧
      Restaked digest clock service.validator (addedStake · vault.stakeAmount) s.chains chains ∧
      s' = { s with
        vaults := Function.update s.vaults ctx.receiptTokenMint
          (some { vault with service := some service })
        chains } := by
  simp only [setService, bind_eq_ok, orFault_ok, check_ok, tokenAccount_ok, exists_const] at h
  obtain ⟨-, vault, hvault, params, hparams, -, -, -, -, -, -, -, -, -, programId, hguest, -, -, hnone,
    h⟩ := h
  obtain ⟨chains, hchains, rfl⟩ := addStake_ok h
  exact ⟨vault, params, chains, hvault, hparams, Option.isSome_iff_exists.mpr ⟨programId, hguest⟩,
    Option.isNone_iff_eq_none.mp hnone, hchains, rfl⟩

omit [TokenProgram K] [MetadataProgram K] [Addresses K] in
theorem updateStakingParams_ok {admin : K} {params : StakingParams K} :
    updateStakingParams s signers admin = .ok params ↔
      admin ∈ signers ∧ s.stakingParams = some params ∧ params.admin = admin := by
  simp only [updateStakingParams, bind_eq_ok, orFault_ok, check_ok, pure_ok]
  constructor
  · rintro ⟨-, hsigned, p, hp, -, hadmin, rfl⟩
    exact ⟨hsigned, hp, hadmin⟩
  · rintro ⟨hsigned, hp, hadmin⟩
    exact ⟨(), hsigned, params, hp, (), hadmin, rfl⟩

omit [MetadataProgram K] in
theorem withdrawRewardFunds_ok {ctx : WithdrawRewardFunds K}
    (h : withdrawRewardFunds s signers ctx = .ok s') :
    ∃ params y l, s.stakingParams = some params ∧ params.rewardsTokenMint = ctx.rewardsTokenMint ∧
      (s.ledger.tokens Addresses.rewards = some y ∧ y.mint = ctx.rewardsTokenMint ∧
        y.owner = Addresses.stakingParams) ∧
      TokenProgram.transfer s.ledger Addresses.rewards ctx.adminRewardsTokenAccount
        Addresses.stakingParams y.amount = some l ∧
      s' = { s with ledger := l } := by
  simp only [withdrawRewardFunds, bind_eq_ok, orFault_ok, check_ok, tokenAccount_ok, transfer_ok, pure_ok,
    updateStakingParams_ok, exists_const] at h
  obtain ⟨params, ⟨-, hparams, -⟩, hrewards, -, -, y, hy, -, -, l, hl, rfl⟩ := h
  exact ⟨params, y, l, hparams, hrewards, hy, hl, rfl⟩

/-- Calls which only change the staking parameters. -/
def Call.onParams : Call K → Bool
  | .updateTokenWhitelist .. => true
  | .updateGuestChainInitialization .. => true
  | .changeAdminProposal .. => true
  | .acceptAdminChange .. => true
  | .updateStakingCap .. => true
  | _ => false

theorem dispatch_onParams {ix : Instruction K} (hcall : ix.call.onParams = true)
    (h : s.dispatch digest ix = .ok s') :
    ∃ params params', s.stakingParams = some params ∧ s' = { s with stakingParams := some params' } ∧
      params'.rewardsTokenMint = params.rewardsTokenMint ∧
      params'.totalDepositedAmount = params.totalDepositedAmount ∧
      params.stakingCap ≤ params'.stakingCap ∧
      (params'.guestChainProgramId = none → params.guestChainProgramId = none) := by
  unfold State.dispatch at h
  cases hix : ix.call with
  | updateTokenWhitelist admin newTokenMints =>
    simp only [hix, updateTokenWhitelist, bind_eq_ok, updateStakingParams_ok, check_ok, pure_ok] at h
    obtain ⟨params, ⟨-, hparams, -⟩, -, -, rfl⟩ := h
    exact ⟨params, _, hparams, rfl, rfl, rfl, le_rfl, fun hnone => hnone⟩
  | updateGuestChainInitialization admin guestChainProgramId =>
    simp only [hix, updateGuestChainInitialization, bind_eq_ok, updateStakingParams_ok, check_ok, pure_ok] at h
    obtain ⟨params, ⟨-, hparams, -⟩, -, -, rfl⟩ := h
    exact ⟨params, _, hparams, rfl, rfl, rfl, le_rfl, fun hnone => absurd hnone (Option.some_ne_none _)⟩
  | changeAdminProposal admin newAdmin =>
    simp only [hix, changeAdminProposal, bind_eq_ok, updateStakingParams_ok, pure_ok] at h
    obtain ⟨params, ⟨-, hparams, -⟩, rfl⟩ := h
    exact ⟨params, _, hparams, rfl, rfl, rfl, le_rfl, fun hnone => hnone⟩
  | acceptAdminChange newAdmin =>
    simp only [hix, acceptAdminChange, bind_eq_ok, orFault_ok, check_ok, pure_ok] at h
    obtain ⟨-, -, params, hparams, proposal, -, -, -, rfl⟩ := h
    exact ⟨params, _, hparams, rfl, rfl, rfl, le_rfl, fun hnone => hnone⟩
  | updateStakingCap admin newStakingCap =>
    simp only [hix, updateStakingCap, bind_eq_ok, updateStakingParams_ok, check_ok, pure_ok] at h
    obtain ⟨params, ⟨-, hparams, -⟩, -, hcap, rfl⟩ := h
    exact ⟨params, _, hparams, rfl, rfl, rfl, Nat.le_of_lt hcap, fun hnone => hnone⟩
  | _ =>
    rw [hix] at hcall
    cases hcall

end Restaking
