import EmulatedLightClient.RestakingSpecs

/-!
# Who owns a vault

A vault belongs to the holder of its receipt or, while a withdrawal request is
pending, to who made the request. Every reachable state has exactly one token of
each receipt, and nobody but the program owns the accounts with the stake. The
one instruction which moves a vault against its owner's will is the cancellation
of a withdrawal request: it does not ask who made the request.
-/

namespace Restaking

open ByteBits FailingState GuestChain MachineInts Nodes SolanaIbc TokenLedger

variable {K : Type} [PubKey K] [Addresses K] [TokenProgram K]

def Holds (l : Ledger K) (m k : K) : Prop :=
  ∃ a x, l.tokens a = some x ∧ x.mint = m ∧ 0 < x.amount ∧ x.owner = k

/-- The owner of an open vault. -/
def Owner (s : State K) (m k : K) : Prop :=
  ∃ v, s.vaults m = some v ∧ v.withdrawalRequest.elim (Holds s.ledger m k) (·.owner = k)

/-- The vault is closed and its stake goes to the account named in the request. -/
def PaidOut (s s' : State K) (m : K) : Prop :=
  ∃ v r, s.vaults m = some v ∧ v.withdrawalRequest = some r ∧ s'.vaults m = none ∧
    s'.ledger.balance (vaultToken v.stakeMint) + v.stakeAmount =
      s.ledger.balance (vaultToken v.stakeMint) ∧
    s'.ledger.balance r.tokenAccount = s.ledger.balance r.tokenAccount + v.stakeAmount

/-- Vaults of owners who did not sign stay theirs or are paid out as they asked,
and stake leaves the program in no other way. -/
structure Respects (s : State K) (signers : List K) (s' : State K) : Prop where
  owner : ∀ m k, Owner s m k → k ∉ signers → (∀ k', Owner s' m k' ↔ k' = k) ∨ PaidOut s s' m
  stake : ∀ t, s'.ledger.balance (vaultToken t) < s.ledger.balance (vaultToken t) →
    ∃ m v, s.vaults m = some v ∧ v.stakeMint = t ∧ PaidOut s s' m

/-- A pending request is cancelled with the signature of who made it. -/
def CancelledByOwner (s : State K) (ix : Instruction K) : Prop :=
  ∀ ctx v r, ix.call = .cancelWithdrawalRequest ctx → s.vaults ctx.receiptTokenMint = some v →
    v.withdrawalRequest = some r → r.owner ∈ ix.signers

/-- Token accounts with stake. -/
def IsVaultToken (a : K) : Prop := ∃ t, a = vaultToken t

abbrev Sound (l : Ledger K) : Prop := l.Sound Addresses.stakingParams IsVaultToken

abbrev Quiet (keep pool : K → Prop) (l l' : Ledger K) : Prop :=
  Ledger.Quiet Addresses.stakingParams IsVaultToken keep pool l l'

/-- The receipt of an open vault is the one token of its mint, in escrow exactly
while a request is pending. -/
structure Receipt (s : State K) (m : K) (v : Vault K) : Prop where
  decimals : ∃ a, s.ledger.mints m = some a ∧ a.decimals = 0
  stakeDecimals : ∃ a, s.ledger.mints v.stakeMint = some a ∧ a.decimals = 9
  rewards : ∃ p, s.stakingParams = some p ∧ p.rewardsTokenMint ≠ m
  native : m ≠ TokenProgram.nativeMint
  held : ∃ a x, s.ledger.Sole m a x ∧ (v.withdrawalRequest.isSome ↔ a = escrowReceipt m)
  named : ∀ r, v.withdrawalRequest = some r → ¬ IsVaultToken r.tokenAccount

structure Inv (s : State K) : Prop where
  sound : Sound s.ledger
  rewards : ∀ p, s.stakingParams = some p → (s.ledger.mints p.rewardsTokenMint).isSome
  receipts : ∀ m v, s.vaults m = some v → Receipt s m v

/-- Before the program is initialised. Accounts at addresses derived from its seeds
are its own to make. -/
structure Fresh (s : State K) : Prop where
  sound : Sound s.ledger
  stakingParams : s.stakingParams = none
  vaults : ∀ m, s.vaults m = none

section

variable {s s' : State K} {m k : K} {v : Vault K}

theorem Fresh.inv (h : Fresh s) : Inv s where
  sound := h.sound
  rewards := fun p hp => absurd (hp.symm.trans h.stakingParams) (Option.some_ne_none p)
  receipts := fun m v hv => absurd (hv.symm.trans (h.vaults m)) (Option.some_ne_none v)

omit [PubKey K] [Addresses K] [TokenProgram K] in
theorem holds_iff [DecidableEq K] {l : Ledger K} {a : K} {x : TokenAccount K} (h : l.Sole m a x) :
    Holds l m k ↔ k = x.owner := by
  constructor
  · rintro ⟨b, y, hy, hm, hpos, rfl⟩
    rw [(h.unique hy hm hpos).2]
  · rintro rfl
    exact ⟨a, x, h.account, h.mint, h.amount ▸ Nat.one_pos, rfl⟩

omit [PubKey K] [Addresses K] [TokenProgram K] in
theorem owner_of_request {r : WithdrawalRequestParams K} (hv : s.vaults m = some v)
    (hr : v.withdrawalRequest = some r) : Owner s m k ↔ k = r.owner := by
  constructor
  · rintro ⟨w, hw, howner⟩
    cases Option.some.inj (hw.symm.trans hv)
    rw [hr] at howner
    exact Eq.symm howner
  · rintro rfl
    refine ⟨v, hv, ?_⟩
    rw [hr]
    rfl

omit [Addresses K] [TokenProgram K] in
theorem owner_of_holder {a : K} {x : TokenAccount K} (hv : s.vaults m = some v)
    (hr : v.withdrawalRequest = none) (hsole : s.ledger.Sole m a x) : Owner s m k ↔ k = x.owner := by
  rw [← holds_iff hsole]
  constructor
  · rintro ⟨w, hw, howner⟩
    cases Option.some.inj (hw.symm.trans hv)
    rwa [hr] at howner
  · intro hholds
    refine ⟨v, hv, ?_⟩
    rwa [hr]

/-- An open vault has one owner. -/
theorem Inv.owner_unique (h : Inv s) {k' : K} (hk : Owner s m k) : Owner s m k' ↔ k' = k := by
  obtain ⟨v, hv, -⟩ := id hk
  obtain ⟨a, x, hsole, -⟩ := (h.receipts m v hv).held
  cases hr : v.withdrawalRequest with
  | some r =>
    rw [owner_of_request hv hr] at hk ⊢
    rw [hk]
  | none =>
    rw [owner_of_holder hv hr hsole] at hk ⊢
    rw [hk]

end

/-- The receipt of a vault stays one while it changes hands. -/
theorem Receipt.moved {s s' : State K} {m a : K} {v v' : Vault K} {x : TokenAccount K} (h : Receipt s m v)
    (hmints : Ledger.KeepsMints s.ledger s'.ledger) (hstake : v'.stakeMint = v.stakeMint)
    (hrewards : ∃ p, s'.stakingParams = some p ∧ p.rewardsTokenMint ≠ m) (hsole : s'.ledger.Sole m a x)
    (hescrow : v'.withdrawalRequest.isSome ↔ a = escrowReceipt m)
    (hnamed : ∀ r, v'.withdrawalRequest = some r → ¬ IsVaultToken r.tokenAccount) : Receipt s' m v' := by
  obtain ⟨b, hb, hzero⟩ := h.decimals
  obtain ⟨b', hb', hzero'⟩ := hmints m b hb
  obtain ⟨c, hc, hnine⟩ := h.stakeDecimals
  obtain ⟨c', hc', hnine'⟩ := hmints v.stakeMint c hc
  exact ⟨⟨b', hb', hzero'.trans hzero⟩, ⟨c', hstake ▸ hc', hnine'.trans hnine⟩, hrewards, h.native,
    ⟨a, x, hsole, hescrow⟩, hnamed⟩

/-- What the owner of a vault is owed. -/
def Vault.terms (v : Vault K) : K × Nat × Option (WithdrawalRequestParams K) :=
  (v.stakeMint, v.stakeAmount, v.withdrawalRequest)

/-- Nothing happens to vaults which are not `touched`, and the accounts in `pool`
lose no stake. -/
structure Aside (touched pool : K → Prop) (s s' : State K) : Prop where
  vaults : ∀ m, ¬ touched m → (s'.vaults m).map Vault.terms = (s.vaults m).map Vault.terms
  ledger : Quiet (fun m => ¬ touched m ∧ (s.vaults m).isSome) pool s.ledger s'.ledger
  params : ∀ p, s.stakingParams = some p →
    ∃ p', s'.stakingParams = some p' ∧ p'.rewardsTokenMint = p.rewardsTokenMint
  rewards : ∀ p', s'.stakingParams = some p' → (s.ledger.mints p'.rewardsTokenMint).isSome

section

variable {touched pool : K → Prop} {s s' : State K} {m k : K} {v v' : Vault K}

theorem Aside.vault (h : Aside touched pool s s') (hm : ¬ touched m) (hv' : s'.vaults m = some v') :
    ∃ v, s.vaults m = some v ∧ v'.terms = v.terms := by
  have hterms := h.vaults m hm
  rw [hv'] at hterms
  obtain ⟨v, hv, heq⟩ := Option.map_eq_some_iff.mp hterms.symm
  exact ⟨v, hv, heq.symm⟩

theorem Aside.sameOf (h : Aside touched pool s s') (hm : ¬ touched m) (hv : s.vaults m = some v) :
    Ledger.SameOf m s.ledger s'.ledger :=
  h.ledger.same m ⟨hm, Option.isSome_iff_exists.mpr ⟨v, hv⟩⟩

theorem Aside.receipt (h : Aside touched pool s s') (hm : ¬ touched m) (hv : s.vaults m = some v)
    (hterms : v'.terms = v.terms) (hr : Receipt s m v) : Receipt s' m v' := by
  obtain ⟨hstake, -, hrequest⟩ : v'.stakeMint = v.stakeMint ∧ v'.stakeAmount = v.stakeAmount ∧
      v'.withdrawalRequest = v.withdrawalRequest := by
    simpa [Vault.terms] using hterms
  obtain ⟨p, hp, hne⟩ := hr.rewards
  obtain ⟨p', hp', hsame⟩ := h.params p hp
  obtain ⟨a, x, hsole, hescrow⟩ := hr.held
  refine hr.moved h.ledger.mints hstake ⟨p', hp', hsame ▸ hne⟩ (hsole.same (h.sameOf hm hv))
    (hrequest ▸ hescrow) ?_
  rw [hrequest]
  exact hr.named

theorem Aside.owner (h : Aside touched pool s s') (hm : ¬ touched m) (hinv : Inv s) (hk : Owner s m k) :
    Owner s' m k := by
  obtain ⟨v, hv, howner⟩ := hk
  obtain ⟨v', hv', hterms⟩ : ∃ v', s'.vaults m = some v' ∧ v'.terms = v.terms := by
    have hterms := h.vaults m hm
    rw [hv] at hterms
    exact Option.map_eq_some_iff.mp hterms
  have hrequest : v'.withdrawalRequest = v.withdrawalRequest := by
    simp only [Vault.terms, Prod.mk.injEq] at hterms
    exact hterms.2.2
  refine ⟨v', hv', ?_⟩
  rw [hrequest]
  cases hr : v.withdrawalRequest with
  | some r =>
    rw [hr] at howner
    exact howner
  | none =>
    rw [hr] at howner
    obtain ⟨a, x, hsole, -⟩ := (hinv.receipts m v hv).held
    exact (holds_iff (hsole.same (h.sameOf hm hv))).mpr ((holds_iff hsole).mp howner)

/-- The invariant stays when it does for the vaults that are touched. -/
theorem Aside.inv (h : Aside touched pool s s') (hinv : Inv s)
    (htouched : ∀ m v, touched m → s'.vaults m = some v → Receipt s' m v) : Inv s' where
  sound := h.ledger.sound hinv.sound
  rewards := fun p' hp' => h.ledger.mints.isSome (h.rewards p' hp')
  receipts := by
    intro m v' hv'
    by_cases hm : touched m
    · exact htouched m v' hm hv'
    · obtain ⟨v, hv, hterms⟩ := h.vault hm hv'
      exact h.receipt hm hv hterms (hinv.receipts m v hv)

/-- Owners are respected when those of the touched vaults are. -/
theorem Aside.respects {signers : List K} (h : Aside touched IsVaultToken s s') (hinv : Inv s)
    (hinv' : Inv s') (htouched : ∀ m k, touched m → Owner s m k → k ∈ signers) : Respects s signers s' where
  owner := by
    intro m k hk hsigned
    have hm : ¬ touched m := fun hm => hsigned (htouched m k hm hk)
    exact Or.inl fun k' => hinv'.owner_unique (h.owner hm hinv hk)
  stake := by
    intro t hlt
    exact absurd (h.ledger.funded _ ⟨t, rfl⟩) (Nat.not_le.mpr hlt)

end

section

variable {keep pool : K → Prop} {s : State K} {l l' : Ledger K} {signers : List K}
  {a k m mint owner payer t : K} {v : Vault K} {x : TokenAccount K}

omit [PubKey K] [TokenProgram K] in
theorem signer_ne (hsigners : ∀ k ∈ signers, Addresses.canSign k = true) (hk : k ∈ signers) :
    k ≠ Addresses.stakingParams := by
  rintro rfl
  exact Bool.false_ne_true (Addresses.canSign_stakingParams.symm.trans (hsigners _ hk))

theorem not_isVaultToken (hl : Sound l) (hx : l.tokens a = some x)
    (howner : x.owner ≠ Addresses.stakingParams) : ¬ IsVaultToken a :=
  fun ha => howner (hl.owned a x ha hx)

omit [PubKey K] [TokenProgram K] in
theorem associatedToken_not_isVaultToken : ¬ IsVaultToken (associatedToken owner mint : K) := by
  rintro ⟨t, ht⟩
  exact Addresses.vaultToken_ne_associatedToken t owner mint ht.symm

omit [PubKey K] [TokenProgram K] in
theorem rewards_not_isVaultToken : ¬ IsVaultToken (Addresses.rewards : K) := by
  rintro ⟨t, ht⟩
  exact Addresses.vaultToken_ne_rewards t ht.symm

omit [PubKey K] [TokenProgram K] in
theorem escrowReceipt_not_isVaultToken : ¬ IsVaultToken (escrowReceipt m : K) := by
  rintro ⟨t, ht⟩
  exact Addresses.vaultToken_ne_escrowReceipt t m ht.symm

theorem initIfNeeded_quiet (h : initIfNeeded l payer k mint owner = .ok l') (hkeep : ¬ keep mint)
    (howner : IsVaultToken k → owner = Addresses.stakingParams) : Quiet keep pool l l' := by
  rcases initIfNeeded_ok h with hinit | ⟨rfl, -⟩
  · exact .initializeAccount hinit hkeep howner
  · exact .refl

omit [Addresses K] in
theorem initIfNeeded_kept (h : initIfNeeded l payer k mint owner = .ok l') (hx : l.tokens a = some x) :
    l'.tokens a = some x := by
  rcases initIfNeeded_ok h with hinit | ⟨rfl, -⟩
  · exact (Ledger.tokens_initializeAccount_kept hinit hx).2
  · exact hx

/-- Receipts are of mints without decimals, stake is not. -/
theorem Receipt.ne_of_decimals {b : Mint K} (h : Receipt s m v) (hb : s.ledger.mints t = some b)
    (hnine : b.decimals = 9) : t ≠ m := by
  rintro rfl
  obtain ⟨a, ha, hzero⟩ := h.decimals
  cases Option.some.inj (ha.symm.trans hb)
  omega

theorem Receipt.stakeMint_ne {m' : K} {v' : Vault K} (h : Receipt s m v) (h' : Receipt s m' v') :
    v.stakeMint ≠ m' := by
  obtain ⟨b, hb, hnine⟩ := h.stakeDecimals
  exact h'.ne_of_decimals hb hnine

theorem Receipt.rewards_ne {p : StakingParams K} (h : Receipt s m v) (hp : s.stakingParams = some p) :
    p.rewardsTokenMint ≠ m := by
  obtain ⟨p', hp', hne⟩ := h.rewards
  cases Option.some.inj (hp'.symm.trans hp)
  exact hne

/-- A mint is not the receipt of any vault but one. -/
theorem not_kept (touched : K → Prop) (hinv : Inv s)
    (hne : ∀ m v, s.vaults m = some v → Receipt s m v → ¬ touched m → t ≠ m) :
    ¬ (¬ touched t ∧ (s.vaults t).isSome) := by
  rintro ⟨ht, hsome⟩
  obtain ⟨v, hv⟩ := Option.isSome_iff_exists.mp hsome
  exact hne t v hv (hinv.receipts t v hv) ht rfl

end

section

variable {digest : List Byte → CryptoHash} {s s' : State K} {signers : List K} {clock : Clock}

theorem Aside.refl (hinv : Inv s) : Aside (fun _ => False) IsVaultToken s s where
  vaults := fun _ _ => rfl
  ledger := .refl
  params := fun p hp => ⟨p, hp, rfl⟩
  rewards := hinv.rewards

/-- The staking parameters change, but for the mint of the rewards. -/
theorem aside_params {p p' : StakingParams K} (hinv : Inv s) (hp : s.stakingParams = some p)
    (hsame : p'.rewardsTokenMint = p.rewardsTokenMint) :
    Aside (fun _ => False) IsVaultToken s { s with stakingParams := some p' } where
  vaults := fun _ _ => rfl
  ledger := .refl
  params := by
    intro q hq
    cases Option.some.inj (hq.symm.trans hp)
    exact ⟨p', rfl, hsame⟩
  rewards := by
    intro q hq
    cases Option.some.inj hq
    exact hsame ▸ hinv.rewards p hp

theorem initializeStaking_aside {ctx : Initialize K} {whitelistedTokens : List K}
    {stakingCap : Fin (2 ^ 128)} (hinv : Inv s)
    (h : initializeStaking s signers ctx whitelistedTokens stakingCap = .ok s') :
    Aside (fun _ => False) IsVaultToken s s' := by
  obtain ⟨l, params, hnone, hmint, hl, hsame, -, rfl⟩ := initializeStaking_ok h
  have hkeep : ¬ (¬ False ∧ (s.vaults ctx.rewardsTokenMint).isSome) := by
    refine not_kept (fun _ => False) hinv fun m v _ hr _ => ?_
    obtain ⟨p, hp, -⟩ := hr.rewards
    exact absurd (hp.symm.trans hnone) (Option.some_ne_none p)
  refine ⟨fun _ _ => rfl, .initializeAccount hl hkeep fun _ => rfl, ?_, ?_⟩
  · intro p hp
    exact absurd (hp.symm.trans hnone) (Option.some_ne_none p)
  · intro p hp
    cases Option.some.inj hp
    exact hsame ▸ hmint

omit [Addresses K] [TokenProgram K] in
/-- One vault gets other data but the same terms. -/
theorem terms_update {m : K} {v v' : Vault K} (hv : s.vaults m = some v) (hterms : v'.terms = v.terms)
    (m' : K) : ((Function.update s.vaults m (some v')) m').map Vault.terms =
      (s.vaults m').map Vault.terms := by
  by_cases hm : m' = m
  · subst hm
    rw [Function.update_self, hv, Option.map_some, Option.map_some, hterms]
  · rw [Function.update_of_ne hm]

theorem claimRewards_aside {ctx : Claim K} (hinv : Inv s) (h : claimRewards s signers ctx = .ok s') :
    Aside (fun _ => False) IsVaultToken s s' := by
  obtain ⟨vault, params, y, l₁, l₂, rewards, height, hvault, hparams, hrewards, ⟨hy, hymint, -⟩, hl₁, hl₂,
    rfl⟩ := claimRewards_ok h
  have hkeep : ¬ (¬ False ∧ (s.vaults ctx.rewardsTokenMint).isSome) :=
    not_kept (fun _ => False) hinv fun m v _ hr _ => hrewards ▸ hr.rewards_ne hparams
  have hpaid : Quiet (fun m => ¬ False ∧ (s.vaults m).isSome) IsVaultToken s.ledger l₂ :=
    (initIfNeeded_quiet hl₁ hkeep fun hk => absurd hk associatedToken_not_isVaultToken).trans
      (.transfer hl₂ (initIfNeeded_kept hl₁ hy) (hymint ▸ hkeep) rewards_not_isVaultToken)
  exact ⟨fun m _ => terms_update hvault (by rfl) m, hpaid, fun p hp => ⟨p, hp, rfl⟩, hinv.rewards⟩

theorem setService_aside {ctx : SetService K} {service : Service K} (hinv : Inv s)
    (h : setService digest s signers clock ctx service = .ok s') :
    Aside (fun _ => False) IsVaultToken s s' := by
  obtain ⟨vault, params, chains, hvault, -, -, -, -, rfl⟩ := setService_ok h
  exact ⟨fun m _ => terms_update hvault (by rfl) m, .refl, fun p hp => ⟨p, hp, rfl⟩, hinv.rewards⟩

theorem withdrawRewardFunds_aside {ctx : WithdrawRewardFunds K} (hinv : Inv s)
    (h : withdrawRewardFunds s signers ctx = .ok s') : Aside (fun _ => False) IsVaultToken s s' := by
  obtain ⟨params, y, l, hparams, hrewards, ⟨hy, hymint, -⟩, hl, rfl⟩ := withdrawRewardFunds_ok h
  have hkeep : ¬ (¬ False ∧ (s.vaults y.mint).isSome) := by
    rw [hymint]
    exact not_kept (fun _ => False) hinv fun m v _ hr _ => hrewards ▸ hr.rewards_ne hparams
  exact ⟨fun _ _ => rfl, .transfer hl hy hkeep rewards_not_isVaultToken, fun p hp => ⟨p, hp, rfl⟩,
    hinv.rewards⟩

variable [MetadataProgram K]

/-- The untouched vaults of an instruction on the vault of `m`. -/
abbrev Others (s : State K) (m : K) : K → Prop := fun m' => ¬ m' = m ∧ (s.vaults m').isSome

omit [Addresses K] [TokenProgram K] [MetadataProgram K] in
theorem terms_update_of_ne {m m' : K} {w : Option (Vault K)} (hm : ¬ m' = m) :
    ((Function.update s.vaults m w) m').map Vault.terms = (s.vaults m').map Vault.terms := by
  rw [Function.update_of_ne hm]

theorem withdrawalRequest_owned {ctx : WithdrawalRequest K} (hinv : Inv s)
    (hsigners : ∀ k ∈ signers, Addresses.canSign k = true)
    (h : withdrawalRequest s signers clock ctx = .ok s') :
    Aside (· = ctx.receiptTokenMint) IsVaultToken s s' ∧
      (∀ v, s'.vaults ctx.receiptTokenMint = some v → Receipt s' ctx.receiptTokenMint v) ∧
      ∀ k, Owner s ctx.receiptTokenMint k → k ∈ signers := by
  obtain ⟨vault, params, x, y, z, l₁, l₂, l₃, l₄, l₅, rewards, height, hsigned, hvault, hparams, hrewards,
    ⟨hx, -, hxowner⟩, ⟨hy, hymint, -⟩, ⟨hz, hzmint, hzowner⟩, hl₁, hl₂, hmint, hl₃, hl₄, hl₅, rfl⟩ :=
    withdrawalRequest_ok h
  have hr := hinv.receipts _ _ hvault
  have hne := signer_ne hsigners hsigned
  -- The accounts of the rewards are of no vault's receipt, this one's included.
  have hrewardsOne : ctx.rewardsTokenMint ≠ ctx.receiptTokenMint := hrewards ▸ hr.rewards_ne hparams
  have hrewardsKeep : ¬ Others s ctx.receiptTokenMint ctx.rewardsTokenMint :=
    not_kept (· = ctx.receiptTokenMint) hinv fun m v _ hr _ => hrewards ▸ hr.rewards_ne hparams
  have hkeep : ¬ Others s ctx.receiptTokenMint ctx.receiptTokenMint := fun hk => hk.1 rfl
  have hz₁ := initIfNeeded_kept hl₁ hz
  obtain ⟨hreceiptNe, hz₂⟩ := Ledger.tokens_initializeAccount_kept hl₂ hz₁
  have hy₂ := (Ledger.tokens_initializeAccount_kept hl₂ (initIfNeeded_kept hl₁ hy)).2
  have hquiet₁ : Quiet (· = ctx.receiptTokenMint) IsVaultToken s.ledger l₁ :=
    initIfNeeded_quiet hl₁ hrewardsOne fun hk => absurd hk associatedToken_not_isVaultToken
  have hquiet₃ : Quiet (· = ctx.receiptTokenMint) IsVaultToken l₂ l₃ :=
    .transfer hl₃ hy₂ (fun heq => hrewardsOne (hymint.symm.trans heq)) rewards_not_isVaultToken
  have hz₃ := (hquiet₃.same _ rfl _ z hzmint).mpr hz₂
  -- The receipt account has the one token, so it was not in escrow before.
  obtain ⟨a, w, hsole, hescrow⟩ := hr.held
  obtain ⟨z', e, hz', he, hmintEq, -, hone, rfl⟩ := TokenProgram.transfer_some hl₄
  cases Option.some.inj (hz₃.symm.trans hz')
  obtain ⟨rfl, rfl⟩ := hsole.unique hz hzmint hone
  have hrequest : vault.withdrawalRequest = none :=
    Option.not_isSome_iff_eq_none.mp fun hsome => hreceiptNe (hescrow.mp hsome)
  have hsole₃ : l₃.Sole ctx.receiptTokenMint ctx.receiptTokenAccount z :=
    ((hsole.same (hquiet₁.same _ rfl)).initializeAccount hl₂ hr.native).same (hquiet₃.same _ rfl)
  have hsole₅ := (hsole₃.transfer he (hmintEq.symm.trans hzmint) hreceiptNe).closeAccount hl₅ hreceiptNe
  have hnotVault := not_isVaultToken hinv.sound hz (hzowner ▸ hne)
  obtain ⟨z₄, hz₄, hz₄mint⟩ : ∃ z₄, (l₃.transfer ctx.receiptTokenAccount
      (escrowReceipt ctx.receiptTokenMint) 1).tokens ctx.receiptTokenAccount = some z₄ ∧
        z₄.mint = ctx.receiptTokenMint :=
    ⟨_, Ledger.tokens_transfer_src hz₃ hreceiptNe, hzmint⟩
  have hquiet : Quiet (Others s ctx.receiptTokenMint) IsVaultToken s.ledger l₅ := by
    refine (initIfNeeded_quiet hl₁ hrewardsKeep fun hk => absurd hk associatedToken_not_isVaultToken).trans ?_
    refine (Ledger.Quiet.initializeAccount hl₂ hkeep fun _ => rfl).trans ?_
    refine (Ledger.Quiet.transfer hl₃ hy₂ (hymint ▸ hrewardsKeep) rewards_not_isVaultToken).trans ?_
    refine (Ledger.Quiet.transfer hl₄ hz₃ (hzmint ▸ hkeep) hnotVault).trans ?_
    exact .closeAccount hl₅ hz₄ (hz₄mint ▸ hkeep) hnotVault
  refine ⟨⟨fun m hm => terms_update_of_ne hm, hquiet, fun p hp => ⟨p, hp, rfl⟩, hinv.rewards⟩, ?_, ?_⟩
  · intro v hv
    simp only [Function.update_self, Option.some.injEq] at hv
    subst hv
    refine hr.moved hquiet.mints (by rfl) hr.rewards hsole₅ (by simp) ?_
    intro r hr'
    cases hr'
    exact not_isVaultToken hinv.sound hx (hxowner ▸ hne)
  · intro k hk
    rw [(owner_of_holder hvault hrequest hsole).mp hk, hzowner]
    exact hsigned

/-- The receipt goes from escrow to whoever cancels the request. -/
theorem cancelWithdrawalRequest_owned {ctx : CancelWithdrawalRequest K} (hinv : Inv s)
    (h : cancelWithdrawalRequest s signers ctx = .ok s') :
    Aside (· = ctx.receiptTokenMint) IsVaultToken s s' ∧
      (∀ v, s'.vaults ctx.receiptTokenMint = some v → Receipt s' ctx.receiptTokenMint v) ∧
      ∃ v r, s.vaults ctx.receiptTokenMint = some v ∧ v.withdrawalRequest = some r ∧
        ctx.withdrawer ∈ signers ∧ Owner s' ctx.receiptTokenMint ctx.withdrawer := by
  obtain ⟨vault, request, l₁, l₂, l₃, hsigned, hvault, hrequest, hl₁, hl₂, hl₃, rfl⟩ :=
    cancelWithdrawalRequest_ok h
  have hr := hinv.receipts _ _ hvault
  have hkeep : ¬ Others s ctx.receiptTokenMint ctx.receiptTokenMint := fun hk => hk.1 rfl
  obtain ⟨a, x, hsole, hescrow⟩ := hr.held
  cases hescrow.mp (hrequest ▸ rfl)
  have hnew := Ledger.tokens_initializeAccount hl₁ hr.native
  have hne := Addresses.escrowReceipt_ne_associatedToken ctx.receiptTokenMint ctx.withdrawer
    ctx.receiptTokenMint
  have hsole₁ := hsole.initializeAccount hl₁ hr.native
  obtain ⟨-, -, -, -, -, -, -, rfl⟩ := TokenProgram.transfer_some hl₂
  have hsole₃ := (hsole₁.transfer hnew rfl hne).closeAccount hl₃ hne
  have hgone := Ledger.tokens_transfer_src (n := 1) hsole₁.account hne
  have hquiet : Quiet (Others s ctx.receiptTokenMint) IsVaultToken s.ledger l₃ := by
    refine (Ledger.Quiet.initializeAccount hl₁ hkeep
      fun hk => absurd hk associatedToken_not_isVaultToken).trans ?_
    refine (Ledger.Quiet.transfer hl₂ hsole₁.account (hsole₁.mint ▸ hkeep)
      escrowReceipt_not_isVaultToken).trans ?_
    exact .closeAccount hl₃ hgone (hsole₁.mint ▸ hkeep) escrowReceipt_not_isVaultToken
  refine ⟨⟨fun m hm => terms_update_of_ne hm, hquiet, fun p hp => ⟨p, hp, rfl⟩, hinv.rewards⟩, ?_, ?_⟩
  · intro v hv
    simp only [Function.update_self, Option.some.injEq] at hv
    subst hv
    refine hr.moved hquiet.mints (by rfl) hr.rewards hsole₃ (by simp [hne.symm]) ?_
    intro r hr'
    cases hr'
  · refine ⟨vault, request, hvault, hrequest, hsigned, ?_⟩
    exact (owner_of_holder (Function.update_self ..) rfl hsole₃).mpr rfl

theorem withdraw_owned {ctx : Withdraw K} (hinv : Inv s)
    (h : withdraw digest s signers clock ctx = .ok s') :
    ∃ v, s.vaults ctx.receiptTokenMint = some v ∧
      Aside (· = ctx.receiptTokenMint) (fun a => IsVaultToken a ∧ a ≠ vaultToken v.stakeMint) s s' ∧
      PaidOut s s' ctx.receiptTokenMint := by
  obtain ⟨vault, params, request, service, x, l₁, l₂, chains, -, hvault, ⟨hparams, -⟩, hrequest, -, -,
    -, ⟨hx, hxmint⟩, -, -, -, -, hl₁, hl₂, rfl⟩ := withdraw_ok h
  have hr := hinv.receipts _ _ hvault
  have hkeep : ¬ Others s ctx.receiptTokenMint ctx.receiptTokenMint := fun hk => hk.1 rfl
  have hstakeKeep : ¬ Others s ctx.receiptTokenMint vault.stakeMint :=
    not_kept (· = ctx.receiptTokenMint) hinv fun m v _ hr' _ => hr.stakeMint_ne hr'
  obtain ⟨y, x', hy, hx', hmint, -, hle, rfl⟩ := TokenProgram.transfer_some hl₁
  cases Option.some.inj (hx.symm.trans hx')
  have hymint := hmint.trans hxmint
  have hne : vaultToken vault.stakeMint ≠ request.tokenAccount :=
    fun heq => hr.named request hrequest ⟨vault.stakeMint, heq.symm⟩
  have hquiet : Quiet (Others s ctx.receiptTokenMint)
      (fun a => IsVaultToken a ∧ a ≠ vaultToken vault.stakeMint) s.ledger l₂ :=
    (Ledger.Quiet.transfer hl₁ hy (hymint ▸ hstakeKeep) fun hp => hp.2 rfl).trans
      (.burnNft hl₂ hkeep fun hp => escrowReceipt_not_isVaultToken hp.1)
  -- The receipt which is burnt is neither of the accounts the stake moved between.
  obtain ⟨e, he, hemint, -, htokens, -⟩ := MetadataProgram.burnNft_some hl₂
  have hsrc := Ledger.tokens_transfer_src (n := vault.stakeAmount) hy hne
  have hdst := Ledger.tokens_transfer_dst (n := vault.stakeAmount) hx hne
  have hother : ∀ a z, (s.ledger.transfer (vaultToken vault.stakeMint) request.tokenAccount
      vault.stakeAmount).tokens a = some z → z.mint = vault.stakeMint →
        l₂.tokens a = some z := by
    intro a z hz hzmint
    have ha : a ≠ escrowReceipt ctx.receiptTokenMint := by
      rintro rfl
      cases Option.some.inj (hz.symm.trans he)
      exact hr.stakeMint_ne hr (hzmint.symm.trans hemint)
    rw [htokens, Function.update_of_ne ha, hz]
  refine ⟨vault, hvault, ⟨fun m hm => terms_update_of_ne hm, hquiet, ?_, ?_⟩,
    vault, request, hvault, hrequest, Function.update_self .., ?_, ?_⟩
  · intro p hp
    cases Option.some.inj (hp.symm.trans hparams)
    exact ⟨_, rfl, rfl⟩
  · intro p hp
    cases Option.some.inj hp
    exact hinv.rewards params hparams
  · rw [Ledger.balance_eq (hother _ _ hsrc hymint), Ledger.balance_eq hy]
    exact Nat.sub_add_cancel hle
  · rw [Ledger.balance_eq (hother _ _ hdst hxmint), Ledger.balance_eq hx]

omit [MetadataProgram K] in
/-- Where all vaults' accounts but one lose nothing, what does is that one. -/
theorem Aside.stakeMint_eq {touched : K → Prop} {v : Vault K} {t : K}
    (h : Aside touched (fun a => IsVaultToken a ∧ a ≠ vaultToken v.stakeMint) s s')
    (hlt : s'.ledger.balance (vaultToken t) < s.ledger.balance (vaultToken t)) : v.stakeMint = t := by
  by_contra hne
  refine absurd (h.ledger.funded _ ⟨⟨t, rfl⟩, ?_⟩) (Nat.not_le.mpr hlt)
  exact fun heq => hne (Addresses.vaultToken_injective heq).symm

omit [Addresses K] in
theorem mintNft_sole {l l' : Ledger K} {mint payer authority dst : K} {x : TokenAccount K}
    (hl : l.Unminted mint) (hx : l.tokens dst = some x) (hm : x.mint = mint)
    (h : mintNft l mint payer authority dst = .ok l') : l'.Sole mint dst { x with amount := 1 } := by
  obtain ⟨l₁, l₂, hl₁, hl₂, hl₃⟩ := mintNft_ok h
  obtain ⟨-, -, -, -, -, -, rfl⟩ := TokenProgram.mintTo_some hl₁
  obtain ⟨htokens, -⟩ := MetadataProgram.createMetadata_some hl₂
  obtain ⟨-, -, -, htokens', -⟩ := MetadataProgram.createMasterEdition_some hl₃
  refine (hl.mintTo hx hm).same fun a y _ => ?_
  rw [htokens', htokens]

theorem mintNft_quiet {keep pool : K → Prop} {l l' : Ledger K} {mint payer authority dst : K}
    (h : mintNft l mint payer authority dst = .ok l') (hkeep : ¬ keep mint) : Quiet keep pool l l' := by
  obtain ⟨l₁, l₂, hl₁, hl₂, hl₃⟩ := mintNft_ok h
  exact ((Ledger.Quiet.mintTo hl₁ hkeep).trans (.createMetadata hl₂)).trans (.createMasterEdition hl₃)

/-- A new vault belongs to the depositor. -/
theorem deposit_owned {ctx : Deposit K} {service : Service K} {amount : Fin (2 ^ 64)} (hinv : Inv s)
    (hsigners : ∀ k ∈ signers, Addresses.canSign k = true)
    (h : deposit digest s signers clock ctx service amount = .ok s') :
    s.vaults ctx.receiptTokenMint = none ∧ Aside (· = ctx.receiptTokenMint) IsVaultToken s s' ∧
      ∀ v, s'.vaults ctx.receiptTokenMint = some v → Receipt s' ctx.receiptTokenMint v := by
  obtain ⟨params, tokenMint, x, l₁, l₂, l₃, l₄, l₅, chains, hsigned, hparams, hmint, hnine,
    ⟨hx, hxmint, hxowner⟩, hnone, hl₁, hl₂, hl₃, -, hl₄, hl₅, -, rfl⟩ := deposit_ok h
  have hkeep : ¬ Others s ctx.receiptTokenMint ctx.receiptTokenMint := fun hk => hk.1 rfl
  have hstakeKeep : ¬ Others s ctx.receiptTokenMint ctx.tokenMint :=
    not_kept (· = ctx.receiptTokenMint) hinv fun m v _ hr _ => hr.ne_of_decimals hmint hnine
  obtain ⟨hnew, htokens, hzero⟩ := Ledger.initializeMint_new hl₂
  have hx₂ : l₂.tokens ctx.depositorTokenAccount = some x := htokens ▸ initIfNeeded_kept hl₁ hx
  have hx₃ := (Ledger.tokens_initializeAccount_kept hl₃ hx₂).2
  have hnotVault := not_isVaultToken hinv.sound hx (hxowner ▸ signer_ne hsigners hsigned)
  have hquiet₁ : Quiet (Others s ctx.receiptTokenMint) IsVaultToken s.ledger l₁ :=
    initIfNeeded_quiet hl₁ hstakeKeep fun _ => rfl
  have hquiet₃ : Quiet (Others s ctx.receiptTokenMint) IsVaultToken l₂ l₅ := by
    refine (Ledger.Quiet.initializeAccount hl₃ hkeep
      fun hk => absurd hk associatedToken_not_isVaultToken).trans ?_
    exact (Ledger.Quiet.transfer hl₄ hx₃ (hxmint ▸ hstakeKeep) hnotVault).trans (mintNft_quiet hl₅ hkeep)
  have hquiet := (hquiet₁.trans (.initializeMint hl₂)).trans hquiet₃
  -- A mint which exists is not the one just made.
  have hfresh : ∀ t, (s.ledger.mints t).isSome → t ≠ ctx.receiptTokenMint := by
    rintro _ ht rfl
    have hsome := hquiet₁.mints.isSome ht
    rw [hnew] at hsome
    cases hsome
  have hnative := hfresh _ hinv.sound.native
  have hne : ctx.tokenMint ≠ ctx.receiptTokenMint :=
    hfresh _ (Option.isSome_iff_exists.mpr ⟨tokenMint, hmint⟩)
  have hquiet₄ : Quiet (· = ctx.receiptTokenMint) IsVaultToken l₃ l₄ :=
    .transfer hl₄ hx₃ (fun heq => hne (hxmint.symm.trans heq)) hnotVault
  have hunminted := ((hquiet₁.sound hinv.sound).unminted hl₂).initializeAccount hl₃ hnative.symm
  have hreceipt := Ledger.tokens_initializeAccount hl₃ hnative.symm
  have hsole := mintNft_sole (hunminted.same (hquiet₄.same _ rfl))
    ((hquiet₄.same _ rfl _ _ rfl).mpr hreceipt) rfl hl₅
  refine ⟨hnone, ⟨fun m hm => terms_update_of_ne hm, hquiet, ?_, ?_⟩, ?_⟩
  · intro p hp
    cases Option.some.inj (hp.symm.trans hparams)
    exact ⟨_, rfl, rfl⟩
  · intro p hp
    cases Option.some.inj hp
    exact hinv.rewards params hparams
  · intro v hv
    simp only [Function.update_self, Option.some.injEq] at hv
    subst hv
    obtain ⟨b, hb, hbzero⟩ := hquiet₃.mints _ _ hzero
    obtain ⟨c, hc, hcnine⟩ := hquiet.mints _ _ hmint
    refine ⟨⟨b, hb, hbzero⟩, ⟨c, hc, hcnine.trans hnine⟩, ⟨_, rfl, hfresh _ (hinv.rewards params hparams)⟩,
      hnative.symm, ⟨_, _, hsole, ?_⟩, fun r hr => absurd hr (Option.some_ne_none r).symm⟩
    have hescrow := Addresses.escrowReceipt_ne_associatedToken ctx.receiptTokenMint ctx.depositor
      ctx.receiptTokenMint
    simp [hescrow.symm]

omit [PubKey K] [TokenProgram K] [MetadataProgram K] [Addresses K] in
theorem cancelledByOwner_of_ne {ix : Instruction K}
    (hcall : ∀ ctx, ix.call ≠ .cancelWithdrawalRequest ctx) : CancelledByOwner s ix :=
  fun ctx _ _ hctx => absurd hctx (hcall ctx)

omit [MetadataProgram K] in
/-- What an instruction keeps unless it opens, closes or moves a vault. -/
theorem Aside.kept (h : Aside (fun _ => False) IsVaultToken s s') (hinv : Inv s) :
    Inv s' ∧ Respects s signers s' := by
  have hinv' := h.inv hinv fun _ _ hm => hm.elim
  exact ⟨hinv', h.respects hinv hinv' fun _ _ hm => hm.elim⟩

/-- Every instruction keeps the invariant, and respects owners if and only if it
is no cancellation against the owner's will. -/
theorem step_inv {ix : Instruction K} (hinv : Inv s) (h : s.step digest ix = .ok s') :
    Inv s' ∧ (Respects s ix.signers s' ↔ CancelledByOwner s ix) := by
  obtain ⟨_, hcheck, hdispatch⟩ := bind_eq_ok.mp h
  have hsigners := check_ok.mp hcheck
  -- All but a cancellation respect owners, and are asked for nothing.
  have hkept : (∀ ctx, ix.call ≠ .cancelWithdrawalRequest ctx) → Inv s' ∧ Respects s ix.signers s' →
      Inv s' ∧ (Respects s ix.signers s' ↔ CancelledByOwner s ix) :=
    fun hne ⟨hinv', hrespects⟩ => ⟨hinv', iff_of_true hrespects (cancelledByOwner_of_ne hne)⟩
  cases hparams : ix.call.onParams with
  | true =>
    obtain ⟨p, p', hp, rfl, hsame, -⟩ := dispatch_onParams hparams hdispatch
    refine hkept ?_ ((aside_params hinv hp hsame).kept hinv)
    intro ctx hctx
    rw [hctx] at hparams
    cases hparams
  | false =>
    cases hix : ix.call with
    | initializeStaking ctx whitelistedTokens stakingCap =>
      simp only [State.dispatch, hix] at hdispatch
      exact hkept (by simp [hix]) ((initializeStaking_aside hinv hdispatch).kept hinv)
    | deposit ctx service amount =>
      simp only [State.dispatch, hix] at hdispatch
      obtain ⟨hnone, haside, hreceipt⟩ := deposit_owned hinv hsigners hdispatch
      have hinv' := haside.inv hinv fun m v hm hv => hm ▸ hreceipt v (hm ▸ hv)
      refine hkept (by simp [hix]) ⟨hinv', haside.respects hinv hinv' ?_⟩
      rintro m k rfl ⟨v, hv, -⟩
      exact absurd (hv.symm.trans hnone) (Option.some_ne_none v)
    | withdrawalRequest ctx =>
      simp only [State.dispatch, hix] at hdispatch
      obtain ⟨haside, hreceipt, howner⟩ := withdrawalRequest_owned hinv hsigners hdispatch
      have hinv' := haside.inv hinv fun m v hm hv => hm ▸ hreceipt v (hm ▸ hv)
      exact hkept (by simp [hix]) ⟨hinv', haside.respects hinv hinv' fun m k hm hk => howner k (hm ▸ hk)⟩
    | cancelWithdrawalRequest ctx =>
      simp only [State.dispatch, hix] at hdispatch
      obtain ⟨haside, hreceipt, v, r, hv, hr, hsigned, hcanceller⟩ :=
        cancelWithdrawalRequest_owned hinv hdispatch
      have hinv' := haside.inv hinv fun m v hm hv => hm ▸ hreceipt v (hm ▸ hv)
      refine ⟨hinv', ?_, ?_⟩
      · intro hrespects ctx' v' r' hctx' hv' hr'
        cases Call.cancelWithdrawalRequest.inj (hix.symm.trans hctx')
        by_contra hnot
        -- The canceller signed, so the vault cannot still be its owner's, nor is it closed.
        have howner := (owner_of_request hv' hr').mpr rfl
        rcases hrespects.owner _ _ howner hnot with hsame | ⟨-, -, -, -, hclosed, -⟩
        · exact hnot ((hsame _).mp hcanceller ▸ hsigned)
        · obtain ⟨w, hw, -⟩ := hcanceller
          exact Option.some_ne_none w (hw.symm.trans hclosed)
      · intro hcancelled
        refine haside.respects hinv hinv' ?_
        rintro m k rfl hk
        rw [(owner_of_request hv hr).mp hk]
        exact hcancelled ctx v r hix hv hr
    | withdraw ctx =>
      simp only [State.dispatch, hix] at hdispatch
      obtain ⟨v, hv, haside, hpaid⟩ := withdraw_owned hinv hdispatch
      obtain ⟨-, -, -, -, hclosed, -⟩ := id hpaid
      have hinv' := haside.inv hinv fun m w hm hw =>
        absurd ((hm ▸ hw).symm.trans hclosed) (Option.some_ne_none w)
      refine hkept (by simp [hix]) ⟨hinv', ?_, ?_⟩
      · intro m k hk _
        by_cases hm : m = ctx.receiptTokenMint
        · exact Or.inr (hm ▸ hpaid)
        · exact Or.inl fun k' => hinv'.owner_unique (haside.owner hm hinv hk)
      · intro t hlt
        exact ⟨_, v, hv, haside.stakeMint_eq hlt, hpaid⟩
    | claimRewards ctx =>
      simp only [State.dispatch, hix] at hdispatch
      exact hkept (by simp [hix]) ((claimRewards_aside hinv hdispatch).kept hinv)
    | setService ctx service =>
      simp only [State.dispatch, hix] at hdispatch
      exact hkept (by simp [hix]) ((setService_aside hinv hdispatch).kept hinv)
    | withdrawRewardFunds ctx =>
      simp only [State.dispatch, hix] at hdispatch
      exact hkept (by simp [hix]) ((withdrawRewardFunds_aside hinv hdispatch).kept hinv)
    | _ =>
      rw [hix] at hparams
      cases hparams

variable (digest s) in
theorem exec_cases (ix : Instruction K) :
    (∃ s', s.step digest ix = .ok s' ∧ s.exec digest ix = s') ∨
      ((∃ f, s.step digest ix = .error f) ∧ s.exec digest ix = s) := by
  unfold State.exec
  cases h : s.step digest ix with
  | ok s' => exact Or.inl ⟨s', rfl, rfl⟩
  | error f => exact Or.inr ⟨⟨f, rfl⟩, rfl⟩

theorem exec_inv {ix : Instruction K} (hinv : Inv s) : Inv (s.exec digest ix) := by
  rcases exec_cases digest s ix with ⟨s', hs', heq⟩ | ⟨-, heq⟩
  · rw [heq]
    exact (step_inv hinv hs').1
  · rw [heq]
    exact hinv

theorem execAll_inv {ixs : List (Instruction K)} (hinv : Inv s) : Inv (s.execAll digest ixs) := by
  induction ixs generalizing s with
  | nil => exact hinv
  | cons ix ixs ih => exact ih (exec_inv hinv)

theorem exec_respects_iff {ix : Instruction K} (hinv : Inv s) :
    Respects s ix.signers (s.exec digest ix) ↔
      ((s.step digest ix).isOk → CancelledByOwner s ix) := by
  rcases exec_cases digest s ix with ⟨s', hs', heq⟩ | ⟨⟨f, hf⟩, heq⟩
  · rw [heq, (step_inv hinv hs').2, hs']
    exact ⟨fun h _ => h, fun h => h rfl⟩
  · rw [heq, hf]
    exact iff_of_true ((Aside.refl hinv).kept hinv).2 fun hok => Bool.noConfusion hok

/-- Over every run, vaults stay with their owners exactly if every withdrawal
request that gets cancelled is with the signature of who made it. -/
theorem stake_stays_with_owner_iff (hs : Fresh s) (ixs : List (Instruction K)) :
    (∀ before ix after, ixs = before ++ ix :: after →
      Respects (s.execAll digest before) ix.signers ((s.execAll digest before).exec digest ix)) ↔
    ∀ before ix after, ixs = before ++ ix :: after →
      ((s.execAll digest before).step digest ix).isOk → CancelledByOwner (s.execAll digest before) ix := by
  refine forall_congr' fun before => forall_congr' fun ix => forall_congr' fun after => imp_congr_right ?_
  intro _
  exact exec_respects_iff (execAll_inv hs.inv)

end

namespace Sample

abbrev alice : Address := .wallet 1
abbrev mallory : Address := .wallet 2
abbrev admin : Address := .wallet 3
abbrev validator : Address := .wallet 4
abbrev stakeMint : Address := .wallet 5
abbrev rewardsMint : Address := .wallet 6
abbrev receipt : Address := .wallet 7
abbrev aliceTokens : Address := .wallet 8

def ledger : Ledger Address where
  lamports := fun k => if k = alice ∨ k = mallory ∨ k = admin then 10 ^ 9 else 0
  mints := fun k =>
    if k = stakeMint ∨ k = rewardsMint ∨ k = .wallet 0 then some ⟨9, none, 1000⟩ else none
  tokens := fun k => if k = aliceTokens then some ⟨stakeMint, alice, 1000, false⟩ else none

theorem total_eq : (NonZero.clamp 10 : NonZeroU128).get =
    totalOf [(⟨validator, NonZero.clamp 10⟩ : Validator Address)] := by decide

def header : BlockHeader :=
  ⟨CryptoHash.default, Height.clamp 1, Height.clamp 1, NonZero.clamp 1, CryptoHash.default,
    CryptoHash.default, none⟩

def config : Config where
  minValidators := NonZero.clamp 1
  maxValidators := NonZero.clamp 3
  minValidatorStake := NonZero.clamp 1
  minTotalStake := NonZero.clamp 1
  minQuorumStake := NonZero.clamp 1
  minBlockLength := Delta.clamp 4
  maxBlockAgeNs := 1000
  minEpochLength := Delta.clamp 8

/-- A chain with one validator and its block of the host's first slot made. -/
def chain : ChainData Address where
  inner := some
    { lastCheckHeight := Height.clamp 1
      manager :=
        { config
          genesis := CryptoHash.default
          header
          nextEpoch := ⟨[⟨validator, NonZero.clamp 10⟩], NonZero.clamp 10, NonZero.clamp 10, total_eq, le_rfl⟩
          pendingBlock := none
          epochHeight := Height.clamp 1
          candidates := ⟨NonZero.clamp 3, [⟨validator, NonZero.clamp 10⟩], false, 10⟩
          consensusStates := [] } }
  stateRoot := CryptoHash.default

def start : State Address :=
  ⟨none, fun _ => none, ledger, fun k => if k = Addresses.solanaIbc then some chain else none⟩

theorem start_fresh : Fresh start where
  sound :=
    { known := by
        intro a x hx
        simp only [start, ledger] at hx
        split at hx
        · cases hx
          decide
        · cases hx
      native := by decide
      owned := by
        rintro a x ⟨t, rfl⟩ hx
        have hne : vaultToken t ≠ aliceTokens := fun h => Address.noConfusion h
        simp [start, ledger, hne] at hx }
  stakingParams := rfl
  vaults := fun _ => rfl

/-- The stake is deposited and asked back. -/
def request (clock : Clock) (cap : Fin (2 ^ 128)) (amount : Fin (2 ^ 64)) : List (Instruction Address) :=
  let programId : Address := Addresses.solanaIbc
  [⟨[admin], clock, .initializeStaking ⟨admin, rewardsMint⟩ [stakeMint] cap⟩,
    ⟨[admin], clock, .updateGuestChainInitialization admin programId⟩,
    ⟨[alice, receipt], clock, .deposit ⟨alice, stakeMint, aliceTokens, receipt,
      [⟨Addresses.chain programId, true⟩, ⟨Addresses.trie programId, true⟩, ⟨programId, false⟩]⟩
      (.guestChain validator) amount⟩,
    ⟨[alice], clock, .withdrawalRequest ⟨alice, stakeMint, aliceTokens, rewardsMint, receipt,
      associatedToken alice receipt⟩⟩]

def cancel (clock : Clock) (k : Address) : Instruction Address :=
  ⟨[k], clock, .cancelWithdrawalRequest ⟨k, receipt⟩⟩

end Sample

open Sample in
/-- The owner cancels its own request. -/
theorem stake_stays_with_owner_sample :
    let digest : List Byte → CryptoHash := fun _ => CryptoHash.default
    let ixs := request ⟨1, 100⟩ 1000 7 ++ [cancel ⟨1, 200⟩ alice]
    ∀ before ix after, ixs = before ++ ix :: after →
      Respects (start.execAll digest before) ix.signers ((start.execAll digest before).exec digest ix) := by
  intro digest ixs
  refine (stake_stays_with_owner_iff start_fresh ixs).mpr ?_
  intro before ix after hixs _ ctx v r hctx hv hr
  have howner : ((start.execAll digest (request ⟨1, 100⟩ 1000 7)).vaults receipt).bind
      (fun v => v.withdrawalRequest.map (·.owner)) = some alice := by
    decide
  -- The last instruction is the one which cancels.
  obtain rfl | ⟨after', rfl⟩ : after = [] ∨ ∃ after', after = after' ++ [cancel ⟨1, 200⟩ alice] := by
    rcases List.eq_nil_or_concat after with rfl | ⟨after', last, rfl⟩
    · exact Or.inl rfl
    · have hlast := congrArg List.getLast? hixs
      simp only [ixs, List.concat_eq_append, List.getLast?_append, List.getLast?_singleton, Option.some_or,
        ← List.append_assoc, ← List.cons_append] at hlast
      exact Or.inr ⟨after', by rw [Option.some.inj hlast, List.concat_eq_append]⟩
  · obtain ⟨hbefore, hcancel⟩ := List.append_inj' hixs rfl
    cases List.cons.inj hcancel |>.1
    cases hctx
    subst hbefore
    generalize start.execAll digest (request ⟨1, 100⟩ 1000 7) = s at howner hv
    obtain ⟨v', hv', hr'⟩ := Option.bind_eq_some_iff.mp howner
    cases Option.some.inj (hv'.symm.trans hv)
    rw [hr] at hr'
    exact List.mem_singleton.mpr (Option.some.inj hr')
  · have hmem : ix ∈ request ⟨1, 100⟩ 1000 7 := by
      have hsplit : request ⟨1, 100⟩ 1000 7 = before ++ ix :: after' := by
        have heq : ixs = (before ++ ix :: after') ++ [cancel ⟨1, 200⟩ alice] := by
          simpa using hixs
        exact (List.append_inj' heq rfl).1
      rw [hsplit]
      simp
    simp only [request, List.mem_cons, List.not_mem_nil, or_false] at hmem
    rcases hmem with rfl | rfl | rfl | rfl <;> cases hctx

open Sample in
/-- Anybody cancels the request and gets the receipt. -/
theorem receipt_taken_by_stranger :
    let digest : List Byte → CryptoHash := fun _ => CryptoHash.default
    let s := start.execAll digest (request ⟨1, 100⟩ 1000 7)
    let ix := cancel ⟨1, 200⟩ mallory
    Owner s receipt alice ∧ alice ∉ ix.signers ∧ Owner (s.exec digest ix) receipt mallory ∧
      ¬ Respects s ix.signers (s.exec digest ix) := by
  intro digest s ix
  have hbefore : (s.vaults receipt).bind (fun v => v.withdrawalRequest.map (·.owner)) = some alice := by
    decide
  have hafter : ((s.exec digest ix).vaults receipt).map (fun v => v.withdrawalRequest.isNone) = some true := by
    decide
  have hheld : (s.exec digest ix).ledger.tokens (associatedToken mallory receipt) =
      some ⟨receipt, mallory, 1, false⟩ := by
    decide
  obtain ⟨v, hv, r, hr, hrowner⟩ : ∃ v, s.vaults receipt = some v ∧
      ∃ r, v.withdrawalRequest = some r ∧ r.owner = alice := by
    obtain ⟨v, hv, hrest⟩ := Option.bind_eq_some_iff.mp hbefore
    exact ⟨v, hv, Option.map_eq_some_iff.mp hrest⟩
  obtain ⟨v', hv', hnone⟩ := Option.map_eq_some_iff.mp hafter
  have howner : Owner s receipt alice := (owner_of_request hv hr).mpr hrowner.symm
  have hstranger : Owner (s.exec digest ix) receipt mallory := by
    refine ⟨v', hv', ?_⟩
    rw [Option.isNone_iff_eq_none.mp hnone]
    exact ⟨_, _, hheld, rfl, Nat.one_pos, rfl⟩
  have hsigned : alice ∉ ix.signers := by decide
  refine ⟨howner, hsigned, hstranger, fun hrespects => ?_⟩
  rcases hrespects.owner _ _ howner hsigned with hsame | ⟨-, -, -, -, hclosed, -⟩
  · exact absurd ((hsame mallory).mp hstranger) (by decide)
  · exact Option.some_ne_none v' (hv'.symm.trans hclosed)

end Restaking
