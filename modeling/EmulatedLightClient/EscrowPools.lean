import EmulatedLightClient.TransferInstructions
import Mathlib.Algebra.Order.Ring.Nat

/-!
# Escrowed coins of a channel

Escrow accounts are derived from denominations alone, so that coins which all
channels escrow of a denomination lie in one pool; wrapped lamports of every
denomination that ends in them lie with the mint authority. A channel can be
paid only from the pool as a whole.
-/

namespace SolanaIbc

open TokenLedger FailingState

variable {K D H : Type} [DecidableEq K] [PrefixedDenom D] [ProgramAddresses K H] [TokenProgram K]

omit [DecidableEq K] [TokenProgram K] in
theorem getEscrowAccount_injective {d d' : D}
    (h : (getEscrowAccount d : K) = getEscrowAccount d') : d = d' :=
  PrefixedDenom.toString_injective (ProgramAddresses.escrow_digest_injective _ _ h)

omit [DecidableEq K] [TokenProgram K] in
theorem getEscrowAccount_ne_mintAuthority (d : D) :
    (getEscrowAccount d : K) ≠ ProgramAddresses.mintAuthority :=
  ProgramAddresses.escrow_ne_mintAuthority _

/-- What there is to pay coins of a denomination from. -/
def pool (l : Ledger K) (d : D) : Nat :=
  if isWsol d then l.lamports ProgramAddresses.mintAuthority else l.balance (getEscrowAccount d)

def SharesPool (d d' : D) : Prop := d = d' ∨ isWsol d = true ∧ isWsol d' = true

instance sharesPoolDecidable [DecidableEq D] (d d' : D) : Decidable (SharesPool d d') :=
  inferInstanceAs (Decidable (_ ∨ _))

variable (D) in
/-- Escrow accounts hold no lamports that could end up as coins. -/
def Tidy (l : Ledger K) : Prop :=
  ∀ d : D, l.tokens (getEscrowAccount d) = none ∨ isWsol d = true →
    l.lamports (getEscrowAccount d) ≤ TokenProgram.accountRent K

variable (D) in
/-- A change that does not touch the pools. -/
def Steady (l l' : Ledger K) : Prop := Tidy D l → Tidy D l' ∧ ∀ d : D, pool l' d = pool l d

/-- An address which only the program pays from. -/
def OwnAddress (D : Type) [PrefixedDenom D] (k : K) : Prop :=
  k = ProgramAddresses.mintAuthority ∨ ∃ d : D, k = getEscrowAccount d

variable {l l' l'' : Ledger K} {d d' : D} {k payer src dst mint owner : K} {n : Nat}

theorem Steady.trans (h : Steady D l l') (h' : Steady D l' l'') : Steady D l l'' := by
  intro htidy
  obtain ⟨htidy', hpool⟩ := h htidy
  obtain ⟨htidy'', hpool'⟩ := h' htidy'
  exact ⟨htidy'', fun d => (hpool' d).trans (hpool d)⟩

/-- It is enough that nothing the pools are made of changes. -/
theorem Steady.of_same (htokens : ∀ d : D, l'.tokens (getEscrowAccount d) = l.tokens (getEscrowAccount d))
    (hlamports : ∀ k, OwnAddress D k → l'.lamports k = l.lamports k) : Steady D l l' := by
  intro htidy
  constructor
  · intro d hd
    rw [htokens] at hd
    rw [hlamports _ (Or.inr ⟨d, rfl⟩)]
    exact htidy d hd
  · intro d
    unfold pool
    split
    · exact hlamports _ (Or.inl rfl)
    · unfold Ledger.balance
      rw [htokens]

theorem Steady.refl (l : Ledger K) : Steady D l l := Steady.of_same (fun _ => rfl) fun _ _ => rfl

omit [DecidableEq K] [TokenProgram K] in
theorem not_ownAddress_of_canSign (h : ProgramAddresses.canSign k = true) : ¬ OwnAddress D k := by
  rintro (rfl | ⟨d, rfl⟩)
  · rw [ProgramAddresses.canSign_mintAuthority] at h
    cases h
  · rw [getEscrowAccount, ProgramAddresses.canSign_escrow] at h
    cases h

omit [DecidableEq K] [TokenProgram K] in
theorem not_ownAddress_associatedToken :
    ¬ OwnAddress D (ProgramAddresses.associatedToken owner mint : K) := by
  rintro (h | ⟨d, h⟩)
  · exact ProgramAddresses.mintAuthority_ne_associatedToken _ _ h.symm
  · exact ProgramAddresses.escrow_ne_associatedToken _ _ _ h.symm

omit [DecidableEq K] [TokenProgram K] in
theorem not_ownAddress_feeAccount : ¬ OwnAddress D (ProgramAddresses.feeAccount : K) := by
  rintro (h | ⟨d, h⟩)
  · exact ProgramAddresses.mintAuthority_ne_feeAccount h.symm
  · exact ProgramAddresses.escrow_ne_feeAccount _ h.symm

omit [DecidableEq K] [TokenProgram K] in
theorem ne_of_ownAddress (hk : OwnAddress D k) (hsrc : ¬ OwnAddress D src) : k ≠ src := by
  rintro rfl
  exact hsrc hk

theorem steady_moveLamports (hsrc : ¬ OwnAddress D src) (hdst : ¬ OwnAddress D dst) :
    Steady D l (l.moveLamports src dst n) :=
  Steady.of_same (fun _ => rfl) fun _ hk =>
    Ledger.lamports_moveLamports_of_ne (ne_of_ownAddress hk hsrc) (ne_of_ownAddress hk hdst)

theorem steady_setLamports (hk : ¬ OwnAddress D k) : Steady D l (l.setLamports k n) :=
  Steady.of_same (fun _ => rfl) fun _ hj => by
    rw [Ledger.lamports_setLamports, if_neg (ne_of_ownAddress hj hk)]

theorem steady_setAmount {f : Nat → Nat} (hk : ¬ OwnAddress D k) : Steady D l (l.setAmount k f) :=
  Steady.of_same (fun d => Ledger.tokens_setAmount_of_ne (ne_of_ownAddress (Or.inr ⟨d, rfl⟩) hk))
    fun _ _ => rfl

theorem initIfNeeded_steady (h : initIfNeeded l payer k = some l') (hpayer : ¬ OwnAddress D payer)
    (hk : ¬ OwnAddress D k) : Steady D l l' := by
  unfold initIfNeeded at h
  split at h
  · cases h
    exact Steady.refl l
  · split at h
    · cases h
      exact steady_moveLamports hpayer hk
    · cases h

theorem initTokenIfNeeded_steady (h : initTokenIfNeeded l payer k mint owner = some l')
    (hpayer : ¬ OwnAddress D payer) (hk : ¬ OwnAddress D k) : Steady D l l' := by
  unfold initTokenIfNeeded at h
  split at h
  · obtain ⟨-, -, -, rfl⟩ := TokenProgram.initializeAccount_some h
    refine Steady.of_same (fun d => ?_) fun j hj => ?_
    · exact Ledger.tokens_initializeAccount_of_ne (ne_of_ownAddress (Or.inr ⟨d, rfl⟩) hk)
    · rw [Ledger.lamports_initializeAccount]
      exact Ledger.lamports_moveLamports_of_ne (ne_of_ownAddress hj hpayer) (ne_of_ownAddress hj hk)
  · split at h
    · cases h
      exact Steady.refl l
    · cases h

/-- A new escrow account is empty: it holds its rent and no more. -/
theorem initTokenIfNeeded_escrow_steady
    (h : initTokenIfNeeded l payer (getEscrowAccount d) mint owner = some l')
    (hpayer : ¬ OwnAddress D payer) : Steady D l l' := by
  unfold initTokenIfNeeded at h
  split at h
  · obtain ⟨hnew, -, hne, rfl⟩ := TokenProgram.initializeAccount_some h
    intro htidy
    have hrent := htidy d (Or.inl hnew)
    have hself : (l.moveLamports payer (getEscrowAccount d)
        (TokenProgram.accountRent K - l.lamports (getEscrowAccount d))).lamports (getEscrowAccount d) =
        TokenProgram.accountRent K := by
      rw [Ledger.lamports_moveLamports_dst hne]
      omega
    constructor
    · intro d' hd'
      rw [Ledger.lamports_initializeAccount]
      by_cases heq : d' = d
      · rw [heq, hself]
      · have hother : (getEscrowAccount d' : K) ≠ getEscrowAccount d :=
          fun h => heq (getEscrowAccount_injective h)
        rw [Ledger.lamports_moveLamports_of_ne (ne_of_ownAddress (Or.inr ⟨d', rfl⟩) hpayer) hother]
        refine htidy d' (hd'.imp_left fun hnone => ?_)
        rwa [Ledger.tokens_initializeAccount_of_ne hother] at hnone
    · intro d'
      unfold pool
      split
      · rw [Ledger.lamports_initializeAccount]
        exact Ledger.lamports_moveLamports_of_ne (ne_of_ownAddress (Or.inl rfl) hpayer)
          (getEscrowAccount_ne_mintAuthority _).symm
      · by_cases heq : d' = d
        · rw [heq, Ledger.balance, Ledger.balance, hnew]
          simp [Ledger.initializeAccount, hself]
        · exact Ledger.balance_initializeAccount_of_ne fun h => heq (getEscrowAccount_injective h)
  · split at h
    · cases h
      exact Steady.refl l
    · cases h

variable (D) in
/-- What the constraints say of the accounts of an instruction. -/
structure Loaded (a : PassedAccounts K) : Prop where
  sender : ProgramAddresses.canSign a.sender.key = true
  mintAuthority : ∀ x ∈ a.mintAuthority, x.key = ProgramAddresses.mintAuthority
  tokenAccount : ∀ x ∈ a.receiverTokenAccount, ¬ OwnAddress D x.key

variable {a : PassedAccounts K} {hash : H} {u : Unit}

omit [TokenProgram K] in
theorem loadCommon_some (h : loadCommon a l = some u) :
    ProgramAddresses.canSign a.sender.key = true ∧
      ∀ x ∈ a.mintAuthority, x.key = ProgramAddresses.mintAuthority := by
  simp only [loadCommon, Option.bind_eq_bind, Option.bind_eq_some_iff, guard_eq_some] at h
  obtain ⟨-, ⟨-, hsender⟩, -, hauthority, -⟩ := h
  exact ⟨hsender, hauthority⟩

theorem loadSendEscrow_steady (h : loadSendEscrow (hashedFullDenom K d) a l = some l')
    (hsender : ProgramAddresses.canSign a.sender.key = true) : Steady D l l' := by
  unfold loadSendEscrow at h
  split at h
  · cases h
    exact Steady.refl l
  · simp only [Option.bind_eq_bind, Option.bind_eq_some_iff, guard_eq_some] at h
    obtain ⟨-, hkey, tokenMint, -, mintAuthority, -, h⟩ := h
    rw [hkey] at h
    exact initTokenIfNeeded_escrow_steady (d := d) h (not_ownAddress_of_canSign hsender)

omit [TokenProgram K] in
theorem loadSendTokens_some (h : loadSendTokens a l = some u) :
    ∀ x ∈ a.receiverTokenAccount, ¬ OwnAddress D x.key := by
  intro x hx
  unfold loadSendTokens at h
  rw [Option.mem_def.mp hx] at h
  simp only [Option.bind_eq_bind, Option.bind_eq_some_iff, guard_eq_some] at h
  obtain ⟨tokenMint, -, -, hkey, -⟩ := h
  rw [hkey]
  exact not_ownAddress_associatedToken

theorem loadSendTransfer_some (h : loadSendTransfer (hashedFullDenom K d) a l = some l') :
    Loaded D a ∧ Steady D l l' := by
  simp only [loadSendTransfer, Option.bind_eq_bind, Option.bind_eq_some_iff] at h
  obtain ⟨_, hcommon, l₁, hescrow, _, htokens, hfee⟩ := h
  obtain ⟨hsender, hauthority⟩ := loadCommon_some hcommon
  refine ⟨⟨hsender, hauthority, loadSendTokens_some htokens⟩,
    (loadSendEscrow_steady hescrow hsender).trans ?_⟩
  unfold loadSendFee at hfee
  split at hfee
  · cases hfee
    exact Steady.refl _
  · simp only [Option.bind_eq_bind, Option.bind_eq_some_iff, guard_eq_some] at hfee
    obtain ⟨-, hkey, hfee⟩ := hfee
    rw [hkey] at hfee
    exact initIfNeeded_steady hfee (not_ownAddress_of_canSign hsender) not_ownAddress_feeAccount

theorem loadSendTransfer_feeCollector (h : loadSendTransfer hash a l = some l')
    {x : AccountInfo K} (hx : a.feeCollector = some x) : ¬ OwnAddress D x.key := by
  simp only [loadSendTransfer, Option.bind_eq_bind, Option.bind_eq_some_iff] at h
  obtain ⟨_, -, l₁, -, _, -, hfee⟩ := h
  unfold loadSendFee at hfee
  rw [hx] at hfee
  simp only [Option.bind_eq_bind, Option.bind_eq_some_iff, guard_eq_some] at hfee
  obtain ⟨-, hkey, -⟩ := hfee
  rw [hkey]
  exact not_ownAddress_feeAccount

theorem loadDeliver_some (h : loadDeliver a l = some l') :
    Loaded D a ∧ (∀ x ∈ a.feeCollector, x.key = ProgramAddresses.feeAccount) ∧ Steady D l l' := by
  simp only [loadDeliver, Option.bind_eq_bind, Option.bind_eq_some_iff, guard_eq_some] at h
  obtain ⟨_, hcommon, l₁, htokens, -, hfee, -, -, h⟩ := h
  cases Option.some.inj h
  obtain ⟨hsender, hauthority⟩ := loadCommon_some hcommon
  unfold loadDeliverTokens at htokens
  split at htokens
  · rename_i hnone
    cases htokens
    refine ⟨⟨hsender, hauthority, ?_⟩, hfee, Steady.refl _⟩
    rw [hnone]
    simp
  · rename_i tokenAccount hsome
    simp only [Option.bind_eq_bind, Option.bind_eq_some_iff, guard_eq_some] at htokens
    obtain ⟨tokenMint, -, receiver, -, -, hkey, hinit⟩ := htokens
    have hown : ¬ OwnAddress D tokenAccount.key := by
      rw [hkey]
      exact not_ownAddress_associatedToken
    refine ⟨⟨hsender, hauthority, ?_⟩, hfee,
      initTokenIfNeeded_steady hinit (not_ownAddress_of_canSign hsender) hown⟩
    rw [hsome]
    rintro x ⟨⟩
    exact hown

/-- A change to the pool of one denomination: no more is taken than there is,
and no more is added than is escrowed. -/
structure Effect (l l' : Ledger K) (d : D) (added removed : Nat) : Prop where
  tidy : Tidy D l'
  covered : removed ≤ pool l d
  moved : pool l' d + removed ≤ pool l d + added
  others : ∀ d', ¬ SharesPool d' d → pool l' d' = pool l d'

theorem Effect.trans_steady {added removed : Nat} (h : Effect l l' d added removed)
    (h' : Steady D l' l'') : Effect l l'' d added removed := by
  obtain ⟨htidy, hpool⟩ := h' h.tidy
  refine ⟨htidy, h.covered, ?_, fun d' hd' => (hpool d').trans (h.others d' hd')⟩
  rw [hpool]
  exact h.moved

theorem Steady.trans_effect {added removed : Nat} (h : Steady D l l') (htidy : Tidy D l)
    (h' : Tidy D l' → Effect l' l'' d added removed) : Effect l l'' d added removed := by
  obtain ⟨htidy', hpool⟩ := h htidy
  obtain ⟨htidy'', hcovered, hmoved, hothers⟩ := h' htidy'
  rw [hpool] at hcovered hmoved
  exact ⟨htidy'', hcovered, hmoved, fun d' hd' => (hothers d' hd').trans (hpool d')⟩

omit [DecidableEq K] [TokenProgram K] [ProgramAddresses K H] in
theorem not_isWsol_of_not_sharesPool (hwsol : isWsol d = true) (h : ¬ SharesPool d' d) :
    isWsol d' = false := by
  cases hd' : isWsol d' with
  | false => rfl
  | true => exact absurd (Or.inr ⟨hd', hwsol⟩) h

variable {priv : PrivateStorage K H} {coin : PrefixedCoin D} {escrowAccount : AccountInfo K}

theorem mintCoinsExecute_steady (ha : Loaded D a)
    (h : (mintCoinsExecute ⟨priv, a.toTransferAccounts⟩ coin).run l = (.ok u, l')) : Steady D l l' := by
  obtain ⟨-, n, tokenMint, receiver, -, -, -, -, hreceiver, -, rfl⟩ := mintCoinsExecute_ok h
  have hsupply : Steady D l (l.setSupply tokenMint.key (· + n)) := Steady.of_same (fun _ => rfl) fun _ _ => rfl
  exact hsupply.trans (steady_setAmount (ha.tokenAccount receiver hreceiver))

theorem burnCoinsExecute_steady (ha : Loaded D a)
    (h : (burnCoinsExecute ⟨priv, a.toTransferAccounts⟩ coin).run l = (.ok u, l')) : Steady D l l' := by
  obtain ⟨-, n, tokenMint, burner, -, -, -, -, hburner, -, -, rfl⟩ := burnCoinsExecute_ok h
  have hsupply : Steady D l (l.setSupply tokenMint.key (· - n)) := Steady.of_same (fun _ => rfl) fun _ _ => rfl
  exact hsupply.trans (steady_setAmount (ha.tokenAccount burner hburner))

omit [TokenProgram K] in
/-- Of the addresses a transfer is between, at most the escrow account of one
denomination is the program's own. -/
theorem transfer_others (hsrc : OwnAddress D src → src = getEscrowAccount d)
    (hdst : OwnAddress D dst → dst = getEscrowAccount d) (hk : OwnAddress D k) (hne : k ≠ getEscrowAccount d) :
    (l.transfer src dst n).tokens k = l.tokens k ∧ (l.transfer src dst n).lamports k = l.lamports k := by
  have hksrc : k ≠ src := by
    rintro rfl
    exact hne (hsrc hk)
  have hkdst : k ≠ dst := by
    rintro rfl
    exact hne (hdst hk)
  exact ⟨Ledger.tokens_transfer_of_ne hksrc hkdst, Ledger.lamports_transfer_of_ne hksrc hkdst⟩

theorem transfer_frame (hsrc : OwnAddress D src → src = getEscrowAccount d)
    (hdst : OwnAddress D dst → dst = getEscrowAccount d)
    (hopen : (l.transfer src dst n).tokens (getEscrowAccount d) ≠ none) (hwsol : isWsol d = false)
    (htidy : Tidy D l) :
    Tidy D (l.transfer src dst n) ∧
      ∀ d', ¬ SharesPool d' d → pool (l.transfer src dst n) d' = pool l d' := by
  have hother : ∀ d' : D, d' ≠ d → (getEscrowAccount d' : K) ≠ getEscrowAccount d :=
    fun d' hne h => hne (getEscrowAccount_injective h)
  constructor
  · intro d' hd'
    by_cases heq : d' = d
    · rw [heq, hwsol] at hd'
      exact absurd (hd'.resolve_right Bool.false_ne_true) hopen
    · obtain ⟨htokens, hlamports⟩ := transfer_others (n := n) (l := l) hsrc hdst (Or.inr ⟨d', rfl⟩) (hother d' heq)
      rw [htokens] at hd'
      rw [hlamports]
      exact htidy d' hd'
  · intro d' hshares
    unfold pool
    split
    · exact (transfer_others hsrc hdst (Or.inl rfl) (getEscrowAccount_ne_mintAuthority _).symm).2
    · have hne := hother d' fun h => hshares (Or.inl h)
      rw [Ledger.balance, Ledger.balance, (transfer_others hsrc hdst (Or.inr ⟨d', rfl⟩) hne).1]

/-- Tokens that go into the escrow account of a denomination. -/
theorem transfer_in {y : TokenAccount K} (hown : ¬ OwnAddress D src)
    (hy : l.tokens (getEscrowAccount d) = some y) (hwsol : isWsol d = false) (htidy : Tidy D l) :
    Effect l (l.transfer src (getEscrowAccount d) n) d n 0 := by
  have hne : src ≠ getEscrowAccount d := (ne_of_ownAddress (Or.inr ⟨d, rfl⟩) hown).symm
  obtain ⟨htidy', hothers⟩ := transfer_frame (n := n) (fun h => absurd h hown) (fun _ => rfl)
    (by simp [Ledger.tokens_transfer_dst hy hne]) hwsol htidy
  refine ⟨htidy', Nat.zero_le _, ?_, hothers⟩
  simp only [pool, hwsol, Bool.false_eq_true, if_false]
  rw [Ledger.balance_transfer_dst hy hne, Ledger.balance_eq hy]
  omega

/-- Tokens that come out of the escrow account of a denomination. -/
theorem transfer_out {x : TokenAccount K} (hown : ¬ OwnAddress D dst)
    (hx : l.tokens (getEscrowAccount d) = some x) (hle : n ≤ x.amount) (hwsol : isWsol d = false)
    (htidy : Tidy D l) : Effect l (l.transfer (getEscrowAccount d) dst n) d 0 n := by
  have hne : getEscrowAccount d ≠ dst := ne_of_ownAddress (Or.inr ⟨d, rfl⟩) hown
  obtain ⟨htidy', hothers⟩ := transfer_frame (n := n) (fun _ => rfl) (fun h => absurd h hown)
    (by simp [Ledger.tokens_transfer_src hx hne]) hwsol htidy
  refine ⟨htidy', ?_, ?_, hothers⟩
  · simp only [pool, hwsol, Bool.false_eq_true, if_false]
    rw [Ledger.balance_eq hx]
    exact hle
  · simp only [pool, hwsol, Bool.false_eq_true, if_false]
    rw [Ledger.balance_transfer_src hx hne, Ledger.balance_eq hx]
    omega

/-- Lamports of an escrow account that is closed after a transfer into it. -/
theorem lamports_after_transfer_in (hown : ¬ OwnAddress D src) (hwsol : isWsol d = true)
    (htidy : Tidy D l) : (l.transfer src (getEscrowAccount d) n).lamports (getEscrowAccount d) ≤
      TokenProgram.accountRent K + n := by
  rw [Ledger.lamports_transfer_dst (ne_of_ownAddress (Or.inr ⟨d, rfl⟩) hown).symm]
  have hrent := htidy d (Or.inr hwsol)
  split <;> omega

/-- What closing the escrow account of a denomination does to the program's own
addresses. -/
structure Closed (l l' : Ledger K) (d : D) : Prop where
  tokens : ∀ k, k ≠ getEscrowAccount d → l'.tokens k = l.tokens k
  lamports : ∀ k, OwnAddress D k → k ≠ getEscrowAccount d → k ≠ ProgramAddresses.mintAuthority →
    l'.lamports k = l.lamports k
  escrow : l'.lamports (getEscrowAccount d) = 0
  authority : l'.lamports ProgramAddresses.mintAuthority = l.lamports ProgramAddresses.mintAuthority +
    l.lamports (getEscrowAccount d) - TokenProgram.accountRent K

theorem closeWsol_ok (ha : Loaded D a) (hkey : escrowAccount.key = getEscrowAccount d)
    (h : (closeWsol ⟨priv, a.toTransferAccounts⟩ escrowAccount).run l = (.ok u, l')) : Closed l l' d := by
  simp only [closeWsol, Op.run_bind_ok, required_ok, invoke_ok, subLamports_ok, addLamports_ok] at h
  obtain ⟨mintAuthority, _, ⟨hauthority, rfl⟩, sender, _, ⟨hsender, rfl⟩, _, _, ⟨-, hclose⟩, _, _, ⟨-, rfl⟩,
    -, rfl⟩ := h
  obtain ⟨-, -, -, -, rfl⟩ := TokenProgram.closeAccount_some hclose
  cases Option.some.inj hsender
  rw [ha.mintAuthority mintAuthority hauthority, hkey]
  have hsigner : ∀ k, OwnAddress D k → k ≠ a.sender.key :=
    fun k hk => ne_of_ownAddress hk (not_ownAddress_of_canSign ha.sender)
  have hne : (getEscrowAccount d : K) ≠ ProgramAddresses.mintAuthority :=
    getEscrowAccount_ne_mintAuthority _
  constructor
  · intro k hk
    rw [Ledger.tokens_setLamports, Ledger.tokens_setLamports, Ledger.tokens_closeAccount_of_ne hk]
  · intro k hk hescrow hauth
    rw [Ledger.lamports_setLamports, if_neg (hsigner k hk), Ledger.lamports_setLamports, if_neg hauth,
      Ledger.lamports_closeAccount, Ledger.lamports_moveLamports_of_ne hescrow hauth]
  · rw [Ledger.lamports_setLamports, if_neg (hsigner _ (Or.inr ⟨d, rfl⟩)), Ledger.lamports_setLamports,
      if_neg hne, Ledger.lamports_closeAccount, Ledger.lamports_moveLamports_src hne, Nat.sub_self]
  · rw [Ledger.lamports_setLamports, if_neg (hsigner _ (Or.inl rfl)), Ledger.lamports_setLamports,
      if_pos rfl, Ledger.lamports_closeAccount, Ledger.lamports_moveLamports_dst hne]

/-- Wrapped lamports that are escrowed: the account they went into is closed, and
all but its rent stays with the mint authority. -/
theorem transfer_in_wsol (hown : ¬ OwnAddress D src) (hwsol : isWsol d = true) (htidy : Tidy D l)
    (h : Closed (l.transfer src (getEscrowAccount d) n) l' d) : Effect l l' d n 0 := by
  have hmoved := lamports_after_transfer_in (n := n) hown hwsol htidy
  have hothers : ∀ k, OwnAddress D k → k ≠ getEscrowAccount d → _ :=
    fun k hk => transfer_others (n := n) (l := l) (fun h => absurd h hown) (fun _ => rfl) hk
  have hauthority : (ProgramAddresses.mintAuthority : K) ≠ getEscrowAccount d :=
    (getEscrowAccount_ne_mintAuthority _).symm
  refine ⟨?_, Nat.zero_le _, ?_, ?_⟩
  · intro d' hd'
    by_cases hd : d' = d
    · rw [hd, h.escrow]
      exact Nat.zero_le _
    · have hown' : OwnAddress D (getEscrowAccount d' : K) := Or.inr ⟨d', rfl⟩
      have hne : (getEscrowAccount d' : K) ≠ getEscrowAccount d := fun h => hd (getEscrowAccount_injective h)
      rw [h.lamports _ hown' hne (getEscrowAccount_ne_mintAuthority _), (hothers _ hown' hne).2]
      refine htidy d' (hd'.imp_left fun hnone => ?_)
      rwa [h.tokens _ hne, (hothers _ hown' hne).1] at hnone
  · simp only [pool, hwsol, if_true]
    rw [h.authority, (hothers _ (Or.inl rfl) hauthority).2]
    omega
  · intro d' hshares
    have hnot := not_isWsol_of_not_sharesPool hwsol hshares
    have hne : (getEscrowAccount d' : K) ≠ getEscrowAccount d :=
      fun h => hshares (Or.inl (getEscrowAccount_injective h))
    simp only [pool, hnot, Bool.false_eq_true, if_false]
    rw [Ledger.balance, Ledger.balance, h.tokens _ hne, (hothers _ (Or.inr ⟨d', rfl⟩) hne).1]

theorem escrowCoinsExecute_effect (ha : Loaded D a) (htidy : Tidy D l)
    (hkey : ∀ x ∈ a.escrowAccount, x.key = getEscrowAccount coin.denom)
    (h : (escrowCoinsExecuteImpl ⟨priv, a.toTransferAccounts⟩ .escrow coin).run l = (.ok u, l')) :
    Effect l l' coin.denom coin.amount 0 := by
  simp only [escrowCoinsExecuteImpl, Op.run_bind_ok, Op.run_lift_ok, required_ok, invoke_ok] at h
  obtain ⟨amount, _, ⟨hamount, rfl⟩, -, _, ⟨-, rfl⟩, tokenAccount, _, ⟨htoken, rfl⟩, escrowAccount, _,
    ⟨hescrow, rfl⟩, authority, _, ⟨-, rfl⟩, -, l₁, ⟨-, htransfer⟩, hclose⟩ := h
  have hown := ha.tokenAccount tokenAccount htoken
  have hkey := hkey escrowAccount hescrow
  have hamount := checkAmountOverflow_ok (mapError_ok.mp hamount)
  obtain ⟨x, y, hx, hy, -, -, -, rfl⟩ := TokenProgram.transfer_some htransfer
  rw [hkey] at hy hclose
  rw [hamount]
  cases hwsol : isWsol coin.denom with
  | false =>
    rw [hwsol] at hclose
    obtain ⟨-, rfl⟩ := Op.run_pure_ok.mp hclose
    exact transfer_in hown hy hwsol htidy
  | true =>
    rw [hwsol] at hclose
    exact transfer_in_wsol hown hwsol htidy (closeWsol_ok ha hkey hclose)

/-- Lamports the mint authority pays. -/
theorem debit_effect (hwsol : isWsol d = true) (hle : n ≤ l.lamports ProgramAddresses.mintAuthority)
    (htidy : Tidy D l) : Effect l (l.setLamports ProgramAddresses.mintAuthority
      (l.lamports ProgramAddresses.mintAuthority - n)) d 0 n := by
  refine ⟨?_, ?_, ?_, ?_⟩
  · intro d' hd'
    rw [Ledger.lamports_setLamports, if_neg (getEscrowAccount_ne_mintAuthority _)]
    exact htidy d' hd'
  · simpa only [pool, hwsol, if_true] using hle
  · simp only [pool, hwsol, if_true]
    rw [Ledger.lamports_setLamports, if_pos rfl]
    omega
  · intro d' hshares
    simp only [pool, not_isWsol_of_not_sharesPool hwsol hshares, Bool.false_eq_true, if_false]
    rfl

theorem unescrowWsol_effect (ha : Loaded D a) (htidy : Tidy D l) (hwsol : isWsol d = true)
    (hreceiver : ∀ x ∈ a.receiver, ¬ OwnAddress D x.key)
    (h : (unescrowWsol ⟨priv, a.toTransferAccounts⟩ n).run l = (.ok u, l')) : Effect l l' d 0 n := by
  simp only [unescrowWsol, Op.run_bind_ok, required_ok, subLamports_ok, addLamports_ok] at h
  obtain ⟨receiver, _, ⟨hsome, rfl⟩, mintAuthority, _, ⟨hauthority, rfl⟩, -, _, ⟨hle, rfl⟩, -, rfl⟩ := h
  rw [ha.mintAuthority mintAuthority hauthority] at hle ⊢
  exact (debit_effect hwsol hle htidy).trans_steady (steady_setLamports (hreceiver receiver hsome))

theorem unescrowCoinsExecute_effect (ha : Loaded D a) (htidy : Tidy D l)
    (hkey : ∀ x ∈ a.escrowAccount, x.key = getEscrowAccount coin.denom)
    (hreceiver : isWsol coin.denom = true → ∀ x ∈ a.receiver, ¬ OwnAddress D x.key)
    (h : (escrowCoinsExecuteImpl ⟨priv, a.toTransferAccounts⟩ .unescrow coin).run l = (.ok u, l')) :
    Effect l l' coin.denom 0 coin.amount := by
  simp only [escrowCoinsExecuteImpl, Op.run_bind_ok, Op.run_lift_ok, required_ok] at h
  obtain ⟨amount, _, ⟨hamount, rfl⟩, -, _, ⟨-, rfl⟩, tokenAccount, _, ⟨htoken, rfl⟩, escrowAccount, _,
    ⟨hescrow, rfl⟩, authority, _, ⟨-, rfl⟩, h⟩ := h
  have hown := ha.tokenAccount tokenAccount htoken
  have hkey := hkey escrowAccount hescrow
  have hamount := checkAmountOverflow_ok (mapError_ok.mp hamount)
  rw [hamount]
  cases hwsol : isWsol coin.denom with
  | false =>
    simp only [hwsol, Bool.false_eq_true, if_false, invoke_ok] at h
    obtain ⟨-, htransfer⟩ := h
    obtain ⟨x, y, hx, -, -, -, hle, rfl⟩ := TokenProgram.transfer_some htransfer
    rw [hkey] at hx ⊢
    exact transfer_out hown hx hle hwsol htidy
  | true =>
    simp only [hwsol, if_true] at h
    exact unescrowWsol_effect ha htidy hwsol (hreceiver hwsol) h

end SolanaIbc
