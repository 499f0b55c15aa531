import EmulatedLightClient.TokenLedger

/-!
# Who holds what across token instructions

A program keeps some token accounts under its own authority and others hold the
only token of a mint. `Quiet` says what a stretch of instructions leaves alone:
the accounts of some mints are the same and some accounts do not lose tokens. It
composes, and each instruction is quiet about what it does not name.
-/

namespace TokenLedger

variable {K : Type} [DecidableEq K]

namespace Ledger

variable {l l' l'' : Ledger K} {m k a : K} {x : TokenAccount K}

/-- The accounts of a mint are the same. -/
def SameOf (m : K) (l l' : Ledger K) : Prop :=
  ∀ a (x : TokenAccount K), x.mint = m → (l'.tokens a = some x ↔ l.tokens a = some x)

omit [DecidableEq K] in
theorem SameOf.trans (h : SameOf m l l') (h' : SameOf m l' l'') : SameOf m l l'' :=
  fun a x hx => (h' a x hx).trans (h a x hx)

/-- A change at one address, where there is no account of the mint. -/
theorem SameOf.of_off (hoff : ∀ j, j ≠ k → l'.tokens j = l.tokens j)
    (hold : ∀ x, l.tokens k = some x → x.mint ≠ m) (hnew : ∀ x, l'.tokens k = some x → x.mint ≠ m) :
    SameOf m l l' := by
  intro a x hx
  by_cases ha : a = k
  · subst ha
    constructor
    · intro h
      exact absurd hx (hnew x h)
    · intro h
      exact absurd hx (hold x h)
  · rw [hoff a ha]

/-- The account holds the one token there is of the mint. -/
structure Sole (l : Ledger K) (m a : K) (x : TokenAccount K) : Prop where
  account : l.tokens a = some x
  mint : x.mint = m
  amount : x.amount = 1
  others : ∀ b y, l.tokens b = some y → y.mint = m → b ≠ a → y.amount = 0

omit [DecidableEq K] in
theorem Sole.same (h : Sole l m a x) (hsame : SameOf m l l') : Sole l' m a x where
  account := (hsame a x h.mint).mpr h.account
  mint := h.mint
  amount := h.amount
  others := fun b y hy hm hne => h.others b y ((hsame b y hm).mp hy) hm hne

theorem Sole.unique {b : K} {y : TokenAccount K} (h : Sole l m a x) (hy : l.tokens b = some y)
    (hm : y.mint = m) (hpos : 0 < y.amount) : b = a ∧ y = x := by
  by_cases hne : b = a
  · subst hne
    exact ⟨rfl, Option.some.inj (hy.symm.trans h.account)⟩
  · have := h.others b y hy hm hne
    omega

/-- An account at another address changes, and has no token of the mint. -/
theorem Sole.of_off (h : Sole l m a x) (hk : k ≠ a) (hoff : ∀ j, j ≠ k → l'.tokens j = l.tokens j)
    (hnew : ∀ y, l'.tokens k = some y → y.mint = m → y.amount = 0) : Sole l' m a x where
  account := (hoff a hk.symm).trans h.account
  mint := h.mint
  amount := h.amount
  others := by
    intro b y hy hm hne
    by_cases hb : b = k
    · subst hb
      exact hnew y hy hm
    · exact h.others b y ((hoff b hb).symm.trans hy) hm hne

/-- The token moves to another account. -/
theorem Sole.transfer {src dst : K} {y : TokenAccount K} (h : Sole l m src x)
    (hy : l.tokens dst = some y) (hm : y.mint = m) (hne : src ≠ dst) :
    Sole (l.transfer src dst 1) m dst { y with amount := 1 } where
  account := by
    rw [tokens_transfer_dst hy hne, h.others dst y hy hm hne.symm]
  mint := hm
  amount := rfl
  others := by
    intro b z hz hzm hb
    by_cases hsrc : b = src
    · subst hsrc
      rw [tokens_transfer_src h.account hne] at hz
      cases hz
      exact Nat.sub_eq_zero_of_le (Nat.le_of_eq h.amount)
    · rw [tokens_transfer_of_ne hsrc hb] at hz
      exact h.others b z hz hzm hsrc

/-- There are no tokens of the mint. -/
def Unminted (l : Ledger K) (m : K) : Prop := ∀ b y, l.tokens b = some y → y.mint = m → y.amount = 0

omit [DecidableEq K] in
theorem Unminted.same (h : Unminted l m) (hsame : SameOf m l l') : Unminted l' m :=
  fun b y hy hm => h b y ((hsame b y hm).mp hy) hm

theorem Unminted.of_off (h : Unminted l m) (hoff : ∀ j, j ≠ k → l'.tokens j = l.tokens j)
    (hnew : ∀ y, l'.tokens k = some y → y.mint = m → y.amount = 0) : Unminted l' m := by
  intro b y hy hm
  by_cases hb : b = k
  · subst hb
    exact hnew y hy hm
  · exact h b y ((hoff b hb).symm.trans hy) hm

/-- The first token of a mint is the only one. -/
theorem Unminted.mintTo (h : Unminted l m) (hx : l.tokens a = some x) (hm : x.mint = m) :
    Sole (l.mintTo m a 1) m a { x with amount := 1 } where
  account := by
    have hself : (l.mintTo m a 1).tokens a = some { x with amount := x.amount + 1 } :=
      tokens_setAmount_self (l := l.setSupply m (· + 1)) hx
    rw [hself, h a x hx hm]
  mint := hm
  amount := rfl
  others := by
    intro b y hy hym hb
    rw [show (l.mintTo m a 1).tokens b = l.tokens b from tokens_setAmount_of_ne hb] at hy
    exact h b y hy hym

end Ledger

variable [TokenProgram K] (authority : K) (reserved : K → Prop)

namespace Ledger

/-- Accounts are of mints that exist, and the authority owns the reserved ones. -/
structure Sound (l : Ledger K) : Prop where
  known : ∀ a x, l.tokens a = some x → (l.mints x.mint).isSome
  native : (l.mints TokenProgram.nativeMint).isSome
  owned : ∀ a x, reserved a → l.tokens a = some x → x.owner = authority

/-- Mints stay, with the decimals they have. -/
def KeepsMints (l l' : Ledger K) : Prop :=
  ∀ k m, l.mints k = some m → ∃ m', l'.mints k = some m' ∧ m'.decimals = m.decimals

omit [DecidableEq K] [TokenProgram K] in
theorem KeepsMints.isSome {l l' : Ledger K} {k : K} (h : KeepsMints l l') (hk : (l.mints k).isSome) :
    (l'.mints k).isSome := by
  obtain ⟨m, hm⟩ := Option.isSome_iff_exists.mp hk
  obtain ⟨m', hm', -⟩ := h k m hm
  exact Option.isSome_iff_exists.mpr ⟨m', hm'⟩

/-- Nothing happens to the accounts of the mints in `keep`, and the accounts in
`pool` lose no tokens. -/
structure Quiet (keep pool : K → Prop) (l l' : Ledger K) : Prop where
  sound : Sound authority reserved l → Sound authority reserved l'
  mints : KeepsMints l l'
  same : ∀ m, keep m → SameOf m l l'
  funded : ∀ a, pool a → l.balance a ≤ l'.balance a

variable {authority reserved} {keep pool : K → Prop} {l l' l'' : Ledger K} {k src dst mint payer owner : K}
  {x : TokenAccount K} {n : Nat}

theorem Quiet.trans (h : Quiet authority reserved keep pool l l')
    (h' : Quiet authority reserved keep pool l' l'') : Quiet authority reserved keep pool l l'' where
  sound := fun hl => h'.sound (h.sound hl)
  mints := by
    intro k m hm
    obtain ⟨m₁, hm₁, hd₁⟩ := h.mints k m hm
    obtain ⟨m₂, hm₂, hd₂⟩ := h'.mints k m₁ hm₁
    exact ⟨m₂, hm₂, hd₂.trans hd₁⟩
  same := fun m hm => (h.same m hm).trans (h'.same m hm)
  funded := fun a ha => Nat.le_trans (h.funded a ha) (h'.funded a ha)

/-- Token accounts change at one address only. -/
theorem Quiet.of_off (hmints : KeepsMints l l') (hoff : ∀ j, j ≠ k → l'.tokens j = l.tokens j)
    (hold : ∀ x, l.tokens k = some x → ¬ keep x.mint) (hnew : ∀ x, l'.tokens k = some x → ¬ keep x.mint)
    (hknown : ∀ x, l'.tokens k = some x → Sound authority reserved l →
      (l.mints x.mint).isSome ∧ (reserved k → x.owner = authority))
    (hpool : pool k → l.balance k ≤ l'.balance k) : Quiet authority reserved keep pool l l' where
  sound := by
    intro hl
    refine ⟨?_, hmints.isSome hl.native, ?_⟩
    · intro a x hx
      by_cases ha : a = k
      · subst ha
        exact hmints.isSome (hknown x hx hl).1
      · exact hmints.isSome (hl.known a x ((hoff a ha).symm.trans hx))
    · intro a x hr hx
      by_cases ha : a = k
      · subst ha
        exact (hknown x hx hl).2 hr
      · exact hl.owned a x hr ((hoff a ha).symm.trans hx)
  mints := hmints
  same := fun m hm => SameOf.of_off hoff (fun x hx hxm => hold x hx (hxm ▸ hm))
    (fun x hx hxm => hnew x hx (hxm ▸ hm))
  funded := by
    intro a ha
    by_cases hk : a = k
    · subst hk
      exact hpool ha
    · rw [balance, balance, hoff a hk]

theorem Quiet.of_tokens_eq (htokens : l'.tokens = l.tokens) (hmints : KeepsMints l l') :
    Quiet authority reserved keep pool l l' where
  sound := by
    intro hl
    refine ⟨?_, hmints.isSome hl.native, ?_⟩
    · intro a x hx
      exact hmints.isSome (hl.known a x (htokens ▸ hx))
    · intro a x hr hx
      exact hl.owned a x hr (htokens ▸ hx)
  mints := hmints
  same := by
    intro m _ a x _
    rw [htokens]
  funded := by
    intro a _
    rw [balance, balance, htokens]

omit [DecidableEq K] [TokenProgram K] in
theorem keepsMints_of_eq (h : l'.mints = l.mints) : KeepsMints l l' := by
  intro k m hm
  exact ⟨m, by rw [h, hm], rfl⟩

theorem Quiet.refl : Quiet authority reserved keep pool l l :=
  .of_tokens_eq rfl (keepsMints_of_eq rfl)

theorem Quiet.setAmount {f : Nat → Nat} (hx : l.tokens k = some x) (hkeep : ¬ keep x.mint)
    (hpool : pool k → x.amount ≤ f x.amount) : Quiet authority reserved keep pool l (l.setAmount k f) := by
  have hself := tokens_setAmount_self (f := f) hx
  refine .of_off (keepsMints_of_eq rfl) (fun j hj => tokens_setAmount_of_ne hj) ?_ ?_ ?_ ?_
  · intro y hy
    cases Option.some.inj (hy.symm.trans hx)
    exact hkeep
  · intro y hy
    cases Option.some.inj (hy.symm.trans hself)
    exact hkeep
  · intro y hy hl
    cases Option.some.inj (hy.symm.trans hself)
    exact ⟨hl.known k x hx, fun hr => hl.owned k x hr hx⟩
  · intro hp
    rw [balance_eq hx, balance_setAmount_self hx]
    exact hpool hp

/-- A new account of a mint other than the native one has no tokens. -/
theorem tokens_initializeAccount (h : TokenProgram.initializeAccount l payer k mint owner = some l')
    (hnative : mint ≠ TokenProgram.nativeMint) : l'.tokens k = some ⟨mint, owner, 0, false⟩ := by
  obtain ⟨-, -, -, rfl⟩ := TokenProgram.initializeAccount_some h
  refine (Function.update_self ..).trans ?_
  simp [hnative]

theorem tokens_initializeAccount_kept {a : K}
    (h : TokenProgram.initializeAccount l payer k mint owner = some l') (hx : l.tokens a = some x) :
    a ≠ k ∧ l'.tokens a = some x := by
  obtain ⟨hnone, -, -, rfl⟩ := TokenProgram.initializeAccount_some h
  have hne : a ≠ k := by
    rintro rfl
    exact Option.some_ne_none x (hx.symm.trans hnone)
  exact ⟨hne, (tokens_initializeAccount_of_ne hne).trans hx⟩

theorem tokens_initializeAccount_off (h : TokenProgram.initializeAccount l payer k mint owner = some l') :
    ∀ j, j ≠ k → l'.tokens j = l.tokens j := by
  obtain ⟨-, -, -, rfl⟩ := TokenProgram.initializeAccount_some h
  exact fun j hj => tokens_initializeAccount_of_ne hj

theorem Sole.initializeAccount {m a : K} (h : Sole l m a x)
    (hcall : TokenProgram.initializeAccount l payer k m owner = some l')
    (hnative : m ≠ TokenProgram.nativeMint) : Sole l' m a x := by
  have hne := (tokens_initializeAccount_kept hcall h.account).1
  refine h.of_off hne.symm (tokens_initializeAccount_off hcall) ?_
  intro y hy _
  cases Option.some.inj (hy.symm.trans (tokens_initializeAccount hcall hnative))
  rfl

theorem Unminted.initializeAccount {m : K} (h : Unminted l m)
    (hcall : TokenProgram.initializeAccount l payer k m owner = some l')
    (hnative : m ≠ TokenProgram.nativeMint) : Unminted l' m := by
  refine h.of_off (tokens_initializeAccount_off hcall) ?_
  intro y hy _
  cases Option.some.inj (hy.symm.trans (tokens_initializeAccount hcall hnative))
  rfl

theorem Sole.closeAccount {m a destination signer : K} (h : Sole l m a x)
    (hcall : TokenProgram.closeAccount l k destination signer = some l') (hne : k ≠ a) :
    Sole l' m a x := by
  obtain ⟨-, -, -, -, rfl⟩ := TokenProgram.closeAccount_some hcall
  refine h.of_off hne (fun j hj => tokens_closeAccount_of_ne hj) ?_
  intro y hy
  exact absurd (hy.symm.trans tokens_closeAccount_self) (Option.some_ne_none y)

/-- Tokens leave an account which need not keep them. -/
theorem Quiet.transfer {signer : K} (h : TokenProgram.transfer l src dst signer n = some l')
    (hx : l.tokens src = some x) (hkeep : ¬ keep x.mint) (hpool : ¬ pool src) :
    Quiet authority reserved keep pool l l' := by
  obtain ⟨x', y, hx', hy, hmint, -, -, rfl⟩ := TokenProgram.transfer_some h
  cases Option.some.inj (hx.symm.trans hx')
  have htaken : Quiet authority reserved keep pool l (l.setAmount src (· - n)) :=
    .setAmount hx hkeep fun hp => absurd hp hpool
  obtain ⟨z, hz, hzmint⟩ : ∃ z, (l.setAmount src (· - n)).tokens dst = some z ∧ z.mint = x.mint := by
    by_cases hdst : dst = src
    · subst hdst
      exact ⟨_, tokens_setAmount_self hx, rfl⟩
    · exact ⟨y, by rw [tokens_setAmount_of_ne hdst, hy], hmint.symm⟩
  have hgiven : Quiet authority reserved keep pool (l.setAmount src (· - n))
      ((l.setAmount src (· - n)).setAmount dst (· + n)) :=
    .setAmount hz (hzmint ▸ hkeep) fun _ => Nat.le_add_right ..
  exact (htaken.trans hgiven).trans (.of_tokens_eq tokens_transfer (keepsMints_of_eq mints_transfer))

theorem Quiet.initializeAccount (h : TokenProgram.initializeAccount l payer k mint owner = some l')
    (hkeep : ¬ keep mint) (howner : reserved k → owner = authority) :
    Quiet authority reserved keep pool l l' := by
  obtain ⟨hnone, hmint, -, rfl⟩ := TokenProgram.initializeAccount_some h
  refine .of_off (k := k) (keepsMints_of_eq rfl) (fun j hj => tokens_initializeAccount_of_ne hj) ?_ ?_ ?_ ?_
  · intro y hy
    exact absurd (hy.symm.trans hnone) (Option.some_ne_none y)
  · intro y hy
    cases Option.some.inj (hy.symm.trans (Function.update_self ..))
    exact hkeep
  · intro y hy _
    cases Option.some.inj (hy.symm.trans (Function.update_self ..))
    exact ⟨hmint, howner⟩
  · intro _
    rw [balance, hnone]
    exact Nat.zero_le _

theorem Quiet.initializeMint {decimals : Nat}
    (h : TokenProgram.initializeMint l payer k decimals owner = some l') :
    Quiet authority reserved keep pool l l' := by
  obtain ⟨hnone, -, rfl⟩ := TokenProgram.initializeMint_some h
  refine .of_tokens_eq rfl ?_
  intro j m hm
  have hj : j ≠ k := by
    rintro rfl
    exact Option.some_ne_none m (hm.symm.trans hnone)
  exact ⟨m, (Function.update_of_ne hj ..).trans hm, rfl⟩

theorem initializeMint_new {decimals : Nat}
    (h : TokenProgram.initializeMint l payer k decimals owner = some l') :
    l.mints k = none ∧ l'.tokens = l.tokens ∧ l'.mints k = some ⟨decimals, some owner, 0⟩ := by
  obtain ⟨hnone, -, rfl⟩ := TokenProgram.initializeMint_some h
  exact ⟨hnone, rfl, Function.update_self ..⟩

/-- Nobody can have tokens of a mint which did not exist. -/
theorem Sound.unminted {decimals : Nat} (hl : Sound authority reserved l)
    (h : TokenProgram.initializeMint l payer k decimals owner = some l') : Unminted l' k := by
  obtain ⟨hnone, htokens, -⟩ := initializeMint_new h
  intro b y hy hm
  rw [htokens] at hy
  have hknown := hl.known b y hy
  rw [hm, hnone] at hknown
  cases hknown

theorem Quiet.closeAccount {destination signer : K}
    (h : TokenProgram.closeAccount l k destination signer = some l') (hx : l.tokens k = some x)
    (hkeep : ¬ keep x.mint) (hpool : ¬ pool k) : Quiet authority reserved keep pool l l' := by
  obtain ⟨-, -, -, -, rfl⟩ := TokenProgram.closeAccount_some h
  refine .of_off (k := k) (keepsMints_of_eq rfl) (fun j hj => tokens_closeAccount_of_ne hj) ?_ ?_ ?_ ?_
  · intro y hy
    cases Option.some.inj (hy.symm.trans hx)
    exact hkeep
  · intro y hy
    exact absurd (hy.symm.trans tokens_closeAccount_self) (Option.some_ne_none y)
  · intro y hy
    exact absurd (hy.symm.trans tokens_closeAccount_self) (Option.some_ne_none y)
  · intro hp
    exact absurd hp hpool

omit [TokenProgram K] in
theorem keepsMints_setSupply {f : Nat → Nat} : KeepsMints l (l.setSupply mint f) := by
  intro j m hm
  by_cases hj : j = mint
  · subst hj
    exact ⟨{ m with supply := f m.supply }, by simp [Ledger.setSupply, hm], rfl⟩
  · exact ⟨m, (Function.update_of_ne hj ..).trans hm, rfl⟩

theorem Quiet.mintTo {signer : K} (h : TokenProgram.mintTo l mint dst signer n = some l')
    (hkeep : ¬ keep mint) : Quiet authority reserved keep pool l l' := by
  obtain ⟨m, x, hm, -, hx, hmint, rfl⟩ := TokenProgram.mintTo_some h
  have hsupply : Quiet authority reserved keep pool l (l.setSupply mint (· + n)) :=
    .of_tokens_eq rfl keepsMints_setSupply
  exact hsupply.trans (.setAmount hx (hmint ▸ hkeep) fun _ => Nat.le_add_right ..)

variable [MetadataProgram K]

theorem Quiet.createMetadata {name symbol uri : String} {signer : K}
    (h : MetadataProgram.createMetadata l payer mint signer name symbol uri = some l') :
    Quiet authority reserved keep pool l l' := by
  obtain ⟨htokens, hmints⟩ := MetadataProgram.createMetadata_some h
  exact .of_tokens_eq htokens (keepsMints_of_eq hmints)

theorem Quiet.createMasterEdition {signer : K}
    (h : MetadataProgram.createMasterEdition l payer mint signer = some l') :
    Quiet authority reserved keep pool l l' := by
  obtain ⟨m, hm, -, htokens, hmints⟩ := MetadataProgram.createMasterEdition_some h
  refine .of_tokens_eq htokens ?_
  intro j m' hm'
  rw [hmints]
  by_cases hj : j = mint
  · subst hj
    cases Option.some.inj (hm.symm.trans hm')
    exact ⟨_, Function.update_self .., rfl⟩
  · exact ⟨m', (Function.update_of_ne hj ..).trans hm', rfl⟩

theorem Quiet.burnNft (h : MetadataProgram.burnNft l owner mint k = some l') (hkeep : ¬ keep mint)
    (hpool : ¬ pool k) : Quiet authority reserved keep pool l l' := by
  obtain ⟨x, hx, hmint, -, htokens, hmints⟩ := MetadataProgram.burnNft_some h
  have hmints' : KeepsMints l l' := by
    intro j m hm
    rw [hmints]
    exact keepsMints_setSupply j m hm
  have hgone : l'.tokens k = none := by
    rw [htokens]
    exact Function.update_self ..
  refine .of_off (k := k) hmints' ?_ ?_ ?_ ?_ ?_
  · intro j hj
    rw [htokens]
    exact Function.update_of_ne hj ..
  · intro y hy
    cases Option.some.inj (hy.symm.trans hx)
    exact hmint ▸ hkeep
  · intro y hy
    exact absurd (hy.symm.trans hgone) (Option.some_ne_none y)
  · intro y hy
    exact absurd (hy.symm.trans hgone) (Option.some_ne_none y)
  · intro hp
    exact absurd hp hpool

end Ledger

end TokenLedger
