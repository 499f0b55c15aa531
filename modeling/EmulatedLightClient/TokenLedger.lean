import EmulatedLightClient.FailingState
import Mathlib.Algebra.Ring.Nat
import Mathlib.Data.Option.Basic
import Mathlib.Logic.Function.Basic
import Mathlib.Tactic.Common

/-!
# Token ledgers

A ledger holds lamports, mints and token accounts by address. The token program
is known by what its instructions leave behind when they succeed; when it
refuses an instruction is its own business, apart from the refusals its callers
count on.
-/

namespace TokenLedger

open FailingState

structure Mint (K : Type) where
  decimals : Nat
  mintAuthority : Option K
  supply : Nat
deriving DecidableEq

structure TokenAccount (K : Type) where
  mint : K
  owner : K
  amount : Nat
  /-- The tokens of the account stand for lamports it holds. -/
  isNative : Bool
deriving DecidableEq

structure Ledger (K : Type) where
  lamports : K → Nat
  mints : K → Option (Mint K)
  tokens : K → Option (TokenAccount K)

namespace Ledger

variable {K : Type} [DecidableEq K]

def balance (l : Ledger K) (k : K) : Nat := (l.tokens k).elim 0 (·.amount)

def supply (l : Ledger K) (m : K) : Nat := (l.mints m).elim 0 (·.supply)

def isNative (l : Ledger K) (k : K) : Bool := (l.tokens k).elim false (·.isNative)

/-- Changes the amount of one token account. -/
def setAmount (l : Ledger K) (k : K) (f : Nat → Nat) : Ledger K :=
  { l with tokens := Function.update l.tokens k ((l.tokens k).map fun a => { a with amount := f a.amount }) }

def setSupply (l : Ledger K) (m : K) (f : Nat → Nat) : Ledger K :=
  { l with mints := Function.update l.mints m ((l.mints m).map fun a => { a with supply := f a.supply }) }

def setLamports (l : Ledger K) (k : K) (n : Nat) : Ledger K :=
  { l with lamports := Function.update l.lamports k n }

def moveLamports (l : Ledger K) (src dst : K) (n : Nat) : Ledger K :=
  (l.setLamports src (l.lamports src - n)).setLamports dst
    ((l.setLamports src (l.lamports src - n)).lamports dst + n)

section

variable {l : Ledger K} {k j src dst : K} {f : Nat → Nat} {n : Nat}

@[simp] theorem lamports_setAmount : (l.setAmount k f).lamports = l.lamports := rfl

@[simp] theorem mints_setAmount : (l.setAmount k f).mints = l.mints := rfl

@[simp] theorem lamports_setSupply : (l.setSupply k f).lamports = l.lamports := rfl

@[simp] theorem tokens_setSupply : (l.setSupply k f).tokens = l.tokens := rfl

@[simp] theorem tokens_setLamports : (l.setLamports k n).tokens = l.tokens := rfl

@[simp] theorem mints_setLamports : (l.setLamports k n).mints = l.mints := rfl

@[simp] theorem tokens_moveLamports : (l.moveLamports src dst n).tokens = l.tokens := rfl

@[simp] theorem mints_moveLamports : (l.moveLamports src dst n).mints = l.mints := rfl

theorem lamports_setLamports : (l.setLamports k n).lamports j = if j = k then n else l.lamports j :=
  Function.update_apply ..

theorem tokens_setAmount_of_ne (h : j ≠ k) : (l.setAmount k f).tokens j = l.tokens j :=
  Function.update_of_ne h ..

theorem tokens_setAmount_self {x : TokenAccount K} (h : l.tokens k = some x) :
    (l.setAmount k f).tokens k = some { x with amount := f x.amount } := by
  simp [setAmount, h]

omit [DecidableEq K] in
theorem balance_eq {x : TokenAccount K} (h : l.tokens k = some x) : l.balance k = x.amount := by
  simp [balance, h]

theorem balance_setAmount_self {x : TokenAccount K} (h : l.tokens k = some x) :
    (l.setAmount k f).balance k = f x.amount := by
  simp [balance, tokens_setAmount_self h]

@[simp] theorem supply_setAmount {m : K} : (l.setAmount k f).supply m = l.supply m := rfl

theorem supply_setSupply_self {a : Mint K} (h : l.mints k = some a) :
    (l.setSupply k f).supply k = f a.supply := by
  simp [supply, setSupply, h]

theorem lamports_moveLamports_of_ne (hsrc : j ≠ src) (hdst : j ≠ dst) :
    (l.moveLamports src dst n).lamports j = l.lamports j := by
  simp [moveLamports, lamports_setLamports, hsrc, hdst]

theorem lamports_moveLamports_src (h : src ≠ dst) :
    (l.moveLamports src dst n).lamports src = l.lamports src - n := by
  simp [moveLamports, lamports_setLamports, h]

theorem lamports_moveLamports_dst (h : src ≠ dst) :
    (l.moveLamports src dst n).lamports dst = l.lamports dst + n := by
  simp [moveLamports, lamports_setLamports, h.symm]

end

/-- Tokens of a native account take their lamports with them. -/
def transfer (l : Ledger K) (src dst : K) (n : Nat) : Ledger K :=
  let moved := (l.setAmount src (· - n)).setAmount dst (· + n)
  if l.isNative src then moved.moveLamports src dst n else moved

def mintTo (l : Ledger K) (mint dst : K) (n : Nat) : Ledger K :=
  (l.setSupply mint (· + n)).setAmount dst (· + n)

def burn (l : Ledger K) (mint src : K) (n : Nat) : Ledger K :=
  (l.setSupply mint (· - n)).setAmount src (· - n)

/-- All lamports of a closed account go to the destination. -/
def closeAccount (l : Ledger K) (account destination : K) : Ledger K :=
  let paid := l.moveLamports account destination (l.lamports account)
  { paid with tokens := Function.update l.tokens account none }

/-- A new token account holds the lamports that make it exempt from rent; those
it had beyond them are its tokens when it is native. -/
def initializeAccount (l : Ledger K) (payer k mint owner : K) (native : Bool) (rent : Nat) : Ledger K :=
  let paid := l.moveLamports payer k (rent - l.lamports k)
  let account : TokenAccount K :=
    ⟨mint, owner, if native then paid.lamports k - rent else 0, native⟩
  { paid with tokens := Function.update l.tokens k (some account) }

def initializeMint (l : Ledger K) (payer k : K) (decimals : Nat) (authority : K) (rent : Nat) : Ledger K :=
  let paid := l.moveLamports payer k (rent - l.lamports k)
  { paid with mints := Function.update l.mints k (some ⟨decimals, some authority, 0⟩) }

section

variable {l : Ledger K} {k j src dst mint payer owner : K} {n rent decimals : Nat} {native : Bool}
  {x y : TokenAccount K} {m : Mint K}

@[simp] theorem mints_transfer : (l.transfer src dst n).mints = l.mints := by
  unfold transfer
  split <;> rfl

theorem tokens_transfer :
    (l.transfer src dst n).tokens = ((l.setAmount src (· - n)).setAmount dst (· + n)).tokens := by
  unfold transfer
  split <;> rfl

theorem tokens_transfer_of_ne (hsrc : k ≠ src) (hdst : k ≠ dst) :
    (l.transfer src dst n).tokens k = l.tokens k := by
  rw [tokens_transfer, tokens_setAmount_of_ne hdst, tokens_setAmount_of_ne hsrc]

theorem tokens_transfer_src (hx : l.tokens src = some x) (hne : src ≠ dst) :
    (l.transfer src dst n).tokens src = some { x with amount := x.amount - n } := by
  rw [tokens_transfer, tokens_setAmount_of_ne hne, tokens_setAmount_self hx]

theorem tokens_transfer_dst (hy : l.tokens dst = some y) (hne : src ≠ dst) :
    (l.transfer src dst n).tokens dst = some { y with amount := y.amount + n } := by
  rw [tokens_transfer, tokens_setAmount_self]
  rwa [tokens_setAmount_of_ne hne.symm]

theorem balance_transfer_of_ne (hsrc : k ≠ src) (hdst : k ≠ dst) :
    (l.transfer src dst n).balance k = l.balance k := by
  simp [balance, tokens_transfer_of_ne hsrc hdst]

theorem balance_transfer_src (hx : l.tokens src = some x) (hne : src ≠ dst) :
    (l.transfer src dst n).balance src = x.amount - n := by
  simp [balance, tokens_transfer_src hx hne]

theorem balance_transfer_dst (hy : l.tokens dst = some y) (hne : src ≠ dst) :
    (l.transfer src dst n).balance dst = y.amount + n := by
  simp [balance, tokens_transfer_dst hy hne]

theorem lamports_transfer_of_ne (hsrc : k ≠ src) (hdst : k ≠ dst) :
    (l.transfer src dst n).lamports k = l.lamports k := by
  unfold transfer
  split
  · exact lamports_moveLamports_of_ne hsrc hdst
  · rfl

theorem lamports_transfer_dst (hne : src ≠ dst) :
    (l.transfer src dst n).lamports dst = l.lamports dst + (if l.isNative src then n else 0) := by
  unfold transfer
  split
  · exact lamports_moveLamports_dst hne
  · rfl

@[simp] theorem lamports_mintTo : (l.mintTo mint dst n).lamports = l.lamports := rfl

@[simp] theorem lamports_burn : (l.burn mint src n).lamports = l.lamports := rfl

theorem supply_mintTo_self (h : l.mints mint = some m) :
    (l.mintTo mint dst n).supply mint = m.supply + n := by
  simp [mintTo, supply_setSupply_self h]

theorem supply_burn_self (h : l.mints mint = some m) :
    (l.burn mint src n).supply mint = m.supply - n := by
  simp [burn, supply_setSupply_self h]

theorem tokens_closeAccount_of_ne (h : j ≠ k) : (l.closeAccount k dst).tokens j = l.tokens j :=
  Function.update_of_ne h ..

theorem tokens_closeAccount_self : (l.closeAccount k dst).tokens k = none := Function.update_self ..

theorem lamports_closeAccount :
    (l.closeAccount k dst).lamports = (l.moveLamports k dst (l.lamports k)).lamports := rfl

theorem lamports_initializeAccount :
    (l.initializeAccount payer k mint owner native rent).lamports =
      (l.moveLamports payer k (rent - l.lamports k)).lamports := rfl

theorem tokens_initializeAccount_of_ne (h : j ≠ k) :
    (l.initializeAccount payer k mint owner native rent).tokens j = l.tokens j :=
  Function.update_of_ne h ..

theorem balance_initializeAccount_of_ne (h : j ≠ k) :
    (l.initializeAccount payer k mint owner native rent).balance j = l.balance j := by
  rw [balance, balance, tokens_initializeAccount_of_ne h]

end

end Ledger

/-- What the callers of a token program rely on. -/
class TokenProgram (K : Type) [DecidableEq K] where
  /-- Mint of the tokens that stand for lamports. -/
  nativeMint : K
  /-- Lamports which make an account exempt from rent when it holds nothing, a
  token account and a mint. -/
  emptyRent : Nat
  accountRent : Nat
  mintRent : Nat
  transfer : Ledger K → (src dst authority : K) → Nat → Option (Ledger K)
  mintTo : Ledger K → (mint dst authority : K) → Nat → Option (Ledger K)
  burn : Ledger K → (mint src authority : K) → Nat → Option (Ledger K)
  closeAccount : Ledger K → (account destination authority : K) → Option (Ledger K)
  initializeAccount : Ledger K → (payer k mint owner : K) → Option (Ledger K)
  initializeMint : Ledger K → (payer k : K) → (decimals : Nat) → (authority : K) → Option (Ledger K)
  transfer_some {l l' src dst authority n} : transfer l src dst authority n = some l' →
    ∃ x y, l.tokens src = some x ∧ l.tokens dst = some y ∧ x.mint = y.mint ∧
      x.isNative = y.isNative ∧ n ≤ x.amount ∧ l' = l.transfer src dst n
  mintTo_some {l l' mint dst authority n} : mintTo l mint dst authority n = some l' →
    ∃ m x, l.mints mint = some m ∧ m.mintAuthority = some authority ∧ l.tokens dst = some x ∧
      x.mint = mint ∧ l' = l.mintTo mint dst n
  burn_some {l l' mint src authority n} : burn l mint src authority n = some l' →
    ∃ m x, l.mints mint = some m ∧ l.tokens src = some x ∧ x.mint = mint ∧ n ≤ x.amount ∧
      n ≤ m.supply ∧ l' = l.burn mint src n
  closeAccount_some {l l' account destination authority} :
    closeAccount l account destination authority = some l' →
    ∃ x, l.tokens account = some x ∧ (x.amount = 0 ∨ x.isNative = true) ∧ account ≠ destination ∧
      l' = l.closeAccount account destination
  initializeAccount_some {l l' payer k mint owner} : initializeAccount l payer k mint owner = some l' →
    l.tokens k = none ∧ (l.mints mint).isSome ∧ payer ≠ k ∧
      l' = l.initializeAccount payer k mint owner (decide (mint = nativeMint)) accountRent
  initializeMint_some {l l' payer k decimals authority} :
    initializeMint l payer k decimals authority = some l' →
    l.mints k = none ∧ payer ≠ k ∧ l' = l.initializeMint payer k decimals authority mintRent

/-- What the callers of a metadata program rely on. The lamports its accounts
cost are left open. -/
class MetadataProgram (K : Type) [DecidableEq K] where
  /-- Address of the master edition of a mint. -/
  edition : K → K
  createMetadata : Ledger K → (payer mint mintAuthority : K) → (name symbol uri : String) →
    Option (Ledger K)
  createMasterEdition : Ledger K → (payer mint mintAuthority : K) → Option (Ledger K)
  burnNft : Ledger K → (owner mint token : K) → Option (Ledger K)
  createMetadata_some {l l' payer mint mintAuthority name symbol uri} :
    createMetadata l payer mint mintAuthority name symbol uri = some l' →
    l'.tokens = l.tokens ∧ l'.mints = l.mints
  createMasterEdition_some {l l' payer mint mintAuthority} :
    createMasterEdition l payer mint mintAuthority = some l' →
    ∃ m, l.mints mint = some m ∧ m.supply = 1 ∧ l'.tokens = l.tokens ∧
      l'.mints = Function.update l.mints mint (some { m with mintAuthority := some (edition mint) })
  burnNft_some {l l' owner mint token} : burnNft l owner mint token = some l' →
    ∃ x, l.tokens token = some x ∧ x.mint = mint ∧ x.amount = 1 ∧
      l'.tokens = Function.update l.tokens token none ∧ l'.mints = (l.setSupply mint (· - 1)).mints

namespace Ledger

variable {K : Type} [DecidableEq K] {l l' : Ledger K} {src dst mint k payer owner authority : K} {n : Nat}

def tryTransfer (l : Ledger K) (src dst authority : K) (n : Nat) : Option (Ledger K) := do
  let x ← l.tokens src
  let y ← l.tokens dst
  guard (x.mint = y.mint ∧ x.isNative = y.isNative ∧ x.owner = authority)
  guard (n ≤ x.amount ∧ y.amount + n < 2 ^ 64)
  return l.transfer src dst n

def tryMintTo (l : Ledger K) (mint dst authority : K) (n : Nat) : Option (Ledger K) := do
  let m ← l.mints mint
  let x ← l.tokens dst
  guard (m.mintAuthority = some authority ∧ x.mint = mint ∧ m.supply + n < 2 ^ 64)
  return l.mintTo mint dst n

def tryBurn (l : Ledger K) (mint src authority : K) (n : Nat) : Option (Ledger K) := do
  let m ← l.mints mint
  let x ← l.tokens src
  guard (x.mint = mint ∧ x.owner = authority ∧ n ≤ x.amount ∧ n ≤ m.supply)
  return l.burn mint src n

def tryCloseAccount (l : Ledger K) (k dst authority : K) : Option (Ledger K) := do
  let x ← l.tokens k
  guard (x.owner = authority ∧ (x.amount = 0 ∨ x.isNative = true) ∧ k ≠ dst)
  return l.closeAccount k dst

def tryInitializeAccount (native : K) (rent : Nat) (l : Ledger K) (payer k mint owner : K) :
    Option (Ledger K) := do
  guard (l.tokens k = none ∧ (l.mints mint).isSome ∧ payer ≠ k ∧ rent - l.lamports k ≤ l.lamports payer)
  return l.initializeAccount payer k mint owner (decide (mint = native)) rent

def tryInitializeMint (rent : Nat) (l : Ledger K) (payer k : K) (decimals : Nat) (authority : K) :
    Option (Ledger K) := do
  guard (l.mints k = none ∧ payer ≠ k ∧ rent - l.lamports k ≤ l.lamports payer)
  return l.initializeMint payer k decimals authority rent

theorem tryTransfer_some (h : l.tryTransfer src dst authority n = some l') :
    ∃ x y, l.tokens src = some x ∧ l.tokens dst = some y ∧ x.mint = y.mint ∧
      x.isNative = y.isNative ∧ n ≤ x.amount ∧ l' = l.transfer src dst n := by
  simp only [tryTransfer, Option.bind_eq_bind, Option.bind_eq_some_iff, guard_eq_some] at h
  obtain ⟨x, hx, y, hy, -, ⟨hmint, hnative, -⟩, -, ⟨hn, -⟩, h⟩ := h
  exact ⟨x, y, hx, hy, hmint, hnative, hn, (Option.some.inj h).symm⟩

theorem tryMintTo_some (h : l.tryMintTo mint dst authority n = some l') :
    ∃ m x, l.mints mint = some m ∧ m.mintAuthority = some authority ∧ l.tokens dst = some x ∧
      x.mint = mint ∧ l' = l.mintTo mint dst n := by
  simp only [tryMintTo, Option.bind_eq_bind, Option.bind_eq_some_iff, guard_eq_some] at h
  obtain ⟨m, hm, x, hx, -, ⟨hauth, hmint, -⟩, h⟩ := h
  exact ⟨m, x, hm, hauth, hx, hmint, (Option.some.inj h).symm⟩

theorem tryBurn_some (h : l.tryBurn mint src authority n = some l') :
    ∃ m x, l.mints mint = some m ∧ l.tokens src = some x ∧ x.mint = mint ∧ n ≤ x.amount ∧
      n ≤ m.supply ∧ l' = l.burn mint src n := by
  simp only [tryBurn, Option.bind_eq_bind, Option.bind_eq_some_iff, guard_eq_some] at h
  obtain ⟨m, hm, x, hx, -, ⟨hmint, -, hamount, hsupply⟩, h⟩ := h
  exact ⟨m, x, hm, hx, hmint, hamount, hsupply, (Option.some.inj h).symm⟩

theorem tryCloseAccount_some (h : l.tryCloseAccount k dst authority = some l') :
    ∃ x, l.tokens k = some x ∧ (x.amount = 0 ∨ x.isNative = true) ∧ k ≠ dst ∧
      l' = l.closeAccount k dst := by
  simp only [tryCloseAccount, Option.bind_eq_bind, Option.bind_eq_some_iff, guard_eq_some] at h
  obtain ⟨x, hx, -, ⟨-, hempty, hne⟩, h⟩ := h
  exact ⟨x, hx, hempty, hne, (Option.some.inj h).symm⟩

theorem tryInitializeAccount_some {native : K} {rent : Nat}
    (h : tryInitializeAccount native rent l payer k mint owner = some l') :
    l.tokens k = none ∧ (l.mints mint).isSome ∧ payer ≠ k ∧
      l' = l.initializeAccount payer k mint owner (decide (mint = native)) rent := by
  simp only [tryInitializeAccount, Option.bind_eq_bind, Option.bind_eq_some_iff, guard_eq_some] at h
  obtain ⟨-, ⟨hnew, hmint, hne, -⟩, h⟩ := h
  exact ⟨hnew, hmint, hne, (Option.some.inj h).symm⟩

theorem tryInitializeMint_some {rent decimals : Nat}
    (h : tryInitializeMint rent l payer k decimals authority = some l') :
    l.mints k = none ∧ payer ≠ k ∧ l' = l.initializeMint payer k decimals authority rent := by
  simp only [tryInitializeMint, Option.bind_eq_bind, Option.bind_eq_some_iff, guard_eq_some] at h
  obtain ⟨-, ⟨hnew, hne, -⟩, h⟩ := h
  exact ⟨hnew, hne, (Option.some.inj h).symm⟩

end Ledger

@[reducible] def ledgerProgram {K : Type} [DecidableEq K] (nativeMint : K)
    (emptyRent accountRent mintRent : Nat) : TokenProgram K where
  nativeMint := nativeMint
  emptyRent := emptyRent
  accountRent := accountRent
  mintRent := mintRent
  transfer := Ledger.tryTransfer
  mintTo := Ledger.tryMintTo
  burn := Ledger.tryBurn
  closeAccount := Ledger.tryCloseAccount
  initializeAccount := Ledger.tryInitializeAccount nativeMint accountRent
  initializeMint := Ledger.tryInitializeMint mintRent
  transfer_some := Ledger.tryTransfer_some
  mintTo_some := Ledger.tryMintTo_some
  burn_some := Ledger.tryBurn_some
  closeAccount_some := Ledger.tryCloseAccount_some
  initializeAccount_some := Ledger.tryInitializeAccount_some
  initializeMint_some := Ledger.tryInitializeMint_some

namespace Ledger

variable {K : Type} [DecidableEq K] {l l' : Ledger K} {payer mint token owner authority edition : K}

def tryCreateMetadata (l : Ledger K) (_payer mint authority : K) (_name _symbol _uri : String) :
    Option (Ledger K) := do
  let m ← l.mints mint
  guard (m.mintAuthority = some authority)
  return l

def tryCreateMasterEdition (edition : K → K) (l : Ledger K) (_payer mint authority : K) :
    Option (Ledger K) := do
  let m ← l.mints mint
  guard (m.mintAuthority = some authority ∧ m.supply = 1 ∧ m.decimals = 0)
  return { l with mints := Function.update l.mints mint (some { m with mintAuthority := some (edition mint) }) }

def tryBurnNft (l : Ledger K) (owner mint token : K) : Option (Ledger K) := do
  let x ← l.tokens token
  guard (x.owner = owner ∧ x.mint = mint ∧ x.amount = 1)
  return { l with
    tokens := Function.update l.tokens token none
    mints := (l.setSupply mint (· - 1)).mints }

theorem tryCreateMetadata_some {name symbol uri : String}
    (h : l.tryCreateMetadata payer mint authority name symbol uri = some l') :
    l'.tokens = l.tokens ∧ l'.mints = l.mints := by
  simp only [tryCreateMetadata, Option.bind_eq_bind, Option.bind_eq_some_iff, guard_eq_some] at h
  obtain ⟨m, -, -, -, h⟩ := h
  cases Option.some.inj h
  exact ⟨rfl, rfl⟩

theorem tryCreateMasterEdition_some {edition : K → K}
    (h : tryCreateMasterEdition edition l payer mint authority = some l') :
    ∃ m, l.mints mint = some m ∧ m.supply = 1 ∧ l'.tokens = l.tokens ∧
      l'.mints = Function.update l.mints mint (some { m with mintAuthority := some (edition mint) }) := by
  simp only [tryCreateMasterEdition, Option.bind_eq_bind, Option.bind_eq_some_iff, guard_eq_some] at h
  obtain ⟨m, hm, -, ⟨-, hsupply, -⟩, h⟩ := h
  cases Option.some.inj h
  exact ⟨m, hm, hsupply, rfl, rfl⟩

theorem tryBurnNft_some (h : l.tryBurnNft owner mint token = some l') :
    ∃ x, l.tokens token = some x ∧ x.mint = mint ∧ x.amount = 1 ∧
      l'.tokens = Function.update l.tokens token none ∧ l'.mints = (l.setSupply mint (· - 1)).mints := by
  simp only [tryBurnNft, Option.bind_eq_bind, Option.bind_eq_some_iff, guard_eq_some] at h
  obtain ⟨x, hx, -, ⟨-, hmint, hamount⟩, h⟩ := h
  cases Option.some.inj h
  exact ⟨x, hx, hmint, hamount, rfl, rfl⟩

end Ledger

@[reducible] def ledgerMetadata {K : Type} [DecidableEq K] (edition : K → K) : MetadataProgram K where
  edition := edition
  createMetadata := Ledger.tryCreateMetadata
  createMasterEdition := Ledger.tryCreateMasterEdition edition
  burnNft := Ledger.tryBurnNft
  createMetadata_some := Ledger.tryCreateMetadata_some
  createMasterEdition_some := Ledger.tryCreateMasterEdition_some
  burnNft_some := Ledger.tryBurnNft_some

end TokenLedger
