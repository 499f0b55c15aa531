import EmulatedLightClient.DecimalConversion
import EmulatedLightClient.TransferContext
import Mathlib.Algebra.Order.Ring.Nat

/-!
# Backing of wrapped tokens

Packets count coins with the decimals of the chain they come from, token
accounts with at most as many. Minting and burning both drop the decimals that
do not fit. What is dropped when minting backs the tokens; what is dropped when
burning leaves the chain without tokens being taken for it.
-/

namespace SolanaIbc

open TokenLedger FailingState

variable {K D H : Type} [DecidableEq K] [DecidableEq D] [DecidableEq H] [PrefixedDenom D]
  [ProgramAddresses K H] [TokenProgram K] [MetadataProgram K]

/-- What the instructions about wrapped tokens change. -/
structure Program (K H : Type) where
  priv : PrivateStorage K H
  ledger : Ledger K

inductive InitMintError where
  | constraint
  | invalidDecimals
  | assetAlreadyExists
  | metadata

structure InitMint (K H : Type) where
  sender : AccountInfo K
  effectiveDecimals : Fin (2 ^ 8)
  hashedFullDenom : H
  originalDecimals : Fin (2 ^ 8)
  tokenName : String
  tokenSymbol : String
  tokenUri : String

/-- The accounts an `InitMint` declares: the fee collector signs, the mint
authority is created if it is not there and the mint is created. -/
def InitMint.load (args : InitMint K H) (p : Program K H) : Option (Ledger K) := do
  guard (args.sender.isSigner ∧ args.sender.key = p.priv.feeCollector)
  let l ← initIfNeeded p.ledger args.sender.key ProgramAddresses.mintAuthority
  TokenProgram.initializeMint l args.sender.key (ProgramAddresses.tokenMint args.hashedFullDenom)
    args.effectiveDecimals ProgramAddresses.mintAuthority

def initMint (p : Program K H) (args : InitMint K H) : Except InitMintError (Program K H) :=
  match args.load p with
  | none => .error .constraint
  | some l =>
    if args.originalDecimals < args.effectiveDecimals then .error .invalidDecimals
    else if (p.priv.assets args.hashedFullDenom).isSome then .error .assetAlreadyExists
    else
      match MetadataProgram.createMetadata l args.sender.key
          (ProgramAddresses.tokenMint args.hashedFullDenom) ProgramAddresses.mintAuthority
          args.tokenName args.tokenSymbol args.tokenUri with
      | none => .error .metadata
      | some l => .ok
        { priv := { p.priv with
            assets := Function.update p.priv.assets args.hashedFullDenom
              (some ⟨args.originalDecimals, args.effectiveDecimals⟩) }
          ledger := l }

omit [DecidableEq D] [PrefixedDenom D] in
theorem initMint_ok {p p' : Program K H} {args : InitMint K H} (h : initMint p args = .ok p') :
    p.priv.assets args.hashedFullDenom = none ∧ args.effectiveDecimals ≤ args.originalDecimals ∧
      p'.priv.assets = Function.update p.priv.assets args.hashedFullDenom
        (some ⟨args.originalDecimals, args.effectiveDecimals⟩) := by
  unfold initMint at h
  split at h
  · cases h
  · split at h
    · cases h
    · rename_i hdecimals
      split at h
      · cases h
      · rename_i hnew
        split at h
        · cases h
        · cases h
          exact ⟨by simpa using hnew, Fin.not_lt.mp hdecimals, rfl⟩

inductive CoinOp where
  | mint
  | burn
deriving DecidableEq

inductive CoinCall (K D H : Type) where
  | initMint (args : InitMint K H)
  /-- The associated token account of a receiver is created when coins first come in. -/
  | openAccount (payer owner mint : K)
  | coins (op : CoinOp) (accounts : TransferAccounts K) (amt : PrefixedCoin D)

def executeCoins (op : CoinOp) (store : IbcStorage K H) (amt : PrefixedCoin D) : LedgerOp K Unit :=
  match op with
  | .mint => mintCoinsExecute store amt
  | .burn => burnCoinsExecute store amt

/-- Nothing when the call does not succeed. -/
def Program.step (p : Program K H) : CoinCall K D H → Option (Program K H)
  | .initMint args => (initMint p args).toOption
  | .openAccount payer owner mint =>
    (TokenProgram.initializeAccount p.ledger payer (ProgramAddresses.associatedToken owner mint) mint
      owner).map fun l => { p with ledger := l }
  | .coins op accounts amt =>
    match (executeCoins op ⟨p.priv, accounts⟩ amt).run p.ledger with
    | (.ok _, l) => some { p with ledger := l }
    | (.error _, _) => none

/-- Coins minted or burned, as the packet counts them and as tokens. -/
structure CoinEvent where
  op : CoinOp
  amount : Nat
  tokens : Nat
deriving DecidableEq

/-- What the supply of the mint went up by when minting, or down by when burning. -/
def supplyChange (op : CoinOp) (accounts : TransferAccounts K) (l l' : Ledger K) : Nat :=
  match accounts.tokenMint with
  | none => 0
  | some tokenMint =>
    match op with
    | .mint => l'.supply tokenMint.key - l.supply tokenMint.key
    | .burn => l.supply tokenMint.key - l'.supply tokenMint.key

/-- What a call did to coins of a denomination. -/
def coinEvents (denom : D) (p p' : Program K H) : CoinCall K D H → List CoinEvent
  | .initMint _ => []
  | .openAccount .. => []
  | .coins op accounts amt =>
    if amt.denom = denom then [⟨op, amt.amount, supplyChange op accounts p.ledger p'.ledger⟩] else []

/-- Makes calls which all succeed and collects what they did to a denomination. -/
def Program.run (denom : D) : Program K H → List (CoinCall K D H) → Option (Program K H × List CoinEvent)
  | p, [] => some (p, [])
  | p, call :: calls => do
    let p₁ ← p.step call
    let (p₂, events) ← Program.run denom p₁ calls
    return (p₂, coinEvents denom p p₁ call ++ events)

/-- Amount of a packet that one token stands for. -/
def Asset.unit (asset : Asset) : Nat :=
  10 ^ (asset.originalDecimals.val - asset.effectiveDecimalsOnSol.val)

theorem convertDecimals_of_le {amount n : Nat} {original effective : Fin (2 ^ 8)}
    (hle : effective ≤ original) (h : convertDecimals amount original effective = some (some n)) :
    n = amount / 10 ^ (original.val - effective.val) := by
  have hexact := (convertDecimals_eq_some h).2
  rw [exactAmount, if_pos (show effective.val ≤ original.val from hle)] at hexact
  exact (Option.some.inj hexact).symm

theorem convertAmount_ok {asset : Asset} {amount n : Nat}
    (hle : asset.effectiveDecimalsOnSol ≤ asset.originalDecimals)
    (h : convertAmount asset amount = .ok n) : n = amount / asset.unit := by
  unfold convertAmount at h
  split at h
  · cases h
  · cases h
  · rename_i converted hconverted
    cases checkAmountOverflow_ok (mapError_ok.mp h)
    exact convertDecimals_of_le hle hconverted

namespace Program

variable {p p' : Program K H} {call : CoinCall K D H} {calls : List (CoinCall K D H)} {op : CoinOp}
  {accounts : TransferAccounts K} {amt : PrefixedCoin D} {denom : D} {events : List CoinEvent}
  {hash : H} {asset : Asset}

/-- No asset has more decimals as a token than on the chain it comes from. -/
def Registered (p : Program K H) : Prop :=
  ∀ hash asset, p.priv.assets hash = some asset → asset.effectiveDecimalsOnSol ≤ asset.originalDecimals

omit [DecidableEq D] in
theorem step_initMint {args : InitMint K H}
    (h : p.step (.initMint args : CoinCall K D H) = some p') : initMint p args = .ok p' := by
  cases hinit : initMint p args with
  | error e => simp [step, hinit, Except.toOption] at h
  | ok q => simpa [step, hinit, Except.toOption] using h

omit [DecidableEq D] in
theorem step_coins (h : p.step (.coins op accounts amt) = some p') :
    p'.priv = p.priv ∧ ∃ asset, p.priv.assets (hashedFullDenom K amt.denom) = some asset ∧
      convertAmount asset amt.amount = .ok (supplyChange op accounts p.ledger p'.ledger) := by
  unfold step at h
  dsimp only at h
  split at h
  · rename_i l hrun
    cases h
    refine ⟨rfl, ?_⟩
    cases op with
    | mint =>
      obtain ⟨asset, n, tokenMint, receiver, m, hasset, hn, hmint, -, hm, rfl⟩ := mintCoinsExecute_ok hrun
      replace hmint : accounts.tokenMint = some tokenMint := hmint
      refine ⟨asset, hasset, ?_⟩
      simp only [supplyChange, hmint, Ledger.supply_mintTo_self hm]
      simpa [Ledger.supply, hm] using hn
    | burn =>
      obtain ⟨asset, n, tokenMint, burner, m, hasset, hn, hmint, -, hm, hle, rfl⟩ :=
        burnCoinsExecute_ok hrun
      replace hmint : accounts.tokenMint = some tokenMint := hmint
      refine ⟨asset, hasset, ?_⟩
      simp only [supplyChange, hmint, Ledger.supply_burn_self hm]
      simpa [Ledger.supply, hm, Nat.sub_sub_self hle] using hn
  · cases h

omit [DecidableEq D] in
theorem step_openAccount {payer owner mint : K}
    (h : p.step (.openAccount payer owner mint : CoinCall K D H) = some p') : p'.priv = p.priv := by
  obtain ⟨l, -, rfl⟩ := Option.map_eq_some_iff.mp h
  rfl

omit [DecidableEq D] in
theorem step_registered (h : p.step call = some p') (hp : p.Registered) : p'.Registered := by
  cases call with
  | initMint args =>
    obtain ⟨-, hle, hassets⟩ := initMint_ok (step_initMint h)
    intro hash asset hasset
    rw [hassets, Function.update_apply] at hasset
    split at hasset
    · cases hasset
      exact hle
    · exact hp hash asset hasset
  | openAccount payer owner mint =>
    intro hash asset hasset
    rw [step_openAccount h] at hasset
    exact hp hash asset hasset
  | coins op accounts amt =>
    obtain ⟨hpriv, -⟩ := step_coins h
    intro hash asset hasset
    rw [hpriv] at hasset
    exact hp hash asset hasset

omit [DecidableEq D] in
theorem step_assets (h : p.step call = some p') (hasset : p.priv.assets hash = some asset) :
    p'.priv.assets hash = some asset := by
  cases call with
  | initMint args =>
    obtain ⟨hnew, -, hassets⟩ := initMint_ok (step_initMint h)
    rw [hassets, Function.update_of_ne]
    · exact hasset
    · rintro rfl
      rw [hnew] at hasset
      cases hasset
  | openAccount payer owner mint =>
    rw [step_openAccount h]
    exact hasset
  | coins op accounts amt =>
    obtain ⟨hpriv, -⟩ := step_coins h
    rw [hpriv]
    exact hasset

theorem run_cons (h : p.run denom (call :: calls) = some (p', events)) :
    ∃ p₁ later, p.step call = some p₁ ∧ p₁.run denom calls = some (p', later) ∧
      events = coinEvents denom p p₁ call ++ later := by
  simp only [run, Option.bind_eq_bind, Option.bind_eq_some_iff] at h
  obtain ⟨p₁, hstep, ⟨p₂, later⟩, hrun, h⟩ := h
  cases Option.some.inj h
  exact ⟨p₁, later, hstep, hrun, rfl⟩

theorem run_assets (h : p.run denom calls = some (p', events))
    (hasset : p.priv.assets hash = some asset) : p'.priv.assets hash = some asset := by
  induction calls generalizing p events with
  | nil =>
    cases h
    exact hasset
  | cons call calls ih =>
    obtain ⟨p₁, later, hstep, hrun, -⟩ := run_cons h
    exact ih hrun (step_assets hstep hasset)

/-- All tokens of a denomination are whole units of what packets count, rounded down. -/
theorem run_rounds_down (h : p.run denom calls = some (p', events)) (hp : p.Registered)
    (hasset : p'.priv.assets (hashedFullDenom K denom) = some asset) :
    ∀ e ∈ events, e.tokens = e.amount / asset.unit := by
  induction calls generalizing p events with
  | nil =>
    cases h
    simp
  | cons call calls ih =>
    obtain ⟨p₁, later, hstep, hrun, rfl⟩ := run_cons h
    have hlater := ih hrun (step_registered hstep hp)
    intro e he
    rcases List.mem_append.mp he with he | he
    · cases call with
      | initMint args => simp [coinEvents] at he
      | openAccount payer owner mint => simp [coinEvents] at he
      | coins op accounts amt =>
        unfold coinEvents at he
        dsimp only at he
        split at he
        · rename_i hdenom
          cases List.mem_singleton.mp he
          obtain ⟨-, found, hfound, hconvert⟩ := step_coins hstep
          rw [hdenom] at hfound
          have hsame := (run_assets hrun (step_assets hstep hfound)).symm.trans hasset
          cases Option.some.inj hsame
          exact convertAmount_ok (hp _ _ hfound) hconvert
        · cases he
    · exact hlater e he

end Program

/-- Sum over the events of one kind. -/
def total (op : CoinOp) (f : CoinEvent → Nat) (events : List CoinEvent) : Nat :=
  ((events.filter (·.op = op)).map f).sum

/-- What packets brought less what they took is worth the tokens that are out,
with the two differences moved to where they are sums. -/
def Backed (unit : Nat) (events : List CoinEvent) : Prop :=
  unit * total .mint (·.tokens) events + total .burn (·.amount) events ≤
    total .mint (·.amount) events + unit * total .burn (·.tokens) events

/-- The tokens a burn takes are worth what it sends. -/
def Covered (unit : Nat) (e : CoinEvent) : Prop := e.op = .burn → e.amount ≤ unit * e.tokens

/-- A burn which drops no decimals. -/
def Whole (unit : Nat) (e : CoinEvent) : Prop := e.op = .burn → unit ∣ e.amount

section

variable {unit : Nat} {e : CoinEvent} {events : List CoinEvent}

theorem total_cons (op : CoinOp) (f : CoinEvent → Nat) (e : CoinEvent) (events : List CoinEvent) :
    total op f (e :: events) = (if e.op = op then f e else 0) + total op f events := by
  by_cases h : e.op = op
  · simp [total, h]
  · simp [total, h]

theorem covered_iff_whole (h : e.tokens = e.amount / unit) : Covered unit e ↔ Whole unit e := by
  unfold Covered Whole
  rw [h]
  constructor
  · intro hcovered hop
    exact ⟨e.amount / unit, Nat.le_antisymm (hcovered hop) (Nat.mul_div_le _ _)⟩
  · intro hwhole hop
    rw [Nat.mul_div_cancel' (hwhole hop)]

theorem backed_of_whole (htokens : ∀ e ∈ events, e.tokens = e.amount / unit)
    (hwhole : ∀ e ∈ events, Whole unit e) : Backed unit events := by
  induction events with
  | nil => simp [Backed, total]
  | cons e events ih =>
    have ih := ih (fun e he => htokens e (List.mem_cons_of_mem _ he))
      (fun e he => hwhole e (List.mem_cons_of_mem _ he))
    have hcovered := (covered_iff_whole (htokens e List.mem_cons_self)).mpr (hwhole e List.mem_cons_self)
    unfold Backed at *
    simp only [total_cons, Nat.mul_add]
    cases hop : e.op with
    | mint =>
      have hround : unit * e.tokens ≤ e.amount := by
        rw [htokens e List.mem_cons_self]
        exact Nat.mul_div_le _ _
      simp only [reduceIte, reduceCtorEq, Nat.mul_zero]
      omega
    | burn =>
      have hcovered := hcovered hop
      simp only [reduceIte, reduceCtorEq, Nat.mul_zero]
      omega

end

/-- Over every run of a program that starts with no assets, an asset is backed
at all times and every burn takes tokens worth what it sends, exactly if no burn
drops decimals. -/
theorem wrapped_tokens_backed_iff {p p' : Program K H} {denom : D} {calls : List (CoinCall K D H)}
    {events : List CoinEvent} {asset : Asset} (hnew : ∀ hash, p.priv.assets hash = none)
    (hrun : p.run denom calls = some (p', events))
    (hasset : p'.priv.assets (hashedFullDenom K denom) = some asset) :
    ((∀ n, Backed asset.unit (events.take n)) ∧ ∀ e ∈ events, Covered asset.unit e) ↔
      ∀ e ∈ events, Whole asset.unit e := by
  have hregistered : p.Registered := by
    intro hash asset hasset
    rw [hnew] at hasset
    cases hasset
  have htokens := Program.run_rounds_down hrun hregistered hasset
  constructor
  · rintro ⟨-, hcovered⟩ e he
    exact (covered_iff_whole (htokens e he)).mp (hcovered e he)
  · intro hwhole
    constructor
    · intro n
      exact backed_of_whole (fun e he => htokens e (List.mem_of_mem_take he))
        (fun e he => hwhole e (List.mem_of_mem_take he))
    · intro e he
      exact (covered_iff_whole (htokens e he)).mpr (hwhole e he)

theorem wrapped_tokens_backed_iff_sample :
    let denom := "transfer/channel-0/uatom"
    let collector : AccountInfo Address := ⟨.wallet 1, true, true⟩
    let holder : AccountInfo Address := ⟨.wallet 2, true, true⟩
    let tokens : AccountInfo Address := ⟨.associatedToken (.wallet 2) (.tokenMint denom), false, true⟩
    let mint : AccountInfo Address := ⟨.tokenMint denom, false, true⟩
    let authority : AccountInfo Address := ⟨.mintAuthority, false, true⟩
    let token : AccountInfo Address := ⟨.wallet 3, false, false⟩
    let accounts : TransferAccounts Address :=
      ⟨some holder, some holder, some tokens, some mint, none, some authority, some token, none, []⟩
    let p : Program Address String :=
      ⟨⟨fun _ => none, .wallet 1, 0⟩,
        ⟨fun k => if k = .wallet 1 then 10 ^ 9 else 0, fun _ => none, fun _ => none⟩⟩
    let calls : List (CoinCall Address String String) :=
      [.initMint ⟨collector, 6, denom, 9, "Atom", "ATOM", ""⟩,
        .openAccount (.wallet 1) (.wallet 2) (.tokenMint denom), .coins .mint accounts ⟨denom, 1000999⟩,
        .coins .burn accounts ⟨denom, 7000⟩]
    ∃ p' events, p.run denom calls = some (p', events) ∧ p'.priv.assets denom = some ⟨9, 6⟩ ∧
      ((∀ n, Backed 1000 (events.take n)) ∧ ∀ e ∈ events, Covered 1000 e) := by
  intro denom collector holder tokens mint authority token accounts p calls
  have hevents : (p.run denom calls).map (·.2) = some [⟨.mint, 1000999, 1000⟩, ⟨.burn, 7000, 7⟩] := by
    decide
  have hassets : (p.run denom calls).map (·.1.priv.assets denom) = some (some ⟨9, 6⟩) := by decide
  obtain ⟨⟨p', events⟩, hrun, heq⟩ := Option.map_eq_some_iff.mp hevents
  have hasset : p'.priv.assets denom = some ⟨9, 6⟩ := by
    rw [hrun] at hassets
    exact Option.some.inj hassets
  refine ⟨p', events, hrun, hasset, ?_⟩
  refine (wrapped_tokens_backed_iff (fun _ => rfl) hrun hasset).mpr fun e he hop => ?_
  have heq : events = [⟨.mint, 1000999, 1000⟩, ⟨.burn, 7000, 7⟩] := heq
  rw [heq] at he
  simp only [List.mem_cons, List.not_mem_nil, or_false] at he
  rcases he with rfl | rfl
  · cases hop
  · decide

/-- Burning less than one token takes no token. -/
theorem dust_burned_for_nothing :
    let denom := "transfer/channel-0/uatom"
    let collector : AccountInfo Address := ⟨.wallet 1, true, true⟩
    let holder : AccountInfo Address := ⟨.wallet 2, true, true⟩
    let tokens : AccountInfo Address := ⟨.associatedToken (.wallet 2) (.tokenMint denom), false, true⟩
    let mint : AccountInfo Address := ⟨.tokenMint denom, false, true⟩
    let authority : AccountInfo Address := ⟨.mintAuthority, false, true⟩
    let token : AccountInfo Address := ⟨.wallet 3, false, false⟩
    let accounts : TransferAccounts Address :=
      ⟨some holder, some holder, some tokens, some mint, none, some authority, some token, none, []⟩
    let p : Program Address String :=
      ⟨⟨fun _ => none, .wallet 1, 0⟩,
        ⟨fun k => if k = .wallet 1 then 10 ^ 9 else 0, fun _ => none, fun _ => none⟩⟩
    let calls : List (CoinCall Address String String) :=
      [.initMint ⟨collector, 6, denom, 9, "Atom", "ATOM", ""⟩,
        .openAccount (.wallet 1) (.wallet 2) (.tokenMint denom), .coins .mint accounts ⟨denom, 1000000⟩,
        .coins .burn accounts ⟨denom, 999⟩]
    ∃ p' events, p.run denom calls = some (p', events) ∧ p'.priv.assets denom = some ⟨9, 6⟩ ∧
      events = [⟨.mint, 1000000, 1000⟩, ⟨.burn, 999, 0⟩] ∧
      ¬ Backed 1000 events ∧ ∃ e ∈ events, ¬ Covered 1000 e := by
  intro denom collector holder tokens mint authority token accounts p calls
  have hevents : (p.run denom calls).map (·.2) = some [⟨.mint, 1000000, 1000⟩, ⟨.burn, 999, 0⟩] := by
    decide
  have hassets : (p.run denom calls).map (·.1.priv.assets denom) = some (some ⟨9, 6⟩) := by decide
  obtain ⟨⟨p', events⟩, hrun, heq⟩ := Option.map_eq_some_iff.mp hevents
  have hasset : p'.priv.assets denom = some ⟨9, 6⟩ := by
    rw [hrun] at hassets
    exact Option.some.inj hassets
  have heq : events = [⟨.mint, 1000000, 1000⟩, ⟨.burn, 999, 0⟩] := heq
  refine ⟨p', events, hrun, hasset, heq, ?_, ⟨.burn, 999, 0⟩, ?_, ?_⟩
  · rw [heq]
    unfold Backed
    decide
  · rw [heq]
    decide
  · unfold Covered
    decide

end SolanaIbc
