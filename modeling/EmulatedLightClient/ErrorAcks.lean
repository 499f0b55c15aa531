import EmulatedLightClient.TransferModule

/-!
# Error acknowledgements

The sender of a packet gets its coins back when the packet is acknowledged with
an error. By the time the program replaces the acknowledgement of the transfer
application by an error, the application has paid the coins out.
-/

namespace SolanaIbc

open TokenLedger FailingState

variable {B D K H : Type} [PrefixedDenom D] [DecidableEq K] [ProgramAddresses K H] [TokenProgram K]
  [Runtime K] [Serde B D]

variable (D) in
def isSuccessAck (ack : B) : Bool := (Serde.parseAck D ack).any AcknowledgementStatus.isSuccessful

/-- The packet is handled without a panic only if it leaves the ledger alone or
is acknowledged as a success. -/
def EffectFree (app : TransferApp K D B) (store : IbcStorage K H) (packet : Packet B) (l : Ledger K) : Prop :=
  ∀ ack l', onRecvPacketExecute app store packet l = some (ack, l') → isSuccessAck D ack = false → l' = l

variable (B) in
/-- The bridge takes the call, if the packet is for it. -/
def BridgeTakes (accounts : List (AccountInfo K)) (data : PacketData D) (l : Ledger K) : Prop :=
  checkDenomIsHookAddress (PrefixedDenom.baseDenom data.token.denom) = true →
    ∃ intentId memo l', parseBridgeMemo B D data.memo = some (intentId, memo) ∧
      Runtime.invoke l (bridgeInstruction accounts intentId memo) = .ok l'

variable (B) in
def HookPasses (accounts : List (AccountInfo K)) (data : PacketData D) (l : Ledger K) : Prop :=
  (∀ account ∈ accounts, l.lamports account.key ≠ 0) ∧ BridgeTakes B accounts data l

section

variable {accounts : List (AccountInfo K)} {data : PacketData D} {l : Ledger K}

omit [DecidableEq K] [TokenProgram K] in
theorem callBridgeEscrow_of_takes (h : BridgeTakes B accounts data l) :
    ∃ l', callBridgeEscrow D accounts (Serde.renderPacketData data : B) l = .ok l' := by
  unfold callBridgeEscrow
  rw [Serde.parsePacketData_render]
  cases hhook : checkDenomIsHookAddress (PrefixedDenom.baseDenom data.token.denom) with
  | false => exact ⟨l, by simp [hhook]⟩
  | true =>
    obtain ⟨intentId, memo, l', hmemo, hinvoke⟩ := h hhook
    exact ⟨l', by simp [hhook, hmemo, hinvoke]⟩

omit [DecidableEq K] [TokenProgram K] in
theorem callBridgeEscrow_of_not_takes (h : ¬ BridgeTakes B accounts data l) :
    ∃ description, callBridgeEscrow D accounts (Serde.renderPacketData data : B) l =
      .error (.error description) := by
  unfold callBridgeEscrow
  rw [Serde.parsePacketData_render]
  cases hhook : checkDenomIsHookAddress (PrefixedDenom.baseDenom data.token.denom) with
  | false => exact absurd (fun hyes => absurd (hhook.symm.trans hyes) Bool.false_ne_true) h
  | true =>
    cases hmemo : parseBridgeMemo B D data.memo with
    | none => exact ⟨Serde.describe B D (.other "Invalid memo"), by simp [hhook, hmemo, errorStatus]⟩
    | some parts =>
      cases hinvoke : Runtime.invoke l (bridgeInstruction accounts parts.1 parts.2) with
      | error err => exact ⟨Serde.describe B D (.other err), by simp [hhook, hmemo, hinvoke, errorStatus]⟩
      | ok l' => exact absurd (fun _ => ⟨parts.1, parts.2, l', hmemo, hinvoke⟩) h

omit [DecidableEq K] [TokenProgram K] in
theorem hookAck_of_passes (ack : B) (h : HookPasses B accounts data l) :
    (hookAck D accounts (Serde.renderPacketData data) ack l).1 = ack := by
  obtain ⟨haccounts, hbridge⟩ := h
  have hnone : accounts.find? (fun account => l.lamports account.key = 0) = none := by
    simpa using haccounts
  obtain ⟨l', hl'⟩ := callBridgeEscrow_of_takes hbridge
  simp only [hookAck, hnone, hl']

omit [DecidableEq K] [TokenProgram K] in
/-- Whatever stops the hook, the coins stay where the application put them. -/
theorem hookAck_of_not_passes (ack : B) (h : ¬ HookPasses B accounts data l) :
    ∃ description, hookAck D accounts (Serde.renderPacketData data) ack l =
      ((Serde.renderAck D (.error description) : B), l) := by
  unfold hookAck
  cases hfind : accounts.find? fun account => l.lamports account.key = 0 with
  | some account => exact ⟨_, rfl⟩
  | none =>
    have haccounts : ∀ account ∈ accounts, l.lamports account.key ≠ 0 := by simpa using hfind
    obtain ⟨description, herror⟩ := callBridgeEscrow_of_not_takes fun hbridge => h ⟨haccounts, hbridge⟩
    exact ⟨description, by simp only [herror]⟩

end

/-- What the application left behind for a packet. -/
def Applied (app : TransferApp K D B) (store : IbcStorage K H) (packet : Packet B) (l : Ledger K)
    (data : PacketData D) (l' : Ledger K) : Prop :=
  packetData packet = some data ∧ ∃ ack,
    (app.onRecvPacketExecute { packet with data := Serde.renderPacketData data }).run store l = some (ack, l')

variable {app : TransferApp K D B} {store : IbcStorage K H} {packet : Packet B} {l : Ledger K}

theorem onRecvPacketExecute_some {ack : B} {l' : Ledger K} (happ : app.Lawful H)
    (h : onRecvPacketExecute app store packet l = some (ack, l')) :
    ∃ (data : PacketData D) (ack₁ : B) (l₁ : Ledger K) (status : AcknowledgementStatus),
      packetData packet = some data ∧
      (app.onRecvPacketExecute { packet with data := Serde.renderPacketData data }).run store l =
        some (ack₁, l₁) ∧ Serde.parseAck D ack₁ = some status ∧ (status.isSuccessful = false → l₁ = l) ∧
      (ack, l') = if status.isSuccessful then
        hookAck D store.accounts.remainingAccounts (Serde.renderPacketData data) ack₁ l₁ else (ack₁, l₁) := by
  simp only [onRecvPacketExecute, Option.bind_eq_bind, Option.bind_eq_some_iff, guard_eq_some] at h
  obtain ⟨data, hdata, ⟨ack₁, l₁⟩, hrun, -, -, h⟩ := h
  obtain ⟨-, status, hstatus, hfree⟩ := happ.status _ _ _ _ _ hrun
  refine ⟨data, ack₁, l₁, status, hdata, hrun, hstatus, hfree, ?_⟩
  simp only [hstatus] at h
  obtain ⟨-, -, h⟩ := h
  exact (Option.some.inj h).symm

/-- Errors pay nothing out exactly if whatever the application pays out, the
accounts are there and the bridge takes its call. -/
theorem error_acks_effect_free_iff (happ : app.Lawful H) :
    EffectFree app store packet l ↔ ∀ data l', Applied app store packet l data l' →
      l' = l ∨ HookPasses B store.accounts.remainingAccounts data l' := by
  constructor
  · rintro h data l' ⟨hdata, ack, hrun⟩
    obtain ⟨hutf8, status, hstatus, hfree⟩ := happ.status _ _ _ _ _ hrun
    by_cases hpasses : HookPasses B store.accounts.remainingAccounts data l'
    · exact Or.inr hpasses
    left
    cases hsuccess : status.isSuccessful with
    | false => exact hfree hsuccess
    | true =>
      obtain ⟨description, hhook⟩ := hookAck_of_not_passes ack hpasses
      refine h (Serde.renderAck D (.error description)) l' ?_ ?_
      · simp [onRecvPacketExecute, hdata, hrun, hutf8, hstatus, hsuccess, hhook, Serde.isUtf8_renderAck, guard]
      · simp [isSuccessAck, Serde.parseAck_render, AcknowledgementStatus.isSuccessful]
  · intro h ack l' hrecv herror
    obtain ⟨data, ack₁, l₁, status, hdata, hrun, hstatus, hfree, heq⟩ := onRecvPacketExecute_some happ hrecv
    cases hsuccess : status.isSuccessful with
    | false =>
      rw [hsuccess] at heq
      cases heq
      exact hfree hsuccess
    | true =>
      rw [hsuccess, if_pos rfl] at heq
      by_cases hpasses : HookPasses B store.accounts.remainingAccounts data l₁
      · have hack : ack = ack₁ := (congrArg Prod.fst heq).trans (hookAck_of_passes ack₁ hpasses)
        rw [hack, isSuccessAck, hstatus] at herror
        exact absurd (hsuccess.symm.trans herror) Bool.false_ne_true.symm
      · obtain ⟨description, hhook⟩ := hookAck_of_not_passes ack₁ hpasses
        rw [hhook] at heq
        cases heq
        exact (h data l' ⟨hdata, ack₁, hrun⟩).resolve_right hpasses

theorem error_acks_effect_free_sample :
    let denom := "transfer/channel-0/uatom"
    let account : Address → AccountInfo Address := fun k => ⟨k, false, true⟩
    let tokens : Address := .associatedToken (.wallet 2) (.tokenMint denom)
    let store : List (AccountInfo Address) → IbcStorage Address String := fun remaining =>
      ⟨⟨fun hash => if hash = denom then some ⟨9, 6⟩ else none, .wallet 1, 0⟩,
        ⟨some ⟨.wallet 0, true, true⟩, some (account (.wallet 2)), some (account tokens),
          some (account (.tokenMint denom)), none, some (account .mintAuthority), some (account (.wallet 3)),
          none, remaining⟩⟩
    let l : Ledger Address := ⟨fun k => if k = .wallet 0 ∨ k = .wallet 2 then 10 ^ 9 else 0,
      fun k => if k = .tokenMint denom then some ⟨6, some .mintAuthority, 0⟩ else none,
      fun k => if k = tokens then some ⟨.tokenMint denom, .wallet 2, 0, false⟩ else none⟩
    let packet : Packet Wire := ⟨"transfer", "channel-9", "transfer", "channel-0",
      .ftPacket ⟨"uatom", "5000", "cosmos1sender", "2", ""⟩⟩
    EffectFree textApp (store [account (.wallet 2)]) packet l := by
  intro denom account tokens store l packet
  refine (error_acks_effect_free_iff (transferApp_lawful _ _ _)).mpr ?_
  rintro data l' ⟨hdata, ack, hrun⟩
  have hhook : (packetData packet : Option (PacketData String)).map
      (fun data => checkDenomIsHookAddress (PrefixedDenom.baseDenom data.token.denom)) = some false := by
    decide
  have hlamports : (packetData packet : Option (PacketData String)).bind (fun data =>
      ((textApp.onRecvPacketExecute { packet with data := Serde.renderPacketData data }).run
        (store [account (.wallet 2)]) l).map (·.2.lamports (.wallet 2))) = some (10 ^ 9) := by
    decide
  simp only [hdata, Option.map_some, Option.some.injEq] at hhook
  simp only [hdata, Option.bind_some] at hlamports
  rw [show (textApp.onRecvPacketExecute _).run _ _ = _ from hrun] at hlamports
  refine Or.inr ⟨?_, fun hyes => absurd (hhook.symm.trans hyes) Bool.false_ne_true⟩
  intro x hx
  cases List.mem_singleton.mp hx
  have hvalue : l'.lamports (.wallet 2) = 10 ^ 9 := Option.some.inj hlamports
  change l'.lamports (.wallet 2) ≠ 0
  rw [hvalue]
  decide

/-- A packet is acknowledged with an error after its coins were minted. -/
theorem error_ack_after_minting :
    let denom := "transfer/channel-0/uatom"
    let account : Address → AccountInfo Address := fun k => ⟨k, false, true⟩
    let tokens : Address := .associatedToken (.wallet 2) (.tokenMint denom)
    let store : List (AccountInfo Address) → IbcStorage Address String := fun remaining =>
      ⟨⟨fun hash => if hash = denom then some ⟨9, 6⟩ else none, .wallet 1, 0⟩,
        ⟨some ⟨.wallet 0, true, true⟩, some (account (.wallet 2)), some (account tokens),
          some (account (.tokenMint denom)), none, some (account .mintAuthority), some (account (.wallet 3)),
          none, remaining⟩⟩
    let l : Ledger Address := ⟨fun k => if k = .wallet 0 ∨ k = .wallet 2 then 10 ^ 9 else 0,
      fun k => if k = .tokenMint denom then some ⟨6, some .mintAuthority, 0⟩ else none,
      fun k => if k = tokens then some ⟨.tokenMint denom, .wallet 2, 0, false⟩ else none⟩
    let packet : Packet Wire := ⟨"transfer", "channel-9", "transfer", "channel-0",
      .ftPacket ⟨"uatom", "5000", "cosmos1sender", "2", ""⟩⟩
    ∃ ack l', onRecvPacketExecute textApp (store [account (.wallet 9)]) packet l = some (ack, l') ∧
      isSuccessAck String ack = false ∧ l.balance tokens = 0 ∧ l'.balance tokens = 5 ∧
      ¬ EffectFree textApp (store [account (.wallet 9)]) packet l := by
  intro denom account tokens store l packet
  have hrecv : (onRecvPacketExecute textApp (store [account (.wallet 9)]) packet l).map
      (fun r => (isSuccessAck String r.1, r.2.balance tokens)) = some (false, 5) := by
    decide
  have hbefore : l.balance tokens = 0 := by decide
  obtain ⟨⟨ack, l'⟩, hrun, heq⟩ := Option.map_eq_some_iff.mp hrecv
  have hack : isSuccessAck String ack = false := congrArg Prod.fst heq
  have hafter : l'.balance tokens = 5 := congrArg Prod.snd heq
  refine ⟨ack, l', hrun, hack, hbefore, hafter, fun hfree => ?_⟩
  rw [hfree ack l' hrun hack, hbefore] at hafter
  cases hafter

end SolanaIbc
