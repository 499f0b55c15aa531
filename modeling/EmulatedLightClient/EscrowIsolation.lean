import EmulatedLightClient.EscrowPools

/-!
# Isolation of channels

What a channel takes out of escrow stays within what was escrowed for packets
sent on it as long as no other channel, and no other denomination, put coins into
the pool it is paid from. Nothing in the program sees to that.
-/

namespace SolanaIbc

open TokenLedger FailingState TransferFlow

section

variable {D : Type} {p q : EscrowEvent D → Bool} {history events : List (EscrowEvent D)}
  {e : EscrowEvent D} {portId channelId : String} {coin : PrefixedCoin D} {isSource : Bool} {op : EscrowOp}

def sumOf (p : EscrowEvent D → Bool) (history : List (EscrowEvent D)) : Nat :=
  ((history.filter p).map (·.amount)).sum

theorem sumOf_append : sumOf p (history ++ events) = sumOf p history + sumOf p events := by
  simp [sumOf]

theorem sumOf_singleton : sumOf p [e] = if p e then e.amount else 0 := by
  by_cases h : p e
  · simp [sumOf, h]
  · simp [sumOf, h]

theorem sumOf_le (h : ∀ e ∈ history, p e = true → q e = true) : sumOf p history ≤ sumOf q history := by
  induction history with
  | nil => exact Nat.le_refl _
  | cons e history ih =>
    have ih := ih fun e he => h e (List.mem_cons_of_mem _ he)
    rw [← List.singleton_append, sumOf_append, sumOf_append, sumOf_singleton, sumOf_singleton]
    have hhead := h e List.mem_cons_self
    split
    · rename_i hp
      rw [if_pos (hhead hp)]
      omega
    · omega

theorem sumOf_escrowEvents : sumOf p (escrowEvents op portId channelId coin isSource) =
    if isSource = true ∧ p ⟨op, portId, channelId, coin.denom, coin.amount⟩ then coin.amount.val else 0 := by
  cases isSource with
  | false => simp [escrowEvents, sumOf]
  | true => simp [escrowEvents, sumOf_singleton]

variable [DecidableEq D]

/-- Events of a channel about one denomination. -/
def ofChannel (op : EscrowOp) (portId channelId : String) (d : D) (e : EscrowEvent D) : Bool :=
  e.op = op ∧ e.portId = portId ∧ e.channelId = channelId ∧ e.denom = d

/-- No channel got more out of escrow than was escrowed for it. -/
def Isolated (history : List (EscrowEvent D)) : Prop :=
  ∀ portId channelId d, sumOf (ofChannel .unescrow portId channelId d) history ≤
    sumOf (ofChannel .escrow portId channelId d) history

theorem Isolated.escrowed (h : Isolated history) :
    Isolated (history ++ escrowEvents .escrow portId channelId coin isSource) := by
  intro portId' channelId' d
  have hbefore := h portId' channelId' d
  rw [sumOf_append, sumOf_append, sumOf_escrowEvents]
  have hnone : ofChannel .unescrow portId' channelId' d
      ⟨.escrow, portId, channelId, coin.denom, coin.amount⟩ = false := by
    simp [ofChannel]
  rw [hnone]
  simp only [Bool.false_eq_true, and_false, if_false]
  omega

theorem Isolated.unescrowed (h : Isolated history)
    (hroom : isSource = true → sumOf (ofChannel .unescrow portId channelId coin.denom) history +
      coin.amount.val ≤ sumOf (ofChannel .escrow portId channelId coin.denom) history) :
    Isolated (history ++ escrowEvents .unescrow portId channelId coin isSource) := by
  intro portId' channelId' d
  have hbefore := h portId' channelId' d
  rw [sumOf_append, sumOf_append, sumOf_escrowEvents, sumOf_escrowEvents]
  by_cases hsame : isSource = true ∧ ofChannel .unescrow portId' channelId' d
      ⟨.unescrow, portId, channelId, coin.denom, coin.amount⟩ = true
  · rw [if_pos hsame]
    obtain ⟨hsource, hchannel⟩ := hsame
    obtain ⟨-, hport, hchannel, hdenom⟩ := of_decide_eq_true hchannel
    have hroom := hroom hsource
    rw [show portId = portId' from hport, show channelId = channelId' from hchannel,
      show coin.denom = d from hdenom] at hroom
    omega
  · rw [if_neg hsame]
    omega

variable [PrefixedDenom D] {d d' : D}

/-- Events of all channels about denominations paid from one pool. -/
def ofPool (op : EscrowOp) (d : D) (e : EscrowEvent D) : Bool :=
  e.op = op ∧ (e.denom = d ∨ isWsol e.denom = true ∧ isWsol d = true)

theorem ofPool_iff {op' : EscrowOp} {n : Nat} :
    ofPool op' d' ⟨op, portId, channelId, d, n⟩ = true ↔ op = op' ∧ SharesPool d d' := by
  simp [ofPool, SharesPool]

omit [DecidableEq D] in
theorem SharesPool.symm (h : SharesPool d d') : SharesPool d' d := h.imp Eq.symm And.symm

variable {K H : Type} [ProgramAddresses K H] {l l' : Ledger K} {base : Nat}

omit [DecidableEq D] in
theorem pool_eq_of_sharesPool (h : SharesPool d' d) : pool l d' = pool l d := by
  rcases h with rfl | ⟨hd', hd⟩
  · rfl
  · simp [pool, hd', hd]

/-- What the mint authority holds besides coins counts towards wrapped lamports. -/
def Covers (base : Nat) (l : Ledger K) (history : List (EscrowEvent D)) : Prop :=
  ∀ d, pool l d + sumOf (ofPool .unescrow d) history ≤
    (if isWsol d then base else 0) + sumOf (ofPool .escrow d) history

/-- The pools and what the history says of them move together. -/
theorem Covers.append [DecidableEq K] [TokenProgram K] {added removed : Nat} (hcovers : Covers base l history)
    (h : Effect l l' coin.denom added removed)
    (hadded : added = if isSource = true ∧ op = .escrow then coin.amount.val else 0)
    (hremoved : removed = if isSource = true ∧ op = .unescrow then coin.amount.val else 0) :
    Covers base l' (history ++ escrowEvents op portId channelId coin isSource) := by
  intro d
  have hbefore := hcovers d
  rw [sumOf_append, sumOf_append, sumOf_escrowEvents, sumOf_escrowEvents]
  simp only [ofPool_iff]
  by_cases hshares : SharesPool coin.denom d
  · have hmoved := h.moved
    rw [← pool_eq_of_sharesPool (l := l) hshares.symm, ← pool_eq_of_sharesPool (l := l') hshares.symm] at hmoved
    simp only [hshares, and_true]
    omega
  · have hsame := h.others d fun hs => hshares hs.symm
    simp only [hshares, and_false, if_false]
    omega

/-- All that was escrowed into the pool of a denomination was escrowed for one
channel and as that denomination. -/
def OnlyChannel (history : List (EscrowEvent D)) (portId channelId : String) (d : D) : Prop :=
  ∀ e ∈ history, e.op = .escrow → SharesPool e.denom d →
    e.portId = portId ∧ e.channelId = channelId ∧ e.denom = d

/-- Then all there is to take was escrowed for that channel. -/
theorem OnlyChannel.room (honly : OnlyChannel history portId channelId d) (hcovers : Covers base l history)
    {n : Nat} (hn : (if isWsol d then base else 0) + n ≤ pool l d) :
    sumOf (ofChannel .unescrow portId channelId d) history + n ≤
      sumOf (ofChannel .escrow portId channelId d) history := by
  have hpool := hcovers d
  have htaken : sumOf (ofChannel .unescrow portId channelId d) history ≤
      sumOf (ofPool .unescrow d) history := by
    refine sumOf_le fun e _ he => ?_
    obtain ⟨hop, -, -, hdenom⟩ := of_decide_eq_true he
    exact decide_eq_true ⟨hop, Or.inl hdenom⟩
  have hescrowed : sumOf (ofPool .escrow d) history ≤
      sumOf (ofChannel .escrow portId channelId d) history := by
    refine sumOf_le fun e he hin => ?_
    obtain ⟨hop, hshares⟩ := of_decide_eq_true hin
    exact decide_eq_true ⟨hop, honly e he hop hshares⟩
  omega

end

variable {K D H : Type} [DecidableEq K] [PrefixedDenom D] [ProgramAddresses K H] [TokenProgram K]

section

variable {a : PassedAccounts K} {priv : PrivateStorage K H} {coin : PrefixedCoin D} {account : K}
  {l l' : Ledger K} {u : Unit} {portId channelId : String} {isSource : Bool} {packet : SentPacket K D}

omit [TokenProgram K] in
theorem escrowCoinsValidateImpl_ok {op : EscrowOp}
    (h : escrowCoinsValidateImpl ⟨priv, a.toTransferAccounts⟩ op account coin = .ok u) :
    (∀ x ∈ a.escrowAccount, x.key = getEscrowAccount coin.denom) ∧
      match op with
      | .escrow => a.sender.key = account
      | .unescrow => ∀ x ∈ a.receiver, x.key = account := by
  simp only [escrowCoinsValidateImpl, bind_eq_ok, ensure_ok, need_ok, Option.filter_eq_some_iff] at h
  obtain ⟨-, -, escrowAccount, ⟨hescrow, hkey⟩, party, ⟨hparty, haccount⟩, -⟩ := h
  constructor
  · intro x hx
    cases Option.some.inj (hescrow.symm.trans hx)
    exact of_decide_eq_true hkey
  · cases op with
    | escrow =>
      obtain ⟨hsender, -⟩ := Option.filter_eq_some_iff.mp hparty
      cases Option.some.inj hsender
      exact of_decide_eq_true haccount
    | unescrow =>
      obtain ⟨hreceiver, -⟩ := Option.filter_eq_some_iff.mp hparty
      intro x hx
      cases Option.some.inj (hreceiver.symm.trans hx)
      exact of_decide_eq_true haccount

omit [TokenProgram K] in
theorem coinsValidate_ok {party : Option (AccountInfo K)}
    (h : coinsValidate ⟨priv, a.toTransferAccounts⟩ party account coin = .ok u) :
    ∀ x ∈ party, x.key = account := by
  simp only [coinsValidate, bind_eq_ok, ensure_ok, need_ok] at h
  obtain ⟨-, -, -, -, -, -, found, hfound, -, haccount, -⟩ := h
  intro x hx
  cases Option.some.inj (hfound.symm.trans hx)
  exact haccount.symm

omit [DecidableEq K] [PrefixedDenom D] [ProgramAddresses K H] [TokenProgram K] in
theorem completed_some {op : LedgerOp K Unit} (h : completed op l = some l') :
    op.run l = (.ok (), l') := by
  unfold completed at h
  split at h
  · rename_i hrun
    cases h
    exact hrun
  · cases h

theorem Steady.effect (h : Steady D l l') (htidy : Tidy D l) (d : D) : Effect l l' d 0 0 := by
  obtain ⟨htidy', hpool⟩ := h htidy
  exact ⟨htidy', Nat.zero_le _, (Nat.le_of_eq (hpool d)), fun d' _ => hpool d'⟩

section

variable [TransferFlow K D H]

/-- The sender of a packet is the signer of the instruction. -/
theorem sendCoins_sender (h : completed (sendCoins ⟨priv, a.toTransferAccounts⟩ packet) l = some l') :
    a.sender.key = packet.sender := by
  have h := completed_some h
  cases hsource : packet.isSource with
  | true => exact (escrowCoinsValidateImpl_ok (send_source hsource h).1).2
  | false => exact coinsValidate_ok (send_wrapped hsource h).1 a.sender rfl

theorem sendCoins_effect (ha : Loaded D a) (htidy : Tidy D l)
    (h : completed (sendCoins ⟨priv, a.toTransferAccounts⟩ packet) l = some l') :
    Effect l l' packet.coin.denom (if packet.isSource then packet.coin.amount else 0) 0 := by
  have h := completed_some h
  cases hsource : packet.isSource with
  | true =>
    obtain ⟨hvalid, h⟩ := send_source hsource h
    exact escrowCoinsExecute_effect ha htidy (escrowCoinsValidateImpl_ok hvalid).1 h
  | false => exact (burnCoinsExecute_steady ha (send_wrapped hsource h).2).effect htidy _

/-- Coins go to the account they are for. -/
theorem receiveCoins_receiver
    (h : completed (receiveCoins ⟨priv, a.toTransferAccounts⟩ portId channelId account coin isSource) l =
      some l') : ∀ x ∈ a.receiver, x.key = account := by
  have h := completed_some h
  cases isSource with
  | true => exact (escrowCoinsValidateImpl_ok (receive_source h).1).2
  | false => exact coinsValidate_ok (receive_wrapped h).1

theorem receiveCoins_effect (ha : Loaded D a) (htidy : Tidy D l)
    (hown : isSource = true → isWsol coin.denom = true → ¬ OwnAddress D account)
    (h : completed (receiveCoins ⟨priv, a.toTransferAccounts⟩ portId channelId account coin isSource) l =
      some l') :
    Effect l l' coin.denom 0 (if isSource then coin.amount else 0) := by
  have hreceiver := receiveCoins_receiver h
  have h := completed_some h
  cases isSource with
  | true =>
    obtain ⟨hvalid, h⟩ := receive_source h
    refine unescrowCoinsExecute_effect ha htidy (escrowCoinsValidateImpl_ok hvalid).1 (fun hwsol x hx => ?_) h
    rw [hreceiver x hx]
    exact hown rfl hwsol
  | false => exact (mintCoinsExecute_steady ha (receive_wrapped h).2).effect htidy _

end

theorem refundFee_steady (hreceiver : ∀ x ∈ a.receiver, ¬ OwnAddress D x.key)
    (hfee : ∀ x ∈ a.feeCollector, x.key = ProgramAddresses.feeAccount)
    (h : completed (TransferState.refundFee priv a.toTransferAccounts) l = some l') : Steady D l l' := by
  have h := completed_some h
  simp only [TransferState.refundFee, Op.run_bind_ok, unwrapped_ok, subLamports_ok, addLamports_ok] at h
  obtain ⟨receiver, _, ⟨hsome, rfl⟩, feeCollector, _, ⟨hcollector, rfl⟩, -, _, ⟨-, rfl⟩, -, rfl⟩ := h
  rw [hfee feeCollector hcollector]
  exact (steady_setLamports not_ownAddress_feeAccount).trans (steady_setLamports (hreceiver receiver hsome))

end

namespace TransferState

variable [DecidableEq D] [TransferFlow K D H]

/-- Every pool holds no more than was escrowed and not taken out, and the mint
authority what it had besides. -/
structure Accounted (base : Nat) (s : TransferState K D H) : Prop where
  tidy : Tidy D s.ledger
  senders : ∀ p ∈ s.sent, ProgramAddresses.canSign p.sender = true
  covers : Covers base s.ledger s.history
  isolated : Isolated s.history

/-- Payments which cannot reach coins escrowed for somebody else. Wrapped lamports
also have to leave the program and the mint authority what it had at first. -/
def Allowed (base : Nat) (s : TransferState K D H) : TransferCall K D H → Prop
  | .sendTransfer .. => True
  | .recvPacket _ portId channelId receiver coin isSource => isSource = true →
    OnlyChannel s.history portId channelId coin.denom ∧
      (isWsol coin.denom = true → ¬ OwnAddress D receiver ∧
        base + coin.amount ≤ s.ledger.lamports ProgramAddresses.mintAuthority)
  | .refundPacket _ index => ∀ p ∈ s.sent[index]?, p.isSource = true →
    OnlyChannel s.history p.portId p.channelId p.coin.denom ∧
      (isWsol p.coin.denom = true →
        base + p.coin.amount ≤ s.ledger.lamports ProgramAddresses.mintAuthority)

variable {s s' : TransferState K D H} {base : Nat} {a : PassedAccounts K} {l : Ledger K}
  {portId channelId : String} {coin : PrefixedCoin D} {isSource : Bool}

theorem sendTransfer_accounted [DecidableEq H] {hash : H} {timeoutIsSet : Bool} {packet : SentPacket K D}
    (hs : s.Accounted base) (h : s.sendTransfer a hash timeoutIsSet packet = some s') :
    s'.Accounted base := by
  simp only [sendTransfer, Option.bind_eq_bind, Option.bind_eq_some_iff, guard_eq_some] at h
  obtain ⟨l₁, hload, -, rfl, -, -, feeCollector, hcollector, l₂, hfee, l₃, hcoins, h⟩ := h
  cases Option.some.inj h
  obtain ⟨ha, hsteady₁⟩ := loadSendTransfer_some hload
  have hsigner := not_ownAddress_of_canSign (D := D) ha.sender
  have hsteady₂ : Steady D l₁ l₂ := by
    unfold systemTransfer at hfee
    split at hfee
    · cases hfee
      exact steady_moveLamports hsigner (loadSendTransfer_feeCollector hload hcollector)
    · cases hfee
  have hsteady := hsteady₁.trans hsteady₂
  have heffect := hsteady.trans_effect hs.tidy fun htidy => sendCoins_effect ha htidy hcoins
  refine ⟨heffect.tidy, ?_, ?_, hs.isolated.escrowed⟩
  · intro p hp
    rcases List.mem_append.mp hp with hp | hp
    · exact hs.senders p hp
    · cases List.mem_singleton.mp hp
      rw [← sendCoins_sender hcoins]
      exact ha.sender
  · exact hs.covers.append heffect (by simp) (by simp)

omit [TransferFlow K D H] in
/-- Coins that come in or come back, with whatever else an instruction does that
leaves the pools alone. -/
theorem unescrowed_accounted (hs : s.Accounted base)
    (heffect : Effect s.ledger l coin.denom 0 (if isSource then coin.amount else 0))
    (hallowed : isSource = true → OnlyChannel s.history portId channelId coin.denom ∧
      (isWsol coin.denom = true →
        base + coin.amount ≤ s.ledger.lamports ProgramAddresses.mintAuthority)) :
    Covers base l (s.history ++ escrowEvents .unescrow portId channelId coin isSource) ∧
      Isolated (s.history ++ escrowEvents .unescrow portId channelId coin isSource) := by
  refine ⟨hs.covers.append heffect (by simp) (by simp), hs.isolated.unescrowed fun hsource => ?_⟩
  obtain ⟨honly, hwsol⟩ := hallowed hsource
  refine honly.room hs.covers ?_
  cases hd : isWsol coin.denom with
  | true =>
    simp only [pool, hd, if_true]
    exact hwsol hd
  | false =>
    have hcovered := heffect.covered
    simpa [hsource] using hcovered

theorem recvPacket_accounted {receiver : K} (hs : s.Accounted base)
    (hallowed : s.Allowed base (.recvPacket a portId channelId receiver coin isSource))
    (h : s.recvPacket a portId channelId receiver coin isSource = some s') : s'.Accounted base := by
  simp only [recvPacket, Option.bind_eq_bind, Option.bind_eq_some_iff] at h
  obtain ⟨l₁, hload, l₂, hcoins, h⟩ := h
  cases Option.some.inj h
  obtain ⟨ha, -, hsteady⟩ := loadDeliver_some (D := D) hload
  have heffect := hsteady.trans_effect hs.tidy fun htidy =>
    receiveCoins_effect ha htidy (fun hsource hwsol => ((hallowed hsource).2 hwsol).1) hcoins
  obtain ⟨hcovers, hisolated⟩ := unescrowed_accounted hs heffect fun hsource =>
    ⟨(hallowed hsource).1, fun hwsol => ((hallowed hsource).2 hwsol).2⟩
  exact ⟨heffect.tidy, hs.senders, hcovers, hisolated⟩

theorem refundPacket_accounted {index : Nat} (hs : s.Accounted base)
    (hallowed : s.Allowed base (.refundPacket a index)) (h : s.refundPacket a index = some s') :
    s'.Accounted base := by
  simp only [refundPacket, Option.bind_eq_bind, Option.bind_eq_some_iff] at h
  obtain ⟨packet, hpacket, l₁, hload, l₂, hcoins, l₃, hfee, h⟩ := h
  cases Option.some.inj h
  obtain ⟨ha, hcollector, hsteady⟩ := loadDeliver_some (D := D) hload
  -- the coins go back to the key that signed the packet, which is none of the program's own
  have hsender := not_ownAddress_of_canSign (D := D) (hs.senders packet (List.mem_of_getElem? hpacket))
  have hreceiver : ∀ x ∈ a.receiver, ¬ OwnAddress D x.key := by
    intro x hx
    rw [receiveCoins_receiver hcoins x hx]
    exact hsender
  have heffect := (hsteady.trans_effect hs.tidy fun htidy =>
    receiveCoins_effect ha htidy (fun _ _ => hsender) hcoins).trans_steady
      (refundFee_steady hreceiver hcollector hfee)
  obtain ⟨hcovers, hisolated⟩ := unescrowed_accounted hs heffect (hallowed packet hpacket)
  exact ⟨heffect.tidy, fun p hp => hs.senders p (List.mem_of_mem_eraseIdx hp), hcovers, hisolated⟩

/-- Before anything is sent there are no escrow accounts. -/
structure Fresh (s : TransferState K D H) : Prop where
  sent : s.sent = []
  history : s.history = []
  tokens : ∀ d : D, s.ledger.tokens (getEscrowAccount d) = none
  lamports : ∀ d : D, s.ledger.lamports (getEscrowAccount d) = 0

omit [TransferFlow K D H] in
theorem Fresh.accounted (h : s.Fresh) :
    s.Accounted (s.ledger.lamports ProgramAddresses.mintAuthority) := by
  refine ⟨?_, ?_, ?_, ?_⟩
  · intro d _
    rw [h.lamports]
    exact Nat.zero_le _
  · rw [h.sent]
    simp
  · intro d
    rw [h.history]
    cases hd : isWsol d with
    | true => simp [pool, hd, sumOf]
    | false => simp [pool, hd, sumOf, Ledger.balance, h.tokens]
  · rw [h.history]
    intro portId channelId d
    exact Nat.le_refl _

section

variable [DecidableEq H]

theorem step_accounted {call : TransferCall K D H} (hs : s.Accounted base)
    (hallowed : s.Allowed base call) (h : s.step call = some s') : s'.Accounted base := by
  cases call with
  | sendTransfer accounts hash timeoutIsSet packet => exact sendTransfer_accounted hs h
  | recvPacket accounts portId channelId receiver coin isSource =>
    exact recvPacket_accounted hs hallowed h
  | refundPacket accounts index => exact refundPacket_accounted hs hallowed h

/-- A run all of whose calls are allowed where they are made. -/
def RunAllowed (base : Nat) : TransferState K D H → List (TransferCall K D H) → Prop
  | _, [] => True
  | s, call :: calls => s.Allowed base call ∧ ∀ s', s.step call = some s' → RunAllowed base s' calls

theorem run_accounted {calls : List (TransferCall K D H)} (hs : s.Accounted base)
    (hallowed : s.RunAllowed base calls) (h : calls.foldlM step s = some s') : s'.Accounted base := by
  induction calls generalizing s with
  | nil =>
    cases h
    exact hs
  | cons call calls ih =>
    obtain ⟨mid, hmid, h⟩ := Option.bind_eq_some_iff.mp h
    exact ih (step_accounted hs hallowed.1 hmid) (hallowed.2 mid hmid) h

/-- Over every run in which each payment is made while nothing but coins of its
own channel and denomination is in its pool, no channel takes out more than was
escrowed for it. -/
theorem channels_isolated {calls : List (TransferCall K D H)} (hs : s.Fresh)
    (hallowed : s.RunAllowed (s.ledger.lamports ProgramAddresses.mintAuthority) calls)
    (h : calls.foldlM step s = some s') : Isolated s'.history :=
  (run_accounted hs.accounted hallowed h).isolated

end

instance : TransferFlow Address String String := .direct

theorem channels_isolated_sample :
    let mint : Address := .wallet 50
    let tokens : Address → Address := fun owner => .associatedToken owner mint
    let account : Address → AccountInfo Address := fun k => ⟨k, false, true⟩
    let sent : PassedAccounts Address := ⟨⟨.wallet 1, true, true⟩, none, some (account .mintAuthority),
      some (account mint), some (account (.escrow "usdc")), some (account (tokens (.wallet 1))),
      some (account .feeAccount), some (account (.wallet 3)), []⟩
    let received : PassedAccounts Address := ⟨⟨.wallet 0, true, true⟩, some (account (.wallet 2)),
      some (account .mintAuthority), some (account mint), some (account (.escrow "usdc")),
      some (account (tokens (.wallet 2))), none, some (account (.wallet 3)), []⟩
    let ledger : Ledger Address := ⟨fun k => if k = .wallet 0 ∨ k = .wallet 1 then 10 ^ 9 else 0,
      fun k => if k = mint then some ⟨6, some (.wallet 51), 100⟩ else none,
      fun k => if k = tokens (.wallet 1) then some ⟨mint, .wallet 1, 100, false⟩ else none⟩
    let s : TransferState Address String String := ⟨⟨fun _ => none, .wallet 4, 5000⟩, ledger, [], []⟩
    let calls : List (TransferCall Address String String) :=
      [.sendTransfer sent "usdc" true ⟨"transfer", "channel-0", .wallet 1, ⟨"usdc", 100⟩, true⟩,
        .recvPacket received "transfer" "channel-0" (.wallet 2) ⟨"usdc", 60⟩ true]
    ∃ s', calls.foldlM step s = some s' ∧
      s'.history = [⟨.escrow, "transfer", "channel-0", "usdc", 100⟩,
        ⟨.unescrow, "transfer", "channel-0", "usdc", 60⟩] ∧ Isolated s'.history := by
  intro mint tokens account sent received ledger s calls
  have hhistory : (calls.foldlM step s).map (·.history) = some
      [⟨.escrow, "transfer", "channel-0", "usdc", 100⟩,
        ⟨.unescrow, "transfer", "channel-0", "usdc", 60⟩] := by
    decide
  have hfirst : (s.step (.sendTransfer sent "usdc" true
      ⟨"transfer", "channel-0", .wallet 1, ⟨"usdc", 100⟩, true⟩)).map (·.history) =
      some [⟨.escrow, "transfer", "channel-0", "usdc", 100⟩] := by
    decide
  obtain ⟨s', hrun, heq⟩ := Option.map_eq_some_iff.mp hhistory
  refine ⟨s', hrun, heq, ?_⟩
  have hfresh : s.Fresh := ⟨rfl, rfl, fun d => by simp [s, ledger, tokens, getEscrowAccount,
    ProgramAddresses.escrow], fun d => by simp [s, ledger, getEscrowAccount, ProgramAddresses.escrow]⟩
  have hallowed : s.RunAllowed (s.ledger.lamports ProgramAddresses.mintAuthority) calls := by
    refine ⟨trivial, fun s₁ hs₁ => ⟨fun _ => ⟨?_, ?_⟩, fun _ _ => trivial⟩⟩
    · rw [hs₁] at hfirst
      have hfirst : s₁.history = [⟨.escrow, "transfer", "channel-0", "usdc", 100⟩] :=
        Option.some.inj hfirst
      rw [hfirst]
      intro e he _ _
      cases List.mem_singleton.mp he
      exact ⟨rfl, rfl, rfl⟩
    · intro hwsol
      exact absurd hwsol (by decide)
  exact channels_isolated hfresh hallowed hrun

/-- What one channel escrowed is paid out to another. -/
theorem escrow_drained_by_other_channel :
    let mint : Address := .wallet 50
    let tokens : Address → Address := fun owner => .associatedToken owner mint
    let account : Address → AccountInfo Address := fun k => ⟨k, false, true⟩
    let sent : PassedAccounts Address := ⟨⟨.wallet 1, true, true⟩, none, some (account .mintAuthority),
      some (account mint), some (account (.escrow "usdc")), some (account (tokens (.wallet 1))),
      some (account .feeAccount), some (account (.wallet 3)), []⟩
    let received : PassedAccounts Address := ⟨⟨.wallet 0, true, true⟩, some (account (.wallet 2)),
      some (account .mintAuthority), some (account mint), some (account (.escrow "usdc")),
      some (account (tokens (.wallet 2))), none, some (account (.wallet 3)), []⟩
    let ledger : Ledger Address := ⟨fun k => if k = .wallet 0 ∨ k = .wallet 1 then 10 ^ 9 else 0,
      fun k => if k = mint then some ⟨6, some (.wallet 51), 100⟩ else none,
      fun k => if k = tokens (.wallet 1) then some ⟨mint, .wallet 1, 100, false⟩ else none⟩
    let s : TransferState Address String String := ⟨⟨fun _ => none, .wallet 4, 5000⟩, ledger, [], []⟩
    let calls : List (TransferCall Address String String) :=
      [.sendTransfer sent "usdc" true ⟨"transfer", "channel-0", .wallet 1, ⟨"usdc", 100⟩, true⟩,
        .recvPacket received "transfer" "channel-1" (.wallet 2) ⟨"usdc", 100⟩ true]
    s.Fresh ∧ ∃ s', calls.foldlM step s = some s' ∧
      s'.ledger.balance (tokens (.wallet 2)) = 100 ∧ ¬ Isolated s'.history := by
  intro mint tokens account sent received ledger s calls
  have hhistory : (calls.foldlM step s).map (·.history) = some
      [⟨.escrow, "transfer", "channel-0", "usdc", 100⟩,
        ⟨.unescrow, "transfer", "channel-1", "usdc", 100⟩] := by
    decide
  have hpaid : (calls.foldlM step s).map (·.ledger.balance (tokens (.wallet 2))) = some 100 := by
    decide
  have hfresh : s.Fresh := ⟨rfl, rfl, fun d => by simp [s, ledger, tokens, getEscrowAccount,
    ProgramAddresses.escrow], fun d => by simp [s, ledger, getEscrowAccount, ProgramAddresses.escrow]⟩
  obtain ⟨s', hrun, heq⟩ := Option.map_eq_some_iff.mp hhistory
  rw [hrun] at hpaid
  refine ⟨hfresh, s', hrun, Option.some.inj hpaid, fun hisolated => ?_⟩
  have hchannel := hisolated "transfer" "channel-1" "usdc"
  rw [show s'.history = _ from heq] at hchannel
  exact absurd hchannel (by decide)

end TransferState

end SolanaIbc
