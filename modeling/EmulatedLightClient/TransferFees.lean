import EmulatedLightClient.EscrowIsolation
import EmulatedLightClient.MachineInts
import Mathlib.Algebra.BigOperators.Group.List.Basic

/-!
# Fees of transfers

A packet is charged for when it is sent, and the fee goes back to its sender when
the packet fails or times out. The program keeps no record of what was charged: the
refund is of the fee in force when it is made.
-/

namespace SolanaIbc

open TokenLedger FailingState TransferFlow

/-- What a packet was charged, and the fee in force when it was sent. -/
structure Charge where
  lamports : Nat
  fee : Nat

structure Refund where
  charge : Charge
  lamports : Nat

/-- Next to the state of transfers, what was charged for each packet in flight, for
all packets so far, and what was refunded. -/
structure FeeState (K D H : Type) where
  transfer : TransferState K D H
  pending : List Charge
  charged : List Nat
  refunds : List Refund

inductive FeeCall (K D H : Type) where
  | setFeeAmount (feeCollector : AccountInfo K) (newAmount : Fin (2 ^ 64))
  | transfer (call : TransferCall K D H)
  /-- An acknowledgement of success of the packet at a position. -/
  | acknowledgePacket (accounts : PassedAccounts K) (index : Nat)

section

variable {K D H : Type} [DecidableEq K] [DecidableEq H] [PrefixedDenom D] [ProgramAddresses K H]
  [TokenProgram K] [TransferFlow K D H]

namespace TransferState

/-- Lamports the fee account gets when a packet is sent. -/
def chargedLamports (s : TransferState K D H) (accounts : PassedAccounts K) (hash : H) : Option Nat := do
  let l ← loadSendTransfer hash accounts s.ledger
  let feeCollector ← accounts.feeCollector
  let l' ← systemTransfer l accounts.sender.key feeCollector.key s.priv.feeInLamports
  return l'.lamports feeCollector.key - l.lamports feeCollector.key

/-- Lamports a sender gets, besides the coins, when its packet fails. -/
def refundedLamports (s : TransferState K D H) (accounts : PassedAccounts K) (index : Nat) : Option Nat := do
  let packet ← s.sent[index]?
  let l ← loadDeliver accounts s.ledger
  let l ← completed (receiveCoins ⟨s.priv, accounts.toTransferAccounts⟩ packet.portId
    packet.channelId packet.sender packet.coin packet.isSource) l
  let l' ← completed (refundFee s.priv accounts.toTransferAccounts) l
  return l'.lamports packet.sender - l.lamports packet.sender

def acknowledgePacket (s : TransferState K D H) (accounts : PassedAccounts K) (index : Nat) :
    Option (TransferState K D H) := do
  let _ ← s.sent[index]?
  let l ← loadDeliver accounts s.ledger
  return { s with ledger := l, sent := s.sent.eraseIdx index }

end TransferState

namespace FeeState

def setFeeAmount (s : FeeState K D H) (feeCollector : AccountInfo K) (newAmount : Fin (2 ^ 64)) :
    Option (FeeState K D H) := do
  guard (feeCollector.isSigner ∧ feeCollector.key = s.transfer.priv.feeCollector)
  let priv := { s.transfer.priv with feeInLamports := newAmount }
  return { s with transfer := { s.transfer with priv } }

def sendTransfer (s : FeeState K D H) (accounts : PassedAccounts K) (hash : H) (timeoutIsSet : Bool)
    (packet : SentPacket K D) : Option (FeeState K D H) := do
  let transfer ← s.transfer.sendTransfer accounts hash timeoutIsSet packet
  let lamports ← s.transfer.chargedLamports accounts hash
  return { s with
    transfer
    pending := s.pending ++ [⟨lamports, s.transfer.priv.feeInLamports⟩]
    charged := s.charged ++ [lamports] }

def refundPacket (s : FeeState K D H) (accounts : PassedAccounts K) (index : Nat) :
    Option (FeeState K D H) := do
  let transfer ← s.transfer.refundPacket accounts index
  let charge ← s.pending[index]?
  let lamports ← s.transfer.refundedLamports accounts index
  return { s with
    transfer
    pending := s.pending.eraseIdx index
    refunds := s.refunds ++ [⟨charge, lamports⟩] }

def step (s : FeeState K D H) : FeeCall K D H → Option (FeeState K D H)
  | .setFeeAmount feeCollector newAmount => s.setFeeAmount feeCollector newAmount
  | .transfer (.sendTransfer accounts hash timeoutIsSet packet) =>
    s.sendTransfer accounts hash timeoutIsSet packet
  | .transfer (.recvPacket accounts portId channelId receiver coin isSource) =>
    (s.transfer.recvPacket accounts portId channelId receiver coin isSource).map fun transfer =>
      { s with transfer }
  | .transfer (.refundPacket accounts index) => s.refundPacket accounts index
  | .acknowledgePacket accounts index =>
    (s.transfer.acknowledgePacket accounts index).map fun transfer =>
      { s with transfer, pending := s.pending.eraseIdx index }

/-- What was charged for a packet was refunded, and not more than was charged for all. -/
structure Matches (s : FeeState K D H) : Prop where
  refund : ∀ r ∈ s.refunds, r.lamports = r.charge.lamports
  total : (s.refunds.map (·.lamports)).sum ≤ s.charged.sum

/-- Before anything is sent. -/
structure Fresh (s : FeeState K D H) : Prop where
  sent : s.transfer.sent = []
  pending : s.pending = []
  refunds : s.refunds = []

/-- A packet is refunded while the fee is what it was when the packet was sent. -/
def SameFee (s : FeeState K D H) : FeeCall K D H → Prop
  | .transfer (.refundPacket _ index) => ∀ charge ∈ s.pending[index]?, s.transfer.priv.feeInLamports = charge.fee
  | _ => True

end FeeState

section

variable {s s' : TransferState K D H} {accounts : PassedAccounts K} {hash : H} {timeoutIsSet : Bool}
  {packet : SentPacket K D} {index n : Nat}

omit [TokenProgram K] [ProgramAddresses K H] [PrefixedDenom D] [DecidableEq H] in
theorem systemTransfer_dst {l l' : Ledger K} {src dst : K} (hne : src ≠ dst)
    (h : systemTransfer l src dst n = some l') : l'.lamports dst - l.lamports dst = n := by
  unfold systemTransfer at h
  split at h
  · cases h
    rw [Ledger.lamports_moveLamports_dst hne]
    exact Nat.add_sub_cancel_left ..
  · cases h

omit [DecidableEq H] in
theorem loadSendTransfer_signer {l l' : Ledger K} (h : loadSendTransfer hash accounts l = some l') :
    ProgramAddresses.canSign accounts.sender.key = true ∧
      ∀ x ∈ accounts.feeCollector, x.key = ProgramAddresses.feeAccount := by
  simp only [loadSendTransfer, Option.bind_eq_bind, Option.bind_eq_some_iff] at h
  obtain ⟨_, hcommon, l₁, -, _, -, hfee⟩ := h
  refine ⟨(loadCommon_some hcommon).1, fun x hx => ?_⟩
  unfold loadSendFee at hfee
  rw [Option.mem_def.mp hx] at hfee
  simp only [Option.bind_eq_bind, Option.bind_eq_some_iff, guard_eq_some] at hfee
  obtain ⟨-, hkey, -⟩ := hfee
  exact hkey

/-- Who sends a packet pays the fee in force. -/
theorem TransferState.sendTransfer_charges (hfee : ProgramAddresses.canSign (ProgramAddresses.feeAccount : K) = false)
    (h : s.sendTransfer accounts hash timeoutIsSet packet = some s') :
    s.chargedLamports accounts hash = some s.priv.feeInLamports ∧ s'.sent = s.sent ++ [packet] ∧
      s'.priv = s.priv ∧ ProgramAddresses.canSign packet.sender = true := by
  simp only [sendTransfer, Option.bind_eq_bind, Option.bind_eq_some_iff, guard_eq_some] at h
  obtain ⟨l₁, hload, -, rfl, -, -, feeCollector, hcollector, l₂, hpaid, l₃, hcoins, h⟩ := h
  cases Option.some.inj h
  obtain ⟨hsigner, hkey⟩ := loadSendTransfer_signer hload
  have hne : accounts.sender.key ≠ feeCollector.key := by
    rw [hkey feeCollector hcollector]
    intro heq
    rw [heq, hfee] at hsigner
    cases hsigner
  refine ⟨?_, rfl, rfl, sendCoins_sender hcoins ▸ hsigner⟩
  simp only [chargedLamports, hload, hcollector, hpaid, Option.bind_eq_bind, Option.bind_some]
  exact congrArg some (systemTransfer_dst hne hpaid)

omit [DecidableEq H] in
/-- The sender of a packet which failed gets the fee in force. -/
theorem TransferState.refundPacket_refunds (hfee : ProgramAddresses.canSign (ProgramAddresses.feeAccount : K) = false)
    (hsenders : ∀ p ∈ s.sent, ProgramAddresses.canSign p.sender = true)
    (h : s.refundPacket accounts index = some s') :
    s.refundedLamports accounts index = some s.priv.feeInLamports ∧ s'.sent = s.sent.eraseIdx index ∧
      s'.priv = s.priv := by
  simp only [refundPacket, Option.bind_eq_bind, Option.bind_eq_some_iff] at h
  obtain ⟨packet, hpacket, l₁, hload, l₂, hcoins, l₃, hrefund, h⟩ := h
  cases Option.some.inj h
  refine ⟨?_, rfl, rfl⟩
  simp only [refundedLamports, hpacket, hload, hcoins, hrefund, Option.bind_eq_bind, Option.bind_some]
  refine congrArg some ?_
  have hkey := (loadDeliver_some (D := D) hload).2.1
  have hreceived := receiveCoins_receiver hcoins
  have hrun := completed_some hrefund
  simp only [refundFee, Op.run_bind_ok, unwrapped_ok, subLamports_ok, addLamports_ok] at hrun
  obtain ⟨receiver, _, ⟨hreceiver, rfl⟩, feeCollector, _, ⟨hcollector, rfl⟩, -, _, ⟨-, rfl⟩, -, rfl⟩ := hrun
  have hne : packet.sender ≠ feeCollector.key := by
    have hsigner := hsenders packet (List.mem_of_getElem? hpacket)
    rw [hkey feeCollector hcollector]
    intro heq
    rw [heq, hfee] at hsigner
    cases hsigner
  rw [hreceived receiver hreceiver]
  simp only [Ledger.lamports_setLamports, if_pos, if_neg hne]
  exact Nat.add_sub_cancel_left ..

end

namespace FeeState

variable {s s' : FeeState K D H} {call : FeeCall K D H} {calls : List (FeeCall K D H)}

/-- What was charged is pending, was refunded or was kept. -/
structure Accounted (s : FeeState K D H) : Prop where
  length : s.pending.length = s.transfer.sent.length
  senders : ∀ p ∈ s.transfer.sent, ProgramAddresses.canSign p.sender = true
  charges : ∀ c ∈ s.pending, c.lamports = c.fee
  total : (s.pending.map (·.lamports)).sum + (s.refunds.map (·.charge.lamports)).sum ≤ s.charged.sum

def Refunded (s : FeeState K D H) : Prop := ∀ r ∈ s.refunds, r.lamports = r.charge.lamports

omit [DecidableEq K] [DecidableEq H] [PrefixedDenom D] [TokenProgram K] in
theorem Fresh.accounted (h : s.Fresh) : s.Accounted where
  length := by rw [h.pending, h.sent]; rfl
  senders := by rw [h.sent]; simp
  charges := by rw [h.pending]; simp
  total := by rw [h.pending, h.refunds]; exact Nat.zero_le _

omit [DecidableEq K] [DecidableEq H] [PrefixedDenom D] [TokenProgram K] in
theorem Accounted.matches_iff (h : s.Accounted) : s.Matches ↔ s.Refunded := by
  constructor
  · exact Matches.refund
  · intro hrefunded
    refine ⟨hrefunded, ?_⟩
    have hsame : s.refunds.map (·.lamports) = s.refunds.map (·.charge.lamports) :=
      List.map_congr_left hrefunded
    rw [hsame]
    exact le_trans (Nat.le_add_left ..) h.total

theorem sum_eraseIdx {l : List Charge} {c : Charge} {index : Nat} (h : l[index]? = some c) :
    c.lamports + ((l.eraseIdx index).map (·.lamports)).sum = (l.map (·.lamports)).sum := by
  obtain ⟨hlt, rfl⟩ := List.getElem?_eq_some_iff.mp h
  have hperm := (List.getElem_cons_eraseIdx_perm hlt).map (·.lamports)
  rw [← hperm.sum_eq]
  simp

theorem sendTransfer_accounted (hfee : ProgramAddresses.canSign (ProgramAddresses.feeAccount : K) = false)
    {accounts : PassedAccounts K} {hash : H} {timeoutIsSet : Bool} {packet : SentPacket K D}
    (hs : s.Accounted) (h : s.sendTransfer accounts hash timeoutIsSet packet = some s') :
    s'.Accounted ∧ s'.refunds = s.refunds := by
  simp only [sendTransfer, Option.bind_eq_bind, Option.bind_eq_some_iff] at h
  obtain ⟨transfer, htransfer, lamports, hlamports, h⟩ := h
  cases Option.some.inj h
  obtain ⟨hcharged, hsent, -, hsigner⟩ := TransferState.sendTransfer_charges hfee htransfer
  cases Option.some.inj (hlamports.symm.trans hcharged)
  refine ⟨⟨?_, ?_, ?_, ?_⟩, rfl⟩
  · simp [hsent, hs.length]
  · intro p hp
    rw [hsent] at hp
    rcases List.mem_append.mp hp with hp | hp
    · exact hs.senders p hp
    · cases List.mem_singleton.mp hp
      exact hsigner
  · intro c hc
    rcases List.mem_append.mp hc with hc | hc
    · exact hs.charges c hc
    · cases List.mem_singleton.mp hc
      rfl
  · have htotal := hs.total
    simp only [List.map_append, List.map_cons, List.map_nil, List.sum_append, List.sum_singleton]
    omega

omit [DecidableEq H] in
theorem refundPacket_accounted (hfee : ProgramAddresses.canSign (ProgramAddresses.feeAccount : K) = false)
    {accounts : PassedAccounts K} {index : Nat} (hs : s.Accounted)
    (h : s.refundPacket accounts index = some s') :
    s'.Accounted ∧ (s'.Refunded ↔ s.Refunded ∧ s.SameFee (.transfer (.refundPacket accounts index))) := by
  simp only [refundPacket, Option.bind_eq_bind, Option.bind_eq_some_iff] at h
  obtain ⟨transfer, htransfer, charge, hcharge, lamports, hlamports, h⟩ := h
  cases Option.some.inj h
  obtain ⟨hrefunded, hsent, -⟩ := TransferState.refundPacket_refunds hfee hs.senders htransfer
  cases Option.some.inj (hlamports.symm.trans hrefunded)
  refine ⟨⟨?_, ?_, ?_, ?_⟩, ?_⟩
  · simp [hsent, List.length_eraseIdx, hs.length]
  · intro p hp
    rw [hsent] at hp
    exact hs.senders p (List.mem_of_mem_eraseIdx hp)
  · exact fun c hc => hs.charges c (List.mem_of_mem_eraseIdx hc)
  · have htotal := hs.total
    have hpending := sum_eraseIdx hcharge
    simp only [List.map_append, List.map_cons, List.map_nil, List.sum_append, List.sum_singleton]
    omega
  · -- The one new refund is of the fee in force, for what was in force at the time.
    have hpaid := hs.charges charge (List.mem_of_getElem? hcharge)
    simp only [Refunded, SameFee, hcharge, Option.mem_some_iff, forall_eq', List.mem_append,
      List.mem_singleton, or_imp, forall_and, forall_eq, hpaid]

theorem step_accounted (hfee : ProgramAddresses.canSign (ProgramAddresses.feeAccount : K) = false)
    (hs : s.Accounted) (h : s.step call = some s') :
    s'.Accounted ∧ (s'.Refunded ↔ s.Refunded ∧ s.SameFee call) := by
  cases call with
  | setFeeAmount feeCollector newAmount =>
    simp only [step, setFeeAmount, Option.bind_eq_bind, Option.bind_eq_some_iff, guard_eq_some] at h
    obtain ⟨-, -, h⟩ := h
    cases Option.some.inj h
    exact ⟨⟨hs.length, hs.senders, hs.charges, hs.total⟩, (and_iff_left trivial).symm⟩
  | acknowledgePacket accounts index =>
    obtain ⟨transfer, htransfer, rfl⟩ := Option.map_eq_some_iff.mp h
    simp only [TransferState.acknowledgePacket, Option.bind_eq_bind, Option.bind_eq_some_iff] at htransfer
    obtain ⟨packet, hpacket, l, -, htransfer⟩ := htransfer
    cases Option.some.inj htransfer
    refine ⟨⟨?_, ?_, ?_, ?_⟩, (and_iff_left trivial).symm⟩
    · simp [List.length_eraseIdx, hs.length]
    · exact fun p hp => hs.senders p (List.mem_of_mem_eraseIdx hp)
    · exact fun c hc => hs.charges c (List.mem_of_mem_eraseIdx hc)
    · obtain ⟨hlt, -⟩ := List.getElem?_eq_some_iff.mp hpacket
      have hpending := sum_eraseIdx (List.getElem?_eq_getElem (hs.length ▸ hlt))
      have htotal := hs.total
      simp only
      omega
  | transfer call =>
    cases call with
    | sendTransfer accounts hash timeoutIsSet packet =>
      obtain ⟨hs', hrefunds⟩ := sendTransfer_accounted hfee hs h
      refine ⟨hs', ?_⟩
      rw [Refunded, hrefunds]
      exact (and_iff_left trivial).symm
    | recvPacket accounts portId channelId receiver coin isSource =>
      obtain ⟨transfer, htransfer, rfl⟩ := Option.map_eq_some_iff.mp h
      simp only [TransferState.recvPacket, Option.bind_eq_bind, Option.bind_eq_some_iff] at htransfer
      obtain ⟨l₁, -, l₂, -, htransfer⟩ := htransfer
      cases Option.some.inj htransfer
      exact ⟨⟨hs.length, hs.senders, hs.charges, hs.total⟩, (and_iff_left trivial).symm⟩
    | refundPacket accounts index => exact refundPacket_accounted hfee hs h

/-- A run in which each refund is made while the fee is that of its packet. -/
def RunSameFee : FeeState K D H → List (FeeCall K D H) → Prop
  | _, [] => True
  | s, call :: calls => s.SameFee call ∧ ∀ s', s.step call = some s' → RunSameFee s' calls

theorem run_accounted (hfee : ProgramAddresses.canSign (ProgramAddresses.feeAccount : K) = false)
    (hs : s.Accounted) (h : calls.foldlM step s = some s') :
    s'.Accounted ∧ (s'.Refunded ↔ s.Refunded ∧ s.RunSameFee calls) := by
  induction calls generalizing s with
  | nil =>
    cases h
    exact ⟨hs, (and_iff_left trivial).symm⟩
  | cons call calls ih =>
    obtain ⟨mid, hmid, h⟩ := Option.bind_eq_some_iff.mp h
    obtain ⟨hkept, hiff⟩ := step_accounted hfee hs hmid
    obtain ⟨hs', hiff'⟩ := ih hkept h
    refine ⟨hs', ?_⟩
    have hrest : s.RunSameFee (call :: calls) ↔ s.SameFee call ∧ mid.RunSameFee calls := by
      refine and_congr_right fun _ => ⟨fun hrun => hrun mid hmid, fun hrun s₁ hs₁ => ?_⟩
      cases Option.some.inj (hs₁.symm.trans hmid)
      exact hrun
    rw [hiff', hiff, hrest, and_assoc]

/-- Over every run, refunds are what was charged exactly if each of them is made while
the fee is what it was when the packet was sent. -/
theorem refunds_match_iff (hfee : ProgramAddresses.canSign (ProgramAddresses.feeAccount : K) = false)
    (hs : s.Fresh) (h : calls.foldlM step s = some s') : s'.Matches ↔ s.RunSameFee calls := by
  obtain ⟨hs', hiff⟩ := run_accounted hfee hs.accounted h
  have hnone : s.Refunded := by
    intro r hr
    rw [hs.refunds] at hr
    cases hr
  rw [hs'.matches_iff, hiff]
  exact and_iff_right hnone

end FeeState

end

namespace FeeState

namespace Sample

abbrev mint : Address := .wallet 50

abbrev tokens : Address := .associatedToken (.wallet 1) mint

def account (k : Address) : AccountInfo Address := ⟨k, false, true⟩

/-- Accounts of an instruction about coins of one sender. -/
def accounts (signer : Address) (receiver : Option Address) : PassedAccounts Address :=
  ⟨⟨signer, true, true⟩, receiver.map account, some (account .mintAuthority), some (account mint),
    some (account (.escrow "usdc")), some (account tokens), some (account .feeAccount),
    some (account (.wallet 3)), []⟩

def ledger : Ledger Address where
  lamports := fun k => if k = .wallet 0 ∨ k = .wallet 1 then 10 ^ 9 else 0
  mints := fun k => if k = mint then some ⟨6, some (.wallet 51), 100⟩ else none
  tokens := fun k => if k = tokens then some ⟨mint, .wallet 1, 100, false⟩ else none

def start (fee : Nat) : FeeState Address String String :=
  ⟨⟨⟨fun _ => none, .wallet 4, fee⟩, ledger, [], []⟩, [], [], []⟩

def send (amount : Fin (2 ^ 256)) : FeeCall Address String String :=
  .transfer (.sendTransfer (accounts (.wallet 1) none) "usdc" true
    ⟨"transfer", "channel-0", .wallet 1, ⟨"usdc", amount⟩, true⟩)

def refund (index : Nat) : FeeCall Address String String :=
  .transfer (.refundPacket (accounts (.wallet 0) (some (.wallet 1))) index)

def change (fee : Fin (2 ^ 64)) : FeeCall Address String String := .setFeeAmount ⟨.wallet 4, true, false⟩ fee

theorem start_fresh (fee : Nat) : (start fee).Fresh := ⟨rfl, rfl, rfl⟩

end Sample

open Sample in
/-- The fee changes before the packet is sent and after it failed. -/
theorem refunds_match_sample :
    let calls := [change 9000, send 100, refund 0, change 5000]
    ∃ s', calls.foldlM step (start 5000) = some s' ∧ s'.refunds.map (·.lamports) = [9000] ∧ s'.Matches := by
  intro calls
  have hrefunds : (calls.foldlM step (start 5000)).map (fun s => s.refunds.map (·.lamports)) = some [9000] := by
    decide
  have hpending : ([change 9000, send 100].foldlM step (start 5000)).map
      (fun s => (s.transfer.priv.feeInLamports, s.pending.map (·.fee))) = some (9000, [9000]) := by
    decide
  obtain ⟨s', hrun, heq⟩ := Option.map_eq_some_iff.mp hrefunds
  refine ⟨s', hrun, heq, (refunds_match_iff rfl (start_fresh 5000) hrun).mpr ?_⟩
  refine ⟨trivial, fun s₁ hs₁ => ⟨trivial, fun s₂ hs₂ => ⟨?_, fun _ _ => ⟨trivial, fun _ _ => trivial⟩⟩⟩⟩
  intro charge hcharge
  simp only [List.foldlM_cons, List.foldlM_nil, hs₁, hs₂, Option.bind_eq_bind, Option.bind_some,
    Option.pure_def, Option.map_some, Option.some.injEq, Prod.mk.injEq] at hpending
  obtain ⟨hfee, hfees⟩ := hpending
  have hmem : charge.fee ∈ s₂.pending.map (·.fee) := List.mem_map_of_mem (List.mem_of_getElem? hcharge)
  rw [hfees] at hmem
  rw [hfee, List.mem_singleton.mp hmem]

open Sample in
/-- The fee goes up while the packet is in flight: more is refunded than was charged. -/
theorem more_refunded_than_charged :
    let calls := [send 100, change 9000, refund 0]
    (start 5000).Fresh ∧ ∃ s', calls.foldlM step (start 5000) = some s' ∧ s'.charged = [5000] ∧
      s'.refunds.map (·.lamports) = [9000] ∧ ¬ s'.Matches := by
  intro calls
  have hfees : (calls.foldlM step (start 5000)).map (fun s => (s.charged, s.refunds.map (·.lamports))) =
      some ([5000], [9000]) := by
    decide
  obtain ⟨s', hrun, heq⟩ := Option.map_eq_some_iff.mp hfees
  obtain ⟨hcharged, hrefunds⟩ := Prod.mk.inj heq
  refine ⟨start_fresh 5000, s', hrun, hcharged, hrefunds, fun hmatches => ?_⟩
  have htotal := hmatches.total
  rw [hcharged, hrefunds] at htotal
  exact absurd htotal (by decide)

end FeeState

end SolanaIbc
