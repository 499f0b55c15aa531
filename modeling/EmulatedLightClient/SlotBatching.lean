import EmulatedLightClient.ContractCalls
import EmulatedLightClient.GuestChainInvariant
import Mathlib.Data.List.Induction

/-!
# One guest block in a slot

An attempt to generate a block comes before every change of the trie and is made
once in a slot. Hence a guest block commits to the trie as it was when its slot
began, and whatever changes in one slot is committed together.
-/

namespace SolanaIbc

open ByteBits FailingState GuestChain MachineInts Nodes Storage

theorem Clock.slot_lt (clock : Clock) : clock.slot.val < 2 ^ 64 := clock.slot.isLt

def Clock.height (clock : Clock) : HostHeight := ⟨clock.slot.val, clock.slot_lt⟩

theorem getHostHead_height {clock : Clock} {height : HostHeight} {timestamp : NonZeroU64}
    (h : getHostHead clock = some (height, timestamp)) : height = clock.height := by
  simp only [getHostHead] at h
  split at h
  · cases h
    rfl
  · cases h

section

variable {PK Sig : Type} [PubKey PK] {digest : List Byte → CryptoHash}

/-- Guest blocks made, by the events about them. -/
def guestBlocks (events : List (Event PK Sig)) : List BlockHeader := events.filterMap Event.generated

omit [PubKey PK] in
@[simp] theorem guestBlocks_append (l₁ l₂ : List (Event PK Sig)) :
    guestBlocks (l₁ ++ l₂) = guestBlocks l₁ ++ guestBlocks l₂ :=
  List.filterMap_append ..

/-- What an attempt to make a block of a slot can give. -/
structure Attempt (slot : HostHeight) (stateRoot : CryptoHash) (blocks : List BlockHeader) : Prop where
  single : blocks.length ≤ 1
  hostHeight : ∀ b ∈ blocks, b.hostHeight = slot
  stateRoot : ∀ b ∈ blocks, b.stateRoot = stateRoot

theorem Attempt.none {slot : HostHeight} {stateRoot : CryptoHash} : Attempt slot stateRoot [] :=
  ⟨Nat.zero_le _, List.forall_mem_nil _, List.forall_mem_nil _⟩

theorem Attempt.block {slot : HostHeight} {stateRoot : CryptoHash} {b : BlockHeader} (hheight : b.hostHeight = slot)
    (hroot : b.stateRoot = stateRoot) : Attempt slot stateRoot [b] :=
  ⟨Nat.le_refl _, List.forall_mem_singleton.mpr hheight, List.forall_mem_singleton.mpr hroot⟩

theorem ChainInner.generateBlock_ok {c c' : ChainInner PK} {stateRoot : CryptoHash} {clock : Clock} {force : Bool}
    {events : List (Event PK Sig)} (h : c.generateBlock Sig digest stateRoot clock force = .ok (c', events)) :
    (c.lastCheckHeight = clock.height ∧ c' = c ∧ events = []) ∨
    (c.lastCheckHeight ≠ clock.height ∧ c'.lastCheckHeight = clock.height ∧
      Attempt clock.height stateRoot (guestBlocks events)) := by
  simp only [generateBlock, bind_eq_ok, orPanic_ok] at h
  obtain ⟨⟨height, timestamp⟩, hhead, h⟩ := h
  obtain rfl := getHostHead_height hhead
  split at h
  · rename_i hsame
    cases force with
    | true => cases h
    | false =>
      cases h
      exact Or.inl ⟨hsame, rfl, rfl⟩
  · rename_i hne
    simp only [bind_eq_ok, orPanic_ok] at h
    obtain ⟨⟨res, manager⟩, hnext, h⟩ := h
    cases res with
    | error err =>
      cases force with
      | true => cases h
      | false =>
        cases h
        exact Or.inr ⟨hne, rfl, .none⟩
    | ok =>
      obtain ⟨err, herr, -⟩ | ⟨block, -, -, -, hblock, rfl⟩ := ChainManager.generateNext_cases hnext
      · cases herr
      · cases h
        obtain ⟨hheight, hroot⟩ := BlockHeader.generateNext_host hblock
        exact Or.inr ⟨hne, rfl, .block hheight hroot⟩

theorem ChainInner.initialise_ok {c : ChainInner PK} {stateRoot : CryptoHash} {clock : Clock} {config : Config}
    {genesisEpoch : Epoch PK} {events : List (Event PK Sig)}
    (h : ChainInner.initialise Sig digest stateRoot clock config genesisEpoch = .ok (c, events)) :
    c.lastCheckHeight = clock.height ∧ Attempt clock.height stateRoot (guestBlocks events) := by
  simp only [initialise, bind_eq_ok, orPanic_ok] at h
  obtain ⟨⟨height, timestamp⟩, hhead, res, hnew, h⟩ := h
  obtain rfl := getHostHead_height hhead
  cases res with
  | error => cases h
  | ok manager =>
    simp only at h
    split at h
    · cases h
      obtain ⟨candidates, -, hnew⟩ := Option.bind_eq_some_iff.mp hnew
      cases hnew
      exact ⟨rfl, .block rfl rfl⟩
    · cases h

theorem ChainInner.signBlock_ok {c c' : ChainInner PK} {pubkey : PK} {signature : Sig}
    {verifier : Verifier PK Sig} {gotQuorum : Bool} {events : List (Event PK Sig)}
    (h : c.signBlock digest pubkey signature verifier = .ok (gotQuorum, c', events)) :
    c'.lastCheckHeight = c.lastCheckHeight ∧ guestBlocks events = [] := by
  simp only [signBlock, bind_eq_ok, orPanic_ok] at h
  obtain ⟨⟨res, manager⟩, -, h⟩ := h
  cases res with
  | error => cases h
  | ok effect =>
    cases h
    refine ⟨rfl, ?_⟩
    cases effect <;> rfl

theorem ChainInner.updateCandidate_ok {c c' : ChainInner PK} {pubkey : PK}
    {newStakeFn : Option (Candidate PK) → Except Error (Fin (2 ^ 128))}
    (h : c.updateCandidate pubkey newStakeFn = .ok c') : c'.lastCheckHeight = c.lastCheckHeight := by
  simp only [updateCandidate, bind_eq_ok, orPanic_ok] at h
  obtain ⟨⟨res, manager⟩, -, h⟩ := h
  cases res with
  | error => cases h
  | ok =>
    cases h
    rfl

theorem ChainInner.updateStake_ok {c c' : ChainInner PK} {stakeChanges : List (PK × BitVec 128)}
    (h : c.updateStake stakeChanges = .ok c') : c'.lastCheckHeight = c.lastCheckHeight := by
  induction stakeChanges generalizing c with
  | nil =>
    cases h
    rfl
  | cons change changes ih =>
    simp only [updateStake, List.foldlM_cons, bind_eq_ok] at h
    obtain ⟨c₁, hchange, h⟩ := h
    rw [ih h, updateCandidate_ok hchange]

end

namespace Contract

section

variable {PK Sig W Msg T C : Type} [PubKey PK] [Codec C] {digest : List Byte → CryptoHash}
  {root : (List Byte → Option CryptoHash) → CryptoHash} {handlers : Handlers PK W Msg T C}
  {c c' : Contract PK W} {clock : Clock} {events : List (Event PK Sig)}

/-- The slot in which a block was last attempted. -/
def lastCheck (c : Contract PK W) : Option HostHeight := c.chain.map (·.lastCheckHeight)

/-- What an instruction can do in a slot: nothing the trie notices, anything but make
a block if an attempt was made before, or else an attempt before any change. -/
inductive Batched (root : (List Byte → Option CryptoHash) → CryptoHash) (slot : HostHeight)
    (c c' : Contract PK W) (blocks : List BlockHeader) : Prop
  | idle (hcheck : c'.lastCheck = c.lastCheck) (hroot : c'.stateRoot root = c.stateRoot root) (hblocks : blocks = [])
  | again (hcheck : c.lastCheck = some slot) (hcheck' : c'.lastCheck = some slot) (hblocks : blocks = [])
  | attempted (hcheck : c.lastCheck ≠ some slot) (hcheck' : c'.lastCheck = some slot)
      (hblocks : Attempt slot (c.stateRoot root) blocks)

theorem initialise_batched {config : Config} {genesisEpoch : Epoch PK} {sigVerifyProgramId : Pubkey}
    (h : c.initialise digest root clock config genesisEpoch sigVerifyProgramId = .ok (c', events)) :
    Batched root clock.height c c' (guestBlocks events) := by
  simp only [initialise, bind_eq_ok] at h
  obtain ⟨⟨inner, events'⟩, hinner, h⟩ := h
  obtain ⟨hheight, hattempt⟩ := ChainInner.initialise_ok hinner
  split at h
  · cases h
  · rename_i hchain
    cases h
    refine .attempted ?_ (congrArg some hheight) hattempt
    rw [lastCheck, Option.not_isSome_iff_eq_none.mp hchain]
    exact (Option.some_ne_none _).symm

/-- An attempt leaves the store and the rest of the world alone. -/
theorem generateBlock_ok {force : Bool} (h : c.generateBlock digest root clock force = .ok (c', events)) :
    c'.stateRoot root = c.stateRoot root ∧ c'.lastCheck = some clock.height ∧
      Batched root clock.height c c' (guestBlocks events) := by
  simp only [generateBlock, bind_eq_ok, get_ok] at h
  obtain ⟨inner, hinner, ⟨inner', events'⟩, hgenerate, h⟩ := h
  have hcheck : c.lastCheck = some inner.lastCheckHeight := congrArg _ hinner
  cases h
  obtain ⟨hsame, rfl, rfl⟩ | ⟨hne, hcheck', hattempt⟩ := ChainInner.generateBlock_ok hgenerate
  · have hcheck' : Contract.lastCheck { c with chain := some inner' } = some clock.height := congrArg some hsame
    exact ⟨rfl, hcheck', .again (hcheck.trans (congrArg some hsame)) hcheck' rfl⟩
  · refine ⟨rfl, congrArg some hcheck', .attempted ?_ (congrArg some hcheck') hattempt⟩
    rw [hcheck]
    exact fun heq => hne (Option.some.inj heq)

theorem signBlock_batched {sender : PK} {signature : Sig} {verifier : Option (Verifier PK Sig)}
    (h : c.signBlock digest root clock sender signature verifier = .ok (c', events)) :
    Batched root clock.height c c' (guestBlocks events) := by
  simp only [signBlock, bind_eq_ok, get_ok] at h
  obtain ⟨verifier', -, inner, hinner, ⟨gotQuorum, inner', signed⟩, hsign, h⟩ := h
  obtain ⟨hheight, hsigned⟩ := ChainInner.signBlock_ok hsign
  have hcheck : Contract.lastCheck { c with chain := some inner' } = c.lastCheck := by
    rw [lastCheck, lastCheck, hinner]
    exact congrArg some hheight
  cases gotQuorum with
  | false =>
    cases h
    exact .idle hcheck rfl hsigned
  | true =>
    simp only [if_true, bind_eq_ok] at h
    obtain ⟨⟨c₁, generated⟩, hgenerate, h⟩ := h
    cases h
    rw [guestBlocks_append, hsigned, List.nil_append]
    obtain ⟨-, -, hbatched⟩ := generateBlock_ok hgenerate
    cases hbatched with
    | idle hcheck' hroot hblocks => exact .idle (hcheck'.trans hcheck) hroot hblocks
    | again hsame hcheck' hblocks => exact .again (hcheck ▸ hsame) hcheck' hblocks
    | attempted hne hcheck' hblocks => exact .attempted (hcheck ▸ hne) hcheck' hblocks

/-- After the attempt an instruction may change the store in any way. -/
theorem afterGenerating_batched {handle : Contract PK W → ChainInner PK → Except Error (Contract PK W)}
    (hhandle : ∀ c₁ inner c₂, c₁.chain = some inner → handle c₁ inner = .ok c₂ → c₂.lastCheck = c₁.lastCheck)
    (h : c.afterGenerating digest root clock handle = .ok (c', events)) :
    Batched root clock.height c c' (guestBlocks events) := by
  simp only [afterGenerating, bind_eq_ok, get_ok] at h
  obtain ⟨⟨c₁, events₁⟩, hgenerate, inner, hinner, c₂, hc₂, h⟩ := h
  cases h
  obtain ⟨-, hcheck, hbatched⟩ := generateBlock_ok hgenerate
  have hcheck' : c'.lastCheck = some clock.height := (hhandle c₁ inner c' hinner hc₂).trans hcheck
  cases hbatched with
  | idle hsame hroot hblocks => exact .again (hsame.symm.trans hcheck) hcheck' hblocks
  | again hsame _ hblocks => exact .again hsame hcheck' hblocks
  | attempted hne _ hblocks => exact .attempted hne hcheck' hblocks

theorem handle_batched {ix : ContractInstruction PK Sig Msg T} (h : c.handle digest root handlers ix = .ok (c', events)) :
    Batched root ix.clock.height c c' (guestBlocks events) := by
  obtain ⟨clock, call⟩ := ix
  cases call with
  | initialise config genesisEpoch sigVerifyProgramId => exact initialise_batched h
  | generateBlock => exact (generateBlock_ok h).2.2
  | signBlock sender signature verifier => exact signBlock_batched h
  | setStake caller validator amount =>
    obtain ⟨-, -, h⟩ := bind_eq_ok.mp h
    refine afterGenerating_batched (fun c₁ inner c₂ hinner hc₂ => ?_) h
    obtain ⟨inner', hupdate, hc₂⟩ := bind_eq_ok.mp hc₂
    cases hc₂
    rw [lastCheck, lastCheck, hinner]
    exact congrArg some (ChainInner.updateCandidate_ok hupdate)
  | updateStake caller stakeChanges =>
    obtain ⟨-, -, h⟩ := bind_eq_ok.mp h
    refine afterGenerating_batched (fun c₁ inner c₂ hinner hc₂ => ?_) h
    obtain ⟨inner', hupdate, hc₂⟩ := bind_eq_ok.mp hc₂
    cases hc₂
    rw [lastCheck, lastCheck, hinner]
    exact congrArg some (ChainInner.updateStake_ok hupdate)
  | deliver sender message =>
    simp only [handle, deliver] at h
    split at h
    · cases h
    · refine afterGenerating_batched (fun c₁ inner c₂ hinner hc₂ => ?_) h
      obtain ⟨⟨storage, world⟩, -, hc₂⟩ := bind_eq_ok.mp hc₂
      cases hc₂
      rfl
  | sendTransfer hashedFullDenom msg =>
    simp only [handle, sendTransfer] at h
    split at h
    · cases h
    · refine afterGenerating_batched (fun c₁ inner c₂ hinner hc₂ => ?_) h
      split at hc₂
      · cases hc₂
      · obtain ⟨world, -, hc₂⟩ := bind_eq_ok.mp hc₂
        obtain ⟨⟨storage, world'⟩, -, hc₂⟩ := bind_eq_ok.mp hc₂
        cases hc₂
        rfl
  | updateConnectionDelayPeriod connectionIdIdx delayPeriodInNs =>
    simp only [handle, updateConnectionDelayPeriod] at h
    split at h
    · cases h
    · refine afterGenerating_batched (fun c₁ inner c₂ hinner hc₂ => ?_) h
      simp only [bind_eq_ok] at hc₂
      obtain ⟨connectionEnd, -, updated, -, storage, -, hc₂⟩ := hc₂
      cases hc₂
      rfl

variable (digest root handlers) in
/-- The contract after given instructions. -/
def after (start : Contract PK W) (ixs : List (ContractInstruction PK Sig Msg T)) : Contract PK W :=
  (start.execAll digest root handlers ixs).1

variable (digest root handlers) in
/-- Guest blocks made by given instructions, oldest first. -/
def blocksOf (start : Contract PK W) (ixs : List (ContractInstruction PK Sig Msg T)) : List BlockHeader :=
  guestBlocks (start.execAll digest root handlers ixs).2

variable {start : Contract PK W} {ixs : List (ContractInstruction PK Sig Msg T)}
  {ix : ContractInstruction PK Sig Msg T}

theorem after_concat :
    start.after digest root handlers (ixs ++ [ix]) =
      ((start.after digest root handlers ixs).exec digest root handlers ix).1 := by
  induction ixs generalizing start with
  | nil => rfl
  | cons ix' ixs ih => exact ih

theorem blocksOf_concat :
    start.blocksOf digest root handlers (ixs ++ [ix]) = start.blocksOf digest root handlers ixs ++
      guestBlocks ((start.after digest root handlers ixs).exec digest root handlers ix).2 := by
  induction ixs generalizing start with
  | nil => simp [blocksOf, after, execAll, guestBlocks]
  | cons ix' ixs ih =>
    have hcons : ∀ l : List (ContractInstruction PK Sig Msg T), start.blocksOf digest root handlers (ix' :: l) =
        guestBlocks (start.exec digest root handlers ix').2 ++
          (start.exec digest root handlers ix').1.blocksOf digest root handlers l :=
      fun l => guestBlocks_append ..
    rw [List.cons_append, hcons, hcons, ih, List.append_assoc]
    rfl

theorem exec_batched (c : Contract PK W) (ix : ContractInstruction PK Sig Msg T) :
    Batched root ix.clock.height c (c.exec digest root handlers ix).1
      (guestBlocks (c.exec digest root handlers ix).2) := by
  unfold exec
  split
  · rename_i res h
    exact handle_batched h
  · exact .idle rfl rfl rfl

/-- Instructions of the slots before given one. -/
def earlier (slot : HostHeight) (ixs : List (ContractInstruction PK Sig Msg T)) :
    List (ContractInstruction PK Sig Msg T) :=
  ixs.filter fun ix => ix.clock.height < slot

omit [PubKey PK] in
theorem earlier_concat_of_le {slot : HostHeight} (h : slot ≤ ix.clock.height) :
    earlier slot (ixs ++ [ix]) = earlier slot ixs := by
  simp [earlier, List.filter_append, not_lt.mpr h]

omit [PubKey PK] in
theorem earlier_eq_self {slot : HostHeight} (h : ∀ ix ∈ ixs, ix.clock.height < slot) : earlier slot ixs = ixs :=
  List.filter_eq_self.mpr fun ix hix => decide_eq_true (h ix hix)

omit [PubKey PK] in
/-- In a run they come before all others. -/
theorem exists_eq_earlier_append (slot : HostHeight)
    (hslots : ixs.Pairwise fun a b => a.clock.height ≤ b.clock.height) :
    ∃ later, ixs = earlier slot ixs ++ later ∧ ∀ ix ∈ later, slot ≤ ix.clock.height := by
  induction ixs with
  | nil => exact ⟨[], rfl, List.forall_mem_nil _⟩
  | cons ix ixs ih =>
    obtain ⟨hix, hixs⟩ := List.pairwise_cons.mp hslots
    by_cases hlt : ix.clock.height < slot
    · obtain ⟨later, heq, hlater⟩ := ih hixs
      refine ⟨later, ?_, hlater⟩
      have hcons : earlier slot (ix :: ixs) = ix :: earlier slot ixs := List.filter_cons_of_pos (by simpa using hlt)
      rw [hcons, List.cons_append, ← heq]
    · have hle : ∀ ix' ∈ ix :: ixs, slot ≤ ix'.clock.height :=
        List.forall_mem_cons.mpr ⟨not_lt.mp hlt, fun ix' hix' => (not_lt.mp hlt).trans (hix ix' hix')⟩
      refine ⟨ix :: ixs, ?_, hle⟩
      have hnone : earlier slot (ix :: ixs) = [] :=
        List.filter_eq_nil_iff.mpr fun ix' hix' => by simpa using hle ix' hix'
      rw [hnone, List.nil_append]

variable (digest root handlers) in
/-- What holds after a run: blocks only of slots which have been checked, and a slot
not yet checked finds the trie as the slots before left it. -/
structure Slots (start : Contract PK W) (ixs : List (ContractInstruction PK Sig Msg T)) : Prop where
  checked : ∀ slot ∈ (start.after digest root handlers ixs).lastCheck, ∃ ix ∈ ixs, ix.clock.height = slot
  untouched : ∀ slot, (∀ ix ∈ ixs, ix.clock.height ≤ slot) →
    (start.after digest root handlers ixs).lastCheck ≠ some slot →
    (start.after digest root handlers ixs).stateRoot root =
      (start.after digest root handlers (earlier slot ixs)).stateRoot root
  ordered : (start.blocksOf digest root handlers ixs).Pairwise fun a b => a.hostHeight < b.hostHeight
  bounded : ∀ b ∈ start.blocksOf digest root handlers ixs,
    ∃ slot ∈ (start.after digest root handlers ixs).lastCheck, b.hostHeight ≤ slot
  committed : ∀ b ∈ start.blocksOf digest root handlers ixs,
    b.stateRoot = (start.after digest root handlers (earlier b.hostHeight ixs)).stateRoot root

theorem slots_nil (hstart : start.chain = none) : Slots digest root handlers start ([] : List (ContractInstruction PK Sig Msg T)) where
  checked := by
    intro slot hslot
    have hnone : (start.after digest root handlers ([] : List (ContractInstruction PK Sig Msg T))).lastCheck = none :=
      congrArg _ hstart
    rw [hnone] at hslot
    cases hslot
  untouched := fun _ _ _ => rfl
  ordered := List.Pairwise.nil
  bounded := List.forall_mem_nil _
  committed := List.forall_mem_nil _

variable (digest root handlers) in
theorem exists_batched (start : Contract PK W) (ixs : List (ContractInstruction PK Sig Msg T))
    (ix : ContractInstruction PK Sig Msg T) :
    ∃ blocks, start.blocksOf digest root handlers (ixs ++ [ix]) = start.blocksOf digest root handlers ixs ++ blocks ∧
      Batched root ix.clock.height (start.after digest root handlers ixs)
        (start.after digest root handlers (ixs ++ [ix])) blocks := by
  refine ⟨_, blocksOf_concat, ?_⟩
  rw [after_concat]
  exact exec_batched _ ix

theorem Slots.checked_le (h : Slots digest root handlers start ixs)
    (hle : ∀ ix' ∈ ixs, ix'.clock.height ≤ ix.clock.height) :
    ∀ slot ∈ (start.after digest root handlers ixs).lastCheck, slot ≤ ix.clock.height := by
  intro slot hslot
  obtain ⟨ix', hix', rfl⟩ := h.checked slot hslot
  exact hle ix' hix'

theorem Slots.committed_concat (h : Slots digest root handlers start ixs)
    (hle : ∀ ix' ∈ ixs, ix'.clock.height ≤ ix.clock.height) :
    ∀ b ∈ start.blocksOf digest root handlers ixs,
      b.stateRoot = (start.after digest root handlers (earlier b.hostHeight (ixs ++ [ix]))).stateRoot root := by
  intro b hb
  obtain ⟨slot, hslot, hbslot⟩ := h.bounded b hb
  rw [earlier_concat_of_le (hbslot.trans (h.checked_le hle slot hslot))]
  exact h.committed b hb

/-- The trie is touched only after the slot has been checked. -/
theorem Slots.untouched_concat (h : Slots digest root handlers start ixs)
    (hle : ∀ ix' ∈ ixs, ix'.clock.height ≤ ix.clock.height)
    (hidle : (start.after digest root handlers (ixs ++ [ix])).lastCheck ≠ some ix.clock.height →
      (start.after digest root handlers ixs).lastCheck ≠ some ix.clock.height ∧
        (start.after digest root handlers (ixs ++ [ix])).stateRoot root =
          (start.after digest root handlers ixs).stateRoot root)
    (slot : HostHeight) (hslot : ∀ ix' ∈ ixs ++ [ix], ix'.clock.height ≤ slot)
    (hcheck : (start.after digest root handlers (ixs ++ [ix])).lastCheck ≠ some slot) :
    (start.after digest root handlers (ixs ++ [ix])).stateRoot root =
      (start.after digest root handlers (earlier slot (ixs ++ [ix]))).stateRoot root := by
  rcases (hslot ix (by simp)).eq_or_lt with rfl | hlt
  · obtain ⟨hcheck', hroot⟩ := hidle hcheck
    rw [hroot, earlier_concat_of_le le_rfl]
    exact h.untouched _ hle hcheck'
  · have hall : ∀ ix' ∈ ixs ++ [ix], ix'.clock.height < slot := by
      intro ix' hix'
      rcases List.mem_append.mp hix' with hix' | hix'
      · exact (hle ix' hix').trans_lt hlt
      · rw [List.mem_singleton.mp hix']
        exact hlt
    rw [earlier_eq_self hall]

/-- An instruction of a slot which is not over keeps the invariant. -/
theorem Slots.concat (h : Slots digest root handlers start ixs)
    (hle : ∀ ix' ∈ ixs, ix'.clock.height ≤ ix.clock.height) :
    Slots digest root handlers start (ixs ++ [ix]) := by
  obtain ⟨blocks, hblocks, hstep⟩ := exists_batched digest root handlers start ixs ix
  cases hstep with
  | idle hcheck hroot hnone =>
    subst hnone
    rw [List.append_nil] at hblocks
    constructor
    · rw [hcheck]
      intro slot hslot
      obtain ⟨ix', hix', rfl⟩ := h.checked slot hslot
      exact ⟨ix', List.mem_append_left _ hix', rfl⟩
    · exact h.untouched_concat hle fun hne => ⟨hcheck ▸ hne, hroot⟩
    · rw [hblocks]
      exact h.ordered
    · rw [hblocks, hcheck]
      exact h.bounded
    · rw [hblocks]
      exact h.committed_concat hle
  | again hcheck hcheck' hnone =>
    subst hnone
    rw [List.append_nil] at hblocks
    constructor
    · rw [hcheck']
      rintro slot ⟨⟩
      exact ⟨ix, by simp, rfl⟩
    · exact h.untouched_concat hle fun hne => absurd hcheck' hne
    · rw [hblocks]
      exact h.ordered
    · rw [hblocks, hcheck', ← hcheck]
      exact h.bounded
    · rw [hblocks]
      exact h.committed_concat hle
  | attempted hcheck hcheck' hattempt =>
    constructor
    · rw [hcheck']
      rintro slot ⟨⟩
      exact ⟨ix, by simp, rfl⟩
    · exact h.untouched_concat hle fun hne => absurd hcheck' hne
    · rw [hblocks, List.pairwise_append]
      refine ⟨h.ordered, ?_, ?_⟩
      · obtain hlt | hone := Nat.lt_or_eq_of_le hattempt.single
        · rw [List.length_eq_zero_iff.mp (Nat.lt_one_iff.mp hlt)]
          exact List.Pairwise.nil
        · obtain ⟨b, rfl⟩ := List.length_eq_one_iff.mp hone
          exact List.pairwise_singleton ..
      · intro b hb b' hb'
        obtain ⟨slot, hslot, hbslot⟩ := h.bounded b hb
        have hne : slot ≠ ix.clock.height := fun heq => hcheck (heq ▸ hslot)
        rw [hattempt.hostHeight b' hb']
        exact hbslot.trans_lt (lt_of_le_of_ne (h.checked_le hle slot hslot) hne)
    · rw [hblocks, hcheck']
      intro b hb
      refine ⟨_, rfl, ?_⟩
      rcases List.mem_append.mp hb with hb | hb
      · obtain ⟨slot, hslot, hbslot⟩ := h.bounded b hb
        exact hbslot.trans (h.checked_le hle slot hslot)
      · exact (hattempt.hostHeight b hb).le
    · rw [hblocks]
      intro b hb
      rcases List.mem_append.mp hb with hb | hb
      · exact h.committed_concat hle b hb
      · rw [hattempt.stateRoot b hb, hattempt.hostHeight b hb, earlier_concat_of_le le_rfl]
        exact h.untouched _ hle hcheck

variable (digest root handlers) in
theorem slots_of_run (hstart : start.chain = none)
    (hslots : ixs.Pairwise fun a b => a.clock.height ≤ b.clock.height) :
    Slots digest root handlers start ixs := by
  induction ixs using List.reverseRecOn with
  | nil => exact slots_nil hstart
  | append_singleton ixs ix ih =>
    obtain ⟨hixs, -, hle⟩ := List.pairwise_append.mp hslots
    exact (ih hixs).concat fun ix' hix' => hle ix' hix' ix (by simp)

variable (digest root handlers) in
/-- A run has at most one guest block in a slot. The state a block commits to is the
one all instructions of earlier slots and no others have left, so changes of one slot
are committed by the same block. -/
theorem guest_blocks_of_whole_slots (hstart : start.chain = none)
    (hslots : ixs.Pairwise fun a b => a.clock.slot ≤ b.clock.slot) :
    (start.blocksOf digest root handlers ixs).Pairwise (fun a b => a.hostHeight < b.hostHeight) ∧
    ∀ b ∈ start.blocksOf digest root handlers ixs, ∃ before later, ixs = before ++ later ∧
      (∀ ix ∈ before, ix.clock.height < b.hostHeight) ∧ (∀ ix ∈ later, b.hostHeight ≤ ix.clock.height) ∧
      b.stateRoot = (start.after digest root handlers before).stateRoot root := by
  have h := slots_of_run digest root handlers hstart hslots
  refine ⟨h.ordered, fun b hb => ?_⟩
  obtain ⟨later, heq, hlater⟩ := exists_eq_earlier_append b.hostHeight hslots
  refine ⟨_, later, heq, ?_, hlater, h.committed b hb⟩
  intro ix hix
  simpa using (List.mem_filter.mp hix).2

end

namespace Sample

/-- Messages are values which are put into the trie at one key. -/
def handlers : Handlers MockPubKey Unit CryptoHash Unit Byte where
  dispatch := fun _ _ message s => .ok (s.1.setProvable [] (some message), s.2)
  sendTransfer := fun _ _ s => .ok s
  systemTransfer := fun _ w => some w
  withDelayPeriod := fun c _ => .ok c

def root (provable : List Byte → Option CryptoHash) : CryptoHash := (provable []).getD CryptoHash.default

def start : Contract MockPubKey Unit :=
  ⟨none, relayer, TrieIds.u64 5, ⟨⟨[], [], []⟩, fun _ => none⟩, ()⟩

def instruction (slot : Nat) (call : ContractCall MockPubKey MockSignature CryptoHash Unit) :
    ContractInstruction MockPubKey MockSignature CryptoHash Unit :=
  ⟨⟨TrieIds.u64 slot, slot⟩, call⟩

/-- Messages in the slot of the genesis, in one too early for a block and twice in
the slot of the next block. -/
def run : List (ContractInstruction MockPubKey MockSignature CryptoHash Unit) :=
  [instruction 1 (.initialise sampleConfig sampleEpoch relayer),
    instruction 1 (.deliver relayer (sampleRoot 1#8)), instruction 3 (.deliver relayer (sampleRoot 2#8)),
    instruction 7 (.deliver relayer (sampleRoot 3#8)), instruction 7 (.deliver relayer (sampleRoot 4#8))]

end Sample

open Sample in
theorem guest_blocks_sample :
    let digest : List Byte → CryptoHash := fun _ => CryptoHash.default
    let blocks := start.blocksOf digest root handlers run
    blocks.map (fun b => (b.hostHeight.val, b.stateRoot)) = [(1, CryptoHash.default), (7, sampleRoot 2#8)] ∧
    blocks.Pairwise (fun a b => a.hostHeight < b.hostHeight) ∧
    ∀ b ∈ blocks, ∃ before later, run = before ++ later ∧
      (∀ ix ∈ before, ix.clock.height < b.hostHeight) ∧ (∀ ix ∈ later, b.hostHeight ≤ ix.clock.height) ∧
      b.stateRoot = (start.after digest root handlers before).stateRoot root := by
  intro digest blocks
  have hslots : run.Pairwise fun a b => a.clock.slot ≤ b.clock.slot := by decide
  exact ⟨by decide, guest_blocks_of_whole_slots digest root handlers rfl hslots⟩

end Contract

end SolanaIbc
