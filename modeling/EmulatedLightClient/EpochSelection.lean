import EmulatedLightClient.CandidatesSpec
import EmulatedLightClient.GuestChainInvariant

/-!
# Candidates and epochs of the manager

Validators of the next epoch are the head of the candidates. The manager looks
at the changed flag to tell whether there is anything new in the head and relies
on candidates staying within limits of the configuration.
-/

namespace GuestChain

open ByteBits MachineInts Nodes FailingState Weights

variable {PK Sig E : Type} [PubKey PK] [OfUpdateCandidateError E]

/-- Candidates who would be validators of the next epoch. -/
def Candidates.head {PK : Type} (c : Candidates PK) : List (Validator PK) :=
  (c.candidates.take c.maxValidators.get).map Candidate.toValidator

namespace ChainManager

/-- The epoch defined most recently; the block which defines it may still be pending. -/
def definedEpoch {PK : Type} (m : ChainManager PK) : Epoch PK :=
  (m.pendingBlock.bind (·.nextBlock.nextEpoch)).getD m.nextEpoch

variable {m m' : ChainManager PK}

omit [PubKey PK] in
theorem validators_of_generated {hostHeight : HostHeight} {e : Epoch PK}
    (h : m.maybeGenerateNextEpoch hostHeight = some e) : e.validators = m.candidates.head := by
  unfold maybeGenerateNextEpoch at h
  split at h
  · obtain ⟨validators, hhead, hnew⟩ := Option.bind_eq_some_iff.mp h
    obtain ⟨rfl, -⟩ := Epoch.newWith_eq_some hnew
    unfold Candidates.maybeGetHead at hhead
    split at hhead
    · exact (Option.some.inj hhead).symm
    · cases hhead
  · cases h

/-- What a call does to the configuration, the candidates and the defined epoch. -/
inductive Selects (m m' : ChainManager PK) : Call PK Sig E → Prop
  | keeps {call : Call PK Sig E} (hconfig : m'.config = m.config)
      (hcandidates : m'.candidates = m.candidates) (hepoch : m'.definedEpoch = m.definedEpoch) :
      Selects m m' call
  | defines {call : Call PK Sig E} (hconfig : m'.config = m.config)
      (hcandidates : m'.candidates = m.candidates.clearChangedFlag)
      (hepoch : m'.definedEpoch.validators = m.candidates.head) : Selects m m' call
  | updates {pubkey : PK} {newStakeFn : Option (Candidate PK) → Except E (Fin (2 ^ 128))}
      (r : Except E Unit) (candidates : Candidates PK)
      (hupdate : m.candidates.update m.config pubkey newStakeFn = some (r, candidates))
      (hm : m' = { m with candidates }) : Selects m m' (.updateCandidate pubkey newStakeFn)
  | configures {payload : UpdateConfig} (config : Config) (candidates : Candidates PK)
      (hconfig : m.config.update m.candidates.headStake m.nextEpoch.validators.length payload =
        .ok config)
      (hresize : (payload.maxValidators = none ∧ candidates = m.candidates) ∨
        ∃ count, payload.maxValidators = some count ∧
          m.candidates.updateMaxValidators count = some candidates)
      (hm : m' = { m with config, candidates }) : Selects m m' (.updateConfig payload)

theorem generateNext_selects {digest : List Byte → CryptoHash} {hostHeight : HostHeight}
    {hostTimestamp : NonZeroU64} {stateRoot : CryptoHash} {r : Except GenerateError Unit}
    {call : Call PK Sig E}
    (h : m.generateNext digest hostHeight hostTimestamp stateRoot = some (r, m')) :
    Selects m m' call := by
  obtain ⟨e, -, rfl⟩ | ⟨block, -, hpending, hepoch, -, rfl⟩ := generateNext_cases h
  · exact .keeps rfl rfl rfl
  · cases hnext : block.nextEpoch with
    | none =>
      refine .keeps rfl ?_ ?_
      · simp
      · simp [definedEpoch, hnext, hpending]
    | some e =>
      rw [hnext] at hepoch
      refine .defines rfl ?_ ?_
      · simp
      · simp [definedEpoch, hnext, validators_of_generated hepoch]

theorem addSignature_selects {verifier : Verifier PK Sig} {pubkey : PK} {signature : Sig}
    {r : Except AddSignatureError AddSignatureEffect} {call : Call PK Sig E}
    (h : m.addSignature pubkey signature verifier = some (r, m')) : Selects m m' call := by
  obtain ⟨-, rfl⟩ | ⟨pending, validator, hpending, -, -, -, ⟨-, rfl⟩ | ⟨-, -, rfl⟩⟩ :=
    addSignature_cases h
  · exact .keeps rfl rfl rfl
  · exact .keeps rfl rfl (by simp [definedEpoch, hpending])
  · refine .keeps (finalise_config _ _) (finalise_candidates _ _) ?_
    simp [definedEpoch, hpending]

theorem updateConfig_selects {payload : UpdateConfig} {r : Except UpdateConfigError Unit}
    (h : m.updateConfig payload = some (r, m')) :
    Selects m m' (.updateConfig payload : Call PK Sig E) := by
  unfold updateConfig at h
  split at h
  · cases h
    exact .keeps rfl rfl rfl
  · rename_i config hconfig
    split at h
    · rename_i hnone
      cases h
      exact .configures config m.candidates hconfig (Or.inl ⟨hnone, rfl⟩) rfl
    · rename_i count hcount
      obtain ⟨candidates, hresize, h⟩ := Option.bind_eq_some_iff.mp h
      cases h
      exact .configures config candidates hconfig (Or.inr ⟨count, hcount, hresize⟩) rfl

omit [PubKey PK] in
theorem recordGenerated_manager (s : ChainRun PK Sig) (r : Except GenerateError Unit)
    (m : ChainManager PK) : (s.recordGenerated (r, m)).manager = m := by
  cases r <;> rfl

omit [PubKey PK] in
theorem recordSignature_manager (s : ChainRun PK Sig) (pubkey : PK) (signature : Sig)
    (r : Except AddSignatureError AddSignatureEffect) (m : ChainManager PK) :
    (s.recordSignature pubkey signature (r, m)).manager = m := by
  rcases r with e | effect
  · rfl
  · cases effect <;> rfl

theorem step_selects {digest : List Byte → CryptoHash} {verifier : Verifier PK Sig}
    {s s' : ChainRun PK Sig} (call : Call PK Sig E) (h : s.step digest verifier call = some s') :
    Selects s.manager s'.manager call := by
  cases call with
  | generateNext hostHeight hostTimestamp stateRoot =>
    obtain ⟨⟨r, m'⟩, hm, rfl⟩ := Option.map_eq_some_iff.mp h
    rw [recordGenerated_manager]
    exact generateNext_selects hm
  | addSignature pubkey signature =>
    obtain ⟨⟨r, m'⟩, hm, rfl⟩ := Option.map_eq_some_iff.mp h
    rw [recordSignature_manager]
    exact addSignature_selects hm
  | updateCandidate pubkey newStakeFn =>
    obtain ⟨⟨r, m'⟩, hm, rfl⟩ := Option.map_eq_some_iff.mp h
    obtain ⟨⟨r', candidates⟩, hupdate, hm⟩ := Option.bind_eq_some_iff.mp hm
    cases hm
    exact .updates r candidates hupdate rfl
  | updateConfig payload =>
    obtain ⟨⟨r, m'⟩, hm, rfl⟩ := Option.map_eq_some_iff.mp h
    exact updateConfig_selects hm

end ChainManager

/-- As long as the flag is not set, validators of the defined epoch are the head. -/
structure Detects (m : ChainManager PK) : Prop where
  sound : m.candidates.Sound
  unchanged : m.candidates.changed = false → m.definedEpoch.validators.Perm m.candidates.head

omit [PubKey PK] in
theorem Candidates.Replaced.head_eq {c c' : Candidates PK} {l : List (Candidate PK)}
    (h : c.Replaced c' l)
    (hsame : l.take c.maxValidators.get = c.candidates.take c.maxValidators.get) :
    c'.head = c.head := by
  rw [head, head, h.candidates, h.maxValidators, hsame]

omit [PubKey PK] in
theorem Candidates.Resized.head_eq {c c' : Candidates PK} {count : NonZeroU16}
    (h : c.Resized c' count)
    (hsame : c.candidates.take count.get = c.candidates.take c.maxValidators.get) :
    c'.head = c.head := by
  rw [head, head, h.candidates, h.maxValidators, hsame]

/-- Candidates may change as long as a change of the head sets the flag. -/
theorem Detects.candidates {m : ChainManager PK} (h : Detects m) (config : Config)
    {candidates : Candidates PK} (hsound : candidates.Sound)
    (hchanged : candidates.changed = true ∨
      (candidates.changed = m.candidates.changed ∧ candidates.head = m.candidates.head)) :
    Detects { m with config, candidates } := by
  refine ⟨hsound, fun hunchanged => ?_⟩
  rcases hchanged with hset | ⟨hkept, hhead⟩
  · cases hset.symm.trans hunchanged
  · show m.definedEpoch.validators.Perm candidates.head
    rw [hhead]
    exact h.unchanged (hkept.symm.trans hunchanged)

theorem Detects.updated {m : ChainManager PK} (h : Detects m) {pubkey : PK}
    {newStakeFn : Option (Candidate PK) → Except E (Fin (2 ^ 128))} {r : Except E Unit}
    {candidates : Candidates PK}
    (hupdate : m.candidates.update m.config pubkey newStakeFn = some (r, candidates)) :
    Detects { m with candidates } := by
  obtain ⟨e, -, he⟩ | ⟨stake, -, houtcome⟩ :=
    Candidates.update_outcome h.sound m.config pubkey newStakeFn
  · cases hupdate.symm.trans he
    exact h
  · rw [hupdate] at houtcome
    cases houtcome with
    | fails => exact h
    | succeeds hreplaced =>
      refine h.candidates m.config
        (hreplaced.sound (Candidates.requested_sorted h.sound.sorted _ _)) ?_
      rcases hreplaced.changed with hset | ⟨hkept, hsame⟩
      · exact Or.inl hset
      · exact Or.inr ⟨hkept, hreplaced.head_eq hsame⟩

theorem Detects.resized {m : ChainManager PK} (h : Detects m) (config : Config)
    {count : NonZeroU16} {candidates : Candidates PK}
    (hresize : m.candidates.updateMaxValidators count = some candidates) :
    Detects { m with config, candidates } := by
  have hresized := (Candidates.updateMaxValidators_spec h.sound count).2 candidates hresize
  refine h.candidates config (hresized.sound h.sound) ?_
  rcases hresized.changed with hset | ⟨hkept, hsame⟩
  · exact Or.inl hset
  · exact Or.inr ⟨hkept, hresized.head_eq hsame⟩

theorem Detects.step {m m' : ChainManager PK} {call : Call PK Sig E} (h : Detects m)
    (hstep : ChainManager.Selects m m' call) : Detects m' := by
  cases hstep with
  | keeps _ hcandidates hepoch =>
    constructor
    · rw [hcandidates]
      exact h.sound
    · rw [hcandidates, hepoch]
      exact h.unchanged
  | defines _ hcandidates hepoch =>
    constructor
    · rw [hcandidates]
      exact ⟨h.sound.sorted, h.sound.headStake, h.sound.fits⟩
    · intro _
      rw [hcandidates, hepoch]
      exact List.Perm.refl _
  | updates r candidates hupdate hm =>
    subst hm
    exact h.updated hupdate
  | configures config candidates _ hresize hm =>
    subst hm
    rcases hresize with ⟨-, rfl⟩ | ⟨count, -, hresize⟩
    · exact ⟨h.sound, h.unchanged⟩
    · exact h.resized config hresize

theorem toValidator_ofValidator {PK : Type} (v : Validator PK) :
    (Candidate.ofValidator v).toValidator = v := rfl

theorem Detects.new {digest : List Byte → CryptoHash} {config : Config} {genesis : Block PK}
    {m : ChainManager PK} (h : ChainManager.new digest config genesis = some (.ok m)) :
    Detects m := by
  obtain ⟨-, -, -, -, hpending, -, hcandidates⟩ := ChainManager.new_ok h
  obtain ⟨hsound, hmax, hperm, hchanged⟩ := Candidates.new_spec hcandidates
  refine ⟨hsound, fun hunchanged => ?_⟩
  have hlength : m.candidates.candidates.length ≤ m.candidates.maxValidators.get := by
    rw [hchanged, decide_eq_false_iff_not, not_lt] at hunchanged
    rw [hperm.length_eq, List.length_map, hmax]
    exact hunchanged
  have hvalidators := (hperm.map Candidate.toValidator).symm
  simp only [List.map_map, Function.comp_def, toValidator_ofValidator, List.map_id'] at hvalidators
  rw [Candidates.head, List.take_of_length_le hlength, ChainManager.definedEpoch, hpending]
  exact hvalidators

/-- Whatever the calls, as long as the flag is not set the head of the candidates is what
validators of the most recently defined epoch are. -/
theorem unchanged_head_is_defined_epoch {digest : List Byte → CryptoHash}
    {verifier : Verifier PK Sig} {config : Config} {genesis : Block PK} {m : ChainManager PK}
    (hnew : ChainManager.new digest config genesis = some (.ok m)) (calls : List (Call PK Sig E))
    {s : ChainRun PK Sig} (hrun : ChainRun.run digest verifier m calls = some s)
    (hunchanged : s.manager.candidates.changed = false) :
    {v | v ∈ s.manager.candidates.head} = {v | v ∈ s.manager.definedEpoch.validators} := by
  have hreached : Detects s.manager :=
    foldlM_invariant (I := fun s : ChainRun PK Sig => Detects s.manager)
      (fun _ call _ h hstep => h.step (ChainManager.step_selects call hstep)) (Detects.new hnew) hrun
  ext v
  exact (hreached.unchanged hunchanged).mem_iff.symm

/-- The third validator has lost stake and the epoch has changed since. -/
theorem unchanged_head_is_defined_epoch_sample :
    ∃ s, sampleRun = some s ∧ s.manager.candidates.head.length = 3 ∧
      {v | v ∈ s.manager.candidates.head} = {v | v ∈ s.manager.definedEpoch.validators} := by
  have hfacts : sampleRun.map (fun s => (s.manager.candidates.changed,
      s.manager.candidates.head.length)) = some (false, 3) := by
    decide +kernel
  obtain ⟨s, hs, hfacts⟩ := Option.map_eq_some_iff.mp hfacts
  obtain ⟨hunchanged, hlength⟩ := Prod.mk.inj hfacts
  obtain ⟨m, hnew, hrun⟩ := sampleRun_manager hs
  exact ⟨s, hs, hlength, unchanged_head_is_defined_epoch hnew sampleCalls hrun hunchanged⟩

/-- Candidates are enough for the configuration. -/
structure ChainManager.WithinLimits (m : ChainManager PK) : Prop where
  range : m.config.minValidators ≤ m.config.maxValidators
  count : m.config.minValidators.get ≤ m.candidates.candidates.length
  stake : m.config.minTotalStake.get ≤ m.candidates.headStake

structure Epoch.WithinLimits (config : Config) (e : Epoch PK) : Prop where
  min_le : config.minValidators.get ≤ e.validators.length
  le_max : e.validators.length ≤ config.maxValidators.get
  stake : config.minTotalStake.get ≤ e.totalStake.get

/-- Limits the configuration gets are ones the candidates meet: there are enough of them and
those who fit into the new number of validators have enough stake. -/
def KeepsLimits (m : ChainManager PK) : Call PK Sig E → Prop
  | .updateConfig payload =>
    ∀ config, m.config.update m.candidates.headStake m.nextEpoch.validators.length payload =
        .ok config →
      (payload.minValidators.getD m.config.minValidators).get ≤ m.candidates.candidates.length ∧
      (payload.minTotalStake.getD m.config.minTotalStake).get ≤
        headWeight Candidate.weight (payload.maxValidators.getD m.config.maxValidators).get
          m.candidates.candidates
  | _ => True

/-- Every change of the configuration in the run keeps its limits. -/
def RunKeepsLimits (digest : List Byte → CryptoHash) (verifier : Verifier PK Sig) :
    ChainRun PK Sig → List (Call PK Sig E) → Prop
  | _, [] => True
  | s, call :: calls => KeepsLimits s.manager call ∧
      ∀ s', s.step digest verifier call = some s' → RunKeepsLimits digest verifier s' calls

/-- The manager is within limits and its candidates are what they should be. -/
structure Limited (m : ChainManager PK) : Prop where
  sound : m.candidates.Sound
  max_eq : m.candidates.maxValidators = m.config.maxValidators
  limits : m.WithinLimits

theorem Config.update_ok {c config : Config} {headStake total : Nat} {payload : UpdateConfig}
    (h : c.update headStake total payload = .ok config) :
    config.minValidators = payload.minValidators.getD c.minValidators ∧
      config.maxValidators = payload.maxValidators.getD c.maxValidators ∧
      config.minTotalStake = payload.minTotalStake.getD c.minTotalStake ∧
      config.minValidators ≤ config.maxValidators := by
  unfold Config.update at h
  simp only at h
  split at h
  · cases h
  split at h
  · cases h
  · rename_i hrange
    split at h
    · cases h
    split at h
    · cases h
    split at h
    · cases h
    · cases h
      exact ⟨rfl, rfl, rfl, not_lt.mp hrange⟩

omit [PubKey PK] in
theorem totalOf_head (c : Candidates PK) :
    totalOf c.head = headWeight Candidate.weight c.maxValidators.get c.candidates := by
  rw [totalOf, Candidates.head, List.map_map]
  rfl

theorem Limited.epoch {m : ChainManager PK} (h : Limited m) {hostHeight : HostHeight} {e : Epoch PK}
    (he : m.maybeGenerateNextEpoch hostHeight = some e) : e.WithinLimits m.config := by
  have hvalidators := ChainManager.validators_of_generated he
  have hlength : e.validators.length =
      min m.config.maxValidators.get m.candidates.candidates.length := by
    rw [hvalidators, Candidates.head, List.length_map, List.length_take, h.max_eq]
  have hrange := NonZero.le_iff.mp h.limits.range
  have hcount := h.limits.count
  refine ⟨by omega, by omega, ?_⟩
  rw [e.total_eq, hvalidators, totalOf_head, ← h.sound.headStake]
  exact h.limits.stake

theorem Limited.updated {m : ChainManager PK} (h : Limited m) {pubkey : PK}
    {newStakeFn : Option (Candidate PK) → Except E (Fin (2 ^ 128))} {r : Except E Unit}
    {candidates : Candidates PK}
    (hupdate : m.candidates.update m.config pubkey newStakeFn = some (r, candidates)) :
    Limited { m with candidates } := by
  obtain ⟨e, -, he⟩ | ⟨stake, -, houtcome⟩ :=
    Candidates.update_outcome h.sound m.config pubkey newStakeFn
  · cases hupdate.symm.trans he
    exact h
  · rw [hupdate] at houtcome
    cases houtcome with
    | fails => exact h
    | succeeds hreplaced hcount hstake =>
      have hcount' := h.limits.count
      have hstake' := h.limits.stake
      refine ⟨hreplaced.sound (Candidates.requested_sorted h.sound.sorted _ _),
        hreplaced.maxValidators.trans h.max_eq, h.limits.range, ?_, ?_⟩
      · show m.config.minValidators.get ≤ candidates.candidates.length
        rw [hreplaced.candidates]
        omega
      · show m.config.minTotalStake.get ≤ candidates.headStake
        omega

omit [OfUpdateCandidateError E] in
theorem Limited.configured {m : ChainManager PK} (h : Limited m) {payload : UpdateConfig}
    {config : Config} {candidates : Candidates PK}
    (hkeeps : KeepsLimits m (.updateConfig payload : Call PK Sig E))
    (hconfig : m.config.update m.candidates.headStake m.nextEpoch.validators.length payload =
      .ok config)
    (hresize : (payload.maxValidators = none ∧ candidates = m.candidates) ∨
      ∃ count, payload.maxValidators = some count ∧
        m.candidates.updateMaxValidators count = some candidates) :
    Limited { m with config, candidates } := by
  obtain ⟨hcount, hstake⟩ := hkeeps config hconfig
  obtain ⟨hmin, hmax, htotal, hrange⟩ := Config.update_ok hconfig
  rw [← hmin] at hcount
  rw [← hmax, ← htotal] at hstake
  rcases hresize with ⟨hnone, rfl⟩ | ⟨count, hsome, hresize⟩
  · rw [hnone] at hmax
    have hsame : m.candidates.maxValidators = config.maxValidators := h.max_eq.trans hmax.symm
    refine ⟨h.sound, hsame, hrange, hcount, ?_⟩
    show config.minTotalStake.get ≤ m.candidates.headStake
    rw [h.sound.headStake, hsame]
    exact hstake
  · rw [hsome] at hmax
    have hresized := (Candidates.updateMaxValidators_spec h.sound count).2 candidates hresize
    refine ⟨hresized.sound h.sound, hresized.maxValidators.trans hmax.symm, hrange, ?_, ?_⟩
    · show config.minValidators.get ≤ candidates.candidates.length
      rw [hresized.candidates]
      exact hcount
    · show config.minTotalStake.get ≤ candidates.headStake
      rw [hmax] at hstake
      rw [hresized.headStake]
      exact hstake

theorem Limited.step {m m' : ChainManager PK} {call : Call PK Sig E} (h : Limited m)
    (hkeeps : KeepsLimits m call) (hstep : ChainManager.Selects m m' call) : Limited m' := by
  cases hstep with
  | keeps hconfig hcandidates _ =>
    obtain ⟨hsound, hmax, hrange, hcount, hstake⟩ := h
    rw [← hconfig] at hmax hrange hcount hstake
    rw [← hcandidates] at hsound hmax hcount hstake
    exact ⟨hsound, hmax, hrange, hcount, hstake⟩
  | defines hconfig hcandidates _ =>
    obtain ⟨hsound, hmax, hrange, hcount, hstake⟩ := h
    rw [← hconfig] at hmax hrange hcount hstake
    have hfields : m'.candidates.candidates = m.candidates.candidates ∧
        m'.candidates.maxValidators = m.candidates.maxValidators ∧
        m'.candidates.headStake = m.candidates.headStake := by
      rw [hcandidates]
      exact ⟨rfl, rfl, rfl⟩
    obtain ⟨hlist, hmax', hhead⟩ := hfields
    rw [← hmax'] at hmax
    rw [← hlist] at hcount
    rw [← hhead] at hstake
    refine ⟨?_, hmax, hrange, hcount, hstake⟩
    rw [hcandidates]
    exact ⟨hsound.sorted, hsound.headStake, hsound.fits⟩
  | updates r candidates hupdate hm =>
    subst hm
    exact h.updated hupdate
  | configures config candidates hconfig hresize hm =>
    subst hm
    exact h.configured hkeeps hconfig hresize

theorem Limited.run {digest : List Byte → CryptoHash} {verifier : Verifier PK Sig}
    {calls : List (Call PK Sig E)} {s s' : ChainRun PK Sig} (h : Limited s.manager)
    (hkeeps : RunKeepsLimits digest verifier s calls)
    (hrun : calls.foldlM (ChainRun.step digest verifier) s = some s') : Limited s'.manager := by
  induction calls generalizing s with
  | nil =>
    cases hrun
    exact h
  | cons call calls ih =>
    obtain ⟨mid, hmid, hrun⟩ := Option.bind_eq_some_iff.mp hrun
    exact ih (h.step hkeeps.1 (ChainManager.step_selects call hmid)) (hkeeps.2 mid hmid) hrun

/-- In runs in which changes of the configuration keep its limits, candidates always meet
them and so do all epochs made of the candidates. -/
theorem run_keeps_limits {digest : List Byte → CryptoHash} {verifier : Verifier PK Sig}
    {config : Config} {genesis : Block PK} {m : ChainManager PK}
    (hnew : ChainManager.new digest config genesis = some (.ok m)) (hgenesis : m.WithinLimits)
    (calls : List (Call PK Sig E))
    (hkeeps : RunKeepsLimits digest verifier (ChainRun.start m) calls)
    {s : ChainRun PK Sig} (hrun : ChainRun.run digest verifier m calls = some s) :
    s.manager.WithinLimits ∧
      ∀ hostHeight, ∀ e ∈ s.manager.maybeGenerateNextEpoch hostHeight,
        e.WithinLimits s.manager.config := by
  obtain ⟨hconfig, -, -, -, -, -, hcandidates⟩ := ChainManager.new_ok hnew
  obtain ⟨hsound, hmax, -, -⟩ := Candidates.new_spec hcandidates
  have hstart : Limited m := ⟨hsound, by rw [hmax, hconfig], hgenesis⟩
  have hreached : Limited s.manager := Limited.run hstart hkeeps hrun
  exact ⟨hreached.limits, fun hostHeight e he => hreached.epoch he⟩

/-- Payload which sets number of validators and the least total stake. -/
def samplePayload (maxValidators : NonZeroU16) (minTotalStake : NonZeroU128) : UpdateConfig where
  minValidators := none
  maxValidators := some maxValidators
  minValidatorStake := none
  minTotalStake := some minTotalStake
  minQuorumStake := none
  minBlockLength := none
  maxBlockAgeNs := none
  minEpochLength := none

def sampleManager : Option (ChainManager MockPubKey) :=
  match ChainManager.new sampleDigest sampleConfig sampleGenesis with
  | some (.ok m) => some m
  | _ => none

theorem sampleManager_new {m : ChainManager MockPubKey} (h : sampleManager = some m) :
    ChainManager.new sampleDigest sampleConfig sampleGenesis = some (.ok m) := by
  unfold sampleManager at h
  split at h
  · rename_i m' hnew
    cases h
    exact hnew
  · cases h

theorem sampleManager_limits {m : ChainManager MockPubKey} (h : sampleManager = some m) :
    m.WithinLimits := by
  have hfacts : sampleManager.map (fun m => (m.config.minValidators.get, m.config.maxValidators.get,
      m.candidates.candidates.length, m.config.minTotalStake.get, m.candidates.headStake)) =
      some (1, 3, 3, 1, 6) := by
    decide
  rw [h] at hfacts
  simp only [Option.map_some, Option.some.injEq, Prod.mk.injEq] at hfacts
  obtain ⟨hmin, hmax, hcount, htotal, hhead⟩ := hfacts
  refine ⟨NonZero.le_iff.mpr ?_, ?_, ?_⟩ <;> omega

/-- Two validators with four units of stake are asked for and the candidates have that. -/
theorem run_keeps_limits_sample :
    ∃ m s, sampleManager = some m ∧
      ChainRun.run sampleDigest MockSignature.verify m
        [(.updateConfig (samplePayload (NonZero.clamp 2) (NonZero.clamp 4)) :
          Call MockPubKey MockSignature UpdateCandidateError)] = some s ∧
      s.manager.WithinLimits := by
  have hfacts : sampleManager.map (fun m => (m.config.minValidators.get,
      m.candidates.candidates.length, headWeight Candidate.weight 2 m.candidates.candidates,
      (ChainRun.run sampleDigest MockSignature.verify m
        [(.updateConfig (samplePayload (NonZero.clamp 2) (NonZero.clamp 4)) :
          Call MockPubKey MockSignature UpdateCandidateError)]).isSome)) =
      some (1, 3, 4, true) := by
    decide
  obtain ⟨m, hm, hfacts⟩ := Option.map_eq_some_iff.mp hfacts
  simp only [Prod.mk.injEq] at hfacts
  obtain ⟨hmin, hcount, hhead, hsome⟩ := hfacts
  obtain ⟨s, hrun⟩ := Option.isSome_iff_exists.mp hsome
  refine ⟨m, s, hm, hrun, (run_keeps_limits (sampleManager_new hm) (sampleManager_limits hm) _ ?_
    hrun).1⟩
  refine ⟨fun config _ => ⟨?_, ?_⟩, fun _ _ => trivial⟩
  · show m.config.minValidators.get ≤ m.candidates.candidates.length
    omega
  · show 4 ≤ headWeight Candidate.weight 2 m.candidates.candidates
    omega

/-- The stake which all three validators have is asked for together with a single
validator. The payload is accepted and the next epoch is short of stake. -/
theorem updateConfig_breaks_limits :
    ∃ m s e, ChainManager.new sampleDigest sampleConfig sampleGenesis = some (.ok m) ∧
      m.WithinLimits ∧
      ChainRun.run sampleDigest MockSignature.verify m
        [(.updateConfig (samplePayload (NonZero.clamp 1) (NonZero.clamp 6)) :
          Call MockPubKey MockSignature UpdateCandidateError)] = some s ∧
      ¬ s.manager.WithinLimits ∧
      s.manager.maybeGenerateNextEpoch (Height.clamp 9) = some e ∧
      ¬ e.WithinLimits s.manager.config := by
  have hfacts : (sampleManager.bind fun m => (ChainRun.run sampleDigest MockSignature.verify m
      [(.updateConfig (samplePayload (NonZero.clamp 1) (NonZero.clamp 6)) :
        Call MockPubKey MockSignature UpdateCandidateError)]).bind fun s =>
      (s.manager.maybeGenerateNextEpoch (Height.clamp 9)).map fun e =>
        (s.manager.config.minTotalStake.get, s.manager.candidates.headStake, e.totalStake.get)) =
      some (6, 2, 2) := by
    decide
  obtain ⟨m, hm, hfacts⟩ := Option.bind_eq_some_iff.mp hfacts
  obtain ⟨s, hrun, hfacts⟩ := Option.bind_eq_some_iff.mp hfacts
  obtain ⟨e, he, hfacts⟩ := Option.map_eq_some_iff.mp hfacts
  simp only [Prod.mk.injEq] at hfacts
  obtain ⟨hmin, hhead, htotal⟩ := hfacts
  refine ⟨m, s, e, sampleManager_new hm, sampleManager_limits hm, hrun, fun h => ?_, he,
    fun h => ?_⟩
  · have hstake := h.stake
    omega
  · have hstake := h.stake
    omega

end GuestChain
