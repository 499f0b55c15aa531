import EmulatedLightClient.Clients
import EmulatedLightClient.GuestClient
import EmulatedLightClient.TopElements

/-!
# Neighbours of a height

The consensus state at a height is looked for in one pass over the list, which keeps the closest heights on
either side on the way. The clients of the guest chain and of rollups each have a copy of this; another kind of
client asks for either side on its own.
-/

namespace SolanaIbc.Storage

open CfGuest (Neighbourhood)
open AsciiText ByteBits FailingState LinearMaps TopElements TrieIds

namespace ClientStorage

/-- The state at the height, which ends the pass, or the closest states before and after it. -/
def scan {V : Type} (height : IbcHeight) : IbcHeight × Option V → IbcHeight × Option V → LinearMap IbcHeight V →
    V ⊕ Option V × Option V
  | prev, next, [] => .inr (prev.2, next.2)
  | prev, next, (key, value) :: states =>
    match compare key height with
    | .lt => scan height (if prev.1 ≤ key then (key, some value) else prev) next states
    | .gt => scan height prev (if key ≤ next.1 then (key, some value) else next) states
    | .eq => .inl value

def minHeight : IbcHeight := ⟨0, 0⟩

section

variable (S : Type) [Codec S]

def getState (data : ClientConsensusState) : Except ContextError S := orError (data.state S) .clientSpecific

def getNeighbour : Option ClientConsensusState → Except ContextError (Option S)
  | none => .ok none
  | some data => (getState S data).map some

/-- Only the states which were found are decoded. -/
def decodeFound : ClientConsensusState ⊕ Option ClientConsensusState × Option ClientConsensusState →
    Except ContextError (Neighbourhood S)
  | .inl data => (getState S data).map .this
  | .inr (prev, next) => do
    let prev ← getNeighbour S prev
    let next ← getNeighbour S next
    return .neighbours prev next

def neighbourhood (s : ClientStorage) (clientId : List Byte) (height : IbcHeight) :
    Except ContextError (Neighbourhood S) := do
  let (_, client) ← s.client clientId
  decodeFound S (scan height (minHeight, none) (IbcStorage.maxHeight, none) client.consensusStates)

/-- Of the client of the guest chain. -/
def guestConsensusStateNeighbourhood (s : ClientStorage) (clientId : List Byte) (height : IbcHeight) :
    Except ContextError (Neighbourhood S) := s.neighbourhood S clientId height

/-- Of the client of a rollup, a copy of the other one. -/
def rollupConsensusStateNeighbourhood (s : ClientStorage) (clientId : List Byte) (height : IbcHeight) :
    Except ContextError (Neighbourhood S) := s.neighbourhood S clientId height

inductive Direction where
  | next
  | prev

def getConsensusState (s : ClientStorage) (clientId : List Byte) (height : IbcHeight) (dir : Direction) :
    Except ContextError (Option S) := do
  let (_, client) ← s.client clientId
  let states := client.consensusStates
  getNeighbour S <| Prod.snd <$> match dir with
    | .next => minByKey (states.filter fun e => height < e.1)
    | .prev => maxByKey (states.filter fun e => e.1 < height)

def nextConsensusState (s : ClientStorage) (clientId : List Byte) (height : IbcHeight) :
    Except ContextError (Option S) :=
  s.getConsensusState S clientId height .next

def prevConsensusState (s : ClientStorage) (clientId : List Byte) (height : IbcHeight) :
    Except ContextError (Option S) :=
  s.getConsensusState S clientId height .prev

end

/-- The state at the height with the property which all others are on the far side of, if there is one. -/
def IsClosest {V : Type} (P : IbcHeight → Prop) (r : IbcHeight → IbcHeight → Prop) (states : LinearMap IbcHeight V) :
    Option V → Prop
  | none => ∀ k ∈ states.keys, ¬P k
  | some v => ∃ k, P k ∧ LinearMap.get k states = some v ∧ ∀ j ∈ states.keys, P j → r j k

/-- The state at the greatest height below. -/
def IsPrev {V : Type} (states : LinearMap IbcHeight V) (height : IbcHeight) (o : Option V) : Prop :=
  IsClosest (· < height) (· ≤ ·) states o

/-- The state at the least height above. -/
def IsNext {V : Type} (states : LinearMap IbcHeight V) (height : IbcHeight) (o : Option V) : Prop :=
  IsClosest (height < ·) (· ≥ ·) states o

section

variable {V : Type} {states : LinearMap IbcHeight V} {height : IbcHeight} {P : IbcHeight → Prop}
  {r : IbcHeight → IbcHeight → Prop} {o o' : Option V} {v : V}

theorem mem_keys_of_get {k : IbcHeight} (h : LinearMap.get k states = some v) : k ∈ states.keys :=
  not_not.mp fun hnot => Option.some_ne_none v (h.symm.trans (LinearMap.get_eq_none.mpr hnot))

theorem isClosest_unique (hanti : ∀ a b, r a b → r b a → a = b) (h : IsClosest P r states o)
    (h' : IsClosest P r states o') :
    o = o' := by
  cases o with
  | none =>
    cases o' with
    | none => rfl
    | some v' =>
      obtain ⟨k, hP, hget, -⟩ := h'
      exact absurd hP (h k (mem_keys_of_get hget))
  | some v =>
    obtain ⟨k, hP, hget, hall⟩ := h
    cases o' with
    | none => exact absurd hP (h' k (mem_keys_of_get hget))
    | some v' =>
      obtain ⟨k', hP', hget', hall'⟩ := h'
      have hk : k = k' := hanti k k' (hall' k (mem_keys_of_get hget) hP) (hall k' (mem_keys_of_get hget') hP')
      rw [← hget, ← hget', hk]

theorem isClosest_none (h : ∀ e ∈ states, ¬P e.1) : IsClosest P r states (none : Option V) := by
  intro k hk
  obtain ⟨e, he, rfl⟩ := List.mem_map.mp hk
  exact h e he

theorem isClosest_some (hnodup : states.keys.Nodup) {e : IbcHeight × V} (he : e ∈ states) (hP : P e.1)
    (hall : ∀ d ∈ states, P d.1 → r d.1 e.1) : IsClosest P r states (some e.2) := by
  refine ⟨e.1, hP, LinearMap.get_of_mem hnodup he, fun j hj hPj => ?_⟩
  obtain ⟨d, hd, rfl⟩ := List.mem_map.mp hj
  exact hall d hd hPj

theorem minHeight_le (h : IbcHeight) : minHeight ≤ h := by
  rw [← not_lt, IbcHeight.lt_iff]
  rintro (hlt | ⟨-, hlt⟩)
  · exact absurd hlt (Fin.not_lt.mpr (Fin.zero_le _))
  · exact absurd hlt (Fin.not_lt.mpr (Fin.zero_le _))

/-- The lowest height there is may stand for none on this side, as it is replaced even by itself. -/
theorem isPrev_runningMax (hnodup : states.keys.Nodup) :
    IsPrev states height (runningMax (· < height) (minHeight, none) states).2 := by
  rcases runningMax_spec (P := (· < height)) (minHeight, none) states with ⟨heq, hall⟩ | ⟨e, he, heq, hlt, -, hall⟩
  · rw [heq]
    exact isClosest_none fun e he hlt => absurd (hall e he hlt) (not_lt.mpr (minHeight_le _))
  · rw [heq]
    exact isClosest_some hnodup he hlt hall

theorem isNext_runningMin (hnodup : states.keys.Nodup) :
    IsNext states height (runningMin (height < ·) (IbcStorage.maxHeight, none) states).2 := by
  rcases runningMin_spec (P := (height < ·)) (IbcStorage.maxHeight, none) states with
    ⟨heq, hall⟩ | ⟨e, he, heq, hlt, -, hall⟩
  · rw [heq]
    exact isClosest_none fun e he hlt => absurd (hall e he hlt) (not_lt.mpr (IbcStorage.le_maxHeight _))
  · rw [heq]
    exact isClosest_some hnodup he hlt hall

theorem scan_of_mem (hnodup : states.keys.Nodup) (hmem : (height, v) ∈ states) (prev next : IbcHeight × Option V) :
    scan height prev next states = .inl v := by
  induction states generalizing prev next with
  | nil => cases hmem
  | cons e states ih =>
    obtain ⟨hnotMem, hrest⟩ := List.nodup_cons.mp hnodup
    rcases List.mem_cons.mp hmem with heq | hmem
    · rw [← heq, scan, compare_eq_iff_eq.mpr rfl]
    · have hne : e.1 ≠ height := by
        rintro rfl
        exact hnotMem (List.mem_map.mpr ⟨_, hmem, rfl⟩)
      rcases lt_or_gt_of_ne hne with hlt | hgt
      · rw [scan, compare_lt_iff_lt.mpr hlt]
        exact ih hrest hmem _ _
      · rw [scan, compare_gt_iff_gt.mpr hgt]
        exact ih hrest hmem _ _

/-- When the height is not there both sides are followed to the end. -/
theorem scan_of_notMem (hne : ∀ e ∈ states, e.1 ≠ height) (prev next : IbcHeight × Option V) :
    scan height prev next states =
      .inr ((runningMax (· < height) prev states).2, (runningMin (height < ·) next states).2) := by
  induction states generalizing prev next with
  | nil => rfl
  | cons e states ih =>
    obtain ⟨he, hrest⟩ := List.forall_mem_cons.mp hne
    rw [runningMax, runningMin]
    rcases lt_or_gt_of_ne he with hlt | hgt
    · rw [scan, compare_lt_iff_lt.mpr hlt, ih hrest]
      simp only [hlt, true_and, not_lt_of_gt hlt, false_and, if_false]
    · rw [scan, compare_gt_iff_gt.mpr hgt]
      simp only [show height < e.1 from hgt, true_and, not_lt_of_gt hgt, false_and, if_false]
      exact ih hrest _ _

end

section

variable {S : Type} [Codec S] {s : ClientStorage} {clientId : List Byte} {index : Counter} {client : ClientEntry}
  {height : IbcHeight} {o : Option ClientConsensusState}

theorem neighbourhood_this (hclient : s.client clientId = .ok (index, client))
    (hnodup : client.consensusStates.keys.Nodup)
    {data : ClientConsensusState} (hdata : LinearMap.get height client.consensusStates = some data) :
    s.neighbourhood S clientId height = (getState S data).map .this := by
  rw [neighbourhood, hclient]
  change decodeFound S (scan height _ _ client.consensusStates) = _
  rw [scan_of_mem hnodup (LinearMap.mem_of_get hdata), decodeFound]

theorem neighbourhood_neighbours (hclient : s.client clientId = .ok (index, client))
    (hnodup : client.consensusStates.keys.Nodup)
    (hnone : LinearMap.get height client.consensusStates = none) :
    ∃ prev next, IsPrev client.consensusStates height prev ∧ IsNext client.consensusStates height next ∧
      s.neighbourhood S clientId height = do
        let prev ← getNeighbour S prev
        let next ← getNeighbour S next
        return .neighbours prev next := by
  have hne : ∀ e ∈ client.consensusStates, e.1 ≠ height := by
    rintro e he rfl
    exact LinearMap.get_eq_none.mp hnone (List.mem_map.mpr ⟨e, he, rfl⟩)
  refine ⟨_, _, isPrev_runningMax hnodup, isNext_runningMin hnodup, ?_⟩
  rw [neighbourhood, hclient]
  change decodeFound S (scan height _ _ client.consensusStates) = _
  rw [scan_of_notMem hne, decodeFound]

theorem prevConsensusState_eq (hclient : s.client clientId = .ok (index, client))
    (hnodup : client.consensusStates.keys.Nodup)
    (hprev : IsPrev client.consensusStates height o) : s.prevConsensusState S clientId height = getNeighbour S o := by
  have hfound : IsPrev client.consensusStates height
      (Prod.snd <$> maxByKey (client.consensusStates.filter fun e => e.1 < height)) := by
    cases hmax : maxByKey (client.consensusStates.filter fun e => e.1 < height) with
    | none =>
      have hempty := List.filter_eq_nil_iff.mp (maxByKey_eq_none hmax)
      exact isClosest_none fun e he hlt => hempty e he (decide_eq_true hlt)
    | some e =>
      obtain ⟨he, hall⟩ := maxByKey_spec hmax
      obtain ⟨he, hlt⟩ := List.mem_filter.mp he
      refine isClosest_some hnodup he (of_decide_eq_true hlt) fun d hd hlt => ?_
      exact hall d (List.mem_filter.mpr ⟨hd, decide_eq_true hlt⟩)
  rw [isClosest_unique (fun _ _ => le_antisymm) hprev hfound, prevConsensusState, getConsensusState, hclient]
  rfl

theorem nextConsensusState_eq (hclient : s.client clientId = .ok (index, client))
    (hnodup : client.consensusStates.keys.Nodup)
    (hnext : IsNext client.consensusStates height o) : s.nextConsensusState S clientId height = getNeighbour S o := by
  have hfound : IsNext client.consensusStates height
      (Prod.snd <$> minByKey (client.consensusStates.filter fun e => height < e.1)) := by
    cases hmin : minByKey (client.consensusStates.filter fun e => height < e.1) with
    | none =>
      have hempty := List.filter_eq_nil_iff.mp (minByKey_eq_none hmin)
      exact isClosest_none fun e he hlt => hempty e he (decide_eq_true hlt)
    | some e =>
      obtain ⟨he, hall⟩ := minByKey_spec hmin
      obtain ⟨he, hlt⟩ := List.mem_filter.mp he
      refine isClosest_some hnodup he (of_decide_eq_true hlt) fun d hd hlt => ?_
      exact hall d (List.mem_filter.mpr ⟨hd, decide_eq_true hlt⟩)
  rw [isClosest_unique (fun _ _ h h' => le_antisymm h' h) hnext hfound, nextConsensusState, getConsensusState, hclient]
  rfl

/-- Both copies give the state at the height if it is stored, and otherwise the states at the greatest height below
and the least height above, which are the ones found by asking for either side on its own. -/
theorem consensusStateNeighbourhood_exact (hclient : s.client clientId = .ok (index, client))
    (hnodup : client.consensusStates.keys.Nodup) (height : IbcHeight) :
    s.guestConsensusStateNeighbourhood S clientId height = s.rollupConsensusStateNeighbourhood S clientId height ∧
    (∀ data, LinearMap.get height client.consensusStates = some data →
      s.guestConsensusStateNeighbourhood S clientId height = (getState S data).map .this) ∧
    (LinearMap.get height client.consensusStates = none →
      (∃ prev next, IsPrev client.consensusStates height prev ∧ IsNext client.consensusStates height next ∧
        s.guestConsensusStateNeighbourhood S clientId height = do
          let prev ← getNeighbour S prev
          let next ← getNeighbour S next
          return .neighbours prev next) ∧
      s.guestConsensusStateNeighbourhood S clientId height = do
        let prev ← s.prevConsensusState S clientId height
        let next ← s.nextConsensusState S clientId height
        return .neighbours prev next) ∧
    (∀ prev, IsPrev client.consensusStates height prev → s.prevConsensusState S clientId height = getNeighbour S prev) ∧
    ∀ next, IsNext client.consensusStates height next →
      s.nextConsensusState S clientId height = getNeighbour S next := by
  refine ⟨rfl, fun data hdata => neighbourhood_this hclient hnodup hdata, fun hnone => ?_,
    fun prev hprev => prevConsensusState_eq hclient hnodup hprev,
      fun next hnext => nextConsensusState_eq hclient hnodup hnext⟩
  obtain ⟨prev, next, hprev, hnext, heq⟩ := neighbourhood_neighbours (S := S) hclient hnodup hnone
  refine ⟨⟨prev, next, hprev, hnext, heq⟩, ?_⟩
  rw [prevConsensusState_eq hclient hnodup hprev, nextConsensusState_eq hclient hnodup hnext]
  exact heq

end

/-- A client with two consensus states, each a byte behind its metadata; one is at the lowest height there is. -/
def sampleClient : ClientEntry where
  clientId := ascii "mock-0"
  clientState := []
  consensusStates := [(⟨1, 9⟩, ⟨List.replicate 16 0#8 ++ [9#8]⟩), (⟨0, 0⟩, ⟨List.replicate 16 0#8 ++ [7#8]⟩)]

theorem consensusStateNeighbourhood_sample :
    guestConsensusStateNeighbourhood Byte ⟨[sampleClient], fun _ => none⟩ (ascii "mock-0") ⟨1, 5⟩ =
      .ok (.neighbours (some 7#8) (some 9#8)) := by
  have hclient : client ⟨[sampleClient], fun _ => none⟩ (ascii "mock-0") = .ok (0, sampleClient) := rfl
  exact ((consensusStateNeighbourhood_exact (S := Byte) hclient (by decide) ⟨1, 5⟩).2.2.1 rfl).2

end ClientStorage

end SolanaIbc.Storage
