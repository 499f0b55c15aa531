import EmulatedLightClient.HostStorage
import Mathlib.Data.List.Induction

/-!
# Consensus states, stored and provable

A client's consensus states are kept in a list of bounded length and the hash of
each is in the trie. When the list is full a new height takes the place of the
lowest one, whose hash stays in the trie.
-/

namespace SolanaIbc.Storage

open ByteBits FailingState LinearMaps MachineInts Nodes TrieIds

namespace IbcStorage

section

variable {states states' : LinearMap IbcHeight ClientConsensusState} {height h : IbcHeight}
  {state : ClientConsensusState}

theorem minIdx_lt {idx n : Nat} {best : IbcHeight} {found : Option Nat} {hs : List IbcHeight}
    (hfound : ∀ i ∈ found, i < idx) (h : minIdx idx best found hs = some n) : n < idx + hs.length := by
  induction hs generalizing idx best found with
  | nil => exact Nat.lt_of_lt_of_le (hfound n h) (Nat.le_add_right ..)
  | cons x hs ih =>
    rw [minIdx] at h
    have hlt : n < idx + 1 + hs.length := by
      split at h
      · exact ih (fun i hi => by cases hi; exact Nat.lt_succ_self idx) h
      · exact ih (fun i hi => Nat.lt_succ_of_lt (hfound i hi)) h
    rw [List.length_cons]
    omega

/-- The height which gives way to a new one. -/
def evicted (states : LinearMap IbcHeight ClientConsensusState) (height : IbcHeight) : Option IbcHeight :=
  if height ∈ states.keys ∨ states.length < maxConsensusStates then none
  else (minIdx 0 maxHeight none states.keys).bind fun idx => states.keys[idx]?

/-- What an insertion does to every height. -/
theorem insertConsensusState_get (hnodup : states.keys.Nodup)
    (hinsert : insertConsensusState states height state = some states') :
    states'.keys.Nodup ∧ (∀ old ∈ evicted states height, old ≠ height ∧ old ∈ states.keys) ∧
      ∀ h, LinearMap.get h states' =
        if h = height then some state else if h ∈ evicted states height then none else LinearMap.get h states := by
  unfold insertConsensusState at hinsert
  split at hinsert
  · rename_i hmem
    cases hinsert
    have hevicted : evicted states height = none := if_pos (Or.inl hmem)
    refine ⟨?_, by simp [hevicted], fun h => ?_⟩
    · rw [LinearMap.keys_upsert hmem]
      exact hnodup
    · rw [LinearMap.get_upsert, hevicted]
      simp
  · rename_i hnew
    split at hinsert
    · rename_i hlt
      cases hinsert
      have hevicted : evicted states height = none := if_pos (Or.inr hlt)
      refine ⟨?_, by simp [hevicted], fun h => ?_⟩
      · rw [LinearMap.keys, List.map_append]
        refine List.Nodup.append hnodup (List.nodup_singleton _) ?_
        exact List.disjoint_singleton.mpr hnew
      · rw [LinearMap.get_append hnew, hevicted]
        simp
    · rename_i hfull
      obtain ⟨idx, hidx, rfl⟩ := Option.map_eq_some_iff.mp hinsert
      have hlt : idx < states.keys.length := by
        have := minIdx_lt (by simp) hidx
        omega
      have hevicted : evicted states height = some states.keys[idx] := by
        rw [evicted, if_neg (by simp [hnew, hfull]), hidx, Option.bind_some, List.getElem?_eq_getElem hlt]
      refine ⟨?_, ?_, fun h => ?_⟩
      · rw [LinearMap.keys_set]
        exact hnodup.set hnew
      · rw [hevicted]
        rintro old ⟨⟩
        refine ⟨?_, List.getElem_mem hlt⟩
        rintro heq
        exact hnew (heq ▸ List.getElem_mem hlt)
      · rw [LinearMap.get_set hnodup hnew (List.getElem?_eq_getElem hlt), hevicted]
        simp [eq_comm]

end

/-- A stored consensus state, with the client's identifier. -/
def stored (s : IbcStorage) (i : Counter) (h : IbcHeight) : Option (List Byte × ClientConsensusState) := do
  let client ← s.priv.clients[i.val]?
  let state ← client.consensusStates.get h
  return (client.clientId, state)

/-- No height is twice in a list. -/
def WellKeyed (s : IbcStorage) : Prop := ∀ client ∈ s.priv.clients, client.consensusStates.keys.Nodup

section

variable (S : Type) [Codec S] (digest : List Byte → CryptoHash)

/-- The trie has hashes of the consensus states which are stored, and of no others. -/
structure Agrees (s : IbcStorage) : Prop where
  bound : ∀ i h, (s.provable (TrieKey.forConsensusState i h)).isSome ↔ (s.stored i h).isSome
  hash : ∀ i h clientId cs, s.stored i h = some (clientId, cs) →
    ∃ state : S, cs.state S = some state ∧
      s.provable (TrieKey.forConsensusState i h) =
        some (digestWithClientId digest clientId (Codec.encodeVec state))

end

/-- One height of one client gets another entry, in the list and in the trie, and
some heights of the client may go from the list only. -/
structure Changed (s s' : IbcStorage) (index : Counter) (height : IbcHeight) (lost : Option IbcHeight)
    (entry : Option (List Byte × ClientConsensusState)) (hash : Option CryptoHash) : Prop where
  stored : ∀ i h, s'.stored i h =
    if i = index ∧ h = height then entry else if i = index ∧ h ∈ lost then none else s.stored i h
  provable : ∀ i h, s'.provable (TrieKey.forConsensusState i h) =
    if i = index ∧ h = height then hash else s.provable (TrieKey.forConsensusState i h)

section

variable {S : Type} [Codec S] {digest : List Byte → CryptoHash} {s s' : IbcStorage} {index : Counter}
  {height : IbcHeight} {lost : Option IbcHeight} {entry : Option (List Byte × ClientConsensusState)}
  {hash : Option CryptoHash}

theorem Changed.agrees (h : Changed s s' index height none entry hash) (hs : s.Agrees S digest)
    (hbound : hash.isSome ↔ entry.isSome)
    (hhash : ∀ clientId cs, entry = some (clientId, cs) → ∃ state : S, cs.state S = some state ∧
      hash = some (digestWithClientId digest clientId (Codec.encodeVec state))) : s'.Agrees S digest := by
  refine ⟨fun i k => ?_, fun i k clientId cs hstored => ?_⟩
  · rw [h.stored, h.provable]
    by_cases hk : i = index ∧ k = height
    · rw [if_pos hk, if_pos hk]
      exact hbound
    · rw [if_neg hk, if_neg hk, if_neg (by simp)]
      exact hs.bound i k
  · rw [h.stored] at hstored
    rw [h.provable]
    by_cases hk : i = index ∧ k = height
    · rw [if_pos hk] at hstored ⊢
      exact hhash clientId cs hstored
    · rw [if_neg hk, if_neg (by simp)] at hstored
      rw [if_neg hk]
      exact hs.hash i k clientId cs hstored

/-- What goes from the list only is still in the trie. -/
theorem Changed.not_agrees {old : IbcHeight} (h : Changed s s' index height (some old) entry hash)
    (hs : s.Agrees S digest) (hne : old ≠ height) (hstored : (s.stored index old).isSome) :
    ¬ s'.Agrees S digest := by
  intro hs'
  have hbound := (hs.bound index old).mpr hstored
  have hafter := hs'.bound index old
  rw [h.stored, h.provable, if_neg fun hk => hne hk.2, if_neg fun hk => hne hk.2,
    if_pos ⟨rfl, rfl⟩] at hafter
  exact absurd (hafter.mp hbound) Bool.false_ne_true

theorem clientMut_ok {clientId : List Byte} {client : ClientStore}
    (h : s.clientMut clientId = .ok (index, client)) :
    s.priv.clients[index.val]? = some client ∧ client.clientId = clientId := by
  rw [clientMut, orError_ok] at h
  simp only [Option.bind_eq_bind, Option.bind_eq_some_iff, guard_eq_some] at h
  obtain ⟨i, -, store, hstore, -, hid, heq⟩ := h
  cases Option.some.inj heq
  exact ⟨hstore, hid⟩

theorem state_new {processedTime : NonZero 64} {processedHeight : Fin (2 ^ 64)} {state : S}
    {cs : ClientConsensusState} (h : ClientConsensusState.new processedTime processedHeight state = some cs) :
    cs.state S = some state := by
  obtain ⟨bytes, hbytes, rfl⟩ := Option.map_eq_some_iff.mp h
  have hdrop : (leBytes 8 processedTime.get ++ leBytes 8 processedHeight.val ++ bytes).drop 16 = bytes :=
    List.drop_left' (by simp)
  rw [ClientConsensusState.state, hdrop]
  exact Codec.tryFromSlice_toVec state bytes hbytes

/-- The list of one client is replaced, with one change in the trie. -/
theorem changed_of_get {client : ClientStore} {states : LinearMap IbcHeight ClientConsensusState}
    {cs : Option ClientConsensusState} (hclient : s.priv.clients[index.val]? = some client)
    (hget : ∀ h, states.get h =
      if h = height then cs else if h ∈ lost then none else client.consensusStates.get h) :
    Changed s ((s.setConsensusStates index client states).setProvable (TrieKey.forConsensusState index height) hash)
      index height lost (cs.map fun cs => (client.clientId, cs)) hash := by
  refine ⟨fun i h => ?_, fun i h => ?_⟩
  · simp only [stored, setProvable, setConsensusStates]
    by_cases hi : i = index
    · subst hi
      have hlt := (List.getElem?_eq_some_iff.mp hclient).1
      rw [List.getElem?_set_self hlt, hclient]
      simp only [Option.bind_eq_bind, Option.bind_some, hget]
      split
      · rename_i hh
        subst hh
        simp only [true_and, if_true]
        cases cs with
        | none => rfl
        | some cs => rfl
      · rename_i hh
        simp only [hh, and_false, if_false, true_and]
        split
        · rfl
        · rfl
    · have hne : index.val ≠ i.val := fun heq => hi (Fin.ext heq.symm)
      rw [List.getElem?_set_ne hne]
      simp only [hi, false_and, if_false]
  · simp only [setProvable, setConsensusStates]
    by_cases hk : i = index ∧ h = height
    · obtain ⟨rfl, rfl⟩ := hk
      simp
    · have hne : TrieKey.forConsensusState i h ≠ TrieKey.forConsensusState index height :=
        fun heq => hk (TrieKey.forConsensusState_inj heq)
      rw [Function.update_of_ne hne, if_neg hk]

theorem wellKeyed_set {client : ClientStore} {states : LinearMap IbcHeight ClientConsensusState}
    (hs : s.WellKeyed) (hstates : states.keys.Nodup) :
    ((s.setConsensusStates index client states).setProvable (TrieKey.forConsensusState index height)
      hash).WellKeyed := by
  intro c hc
  rcases List.mem_or_eq_of_mem_set hc with hc | rfl
  · exact hs c hc
  · exact hstates

theorem storeConsensusStateImpl_spec {head : Option (NonZero 64 × Fin (2 ^ 64))} {clientId : List Byte} {state : S}
    (hs : s.WellKeyed) (h : s.storeConsensusStateImpl digest head clientId height state = .ok s') :
    s'.WellKeyed ∧ ∃ index client cs, s.clientMut clientId = .ok (index, client) ∧ cs.state S = some state ∧
      client.consensusStates.keys.Nodup ∧
      (evicted client.consensusStates height = none ↔ height ∈ client.consensusStates.keys ∨
        client.consensusStates.length < maxConsensusStates) ∧
      (∀ old ∈ evicted client.consensusStates height,
        old ≠ height ∧ old ∈ client.consensusStates.keys) ∧
      Changed s s' index height (evicted client.consensusStates height) (some (clientId, cs))
        (some (digestWithClientId digest clientId (Codec.encodeVec state))) := by
  simp only [storeConsensusStateImpl, bind_eq_ok, orError_ok] at h
  obtain ⟨⟨processedTime, processedHeight⟩, -, ⟨index, client⟩, hclient, cs, hcs, states, hstates, h⟩ := h
  cases Except.ok.inj h
  obtain ⟨hsome, hid⟩ := clientMut_ok hclient
  have hnodup := hs client (List.mem_of_getElem? hsome)
  obtain ⟨hnodup', hevicted, hget⟩ := insertConsensusState_get hnodup hstates
  refine ⟨wellKeyed_set hs hnodup', index, client, cs, hclient, state_new hcs, hnodup, ?_, hevicted, ?_⟩
  · refine ⟨fun hnone => ?_, fun hfits => if_pos hfits⟩
    by_contra hfull
    rw [evicted, if_neg hfull] at hnone
    rw [not_or] at hfull
    rw [insertConsensusState, if_neg hfull.1, if_neg hfull.2] at hstates
    obtain ⟨idx, hidx, -⟩ := Option.map_eq_some_iff.mp hstates
    have hlt := minIdx_lt (by simp) hidx
    rw [Nat.zero_add] at hlt
    rw [hidx, Option.bind_some, List.getElem?_eq_getElem hlt] at hnone
    cases hnone
  · subst hid
    exact changed_of_get hsome hget

theorem deleteConsensusStateImpl_spec {clientId : List Byte} (hs : s.WellKeyed)
    (h : s.deleteConsensusStateImpl clientId height = .ok s') :
    s'.WellKeyed ∧ ∃ index, Changed s s' index height none none none := by
  simp only [deleteConsensusStateImpl, bind_eq_ok] at h
  obtain ⟨⟨index, client⟩, hclient, h⟩ := h
  cases Except.ok.inj h
  obtain ⟨hsome, -⟩ := clientMut_ok hclient
  have hnodup := hs client (List.mem_of_getElem? hsome)
  refine ⟨wellKeyed_set hs (hnodup.sublist LinearMap.keys_remove_sublist), index, ?_⟩
  have hget : ∀ k, LinearMap.get k (client.consensusStates.remove height) =
      if k = height then (none : Option ClientConsensusState)
      else if k ∈ (none : Option IbcHeight) then none else client.consensusStates.get k := by
    intro k
    rw [LinearMap.get_remove hnodup, if_neg (show k ∉ (none : Option IbcHeight) by simp)]
  exact changed_of_get hsome hget

end

inductive ConsensusCall (S : Type) where
  | store (head : Option (NonZero 64 × Fin (2 ^ 64))) (clientId : List Byte)
      (revisionNumber revisionHeight : Fin (2 ^ 64)) (state : S)
  | delete (clientId : List Byte) (revisionNumber revisionHeight : Fin (2 ^ 64))

section

variable {S : Type} [Codec S] (digest : List Byte → CryptoHash)

def stepConsensus (s : IbcStorage) : ConsensusCall S → Except ContextError IbcStorage
  | .store head clientId revisionNumber revisionHeight state =>
    s.storeConsensusState digest head clientId revisionNumber revisionHeight state
  | .delete clientId revisionNumber revisionHeight =>
    s.deleteConsensusState clientId revisionNumber revisionHeight

/-- A call which fails leaves no trace. -/
def execConsensus (s : IbcStorage) (call : ConsensusCall S) : IbcStorage :=
  (s.stepConsensus digest call).toOption.getD s

def execAllConsensus (s : IbcStorage) (calls : List (ConsensusCall S)) : IbcStorage :=
  calls.foldl (execConsensus digest) s

omit [Codec S] in
/-- A new height finds the client's list not yet full. -/
def HasRoom (s : IbcStorage) : ConsensusCall S → Prop
  | .store _ clientId revisionNumber revisionHeight _ => ∀ index client height,
    s.clientMut clientId = .ok (index, client) → IbcHeight.new revisionNumber revisionHeight = some height →
      height ∈ client.consensusStates.keys ∨ client.consensusStates.length < maxConsensusStates
  | .delete .. => True

variable {digest} {s s' : IbcStorage} {call : ConsensusCall S} {calls : List (ConsensusCall S)}

theorem stored_isSome {index : Counter} {client : ClientStore} {h : IbcHeight}
    (hclient : s.priv.clients[index.val]? = some client) (hmem : h ∈ client.consensusStates.keys) :
    (s.stored index h).isSome := by
  obtain ⟨cs, hcs⟩ := Option.ne_none_iff_exists'.mp fun hnone => LinearMap.get_eq_none.mp hnone hmem
  simp [stored, hclient, hcs]

theorem stepConsensus_agrees (hs : s.WellKeyed) (hagrees : s.Agrees S digest)
    (h : s.stepConsensus digest call = .ok s') : s'.WellKeyed ∧ (s'.Agrees S digest ↔ s.HasRoom call) := by
  cases call with
  | store head clientId revisionNumber revisionHeight state =>
    simp only [stepConsensus, storeConsensusState, bind_eq_ok, orError_ok] at h
    obtain ⟨height, hheight, h⟩ := h
    obtain ⟨hs', index, client, cs, hclient, hcs, hnodup, hroom, hevicted, hchanged⟩ :=
      storeConsensusStateImpl_spec hs h
    have hiff : s.HasRoom (.store head clientId revisionNumber revisionHeight state) ↔
        evicted client.consensusStates height = none := by
      rw [hroom]
      constructor
      · exact fun hroom => hroom index client height hclient hheight
      · intro hroom index' client' height' hclient' hheight'
        cases Except.ok.inj (hclient.symm.trans hclient')
        cases Option.some.inj (hheight.symm.trans hheight')
        exact hroom
    refine ⟨hs', ?_⟩
    rw [hiff]
    cases hlost : evicted client.consensusStates height with
    | none =>
      rw [hlost] at hchanged
      refine iff_of_true (hchanged.agrees hagrees (by simp) fun clientId' cs' heq => ?_) rfl
      cases Option.some.inj heq
      exact ⟨state, hcs, rfl⟩
    | some old =>
      rw [hlost] at hchanged
      obtain ⟨hne, hmem⟩ := hevicted old hlost
      refine iff_of_false (hchanged.not_agrees hagrees hne ?_) (Option.some_ne_none old)
      exact stored_isSome (clientMut_ok hclient).1 hmem
  | delete clientId revisionNumber revisionHeight =>
    simp only [stepConsensus, deleteConsensusState, bind_eq_ok, orError_ok] at h
    obtain ⟨height, -, h⟩ := h
    obtain ⟨hs', index, hchanged⟩ := deleteConsensusStateImpl_spec hs h
    exact ⟨hs', iff_of_true (hchanged.agrees hagrees (by simp) fun _ _ heq => by cases heq) trivial⟩

theorem execConsensus_agrees (hs : s.WellKeyed) (hagrees : s.Agrees S digest) (call : ConsensusCall S) :
    (s.execConsensus digest call).WellKeyed ∧ ((s.execConsensus digest call).Agrees S digest ↔
      ((s.stepConsensus digest call).isOk → s.HasRoom call)) := by
  unfold execConsensus
  cases h : s.stepConsensus digest call with
  | ok s' =>
    obtain ⟨hs', hiff⟩ := stepConsensus_agrees hs hagrees h
    refine ⟨hs', hiff.trans ?_⟩
    exact ⟨fun hroom _ => hroom, fun hroom => hroom rfl⟩
  | error e => exact ⟨hs, iff_of_true hagrees fun hok => Bool.noConfusion hok⟩

variable (digest) in
theorem execAllConsensus_concat (s : IbcStorage) (calls : List (ConsensusCall S)) (call : ConsensusCall S) :
    s.execAllConsensus digest (calls ++ [call]) = (s.execAllConsensus digest calls).execConsensus digest call := by
  simp [execAllConsensus]

theorem execAllConsensus_wellKeyed (hs : s.WellKeyed)
    (hagrees : ∀ before after, calls = before ++ after → (s.execAllConsensus digest before).Agrees S digest) :
    (s.execAllConsensus digest calls).WellKeyed := by
  induction calls using List.reverseRecOn with
  | nil => exact hs
  | append_singleton calls call ih =>
    have hbefore := ih fun before after heq => hagrees before (after ++ [call]) (by rw [heq, List.append_assoc])
    rw [execAllConsensus_concat]
    exact (execConsensus_agrees hbefore (hagrees calls [call] rfl) call).1

/-- The list and the trie agree after every call of a run exactly if every new height
finds the list of its client not yet full. -/
theorem consensus_states_agree_iff (hs : s.WellKeyed) (hagrees : s.Agrees S digest)
    (calls : List (ConsensusCall S)) :
    (∀ before after, calls = before ++ after → (s.execAllConsensus digest before).Agrees S digest) ↔
    ∀ before call after, calls = before ++ call :: after →
      ((s.execAllConsensus digest before).stepConsensus digest call).isOk →
        (s.execAllConsensus digest before).HasRoom call := by
  constructor
  · rintro hall before call after rfl
    have hkeyed : (s.execAllConsensus digest before).WellKeyed := by
      refine execAllConsensus_wellKeyed hs fun before' after' heq => hall before' (after' ++ call :: after) ?_
      rw [heq, List.append_assoc]
    have hbefore := hall before (call :: after) rfl
    have hafter := hall (before ++ [call]) after (by simp)
    rw [execAllConsensus_concat] at hafter
    exact (execConsensus_agrees hkeyed hbefore call).2.mp hafter
  · -- From the front: with every prefix the list is also free of duplicates.
    intro hroom before
    have hboth : ∀ after, calls = before ++ after → (s.execAllConsensus digest before).WellKeyed ∧
        (s.execAllConsensus digest before).Agrees S digest := by
      induction before using List.reverseRecOn with
      | nil => exact fun _ _ => ⟨hs, hagrees⟩
      | append_singleton before call ih =>
        intro after heq
        rw [List.append_assoc, List.singleton_append] at heq
        obtain ⟨hkeyed, hbefore⟩ := ih (call :: after) heq
        obtain ⟨hkeyed', hiff⟩ := execConsensus_agrees hkeyed hbefore call
        rw [execAllConsensus_concat]
        exact ⟨hkeyed', hiff.mpr (hroom before call after heq)⟩
    exact fun after heq => (hboth after heq).2

end

namespace Sample

def clientId : List Byte := AsciiText.ascii "07-tendermint-0"

def start : IbcStorage := ⟨⟨[⟨clientId, []⟩], [], []⟩, fun _ => none⟩

def store (height : Nat) : ConsensusCall Byte :=
  .store (some (NonZero.clamp 1, u64 1)) clientId (u64 0) (u64 height) 7#8

def delete (height : Nat) : ConsensusCall Byte := .delete clientId (u64 0) (u64 height)

def hash : List Byte → CryptoHash := fun _ => CryptoHash.default

theorem start_wellKeyed : start.WellKeyed := by
  intro client hclient
  cases List.mem_singleton.mp hclient
  exact List.nodup_nil

theorem start_agrees : start.Agrees Byte hash := by
  have hnone : ∀ i h, start.stored i h = none := by
    intro i h
    unfold stored
    cases hi : start.priv.clients[i.val]? with
    | none => rfl
    | some client =>
      cases List.mem_singleton.mp (List.mem_of_getElem? hi)
      rfl
  refine ⟨fun i h => ?_, fun i h clientId cs hstored => ?_⟩
  · rw [hnone]
    exact Iff.rfl
  · rw [hnone] at hstored
    cases hstored

end Sample

open Sample in
/-- A consensus state is stored and deleted. -/
theorem consensus_states_agree_sample :
    let calls := [store 5, delete 5]
    ∀ before after, calls = before ++ after → (start.execAllConsensus hash before).Agrees Byte hash := by
  intro calls
  refine (consensus_states_agree_iff start_wellKeyed start_agrees calls).mpr ?_
  intro before call after heq _
  rcases before with _ | ⟨c, before⟩
  · cases (List.cons.inj heq).1
    intro index client height hclient _
    obtain ⟨hsome, -⟩ := clientMut_ok hclient
    cases List.mem_singleton.mp (List.mem_of_getElem? hsome)
    exact Or.inr (by decide)
  · have hmem : call ∈ [delete 5] := by
      rw [(List.cons.inj heq).2]
      simp
    cases List.mem_singleton.mp hmem
    trivial

open Sample in
/-- The lowest of 65 heights is provable but no longer stored. -/
theorem evicted_state_provable :
    let calls := (List.range 65).map fun n => store (n + 1)
    let s := start.execAllConsensus hash calls
    s.stored 0 ⟨0, 1⟩ = none ∧ (s.provable (TrieKey.forConsensusState 0 ⟨0, 1⟩)).isSome ∧
      ¬ s.Agrees Byte hash := by
  intro calls s
  have hstored : (s.stored 0 ⟨0, 1⟩).isSome = false := by decide +kernel
  have hprovable : (s.provable (TrieKey.forConsensusState 0 ⟨0, 1⟩)).isSome := by decide +kernel
  refine ⟨by simpa using hstored, hprovable, fun hagrees => ?_⟩
  have hbound := (hagrees.bound 0 ⟨0, 1⟩).mp hprovable
  rw [hstored] at hbound
  cases hbound

end IbcStorage

end SolanaIbc.Storage
