import EmulatedLightClient.HostStorage

/-!
# Clients

Clients are kept in a list, each at the number at the end of its identifier. The identifier itself is stored with
the client and compared whenever the client is looked up.
-/

namespace SolanaIbc.Storage

open ByteBits FailingState LinearMaps MachineInts Nodes TrieIds

/-- What is kept for a client. The serialised state of the client is empty until it is set. -/
structure ClientEntry where
  clientId : List Byte
  clientState : List Byte
  consensusStates : LinearMap IbcHeight ClientConsensusState

def ClientEntry.new (clientId : List Byte) : ClientEntry := ⟨clientId, [], []⟩

structure ClientStorage where
  clients : List ClientEntry
  provable : List Byte → Option CryptoHash

/-- A call which fails may have changed something before. -/
abbrev ClientOp (α : Type) := Op ContextError ClientStorage α

namespace ClientStorage

def client (s : ClientStorage) (clientId : List Byte) : Except ContextError (Counter × ClientEntry) :=
  orError ((ClientIdx.tryFrom clientId).bind fun index =>
    (s.clients[index.val]?.filter fun store => store.clientId == clientId).map fun store => (index, store))
    (.clientStateNotFound clientId)

/-- Position of an existing client or, if `create` is set, of one added at the end. -/
def clientMut (clientId : List Byte) (create : Bool) : ClientOp Counter := fun s =>
  match ClientIdx.tryFrom clientId with
  | none => (.error (.clientStateNotFound clientId), s)
  | some index =>
    match compare index.val s.clients.length with
    | .lt =>
      if (s.clients[index.val]?.filter fun store => store.clientId == clientId).isSome then (.ok index, s)
      else (.error (.clientStateNotFound clientId), s)
    | .eq =>
      if create then (.ok index, { s with clients := s.clients ++ [ClientEntry.new clientId] })
      else (.error (.clientStateNotFound clientId), s)
    | .gt => (.error (.clientStateNotFound clientId), s)

section

variable (CS : Type) {S : Type} [Codec CS] [Codec S]

def clientState (s : ClientStorage) (clientId : List Byte) : Except ContextError CS := do
  let (_, client) ← s.client clientId
  orError (Codec.tryFromSlice client.clientState) .clientSpecific

variable (S) in
def consensusStateImpl (s : ClientStorage) (clientId : List Byte) (height : IbcHeight) : Except ContextError S := do
  let (_, client) ← s.client clientId
  let data ← orError (client.consensusStates.get height) (.consensusStateNotFound clientId height)
  orError (data.state S) .clientSpecific

end

def modifyClient (index : Counter) (f : ClientEntry → ClientEntry) : ClientOp PUnit :=
  Op.modify fun s => { s with clients := s.clients.modify index.val f }

def setProvable (key : List Byte) (value : Option CryptoHash) : ClientOp PUnit :=
  Op.modify fun s => { s with provable := Function.update s.provable key value }

section

variable {CS S : Type} [Codec CS] [Codec S] (digest : List Byte → CryptoHash)

/-- The event is left out. -/
def storeClientStateImpl (clientId : List Byte) (state : CS) : ClientOp PUnit := do
  let index ← clientMut clientId true
  let bytes ← Op.lift (orError (Codec.toVec state) .clientSpecific)
  modifyClient index fun client => { client with clientState := bytes }
  let hash := IbcStorage.digestWithClientId digest clientId (Codec.encodeVec state)
  setProvable (TrieKey.forClientState index) (some hash)

/-- Consensus states of the client at given position. -/
def consensusStatesAt (s : ClientStorage) (index : Counter) : LinearMap IbcHeight ClientConsensusState :=
  s.clients[index.val]?.elim [] (·.consensusStates)

/-- `head` has the timestamp and the height of the chain's last block. -/
def storeConsensusStateImpl (head : Option (NonZero 64 × Fin (2 ^ 64))) (clientId : List Byte) (height : IbcHeight)
    (state : S) : ClientOp PUnit := do
  let (processedTime, processedHeight) ← Op.lift (orError head .other)
  let hash := IbcStorage.digestWithClientId digest clientId (Codec.encodeVec state)
  let index ← clientMut clientId false
  let state ← Op.lift (orError (ClientConsensusState.new processedTime processedHeight state) .clientSpecific)
  let s ← Op.read
  let consensusStates ← Op.lift
    (orError (IbcStorage.insertConsensusState (s.consensusStatesAt index) height state) .panic)
  modifyClient index fun client => { client with consensusStates }
  setProvable (TrieKey.forConsensusState index height) (some hash)

def deleteConsensusStateImpl (clientId : List Byte) (height : IbcHeight) : ClientOp PUnit := do
  let index ← clientMut clientId false
  modifyClient index fun client => { client with consensusStates := client.consensusStates.remove height }
  setProvable (TrieKey.forConsensusState index height) none

end

/-! Without the states of the clients the storage is the store of the host, which has the same calls for consensus
states.
-/

def toStore (client : ClientEntry) : ClientStore := ⟨client.clientId, client.consensusStates⟩

/-- The store with these clients. -/
def within (s : ClientStorage) (priv : PrivateStorage) : IbcStorage :=
  ⟨{ priv with clients := s.clients.map toStore }, s.provable⟩

section

variable {s : ClientStorage} {clientId : List Byte}

/-- Looking a client up changes nothing unless it may be added. -/
theorem clientMut_false (s : ClientStorage) (clientId : List Byte) :
    (clientMut clientId false).run s = ((s.client clientId).map Prod.fst, s) := by
  unfold Op.run clientMut client
  cases ClientIdx.tryFrom clientId with
  | none => rfl
  | some index =>
    simp only [Option.bind_some]
    cases hcmp : compare index.val s.clients.length with
    | lt =>
      cases s.clients[index.val]?.filter fun store => store.clientId == clientId with
      | none => rfl
      | some client => rfl
    | eq =>
      rw [List.getElem?_eq_none (Nat.compare_eq_eq.mp hcmp).ge]
      rfl
    | gt =>
      rw [List.getElem?_eq_none (Nat.compare_eq_gt.mp hcmp).le]
      rfl

theorem within_clientMut (s : ClientStorage) (priv : PrivateStorage) (clientId : List Byte) :
    (s.within priv).clientMut clientId = (s.client clientId).map fun found => (found.1, toStore found.2) := by
  unfold IbcStorage.clientMut client within
  cases ClientIdx.tryFrom clientId with
  | none => rfl
  | some index =>
    simp only [Option.bind_eq_bind, Option.bind_some, List.getElem?_map]
    cases s.clients[index.val]? with
    | none => rfl
    | some store =>
      by_cases hid : store.clientId = clientId
      · simp [toStore, hid, orError, Except.map, Option.filter_some]
      · simp [toStore, hid, orError, Except.map, Option.filter_some]

/-- The client is at the position at which it is found. -/
theorem client_getElem? {index : Counter} {client : ClientEntry} (h : s.client clientId = .ok (index, client)) :
    s.clients[index.val]? = some client := by
  rw [ClientStorage.client, orError_ok] at h
  obtain ⟨index', -, h⟩ := Option.bind_eq_some_iff.mp h
  obtain ⟨client', hfilter, heq⟩ := Option.map_eq_some_iff.mp h
  cases heq
  exact (Option.filter_eq_some_iff.mp hfilter).1

/-- Other consensus states of the client are other consensus states of the store. -/
theorem within_modify {index : Counter} {client : ClientEntry} (h : s.clients[index.val]? = some client)
    (priv : PrivateStorage) (f : LinearMap IbcHeight ClientConsensusState → LinearMap IbcHeight ClientConsensusState) :
    within { s with clients := s.clients.modify index.val fun client =>
        { client with consensusStates := f client.consensusStates } } priv =
      (s.within priv).setConsensusStates index (toStore client) (f client.consensusStates) := by
  unfold within IbcStorage.setConsensusStates
  simp only [IbcStorage.mk.injEq, PrivateStorage.mk.injEq, and_true]
  refine List.ext_getElem? fun i => ?_
  rw [List.getElem?_map, List.getElem?_modify, List.getElem?_set, List.length_map, List.getElem?_map]
  by_cases hi : index.val = i
  · subst hi
    rw [if_pos rfl, if_pos (List.getElem?_eq_some_iff.mp h).1, h]
    simp [toStore]
  · rw [if_neg hi]
    simp [hi]

/-- Deleting a consensus state does to the store what it does there. -/
theorem deleteConsensusStateImpl_refines (s : ClientStorage) (priv : PrivateStorage) (clientId : List Byte)
    (height : IbcHeight) :
    (s.within priv).deleteConsensusStateImpl clientId height =
      ((deleteConsensusStateImpl clientId height).run s).1.map fun _ =>
        ((deleteConsensusStateImpl clientId height).run s).2.within priv := by
  have hlookup := clientMut_false s clientId
  unfold IbcStorage.deleteConsensusStateImpl deleteConsensusStateImpl
  rw [within_clientMut]
  cases hclient : s.client clientId with
  | error e =>
    rw [hclient] at hlookup
    rw [Op.run_bind_of_error hlookup]
    rfl
  | ok found =>
    rw [hclient] at hlookup
    rw [Op.run_bind_of_ok hlookup]
    exact congrArg (fun s => Except.ok (s.setProvable (TrieKey.forConsensusState found.1 height) none))
      (within_modify (client_getElem? hclient) priv (·.remove height)).symm

/-- So does storing one. -/
theorem storeConsensusStateImpl_refines {S : Type} [Codec S] (digest : List Byte → CryptoHash) (s : ClientStorage)
    (priv : PrivateStorage) (head : Option (NonZero 64 × Fin (2 ^ 64))) (clientId : List Byte) (height : IbcHeight)
    (state : S) :
    (s.within priv).storeConsensusStateImpl digest head clientId height state =
      ((storeConsensusStateImpl digest head clientId height state).run s).1.map fun _ =>
        ((storeConsensusStateImpl digest head clientId height state).run s).2.within priv := by
  have hlookup := clientMut_false s clientId
  unfold IbcStorage.storeConsensusStateImpl storeConsensusStateImpl
  rw [within_clientMut]
  cases head with
  | none => rfl
  | some head =>
    obtain ⟨processedTime, processedHeight⟩ := head
    have hhead : (Op.lift (orError (some (processedTime, processedHeight)) .other) : ClientOp _).run s =
        (.ok (processedTime, processedHeight), s) := rfl
    rw [Op.run_bind_of_ok hhead]
    cases hclient : s.client clientId with
    | error e =>
      rw [hclient] at hlookup
      rw [Op.run_bind_of_error hlookup]
      rfl
    | ok found =>
      obtain ⟨index, client⟩ := found
      have hget := client_getElem? hclient
      have hstates : s.consensusStatesAt index = client.consensusStates := by
        rw [consensusStatesAt, hget]
        rfl
      rw [hclient] at hlookup
      rw [Op.run_bind_of_ok hlookup]
      change (orError (ClientConsensusState.new processedTime processedHeight state) .clientSpecific >>= fun data =>
        orError (IbcStorage.insertConsensusState client.consensusStates height data) .panic >>= fun states =>
          Except.ok (((s.within priv).setConsensusStates index (toStore client) states).setProvable
            (TrieKey.forConsensusState index height)
            (some (IbcStorage.digestWithClientId digest clientId (Codec.encodeVec state))))) = _
      cases ClientConsensusState.new processedTime processedHeight state with
      | none => rfl
      | some data =>
        have hdata : (Op.lift (orError (some data) .clientSpecific) : ClientOp _).run s = (.ok data, s) := rfl
        have hread : (Op.read : ClientOp ClientStorage).run s = (.ok s, s) := rfl
        rw [Op.run_bind_of_ok hdata, Op.run_bind_of_ok hread, hstates]
        change orError (IbcStorage.insertConsensusState client.consensusStates height data) .panic >>= _ = _
        cases IbcStorage.insertConsensusState client.consensusStates height data with
        | none => rfl
        | some states =>
          exact congrArg (fun s : IbcStorage => Except.ok (s.setProvable (TrieKey.forConsensusState index height)
            (some (IbcStorage.digestWithClientId digest clientId (Codec.encodeVec state)))))
            (within_modify hget priv fun _ => states).symm

end

end ClientStorage

end SolanaIbc.Storage
