import EmulatedLightClient.Clients

/-!
# Clients are kept apart

Many identifiers end with the same number, but only the one which is stored with a client gives access to it. A
call changes nothing that belongs to other clients, and new clients come at the end of the list.
-/

namespace SolanaIbc.Storage.ClientStorage

open AsciiText ByteBits FailingState LinearMaps MachineInts Nodes TrieIds

/-- Every client is at the number its identifier ends with. -/
def WellIndexed (s : ClientStorage) : Prop :=
  ∀ i client, s.clients[i]? = some client → ∃ index, ClientIdx.tryFrom client.clientId = some index ∧ index.val = i

/-- Keys of the trie under which there are the states of a client. -/
def ClientKey (index : Counter) (key : List Byte) : Prop :=
  key = TrieKey.forClientState index ∨ ∃ height, key = TrieKey.forConsensusState index height

/-- What a call for one client may change. -/
structure OnlyTouches (clientId : List Byte) (s s' : ClientStorage) : Prop where
  /-- Clients with other identifiers are as they were. -/
  other : ∀ (i : Nat) (client : ClientEntry), s.clients[i]? = some client → client.clientId ≠ clientId →
    s'.clients[i]? = some client
  /-- No identifier is overwritten. -/
  kept : ∀ (i : Nat) (client : ClientEntry), s.clients[i]? = some client →
    ∃ client' : ClientEntry, s'.clients[i]? = some client' ∧ client'.clientId = client.clientId
  /-- A new client comes at the next free index, which is the number its identifier ends with. -/
  created : ∀ (i : Nat) (client : ClientEntry), s'.clients[i]? = some client → s.clients[i]? = none →
    i = s.clients.length ∧ client.clientId = clientId ∧ ∃ index, ClientIdx.tryFrom clientId = some index ∧ index.val = i
  /-- Nothing of others changes in the trie. -/
  provable : ∀ key, s'.provable key ≠ s.provable key →
    ∃ index, ClientIdx.tryFrom clientId = some index ∧ ClientKey index key

section

variable {clientId : List Byte} {s s' s'' : ClientStorage}

theorem OnlyTouches.refl : OnlyTouches clientId s s where
  other _ _ h _ := h
  kept _ client h := ⟨client, h, rfl⟩
  created _ _ h hnone := absurd (h.symm.trans hnone) (Option.some_ne_none _)
  provable _ h := absurd rfl h

/-- The client at the index has this very identifier. -/
def Owns (clientId : List Byte) (index : Counter) (s : ClientStorage) : Prop :=
  ClientIdx.tryFrom clientId = some index ∧ ∃ client, s.clients[index.val]? = some client ∧ client.clientId = clientId

variable {index : Counter} {f : ClientEntry → ClientEntry} {client : ClientEntry} {key : List Byte}
  {value : Option CryptoHash}

theorem OnlyTouches.modify (h : OnlyTouches clientId s s') (howns : Owns clientId index s')
    (hf : ∀ c, (f c).clientId = c.clientId) :
    OnlyTouches clientId s { s' with clients := s'.clients.modify index.val f } where
  other i client hi hne := by
    have hi' := h.other i client hi hne
    have hindex : index.val ≠ i := by
      rintro rfl
      obtain ⟨-, client', hclient', hid⟩ := howns
      rw [hi'] at hclient'
      cases hclient'
      exact hne hid
    exact (List.getElem?_modify_ne f _ hindex).trans hi'
  kept i client hi := by
    obtain ⟨client', hi', hid⟩ := h.kept i client hi
    simp only [List.getElem?_modify, hi']
    by_cases hindex : index.val = i
    · exact ⟨f client', by simp [hindex], (hf client').trans hid⟩
    · exact ⟨client', by simp [hindex], hid⟩
  created i client hi hnone := by
    rw [List.getElem?_modify, Option.map_eq_map, Option.map_eq_some_iff] at hi
    obtain ⟨client', hi', rfl⟩ := hi
    obtain ⟨hlast, hid, hparse⟩ := h.created i client' hi' hnone
    refine ⟨hlast, ?_, hparse⟩
    split
    · exact (hf client').trans hid
    · exact hid
  provable := h.provable

theorem OnlyTouches.setProvable (h : OnlyTouches clientId s s') (howns : Owns clientId index s')
    (hkey : ClientKey index key) :
    OnlyTouches clientId s { s' with provable := Function.update s'.provable key value } where
  other := h.other
  kept := h.kept
  created := h.created
  provable k hk := by
    by_cases heq : k = key
    · subst heq
      exact ⟨index, howns.1, hkey⟩
    · exact h.provable k fun hsame => hk ((Function.update_of_ne heq ..).trans hsame)

theorem Owns.modify (h : Owns clientId index s) (hf : ∀ c, (f c).clientId = c.clientId) :
    Owns clientId index { s with clients := s.clients.modify index.val f } := by
  obtain ⟨hparse, client, hclient, hid⟩ := h
  exact ⟨hparse, f client, by rw [List.getElem?_modify_eq, hclient]; rfl, (hf client).trans hid⟩

theorem isSome_filter {index : Counter} :
    (s.clients[index.val]?.filter fun store => store.clientId == clientId).isSome ↔
    ∃ client, s.clients[index.val]? = some client ∧ client.clientId = clientId := by
  cases s.clients[index.val]? with
  | none => simp
  | some client => simp [Option.filter]

/-- A client is added at the end. -/
theorem OnlyTouches.push (hparse : ClientIdx.tryFrom clientId = some index) (hlast : index.val = s.clients.length) :
    OnlyTouches clientId s { s with clients := s.clients ++ [ClientEntry.new clientId] } where
  other i client hi _ := List.getElem?_append_left (List.getElem?_eq_some_iff.mp hi).1 ▸ hi
  kept i client hi := ⟨client, List.getElem?_append_left (List.getElem?_eq_some_iff.mp hi).1 ▸ hi, rfl⟩
  created i client hi hnone := by
    rw [List.getElem?_eq_none_iff] at hnone
    rw [List.getElem?_append_right hnone, List.getElem?_singleton] at hi
    split at hi
    · cases hi
      have hi : i = s.clients.length := by omega
      exact ⟨hi, rfl, index, hparse, hlast.trans hi.symm⟩
    · cases hi
  provable _ h := absurd rfl h

/-- A client is found, or one is added, or nothing happens. -/
theorem clientMut_cases (clientId : List Byte) (create : Bool) (s : ClientStorage) :
    (∃ index, Owns clientId index s ∧ clientMut clientId create s = (.ok index, s)) ∨
      (∃ index, ClientIdx.tryFrom clientId = some index ∧ index.val = s.clients.length ∧
        clientMut clientId create s = (.ok index, { s with clients := s.clients ++ [ClientEntry.new clientId] })) ∨
      clientMut clientId create s = (.error (.clientStateNotFound clientId), s) := by
  cases hparse : ClientIdx.tryFrom clientId with
  | none =>
    refine .inr (.inr ?_)
    simp only [clientMut, hparse]
  | some index =>
    cases hcmp : compare index.val s.clients.length with
    | lt =>
      by_cases hfound : (s.clients[index.val]?.filter fun store => store.clientId == clientId).isSome
      · exact .inl ⟨index, ⟨hparse, isSome_filter.mp hfound⟩, by simp only [clientMut, hparse, hcmp, if_pos hfound]⟩
      · exact .inr (.inr (by simp only [clientMut, hparse, hcmp, if_neg hfound]))
    | eq =>
      cases create with
      | true =>
        refine .inr (.inl ⟨index, rfl, Nat.compare_eq_eq.mp hcmp, ?_⟩)
        simp only [clientMut, hparse, hcmp, if_true]
      | false =>
        refine .inr (.inr ?_)
        simp only [clientMut, hparse, hcmp]
        rfl
    | gt => exact .inr (.inr (by simp only [clientMut, hparse, hcmp]))

/-- The client found or added is the one with the identifier; nothing else has changed. -/
theorem clientMut_ends (clientId : List Byte) (create : Bool) (s : ClientStorage) :
    Op.Ends (clientMut clientId create) s
    (fun index s' => Owns clientId index s' ∧ OnlyTouches clientId s s') fun _ => OnlyTouches clientId s := by
  rcases clientMut_cases clientId create s with ⟨index, howns, h⟩ | ⟨index, hparse, hlast, h⟩ | h
  · exact Op.ends_of_ok h ⟨howns, .refl⟩
  · refine Op.ends_of_ok h ⟨⟨hparse, ClientEntry.new clientId, ?_, rfl⟩, .push hparse hlast⟩
    rw [hlast]
    exact List.getElem?_concat_length
  · unfold Op.Ends
    rw [h]
    exact .refl

/-- What is left of every call once the client has been found. -/
theorem update_touches (htouches : OnlyTouches clientId s s') (howns : Owns clientId index s')
    (hf : ∀ c, (f c).clientId = c.clientId) (hkey : ClientKey index key) :
    Op.Ends (do modifyClient index f; setProvable key value) s' (fun _ => OnlyTouches clientId s)
      fun _ => OnlyTouches clientId s := by
  refine Op.ends_bind ?_
  exact (htouches.modify howns hf).setProvable (howns.modify hf) hkey

theorem clientMut_of_foreign (hparse : ClientIdx.tryFrom clientId = some index)
    (hclient : s.clients[index.val]? = some client)
    (hne : client.clientId ≠ clientId) (create : Bool) :
    clientMut clientId create s = (.error (.clientStateNotFound clientId), s) := by
  have hlt : compare index.val s.clients.length = .lt := Nat.compare_eq_lt.mpr (List.getElem?_eq_some_iff.mp hclient).1
  have hnone : ¬(s.clients[index.val]?.filter fun store => store.clientId == clientId).isSome := by
    rw [isSome_filter]
    rintro ⟨client', hclient', rfl⟩
    rw [hclient] at hclient'
    cases hclient'
    exact hne rfl
  simp only [clientMut, hparse, hlt, if_neg hnone]

end

section

variable {CS S : Type} [Codec CS] [Codec S] {digest : List Byte → CryptoHash}

theorem storeClientStateImpl_touches (clientId : List Byte) (state : CS) (s : ClientStorage) :
    Op.Ends (storeClientStateImpl digest clientId state) s (fun _ => OnlyTouches clientId s)
      fun _ => OnlyTouches clientId s := by
  refine (clientMut_ends clientId true s).bind fun index s₁ howns => ?_
  obtain ⟨howns, htouches⟩ := howns
  refine Op.ends_bind (Op.ends_lift (fun bytes _ => ?_) fun _ _ => htouches)
  exact update_touches htouches howns (fun _ => rfl) (.inl rfl)

theorem storeConsensusStateImpl_touches (head : Option (NonZero 64 × Fin (2 ^ 64))) (clientId : List Byte)
    (height : IbcHeight)
    (state : S) (s : ClientStorage) : Op.Ends (storeConsensusStateImpl digest head clientId height state) s
      (fun _ => OnlyTouches clientId s) fun _ => OnlyTouches clientId s := by
  refine Op.ends_bind (Op.ends_lift (fun _ _ => ?_) fun _ _ => .refl)
  refine (clientMut_ends clientId false s).bind fun index s₁ howns => ?_
  obtain ⟨howns, htouches⟩ := howns
  refine Op.ends_bind (Op.ends_lift (fun _ _ => ?_) fun _ _ => htouches)
  refine Op.ends_bind (Op.ends_read ?_)
  refine Op.ends_bind (Op.ends_lift (fun _ _ => ?_) fun _ _ => htouches)
  exact update_touches htouches howns (fun _ => rfl) (.inr ⟨height, rfl⟩)

theorem deleteConsensusStateImpl_touches (clientId : List Byte) (height : IbcHeight) (s : ClientStorage) :
    Op.Ends (deleteConsensusStateImpl clientId height) s (fun _ => OnlyTouches clientId s)
      fun _ => OnlyTouches clientId s := by
  refine (clientMut_ends clientId false s).bind fun index s₁ howns => ?_
  obtain ⟨howns, htouches⟩ := howns
  exact update_touches htouches howns (fun _ => rfl) (.inr ⟨height, rfl⟩)

variable (CS S) in
inductive ClientCall where
  | storeClientState (clientId : List Byte) (state : CS)
  | storeConsensusState (head : Option (NonZero 64 × Fin (2 ^ 64))) (clientId : List Byte) (height : IbcHeight)
    (state : S)
  | deleteConsensusState (clientId : List Byte) (height : IbcHeight)

def ClientCall.clientId : ClientCall CS S → List Byte
  | storeClientState clientId _ => clientId
  | storeConsensusState _ clientId _ _ => clientId
  | deleteConsensusState clientId _ => clientId

variable (digest) in
def ClientCall.run : ClientCall CS S → ClientOp PUnit
  | storeClientState clientId state => storeClientStateImpl digest clientId state
  | storeConsensusState head clientId height state => storeConsensusStateImpl digest head clientId height state
  | deleteConsensusState clientId height => deleteConsensusStateImpl clientId height

variable (digest) in
/-- What a call which fails did before may stay or be undone. -/
inductive Step (s : ClientStorage) (call : ClientCall CS S) : ClientStorage → Prop
  | done : Step s call (call.run digest s).2
  | undone (err : ContextError) (h : (call.run digest s).1 = .error err) : Step s call s

variable (CS S digest) in
/-- States of the storage after any calls; there are no clients to begin with. -/
inductive Reachable : ClientStorage → Prop
  | start (provable : List Byte → Option CryptoHash) : Reachable ⟨[], provable⟩
  | step (s s' : ClientStorage) (call : ClientCall CS S) (hs : Reachable s) (h : Step digest s call s') : Reachable s'

variable {s s' : ClientStorage} {call : ClientCall CS S}

theorem run_touches (call : ClientCall CS S) (s : ClientStorage) :
    OnlyTouches call.clientId s (call.run digest s).2 := by
  have hends :
      Op.Ends (call.run digest) s (fun _ => OnlyTouches call.clientId s) fun _ => OnlyTouches call.clientId s := by
    cases call with
    | storeClientState clientId state => exact storeClientStateImpl_touches clientId state s
    | storeConsensusState head clientId height state =>
      exact storeConsensusStateImpl_touches head clientId height state s
    | deleteConsensusState clientId height => exact deleteConsensusStateImpl_touches clientId height s
  unfold Op.Ends at hends
  split at hends
  · rename_i heq
    rw [heq]
    exact hends
  · rename_i heq
    rw [heq]
    exact hends

theorem step_touches (h : Step digest s call s') : OnlyTouches call.clientId s s' := by
  cases h with
  | done => exact run_touches call s
  | undone err h => exact .refl

theorem OnlyTouches.wellIndexed {clientId : List Byte} (h : OnlyTouches clientId s s') (hs : s.WellIndexed) :
    s'.WellIndexed := by
  intro i client hi
  cases hold : s.clients[i]? with
  | none =>
    obtain ⟨-, hid, hparse⟩ := h.created i client hi hold
    rw [hid]
    exact hparse
  | some old =>
    obtain ⟨client', hi', hid⟩ := h.kept i old hold
    rw [hi] at hi'
    cases hi'
    rw [hid]
    exact hs i old hold

theorem reachable_wellIndexed (h : Reachable CS S digest s) : s.WellIndexed := by
  induction h with
  | start provable =>
    intro i client hi
    cases hi
  | step s s' call _ hstep ih => exact (step_touches hstep).wellIndexed ih

theorem client_eq_ok {clientId : List Byte} {index : Counter} {client : ClientEntry} :
    s.client clientId = .ok (index, client) ↔
      ClientIdx.tryFrom clientId = some index ∧ s.clients[index.val]? = some client ∧ client.clientId = clientId := by
  rw [ClientStorage.client, orError_ok, Option.bind_eq_some_iff]
  constructor
  · rintro ⟨index', hparse, h⟩
    obtain ⟨client', hfilter, heq⟩ := Option.map_eq_some_iff.mp h
    cases heq
    obtain ⟨hclient, hid⟩ := Option.filter_eq_some_iff.mp hfilter
    exact ⟨hparse, hclient, beq_iff_eq.mp hid⟩
  · rintro ⟨hparse, hclient, hid⟩
    refine ⟨index, hparse, ?_⟩
    rw [hclient, Option.filter_some, if_pos (beq_iff_eq.mpr hid), Option.map_some]

/-- A call for another identifier with the number of a client is rejected. -/
theorem run_of_foreign {index : Counter} {client : ClientEntry} (hparse : ClientIdx.tryFrom call.clientId = some index)
    (hclient : s.clients[index.val]? = some client) (hne : client.clientId ≠ call.clientId) :
    ∃ err, call.run digest s = (.error err, s) := by
  have hreject : ∀ create, (clientMut call.clientId create).run s = (.error (.clientStateNotFound call.clientId), s) :=
    clientMut_of_foreign hparse hclient hne
  cases call with
  | storeClientState clientId state => exact ⟨_, Op.run_bind_of_error (hreject true)⟩
  | storeConsensusState head clientId height state =>
    cases head with
    | none => exact ⟨.other, rfl⟩
    | some head =>
      have hrest : ∀ f : Counter → ClientOp PUnit,
          (clientMut clientId false >>= f).run s = (.error (.clientStateNotFound clientId), s) :=
        fun f => Op.run_bind_of_error (hreject false)
      exact ⟨_, hrest _⟩
  | deleteConsensusState clientId height => exact ⟨_, Op.run_bind_of_error (hreject false)⟩

/-- In every state reached each client is at the number its identifier ends with, so that exactly the client with a
given identifier is found for it; a call changes nothing of other clients and adds a client at the next free index
only; and other identifiers with the number of a client are rejected. -/
theorem clients_isolated (hs : Reachable CS S digest s) :
    s.WellIndexed ∧
    (∀ clientId index client, s.client clientId = .ok (index, client) ↔
      s.clients[index.val]? = some client ∧ client.clientId = clientId) ∧
    (∀ (call : ClientCall CS S) s', Step digest s call s' → OnlyTouches call.clientId s s') ∧
    ∀ clientId index client, ClientIdx.tryFrom clientId = some index → s.clients[index.val]? = some client →
      client.clientId ≠ clientId → s.client clientId = .error (.clientStateNotFound clientId) ∧
        ∀ call : ClientCall CS S, call.clientId = clientId → ∃ err, call.run digest s = (.error err, s) := by
  have hindexed := reachable_wellIndexed hs
  refine ⟨hindexed, fun clientId index client => ?_, fun call s' hstep => step_touches hstep,
    fun clientId index client hparse hclient hne => ⟨?_, ?_⟩⟩
  · rw [client_eq_ok, and_iff_right_iff_imp]
    rintro ⟨hclient, rfl⟩
    obtain ⟨index', hparse, hval⟩ := hindexed index.val client hclient
    rw [hparse, Fin.ext hval]
  · rw [ClientStorage.client, hparse, Option.bind_some, hclient, Option.filter_some, if_neg (by simpa using hne)]
    rfl
  · rintro call rfl
    exact run_of_foreign hparse hclient hne

/-- The storage after the first client has been created. -/
def firstClient : ClientStorage :=
  (ClientCall.run (S := Byte) (fun _ => CryptoHash.default) (.storeClientState (ascii "mock-0") 5#8)
    ⟨[], fun _ => none⟩).2

/-- An identifier of another type with the number of the client. -/
theorem clients_isolated_sample :
    firstClient.client (ascii "fake-0") = .error (.clientStateNotFound (ascii "fake-0")) := by
  have h : Reachable Byte Byte (fun _ => CryptoHash.default) firstClient :=
    .step _ firstClient _ (.start fun _ => none) .done
  exact ((clients_isolated h).2.2.2 (ascii "fake-0") 0 ⟨ascii "mock-0", [5#8], []⟩ rfl rfl
    (by decide)).1

end

end SolanaIbc.Storage.ClientStorage
