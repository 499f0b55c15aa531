import EmulatedLightClient.HostStorage

/-!
# The store refines the host store

The host store of IBC has one place for each path and what was stored last is in
it. The program spreads the paths over lists, a map and the trie; with identifiers
in their canonical spelling nothing of that shows.
-/

namespace SolanaIbc.Storage

open ByteBits FailingState LinearMaps MachineInts Nodes TrieIds

/-- Port and channel. -/
abbrev ChannelPath := List Byte × List Byte

/-- Port, channel and sequence. -/
abbrev PacketPath := ChannelPath × Fin (2 ^ 64)

structure HostStore (C E : Type) where
  connections : List Byte → Option C
  channels : ChannelPath → Option E
  sequences : SequenceKind × ChannelPath → Option Nat
  commitments : PacketPath → Option CryptoHash
  receipts : PacketPath → Bool
  acknowledgements : PacketPath → Option CryptoHash

inductive HostCall (C E : Type) where
  | storeConnection (id : List Byte) (connectionEnd : C)
  | storeChannel (path : ChannelPath) (channelEnd : E)
  | storeNextSequence (kind : SequenceKind) (path : ChannelPath) (seq : Fin (2 ^ 64))
  | storePacketCommitment (path : PacketPath) (commitment : CryptoHash)
  | storePacketReceipt (path : PacketPath)
  | storePacketAcknowledgement (path : PacketPath) (commitment : CryptoHash)
  | deletePacketCommitment (path : PacketPath)
  | deletePacketAcknowledgement (path : PacketPath)

namespace HostStore

variable {C E : Type}

def empty : HostStore C E :=
  ⟨fun _ => none, fun _ => none, fun _ => none, fun _ => none, fun _ => false, fun _ => none⟩

def step (a : HostStore C E) : HostCall C E → HostStore C E
  | .storeConnection id c => { a with connections := Function.update a.connections id (some c) }
  | .storeChannel path e => { a with channels := Function.update a.channels path (some e) }
  | .storeNextSequence kind path seq =>
    { a with sequences := Function.update a.sequences (kind, path) (some seq.val) }
  | .storePacketCommitment path h => { a with commitments := Function.update a.commitments path (some h) }
  | .storePacketReceipt path => { a with receipts := Function.update a.receipts path true }
  | .storePacketAcknowledgement path h =>
    { a with acknowledgements := Function.update a.acknowledgements path (some h) }
  | .deletePacketCommitment path => { a with commitments := Function.update a.commitments path none }
  | .deletePacketAcknowledgement path =>
    { a with acknowledgements := Function.update a.acknowledgements path none }

def run (a : HostStore C E) (calls : List (HostCall C E)) : HostStore C E := calls.foldl step a

end HostStore

/-- Identifiers are spelled as the program spells them, and sequences are not zero. -/
def HostCall.Canonical {C E : Type} : HostCall C E → Prop
  | .storeConnection id _ => CanonicalConnection id
  | .storeChannel path _ => CanonicalChannel path.2
  | .storeNextSequence _ path seq => CanonicalChannel path.2 ∧ 0 < seq.val
  | .storePacketCommitment path _ => CanonicalChannel path.1.2
  | .storePacketReceipt path => CanonicalChannel path.1.2
  | .storePacketAcknowledgement path _ => CanonicalChannel path.1.2
  | .deletePacketCommitment path => CanonicalChannel path.1.2
  | .deletePacketAcknowledgement path => CanonicalChannel path.1.2

namespace IbcStorage

section

variable {C E : Type} [Codec C] [Codec E] (digest : List Byte → CryptoHash)

def stepHost (s : IbcStorage) : HostCall C E → Except ContextError IbcStorage
  | .storeConnection id c => s.storeConnection digest id c
  | .storeChannel path e => s.storeChannel digest path.1 path.2 e
  | .storeNextSequence kind path seq => s.storeNextSequence kind path.1 path.2 seq
  | .storePacketCommitment path h => s.storePacketCommitment path.1.1 path.1.2 path.2 h
  | .storePacketReceipt path => s.storePacketReceipt path.1.1 path.1.2 path.2
  | .storePacketAcknowledgement path h => s.storePacketAcknowledgement path.1.1 path.1.2 path.2 h
  | .deletePacketCommitment path => s.deletePacketCommitment path.1.1 path.1.2 path.2
  | .deletePacketAcknowledgement path => s.deletePacketAcknowledgement path.1.1 path.1.2 path.2

def runHost (s : IbcStorage) (calls : List (HostCall C E)) : Except ContextError IbcStorage :=
  calls.foldlM (stepHost digest) s

end

end IbcStorage

inductive Entry where
  | connection (id : List Byte)
  | channelEnd (path : ChannelPath)
  | nextSequence (path : ChannelPath)
  | commitment (path : PacketPath)
  | receipt (path : PacketPath)
  | ack (path : PacketPath)
deriving DecidableEq

namespace Entry

def Canonical : Entry → Prop
  | connection id => CanonicalConnection id
  | channelEnd path => CanonicalChannel path.2
  | nextSequence path => CanonicalChannel path.2
  | commitment path => CanonicalChannel path.1.2
  | receipt path => CanonicalChannel path.1.2
  | ack path => CanonicalChannel path.1.2

def channelKey (tag : Tag) (path : ChannelPath) : Option (List Byte) :=
  (PortChannelPK.tryFrom path.1 path.2).map (TrieKey.forChannelPath tag)

def packetKey (tag : Tag) (path : PacketPath) : Option (List Byte) :=
  TrieKey.tryForSequencePath tag path.1.1 path.1.2 path.2

def key : Entry → Option (List Byte)
  | connection id => (ConnectionIdx.tryFrom id).map TrieKey.forConnection
  | channelEnd path => channelKey .channelEnd path
  | nextSequence path => channelKey .nextSequence path
  | commitment path => packetKey .commitment path
  | receipt path => packetKey .receipt path
  | ack path => packetKey .ack path

def tag : Entry → Tag
  | connection _ => .connection
  | channelEnd _ => .channelEnd
  | nextSequence _ => .nextSequence
  | commitment _ => .commitment
  | receipt _ => .receipt
  | ack _ => .ack

theorem key_eq_new {e : Entry} {k : List Byte} (h : e.key = some k) : ∃ c, k = TrieKey.new e.tag c := by
  cases e with
  | connection id =>
    obtain ⟨i, -, rfl⟩ := Option.map_eq_some_iff.mp h
    exact ⟨_, rfl⟩
  | channelEnd path =>
    obtain ⟨pk, -, rfl⟩ := Option.map_eq_some_iff.mp h
    exact ⟨_, rfl⟩
  | nextSequence path =>
    obtain ⟨pk, -, rfl⟩ := Option.map_eq_some_iff.mp h
    exact ⟨_, rfl⟩
  | commitment path =>
    obtain ⟨pk, -, rfl⟩ := Option.map_eq_some_iff.mp h
    exact ⟨_, rfl⟩
  | receipt path =>
    obtain ⟨pk, -, rfl⟩ := Option.map_eq_some_iff.mp h
    exact ⟨_, rfl⟩
  | ack path =>
    obtain ⟨pk, -, rfl⟩ := Option.map_eq_some_iff.mp h
    exact ⟨_, rfl⟩

theorem channelKey_inj {tag : Tag} {path path' : ChannelPath} {k : List Byte} (hc : CanonicalChannel path.2)
    (hc' : CanonicalChannel path'.2) (h : channelKey tag path = some k) (h' : channelKey tag path' = some k) :
    path = path' := by
  obtain ⟨pk, hpk, rfl⟩ := Option.map_eq_some_iff.mp h
  obtain ⟨pk', hpk', heq⟩ := Option.map_eq_some_iff.mp h'
  obtain ⟨-, rfl⟩ := TrieKey.forChannelPath_inj heq
  obtain ⟨hport, hchannel⟩ := PortChannelPK.tryFrom_inj hc hc' hpk hpk'
  exact Prod.ext hport hchannel

theorem packetKey_inj {tag : Tag} {path path' : PacketPath} {k : List Byte} (hc : CanonicalChannel path.1.2)
    (hc' : CanonicalChannel path'.1.2) (h : packetKey tag path = some k) (h' : packetKey tag path' = some k) :
    path = path' := by
  obtain ⟨pk, hpk, rfl⟩ := Option.map_eq_some_iff.mp h
  obtain ⟨pk', hpk', heq⟩ := Option.map_eq_some_iff.mp h'
  obtain ⟨-, rfl, hseq⟩ := TrieKey.forSequencePath_inj heq
  obtain ⟨hport, hchannel⟩ := PortChannelPK.tryFrom_inj hc hc' hpk hpk'
  exact Prod.ext (Prod.ext hport hchannel) hseq.symm

/-- Entries have keys of their own. -/
theorem key_inj {e e' : Entry} {k : List Byte} (hc : e.Canonical) (hc' : e'.Canonical) (h : e.key = some k)
    (h' : e'.key = some k) : e = e' := by
  have htag : e.tag = e'.tag := by
    obtain ⟨c, hc⟩ := key_eq_new h
    obtain ⟨c', hc'⟩ := key_eq_new h'
    exact (TrieKey.new_inj (hc.symm.trans hc')).1
  cases e with
  | connection id =>
    cases e' <;> try cases htag
    obtain ⟨i, hi, rfl⟩ := Option.map_eq_some_iff.mp h
    obtain ⟨i', hi', heq⟩ := Option.map_eq_some_iff.mp h'
    cases TrieKey.forConnection_injective heq
    exact congrArg connection (Counter.canonical_inj hc hc' hi hi')
  | channelEnd path =>
    cases e' <;> try cases htag
    exact congrArg channelEnd (channelKey_inj hc hc' h h')
  | nextSequence path =>
    cases e' <;> try cases htag
    exact congrArg nextSequence (channelKey_inj hc hc' h h')
  | commitment path =>
    cases e' <;> try cases htag
    exact congrArg commitment (packetKey_inj hc hc' h h')
  | receipt path =>
    cases e' <;> try cases htag
    exact congrArg receipt (packetKey_inj hc hc' h h')
  | ack path =>
    cases e' <;> try cases htag
    exact congrArg ack (packetKey_inj hc hc' h h')

end Entry

theorem length_tripleBytes (f : SequenceKind → Option Nat) :
    (beBytes 8 ((f .send).getD 0) ++ beBytes 8 ((f .recv).getD 0) ++ beBytes 8 ((f .ack).getD 0) ++
      List.replicate 8 0#8).length = 32 := by
  simp

/-- The three sequences of a channel in one hash, if any of them is set. -/
def tripleHash (f : SequenceKind → Option Nat) : Option CryptoHash :=
  if f .send = none ∧ f .recv = none ∧ f .ack = none then none
  else some ⟨beBytes 8 ((f .send).getD 0) ++ beBytes 8 ((f .recv).getD 0) ++ beBytes 8 ((f .ack).getD 0) ++
    List.replicate 8 0#8, length_tripleBytes f⟩

theorem tripleHash_get {t : SequenceTriple} {kind : SequenceKind} {n : Nat} (h : t.get kind = some n) :
    tripleHash t.get = some t.toHash := by
  refine if_neg ?_
  rintro ⟨hsend, hrecv, hack⟩
  cases kind with
  | send => exact Option.some_ne_none n (h.symm.trans hsend)
  | recv => exact Option.some_ne_none n (h.symm.trans hrecv)
  | ack => exact Option.some_ne_none n (h.symm.trans hack)

theorem SequenceTriple.get_set {t : SequenceTriple} {kind idx : SequenceKind} {seq : Fin (2 ^ 64)}
    (h : 0 < seq.val) : (t.set kind seq).get idx = if idx = kind then some seq.val else t.get idx := by
  unfold SequenceTriple.get SequenceTriple.set
  by_cases hidx : idx = kind
  · subst hidx
    simp [NonZero.new, h]
  · simp [hidx]

namespace HostStore

variable {C E : Type} [Codec C] [Codec E] (digest : List Byte → CryptoHash)

/-- What the trie has for an entry. -/
def hashOf (a : HostStore C E) : Entry → Option CryptoHash
  | .connection id => (a.connections id).map fun c => digest (Codec.encodeVec c)
  | .channelEnd path => (a.channels path).map fun e => digest (Codec.encodeVec e)
  | .nextSequence path => tripleHash fun kind => a.sequences (kind, path)
  | .commitment path => a.commitments path
  | .receipt path => if a.receipts path then some CryptoHash.default else none
  | .ack path => a.acknowledgements path

end HostStore

namespace IbcStorage

variable {C E : Type} [Codec C] [Codec E] {digest : List Byte → CryptoHash}

def hashAt (s : IbcStorage) (e : Entry) : Option CryptoHash := e.key.bind s.provable

def connectionAt (s : IbcStorage) (id : List Byte) : Option (List Byte) :=
  (ConnectionIdx.tryFrom id).bind fun i => s.priv.connections[i.val]?

def portChannelAt (s : IbcStorage) (path : ChannelPath) : Option PortChannelStore :=
  (PortChannelPK.tryFrom path.1 path.2).bind fun k => s.priv.portChannel.get k

def channelAt (s : IbcStorage) (path : ChannelPath) : Option (List Byte) :=
  (s.portChannelAt path).bind fun store => if store.channelEnd = [] then none else some store.channelEnd

def sequenceAt (s : IbcStorage) (kind : SequenceKind) (path : ChannelPath) : Option Nat :=
  (s.portChannelAt path).bind fun store => store.nextSequence.get kind

/-- The store as a host store: what is kept of connections and channels are their
encodings. -/
structure Represents (digest : List Byte → CryptoHash) (s : IbcStorage) (a : HostStore C E) : Prop where
  connection : ∀ id, CanonicalConnection id → (a.connections id).map Codec.toVec = (s.connectionAt id).map some
  channel : ∀ path : ChannelPath, CanonicalChannel path.2 →
    (a.channels path).map Codec.toVec = (s.channelAt path).map some
  sequence : ∀ kind (path : ChannelPath), CanonicalChannel path.2 →
    a.sequences (kind, path) = s.sequenceAt kind path
  trie : ∀ e : Entry, e.Canonical → s.hashAt e = a.hashOf digest e

section

variable {s s' : IbcStorage} {a a' : HostStore C E} {e₀ : Entry} {k : List Byte} {v : Option CryptoHash}

theorem hashAt_setProvable (hkey : e₀.key = some k) (hcanonical : e₀.Canonical) {e : Entry} (he : e.Canonical) :
    (s.setProvable k v).hashAt e = if e = e₀ then v else s.hashAt e := by
  unfold hashAt setProvable
  by_cases heq : e = e₀
  · subst heq
    rw [hkey, if_pos rfl, Option.bind_some]
    exact Function.update_self ..
  · rw [if_neg heq]
    cases hk : e.key with
    | none => rfl
    | some k' =>
      have hne : k' ≠ k := by
        rintro rfl
        exact heq (Entry.key_inj he hcanonical hk hkey)
      rw [Option.bind_some, Option.bind_some]
      exact Function.update_of_ne hne ..

/-- One entry of the trie changes with the host store. -/
theorem trie_set (h : ∀ e : Entry, e.Canonical → s.hashAt e = a.hashOf digest e) (hkey : e₀.key = some k) (hcanonical : e₀.Canonical)
    (hself : a'.hashOf digest e₀ = v) (hother : ∀ e, e ≠ e₀ → a'.hashOf digest e = a.hashOf digest e) :
    ∀ e : Entry, e.Canonical → (s.setProvable k v).hashAt e = a'.hashOf digest e := by
  intro e he
  rw [hashAt_setProvable hkey hcanonical he]
  by_cases heq : e = e₀
  · subst heq
    rw [if_pos rfl, hself]
  · rw [if_neg heq, h e he, hother e heq]

/-- The private part is as it was. -/
theorem Represents.of_priv (h : Represents digest s a) (hpriv : s'.priv = s.priv)
    (hconnections : a'.connections = a.connections) (hchannels : a'.channels = a.channels)
    (hsequences : a'.sequences = a.sequences)
    (htrie : ∀ e : Entry, e.Canonical → s'.hashAt e = a'.hashOf digest e) : Represents digest s' a' where
  connection := by
    intro id hid
    rw [hconnections, h.connection id hid, connectionAt, connectionAt, hpriv]
  channel := by
    intro path hpath
    rw [hchannels, h.channel path hpath, channelAt, channelAt, portChannelAt, portChannelAt, hpriv]
  sequence := by
    intro kind path hpath
    rw [hsequences, h.sequence kind path hpath, sequenceAt, sequenceAt, portChannelAt, portChannelAt, hpriv]
  trie := htrie

theorem storeCommitment_ok {tag : Tag} {path : PacketPath} {commitment : CryptoHash}
    (h : s.storeCommitment tag path.1.1 path.1.2 path.2 commitment = .ok s') :
    ∃ k, Entry.packetKey tag path = some k ∧ s' = s.setProvable k (some commitment) := by
  simp only [storeCommitment, packetKey, bind_eq_ok, orError_ok] at h
  obtain ⟨k, hk, h⟩ := h
  exact ⟨k, hk, (Except.ok.inj h).symm⟩

theorem deleteCommitment_ok {tag : Tag} {path : PacketPath}
    (h : s.deleteCommitment tag path.1.1 path.1.2 path.2 = .ok s') :
    ∃ k, Entry.packetKey tag path = some k ∧ s' = s.setProvable k none := by
  simp only [deleteCommitment, packetKey, bind_eq_ok, orError_ok] at h
  obtain ⟨k, hk, h⟩ := h
  exact ⟨k, hk, (Except.ok.inj h).symm⟩

/-- A change of one entry which stands for itself in the host store. -/
theorem Represents.packet (h : Represents digest s a) (e₀ : Entry) (hkey : e₀.key = some k) (hcanonical : e₀.Canonical)
    (hconnections : a'.connections = a.connections) (hchannels : a'.channels = a.channels)
    (hsequences : a'.sequences = a.sequences) (hself : a'.hashOf digest e₀ = v)
    (hother : ∀ e, e ≠ e₀ → a'.hashOf digest e = a.hashOf digest e) :
    Represents digest (s.setProvable k v) a' :=
  h.of_priv rfl hconnections hchannels hsequences (trie_set h.trie hkey hcanonical hself hother)

theorem getElem?_putConnection {connections connections' : List (List Byte)} {i : Nat} {bytes : List Byte}
    (h : putConnection connections i bytes = some connections') (j : Nat) :
    connections'[j]? = if j = i then some bytes else connections[j]? := by
  unfold putConnection at h
  split at h
  · rename_i hlt
    cases h
    by_cases hj : j = i
    · subst hj
      rw [if_pos rfl, List.getElem?_set_self hlt]
    · rw [if_neg hj, List.getElem?_set_ne (Ne.symm hj)]
  · split at h
    · rename_i hlen
      cases h
      by_cases hj : j = i
      · subst hj
        rw [if_pos rfl, hlen, List.getElem?_concat_length]
      · rw [if_neg hj, List.getElem?_append]
        split
        · rfl
        · rw [List.getElem?_eq_none (by rw [List.length_singleton]; omega), List.getElem?_eq_none (by omega)]
    · cases h

theorem storeConnection_ok {id : List Byte} {c : C} (h : s.storeConnection digest id c = .ok s') :
    ∃ i bytes connections, ConnectionIdx.tryFrom id = some i ∧ Codec.toVec c = some bytes ∧
      (∀ j, connections[j]? = if j = i.val then some bytes else s.priv.connections[j]?) ∧
      s' = ({ s with priv := { s.priv with connections } } : IbcStorage).setProvable
        (TrieKey.forConnection i) (some (digest (Codec.encodeVec c))) := by
  simp only [storeConnection, bind_eq_ok, orError_ok] at h
  obtain ⟨i, hi, bytes, hbytes, connections, hconnections, h⟩ := h
  exact ⟨i, bytes, connections, hi, hbytes, getElem?_putConnection hconnections, (Except.ok.inj h).symm⟩

theorem connectionAt_set {id id' : List Byte} {i : Counter} {bytes : List Byte} (hid : CanonicalConnection id)
    (hid' : CanonicalConnection id') (hi : ConnectionIdx.tryFrom id = some i)
    (hget : ∀ j, s'.priv.connections[j]? = if j = i.val then some bytes else s.priv.connections[j]?) :
    s'.connectionAt id' = if id' = id then some bytes else s.connectionAt id' := by
  unfold connectionAt
  by_cases heq : id' = id
  · subst heq
    rw [hi, if_pos rfl, Option.bind_some, hget, if_pos rfl]
  · rw [if_neg heq]
    cases hj : ConnectionIdx.tryFrom id' with
    | none => rfl
    | some j =>
      have hne : j.val ≠ i.val := by
        intro hval
        cases Fin.ext hval
        exact heq (Counter.canonical_inj hid' hid hj hi)
      rw [Option.bind_some, Option.bind_some, hget, if_neg hne]

theorem portChannelAt_upsert {path path' : ChannelPath} {pk : PortChannelPK} {f : PortChannelStore → PortChannelStore}
    (hpath : CanonicalChannel path.2) (hpath' : CanonicalChannel path'.2)
    (hpk : PortChannelPK.tryFrom path.1 path.2 = some pk)
    (hs : s'.priv.portChannel = s.priv.portChannel.upsert pk .default f) :
    s'.portChannelAt path' =
      if path' = path then some (f ((s.portChannelAt path).getD .default)) else s.portChannelAt path' := by
  unfold portChannelAt
  by_cases heq : path' = path
  · subst heq
    rw [hpk, if_pos rfl, Option.bind_some, Option.bind_some, hs, LinearMap.get_upsert, if_pos rfl]
  · rw [if_neg heq]
    cases hk : PortChannelPK.tryFrom path'.1 path'.2 with
    | none => rfl
    | some pk' =>
      have hne : pk' ≠ pk := by
        rintro rfl
        obtain ⟨hport, hchannel⟩ := PortChannelPK.tryFrom_inj hpath' hpath hk hpk
        exact heq (Prod.ext hport hchannel)
      rw [Option.bind_some, Option.bind_some, hs, LinearMap.get_upsert, if_neg hne]

theorem storeConnection_represents {id : List Byte} {c : C} (h : Represents digest s a)
    (hid : CanonicalConnection id) (hstep : s.storeConnection digest id c = .ok s') :
    Represents digest s' (a.step (.storeConnection id c)) := by
  obtain ⟨i, bytes, connections, hi, hbytes, hget, rfl⟩ := storeConnection_ok hstep
  have hkey : (Entry.connection id).key = some (TrieKey.forConnection i) := by
    rw [Entry.key, hi, Option.map_some]
  refine ⟨fun id' hid' => ?_, h.channel, h.sequence, ?_⟩
  · rw [connectionAt_set hid hid' hi hget, HostStore.step]
    by_cases heq : id' = id
    · subst heq
      simp [hbytes]
    · rw [if_neg heq]
      simp only [Function.update_of_ne heq]
      exact h.connection id' hid'
  · refine trie_set h.trie hkey hid ?_ ?_
    · simp [HostStore.hashOf, HostStore.step]
    · intro e he
      cases e with
      | connection id' =>
        have hne : id' ≠ id := fun heq => he (heq ▸ rfl)
        simp [HostStore.hashOf, HostStore.step, hne]
      | _ => rfl

theorem sequenceAt_eq (s : IbcStorage) (kind : SequenceKind) (path : ChannelPath) :
    s.sequenceAt kind path = ((s.portChannelAt path).getD .default).nextSequence.get kind := by
  unfold sequenceAt
  cases s.portChannelAt path with
  | none => rfl
  | some store => rfl

theorem channelAt_eq (s : IbcStorage) (path : ChannelPath) :
    s.channelAt path = if ((s.portChannelAt path).getD .default).channelEnd = [] then none
      else some ((s.portChannelAt path).getD .default).channelEnd := by
  unfold channelAt
  cases s.portChannelAt path with
  | none => rfl
  | some store => rfl

theorem storeChannel_represents {path : ChannelPath} {e : E} (hnonempty : ∀ e : E, Codec.toVec e ≠ some [])
    (h : Represents digest s a) (hpath : CanonicalChannel path.2)
    (hstep : s.storeChannel digest path.1 path.2 e = .ok s') :
    Represents digest s' (a.step (.storeChannel path e)) := by
  simp only [storeChannel, portChannelPK, bind_eq_ok, orError_ok] at hstep
  obtain ⟨pk, hpk, bytes, hbytes, hstep⟩ := hstep
  have hs' := Except.ok.inj hstep
  have hpriv : s'.priv.portChannel = s.priv.portChannel.upsert pk .default
      fun store => { store with channelEnd := bytes } := by
    rw [← hs']
    rfl
  have hkey : (Entry.channelEnd path).key = some (TrieKey.forChannelEnd pk) := by
    rw [Entry.key, Entry.channelKey, hpk]
    rfl
  refine ⟨?_, fun path' hpath' => ?_, fun kind path' hpath' => ?_, ?_⟩
  · rw [← hs']
    exact h.connection
  · rw [channelAt_eq, portChannelAt_upsert hpath hpath' hpk hpriv, HostStore.step]
    by_cases heq : path' = path
    · subst heq
      have hne : bytes ≠ [] := fun hnil => hnonempty e (hnil ▸ hbytes)
      simp [hbytes, hne]
    · simp only [if_neg heq, Function.update_of_ne heq]
      rw [h.channel path' hpath', channelAt_eq]
  · rw [sequenceAt_eq, portChannelAt_upsert hpath hpath' hpk hpriv]
    refine (h.sequence kind path' hpath').trans ?_
    rw [sequenceAt_eq]
    by_cases heq : path' = path
    · subst heq
      rw [if_pos rfl]
      rfl
    · rw [if_neg heq]
  · rw [← hs']
    refine trie_set h.trie hkey hpath ?_ ?_
    · simp [HostStore.hashOf, HostStore.step]
    · intro e' he
      cases e' with
      | channelEnd path' =>
        have hne : path' ≠ path := fun heq => he (heq ▸ rfl)
        simp [HostStore.hashOf, HostStore.step, hne]
      | _ => rfl

theorem storeNextSequence_represents {kind : SequenceKind} {path : ChannelPath} {seq : Fin (2 ^ 64)}
    (h : Represents digest s a) (hpath : CanonicalChannel path.2) (hseq : 0 < seq.val)
    (hstep : s.storeNextSequence kind path.1 path.2 seq = .ok s') :
    Represents digest s' (a.step (.storeNextSequence kind path seq)) := by
  simp only [storeNextSequence, portChannelPK, bind_eq_ok, orError_ok] at hstep
  obtain ⟨pk, hpk, hstep⟩ := hstep
  have hs' := Except.ok.inj hstep
  have hat : s.priv.portChannel.get pk = s.portChannelAt path := by
    rw [portChannelAt, hpk, Option.bind_some]
  rw [hat] at hs'
  generalize htriple : ((s.portChannelAt path).getD .default).nextSequence.set kind seq = triple at hs'
  have hget : ∀ idx, triple.get idx = if idx = kind then some seq.val else a.sequences (idx, path) := by
    intro idx
    rw [← htriple, SequenceTriple.get_set hseq, h.sequence idx path hpath, sequenceAt_eq]
  have hpriv : s'.priv.portChannel = s.priv.portChannel.upsert pk .default
      fun store => { store with nextSequence := triple } := by
    rw [← hs']
    rfl
  have hkey : (Entry.nextSequence path).key = some (TrieKey.forNextSequence pk) := by
    rw [Entry.key, Entry.channelKey, hpk]
    rfl
  have hsequences : ∀ idx path', (a.step (.storeNextSequence kind path seq)).sequences (idx, path') =
      if path' = path then triple.get idx else a.sequences (idx, path') := by
    intro idx path'
    simp only [HostStore.step, Function.update_apply, Prod.mk.injEq, hget]
    by_cases hp : path' = path
    · subst hp
      simp
    · simp [hp]
  refine ⟨?_, fun path' hpath' => ?_, fun idx path' hpath' => ?_, ?_⟩
  · rw [← hs']
    exact h.connection
  · rw [channelAt_eq, portChannelAt_upsert hpath hpath' hpk hpriv]
    refine (h.channel path' hpath').trans ?_
    rw [channelAt_eq]
    by_cases heq : path' = path
    · subst heq
      rw [if_pos rfl]
      rfl
    · rw [if_neg heq]
  · rw [sequenceAt_eq, portChannelAt_upsert hpath hpath' hpk hpriv, hsequences]
    by_cases heq : path' = path
    · subst heq
      rw [if_pos rfl, if_pos rfl]
      rfl
    · rw [if_neg heq, if_neg heq, h.sequence idx path' hpath', sequenceAt_eq]
  · rw [← hs']
    refine trie_set h.trie hkey hpath ?_ ?_
    · have hself : (fun idx => (a.step (.storeNextSequence kind path seq)).sequences (idx, path)) = triple.get := by
        funext idx
        rw [hsequences, if_pos rfl]
      rw [HostStore.hashOf, hself]
      exact tripleHash_get ((hget kind).trans (if_pos rfl))
    · intro e' he
      cases e' with
      | nextSequence path' =>
        have hne : path' ≠ path := fun heq => he (heq ▸ rfl)
        simp only [HostStore.hashOf, hsequences, if_neg hne]
      | _ => rfl

theorem stepHost_represents {call : HostCall C E} (hnonempty : ∀ e : E, Codec.toVec e ≠ some [])
    (h : Represents digest s a) (hcanonical : call.Canonical) (hstep : s.stepHost digest call = .ok s') :
    Represents digest s' (a.step call) := by
  cases call with
  | storeConnection id c => exact storeConnection_represents h hcanonical hstep
  | storeChannel path e => exact storeChannel_represents hnonempty h hcanonical hstep
  | storeNextSequence kind path seq =>
    exact storeNextSequence_represents h hcanonical.1 hcanonical.2 hstep
  | storePacketCommitment path commitment =>
    obtain ⟨k, hk, rfl⟩ := storeCommitment_ok hstep
    refine h.packet (.commitment path) hk hcanonical rfl rfl rfl ?_ fun e he => ?_
    · simp [HostStore.hashOf, HostStore.step]
    · cases e with
      | commitment path' =>
        have hne : path' ≠ path := fun heq => he (heq ▸ rfl)
        simp [HostStore.hashOf, HostStore.step, hne]
      | _ => rfl
  | storePacketReceipt path =>
    obtain ⟨k, hk, rfl⟩ := storeCommitment_ok hstep
    refine h.packet (.receipt path) hk hcanonical rfl rfl rfl ?_ fun e he => ?_
    · simp [HostStore.hashOf, HostStore.step]
    · cases e with
      | receipt path' =>
        have hne : path' ≠ path := fun heq => he (heq ▸ rfl)
        simp [HostStore.hashOf, HostStore.step, hne]
      | _ => rfl
  | storePacketAcknowledgement path commitment =>
    obtain ⟨k, hk, rfl⟩ := storeCommitment_ok hstep
    refine h.packet (.ack path) hk hcanonical rfl rfl rfl ?_ fun e he => ?_
    · simp [HostStore.hashOf, HostStore.step]
    · cases e with
      | ack path' =>
        have hne : path' ≠ path := fun heq => he (heq ▸ rfl)
        simp [HostStore.hashOf, HostStore.step, hne]
      | _ => rfl
  | deletePacketCommitment path =>
    obtain ⟨k, hk, rfl⟩ := deleteCommitment_ok hstep
    refine h.packet (.commitment path) hk hcanonical rfl rfl rfl ?_ fun e he => ?_
    · simp [HostStore.hashOf, HostStore.step]
    · cases e with
      | commitment path' =>
        have hne : path' ≠ path := fun heq => he (heq ▸ rfl)
        simp [HostStore.hashOf, HostStore.step, hne]
      | _ => rfl
  | deletePacketAcknowledgement path =>
    obtain ⟨k, hk, rfl⟩ := deleteCommitment_ok hstep
    refine h.packet (.ack path) hk hcanonical rfl rfl rfl ?_ fun e he => ?_
    · simp [HostStore.hashOf, HostStore.step]
    · cases e with
      | ack path' =>
        have hne : path' ≠ path := fun heq => he (heq ▸ rfl)
        simp [HostStore.hashOf, HostStore.step, hne]
      | _ => rfl

theorem runHost_represents {calls : List (HostCall C E)} (hnonempty : ∀ e : E, Codec.toVec e ≠ some [])
    (h : Represents digest s a) (hcanonical : ∀ call ∈ calls, call.Canonical)
    (hrun : s.runHost digest calls = .ok s') : Represents digest s' (a.run calls) := by
  induction calls generalizing s a with
  | nil =>
    cases hrun
    exact h
  | cons call calls ih =>
    obtain ⟨s₁, hs₁, hrun⟩ := bind_eq_ok.mp hrun
    refine ih (stepHost_represents hnonempty h (hcanonical call List.mem_cons_self) hs₁) ?_ hrun
    exact fun call' hcall' => hcanonical call' (List.mem_cons_of_mem _ hcall')

/-- Nothing is stored yet, apart from what is about clients. -/
structure Empty (s : IbcStorage) : Prop where
  connections : s.priv.connections = []
  portChannel : s.priv.portChannel = []
  provable : ∀ e : Entry, s.hashAt e = none

theorem Empty.represents (h : s.Empty) : Represents digest s (HostStore.empty : HostStore C E) := by
  have hat : ∀ path, s.portChannelAt path = none := by
    intro path
    rw [portChannelAt, h.portChannel]
    cases PortChannelPK.tryFrom path.1 path.2 with
    | none => rfl
    | some k => rfl
  refine ⟨fun id _ => ?_, fun path _ => ?_, fun kind path _ => ?_, fun e _ => ?_⟩
  · rw [connectionAt, h.connections]
    cases ConnectionIdx.tryFrom id with
    | none => rfl
    | some i => rfl
  · rw [channelAt, hat]
    rfl
  · rw [sequenceAt, hat]
    rfl
  · rw [h.provable]
    cases e with
    | _ => rfl

end

/-- The error for a path with nothing stored: another one if the channel is none that
the program could have. -/
def notFound (path : ChannelPath) (e : ContextError) : ContextError :=
  if (PortChannelPK.tryFrom path.1 path.2).isSome then e else .channelNotFound path.1 path.2

/-- Every getter answers as the host store does, and the trie has the hashes of the
answers. -/
structure Answers (digest : List Byte → CryptoHash) (s : IbcStorage) (a : HostStore C E) : Prop where
  connectionEnd : ∀ id, CanonicalConnection id →
    s.connectionEnd C id = orError (a.connections id) (.connectionNotFound id)
  channelEnd : ∀ path : ChannelPath, CanonicalChannel path.2 →
    s.channelEnd E path.1 path.2 = orError (a.channels path) (.channelNotFound path.1 path.2)
  nextSequence : ∀ kind (path : ChannelPath), CanonicalChannel path.2 →
    s.getNextSequence kind path.1 path.2 =
      orError (a.sequences (kind, path)) (notFound path (.missingNextSeq kind path.1 path.2))
  commitment : ∀ path : PacketPath, CanonicalChannel path.1.2 →
    s.getPacketCommitment path.1.1 path.1.2 path.2 =
      orError (a.commitments path) (notFound path.1 (.packetCommitmentNotFound path.2))
  receipt : ∀ path : PacketPath, CanonicalChannel path.1.2 →
    s.getPacketReceipt path.1.1 path.1.2 path.2 =
      if a.receipts path then .ok () else .error (notFound path.1 (.packetReceiptNotFound path.2))
  acknowledgement : ∀ path : PacketPath, CanonicalChannel path.1.2 →
    s.getPacketAcknowledgement path.1.1 path.1.2 path.2 =
      orError (a.acknowledgements path) (notFound path.1 (.packetAcknowledgementNotFound path.2))
  connectionHash : ∀ id i, CanonicalConnection id → ConnectionIdx.tryFrom id = some i →
    s.provable (TrieKey.forConnection i) =
      (s.connectionEnd C id).toOption.map fun c => digest (Codec.encodeVec c)
  channelHash : ∀ (path : ChannelPath) k, CanonicalChannel path.2 →
    PortChannelPK.tryFrom path.1 path.2 = some k → s.provable (TrieKey.forChannelEnd k) =
      (s.channelEnd E path.1 path.2).toOption.map fun e => digest (Codec.encodeVec e)
  sequenceHash : ∀ (path : ChannelPath) k, CanonicalChannel path.2 →
    PortChannelPK.tryFrom path.1 path.2 = some k → s.provable (TrieKey.forNextSequence k) =
      tripleHash fun kind => (s.getNextSequence kind path.1 path.2).toOption

section

variable {s s' : IbcStorage} {a : HostStore C E}

omit [Codec C] [Codec E] in
theorem toOption_orError {α : Type} (x : Option α) (e : ContextError) : (orError x e).toOption = x := by
  cases x with
  | none => rfl
  | some v => rfl

omit [Codec C] [Codec E] in
/-- Decoding what was encoded. -/
theorem decoded {T : Type} [Codec T] {o : Option T} {b : Option (List Byte)} (h : o.map Codec.toVec = b.map some)
    (e : ContextError) :
    (orError b e >>= fun bytes => orError (Codec.tryFromSlice bytes) .clientSpecific) = orError o e := by
  cases b with
  | none =>
    cases o with
    | none => rfl
    | some v => cases h
  | some bytes =>
    obtain ⟨v, rfl, hv⟩ := Option.map_eq_some_iff.mp h
    exact orError_ok.mpr (Codec.tryFromSlice_toVec v bytes hv)

omit [Codec E] in
theorem connectionEnd_eq (s : IbcStorage) (id : List Byte) : s.connectionEnd C id =
    (orError (s.connectionAt id) (.connectionNotFound id) >>= fun bytes =>
      orError (Codec.tryFromSlice bytes) .clientSpecific) := by
  unfold connectionEnd connectionAt
  cases ConnectionIdx.tryFrom id with
  | none => rfl
  | some i => rfl

omit [Codec C] in
theorem channelEnd_eq (s : IbcStorage) (path : ChannelPath) : s.channelEnd E path.1 path.2 =
    (orError (s.channelAt path) (.channelNotFound path.1 path.2) >>= fun bytes =>
      orError (Codec.tryFromSlice bytes) .clientSpecific) := by
  unfold channelEnd channelAt portChannelAt portChannelPK
  cases PortChannelPK.tryFrom path.1 path.2 with
  | none => rfl
  | some k =>
    change (orError (s.priv.portChannel.get k) _ >>= _) = (orError ((s.priv.portChannel.get k).bind _) _ >>= _)
    cases s.priv.portChannel.get k with
    | none => rfl
    | some store =>
      change (if store.channelEnd.isEmpty then _ else _) = (orError (if store.channelEnd = [] then _ else _) _ >>= _)
      by_cases hempty : store.channelEnd = []
      · rw [if_pos hempty, if_pos (List.isEmpty_iff.mpr hempty)]
        rfl
      · rw [if_neg hempty, if_neg fun h => hempty (List.isEmpty_iff.mp h)]
        rfl

omit [Codec C] [Codec E] in
theorem getNextSequence_eq (s : IbcStorage) (kind : SequenceKind) (path : ChannelPath) :
    s.getNextSequence kind path.1 path.2 =
      orError (s.sequenceAt kind path) (notFound path (.missingNextSeq kind path.1 path.2)) := by
  unfold getNextSequence sequenceAt portChannelAt portChannelPK notFound
  cases PortChannelPK.tryFrom path.1 path.2 with
  | none => rfl
  | some k => rfl

omit [Codec C] [Codec E] in
/-- What the getters of packets read. -/
theorem packetKey_eq {α : Type} (tag : Tag) (path : PacketPath) (f : List Byte → Except ContextError α) :
    (packetKey tag path.1.1 path.1.2 path.2 >>= f) =
      (Entry.packetKey tag path).elim (.error (.channelNotFound path.1.1 path.1.2)) f := by
  unfold packetKey Entry.packetKey
  cases TrieKey.tryForSequencePath tag path.1.1 path.1.2 path.2 with
  | none => rfl
  | some k => rfl

omit [Codec C] [Codec E] in
theorem packet_get (s : IbcStorage) (tag : Tag) (path : PacketPath) (e : ContextError) :
    (packetKey tag path.1.1 path.1.2 path.2 >>= fun k => orError (s.provable k) e) =
      orError ((Entry.packetKey tag path).bind s.provable) (notFound path.1 e) := by
  rw [packetKey_eq]
  unfold Entry.packetKey TrieKey.tryForSequencePath notFound
  cases PortChannelPK.tryFrom path.1.1 path.1.2 with
  | none => rfl
  | some k => rfl

/-- The getters of a store which represents a host store. -/
theorem Represents.answers (h : Represents digest s a) : Answers digest s a := by
  have hconnection : ∀ id, CanonicalConnection id →
      s.connectionEnd C id = orError (a.connections id) (.connectionNotFound id) := by
    intro id hid
    rw [connectionEnd_eq, decoded (h.connection id hid)]
  have hchannel : ∀ path : ChannelPath, CanonicalChannel path.2 →
      s.channelEnd E path.1 path.2 = orError (a.channels path) (.channelNotFound path.1 path.2) := by
    intro path hpath
    rw [channelEnd_eq, decoded (h.channel path hpath)]
  have hsequence : ∀ kind (path : ChannelPath), CanonicalChannel path.2 →
      s.getNextSequence kind path.1 path.2 =
        orError (a.sequences (kind, path)) (notFound path (.missingNextSeq kind path.1 path.2)) := by
    intro kind path hpath
    rw [getNextSequence_eq, h.sequence kind path hpath]
  refine ⟨hconnection, hchannel, hsequence, fun path hpath => ?_, fun path hpath => ?_, fun path hpath => ?_,
    fun id i hid hi => ?_, fun path k hpath hk => ?_, fun path k hpath hk => ?_⟩
  · refine (packet_get s .commitment path _).trans ?_
    rw [show (Entry.packetKey .commitment path).bind s.provable = _ from h.trie (.commitment path) hpath]
    rfl
  · have htrie : (Entry.packetKey .receipt path).bind s.provable = _ := h.trie (.receipt path) hpath
    unfold getPacketReceipt
    rw [packetKey_eq]
    unfold Entry.packetKey TrieKey.tryForSequencePath at htrie ⊢
    unfold notFound
    cases hpk : PortChannelPK.tryFrom path.1.1 path.1.2 with
    | none =>
      rw [hpk] at htrie
      have hreceipt : a.receipts path = false := by
        by_contra hreceipt
        simp [HostStore.hashOf, hreceipt] at htrie
      rw [hreceipt]
      rfl
    | some k =>
      rw [hpk] at htrie
      change s.provable _ = _ at htrie
      change (if s.provable _ = some CryptoHash.default then _ else _) = _
      rw [htrie]
      cases hreceipt : a.receipts path with
      | true => simp [HostStore.hashOf, hreceipt]
      | false => simp [HostStore.hashOf, hreceipt]
  · refine (packet_get s .ack path _).trans ?_
    rw [show (Entry.packetKey .ack path).bind s.provable = _ from h.trie (.ack path) hpath]
    rfl
  · have htrie : (Entry.connection id).key.bind s.provable = _ := h.trie (.connection id) hid
    rw [hconnection id hid, toOption_orError]
    rw [Entry.key, hi] at htrie
    exact htrie
  · have htrie : (Entry.channelEnd path).key.bind s.provable = _ := h.trie (.channelEnd path) hpath
    rw [hchannel path hpath, toOption_orError]
    rw [Entry.key, Entry.channelKey, hk] at htrie
    exact htrie
  · have htrie : (Entry.nextSequence path).key.bind s.provable = _ := h.trie (.nextSequence path) hpath
    have hget : (fun kind => (s.getNextSequence kind path.1 path.2).toOption) =
        fun kind => a.sequences (kind, path) := by
      funext kind
      rw [hsequence kind path hpath, toOption_orError]
    rw [hget]
    rw [Entry.key, Entry.channelKey, hk] at htrie
    exact htrie

omit [Codec C] [Codec E] in
/-- A receipt stays. -/
theorem run_receipts {calls : List (HostCall C E)} {path : PacketPath} (h : a.receipts path = true) :
    (a.run calls).receipts path = true := by
  induction calls generalizing a with
  | nil => exact h
  | cons call calls ih =>
    refine ih ?_
    cases call with
    | storePacketReceipt path' =>
      by_cases heq : path = path'
      · subst heq
        exact Function.update_self ..
      · exact (Function.update_of_ne heq ..).trans h
    | _ => exact h

/-- After every run of calls which succeed, the getters answer as the host store does,
and a receipt is there once it was stored. -/
theorem store_refines_host {calls : List (HostCall C E)} (hnonempty : ∀ e : E, Codec.toVec e ≠ some [])
    (hs : s.Empty) (hcanonical : ∀ call ∈ calls, call.Canonical) (hrun : s.runHost digest calls = .ok s') :
    Answers digest s' (HostStore.empty.run calls) ∧
    ∀ before path after, calls = before ++ .storePacketReceipt path :: after →
      s'.getPacketReceipt path.1.1 path.1.2 path.2 = .ok () := by
  have hanswers := (runHost_represents hnonempty hs.represents hcanonical hrun).answers
  refine ⟨hanswers, ?_⟩
  rintro before path after rfl
  have hreceipt : (HostStore.empty.run (before ++ .storePacketReceipt path :: after) :
      HostStore C E).receipts path = true := by
    rw [HostStore.run, List.foldl_append, List.foldl_cons]
    exact run_receipts (Function.update_self ..)
  rw [hanswers.receipt path (hcanonical (.storePacketReceipt path) (by simp)), hreceipt]
  rfl

end

namespace Sample

open AsciiText

def connection : List Byte := ascii "connection-0"

def channel : ChannelPath := (ascii "transfer", ascii "channel-3")

def calls : List (HostCall Byte Byte) :=
  [.storeConnection connection 1#8, .storeChannel channel 2#8, .storeNextSequence .send channel (u64 1),
    .storePacketCommitment (channel, u64 1) CryptoHash.default, .storePacketReceipt (channel, u64 5),
    .storeNextSequence .send channel (u64 2), .deletePacketCommitment (channel, u64 1)]

def empty : IbcStorage := ⟨⟨[], [], []⟩, fun _ => none⟩

theorem empty_empty : empty.Empty := by
  refine ⟨rfl, rfl, fun e => ?_⟩
  unfold hashAt
  cases e.key with
  | none => rfl
  | some k => rfl

theorem calls_canonical : ∀ call ∈ calls, call.Canonical := by
  have hconnection : CanonicalConnection connection := ⟨0, by decide⟩
  have hchannel : CanonicalChannel channel.2 := ⟨3, by decide⟩
  intro call hcall
  simp only [calls, List.mem_cons, List.not_mem_nil, or_false] at hcall
  rcases hcall with rfl | rfl | rfl | rfl | rfl | rfl | rfl
  · exact hconnection
  · exact hchannel
  · exact ⟨hchannel, by decide⟩
  · exact hchannel
  · exact hchannel
  · exact ⟨hchannel, by decide⟩
  · exact hchannel

end Sample

open Sample in
/-- A channel with a packet sent and acknowledged, and one received. -/
theorem store_refines_host_sample :
    ∃ s', empty.runHost (fun _ => CryptoHash.default) calls = .ok s' ∧
      s'.connectionEnd Byte connection = .ok 1#8 ∧ s'.getNextSequence .send channel.1 channel.2 = .ok 2 ∧
      s'.getPacketCommitment channel.1 channel.2 1 = .error (.packetCommitmentNotFound 1) ∧
      s'.getPacketReceipt channel.1 channel.2 5 = .ok () := by
  have hok : (empty.runHost (fun _ => CryptoHash.default) calls).isOk := by decide
  obtain ⟨s', hrun⟩ : ∃ s', empty.runHost (fun _ => CryptoHash.default) calls = .ok s' := by
    cases h : empty.runHost (fun _ => CryptoHash.default) calls with
    | ok s' => exact ⟨s', rfl⟩
    | error e =>
      rw [h] at hok
      cases hok
  have hnonempty : ∀ b : Byte, Codec.toVec b ≠ some [] := fun b h => List.cons_ne_nil b [] (Option.some.inj h)
  obtain ⟨hanswers, hreceipts⟩ := store_refines_host hnonempty empty_empty calls_canonical hrun
  refine ⟨s', hrun, ?_, ?_, ?_, hreceipts (calls.take 4) (channel, u64 5) (calls.drop 5) rfl⟩
  · rw [hanswers.connectionEnd connection ⟨0, by decide⟩]
    decide
  · rw [hanswers.nextSequence .send channel ⟨3, by decide⟩]
    decide
  · rw [hanswers.commitment (channel, 1) ⟨3, by decide⟩]
    decide

end IbcStorage

end SolanaIbc.Storage
