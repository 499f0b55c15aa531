import EmulatedLightClient.PrefixFree
import EmulatedLightClient.TrieIds

/-!
# Keys of IBC paths

Each path which is supported has a key: the tag of its kind and, in a fixed number of bytes,
what the path names. The three sequences of a channel share one key.
-/

namespace TrieIds

open AsciiText ByteBits FailingState MachineInts

inductive UpgradeClientPath where
  | upgradedClientState (height : Fin (2 ^ 64))
  | upgradedClientConsensusState (height : Fin (2 ^ 64))
  deriving DecidableEq

/-- Identifiers and names of ports are strings of bytes. -/
inductive Path where
  | nextClientSequence
  | nextConnectionSequence
  | nextChannelSequence
  | clientState (clientId : List Byte)
  | clientConsensusState (clientId : List Byte) (height : IbcHeight)
  | clientUpdateTime (clientId : List Byte) (height : IbcHeight)
  | clientUpdateHeight (clientId : List Byte) (height : IbcHeight)
  | clientConnection (clientId : List Byte)
  | connection (connectionId : List Byte)
  | ports (portId : List Byte)
  | channelEnd (portId channelId : List Byte)
  | seqSend (portId channelId : List Byte)
  | seqRecv (portId channelId : List Byte)
  | seqAck (portId channelId : List Byte)
  | commitment (portId channelId : List Byte) (sequence : Fin (2 ^ 64))
  | ack (portId channelId : List Byte) (sequence : Fin (2 ^ 64))
  | receipt (portId channelId : List Byte) (sequence : Fin (2 ^ 64))
  | upgradeClient (path : UpgradeClientPath)
  deriving DecidableEq

/-- Why a path has no key. -/
inductive PathError where
  | badChannel (channelId : List Byte)
  | badClient (clientId : List Byte)
  | badConnection (connectionId : List Byte)
  | badPort (portId : List Byte)
  | unsupportedPath (path : Path)
  deriving DecidableEq

/-- Information gathered from parsing an IBC path into a trie key. -/
structure PathInfo where
  key : List Byte
  clientId : Option (List Byte)
  seqKind : Option SequenceKind
  deriving DecidableEq

def UpgradeClientPath.component : UpgradeClientPath → List Byte
  | upgradedClientState height => u64Bytes height ++ [0#8]
  | upgradedClientConsensusState height => u64Bytes height ++ [1#8]

def TrieKey.ofUpgrade (path : UpgradeClientPath) : List Byte := TrieKey.new .upgradeClient path.component

namespace PathInfo

def withClient (clientId : List Byte) (make : Counter → List Byte) : Except PathError PathInfo :=
  match ClientIdx.tryFrom clientId with
  | some idx => .ok ⟨make idx, some clientId, none⟩
  | none => .error (.badClient clientId)

/-- The port and then the channel have to be understood. -/
def portChannel (portId channelId : List Byte) : Except PathError PortChannelPK :=
  match PortKey.tryFrom portId with
  | none => .error (.badPort portId)
  | some portKey =>
    match ChannelIdx.tryFrom channelId with
    | none => .error (.badChannel channelId)
    | some channelIdx => .ok ⟨portKey, channelIdx⟩

def withChannel (tag : Tag) (portId channelId : List Byte) : Except PathError PathInfo :=
  (portChannel portId channelId).map fun pk => ⟨TrieKey.forChannelPath tag pk, none, none⟩

def forSequence (seqKind : SequenceKind) (portId channelId : List Byte) : Except PathError PathInfo :=
  (withChannel .nextSequence portId channelId).map fun info => { info with seqKind := some seqKind }

def withSeq (tag : Tag) (portId channelId : List Byte) (seq : Fin (2 ^ 64)) : Except PathError PathInfo :=
  (portChannel portId channelId).map fun pk => ⟨TrieKey.forSequencePath tag pk seq, none, none⟩

def tryFrom : Path → Except PathError PathInfo
  | .clientState clientId => withClient clientId TrieKey.forClientState
  | .clientConsensusState clientId height => withClient clientId fun idx => TrieKey.forConsensusState idx height
  | .connection connectionId =>
    match ConnectionIdx.tryFrom connectionId with
    | some connection => .ok ⟨TrieKey.forConnection connection, none, none⟩
    | none => .error (.badConnection connectionId)
  | .channelEnd portId channelId => withChannel .channelEnd portId channelId
  | .seqSend portId channelId => forSequence .send portId channelId
  | .seqRecv portId channelId => forSequence .recv portId channelId
  | .seqAck portId channelId => forSequence .ack portId channelId
  | .commitment portId channelId sequence => withSeq .commitment portId channelId sequence
  | .ack portId channelId sequence => withSeq .ack portId channelId sequence
  | .receipt portId channelId sequence => withSeq .receipt portId channelId sequence
  | .upgradeClient path => .ok ⟨TrieKey.ofUpgrade path, none, none⟩
  | path => .error (.unsupportedPath path)

end PathInfo

/-- Entries kept for a packet. -/
inductive PacketKind where
  | commitment
  | receipt
  | ack
  deriving DecidableEq

def PacketKind.tag : PacketKind → Tag
  | commitment => .commitment
  | receipt => .receipt
  | ack => .ack

/-- Kind of a path with what it names: the port, the counter of the client, connection or
channel, the heights and the sequence. -/
inductive Target where
  | clientState (client : Counter)
  | consensusState (client : Counter) (height : IbcHeight)
  | connection (connection : Counter)
  | channelEnd (portId : List Byte) (channel : Counter)
  | nextSequence (portId : List Byte) (channel : Counter)
  | packet (kind : PacketKind) (portId : List Byte) (channel : Counter) (sequence : Fin (2 ^ 64))
  | upgrade (path : UpgradeClientPath)
  deriving DecidableEq

def Path.target : Path → Option Target
  | clientState clientId => (ClientIdx.tryFrom clientId).map .clientState
  | clientConsensusState clientId height => (ClientIdx.tryFrom clientId).map (.consensusState · height)
  | connection connectionId => (ConnectionIdx.tryFrom connectionId).map .connection
  | channelEnd portId channelId => (ChannelIdx.tryFrom channelId).map (.channelEnd portId)
  | seqSend portId channelId | seqRecv portId channelId | seqAck portId channelId =>
    (ChannelIdx.tryFrom channelId).map (.nextSequence portId)
  | commitment portId channelId sequence =>
    (ChannelIdx.tryFrom channelId).map (.packet .commitment portId · sequence)
  | ack portId channelId sequence => (ChannelIdx.tryFrom channelId).map (.packet .ack portId · sequence)
  | receipt portId channelId sequence => (ChannelIdx.tryFrom channelId).map (.packet .receipt portId · sequence)
  | upgradeClient path => some (.upgrade path)
  | _ => none

/-- The key of a target; the name of a port has to be one which can be packed. -/
def Target.key : Target → Option (List Byte)
  | clientState client => some (TrieKey.forClientState client)
  | consensusState client height => some (TrieKey.forConsensusState client height)
  | connection counter => some (TrieKey.forConnection counter)
  | channelEnd portId channel => (PortKey.tryFrom portId).map fun p => TrieKey.forChannelEnd ⟨p, channel⟩
  | nextSequence portId channel => (PortKey.tryFrom portId).map fun p => TrieKey.forNextSequence ⟨p, channel⟩
  | packet kind portId channel sequence =>
    (PortKey.tryFrom portId).map fun p => TrieKey.forSequencePath kind.tag ⟨p, channel⟩ sequence
  | upgrade path => some (TrieKey.ofUpgrade path)

theorem withClient_ok {clientId : List Byte} {make : Counter → List Byte} {info : PathInfo}
    (h : PathInfo.withClient clientId make = .ok info) : ∃ idx, ClientIdx.tryFrom clientId = some idx ∧ info.key = make idx := by
  unfold PathInfo.withClient at h
  split at h
  · rename_i idx hidx
    cases h
    exact ⟨idx, hidx, rfl⟩
  · cases h

theorem portChannel_ok {portId channelId : List Byte} {pk : PortChannelPK}
    (h : PathInfo.portChannel portId channelId = .ok pk) :
    PortKey.tryFrom portId = some pk.portKey ∧ ChannelIdx.tryFrom channelId = some pk.channelIdx := by
  unfold PathInfo.portChannel at h
  split at h
  · cases h
  · rename_i portKey hport
    split at h
    · cases h
    · rename_i channelIdx hchannel
      cases h
      exact ⟨hport, hchannel⟩

theorem withChannel_ok {tag : Tag} {portId channelId : List Byte} {info : PathInfo}
    (h : PathInfo.withChannel tag portId channelId = .ok info) :
    ∃ idx, ChannelIdx.tryFrom channelId = some idx ∧
      (PortKey.tryFrom portId).map (fun p => TrieKey.forChannelPath tag ⟨p, idx⟩) = some info.key := by
  obtain ⟨pk, hpk, rfl⟩ := map_eq_ok h
  obtain ⟨hport, hchannel⟩ := portChannel_ok hpk
  refine ⟨pk.channelIdx, hchannel, ?_⟩
  rw [hport, Option.map_some]

theorem forSequence_ok {seqKind : SequenceKind} {portId channelId : List Byte} {info : PathInfo}
    (h : PathInfo.forSequence seqKind portId channelId = .ok info) :
    ∃ idx, ChannelIdx.tryFrom channelId = some idx ∧ (Target.nextSequence portId idx).key = some info.key := by
  obtain ⟨info', hinfo, rfl⟩ := map_eq_ok h
  obtain ⟨idx, hidx, hkey⟩ := withChannel_ok hinfo
  exact ⟨idx, hidx, hkey⟩

theorem withSeq_ok (kind : PacketKind) {portId channelId : List Byte} {seq : Fin (2 ^ 64)} {info : PathInfo}
    (h : PathInfo.withSeq kind.tag portId channelId seq = .ok info) :
    ∃ idx, ChannelIdx.tryFrom channelId = some idx ∧ (Target.packet kind portId idx seq).key = some info.key := by
  obtain ⟨pk, hpk, rfl⟩ := map_eq_ok h
  obtain ⟨hport, hchannel⟩ := portChannel_ok hpk
  refine ⟨pk.channelIdx, hchannel, ?_⟩
  rw [Target.key, hport, Option.map_some]

/-- The key of an accepted path is the one of its target. -/
theorem PathInfo.tryFrom_ok {path : Path} {info : PathInfo} (h : PathInfo.tryFrom path = .ok info) :
    ∃ target, path.target = some target ∧ target.key = some info.key := by
  have hsome : ∀ {o : Option Counter} {i : Counter} (f : Counter → Target), o = some i → o.map f = some (f i) := by
    intro o i f ho
    rw [ho, Option.map_some]
  cases path with
  | clientState clientId =>
    obtain ⟨idx, hidx, hkey⟩ := withClient_ok h
    exact ⟨_, hsome _ hidx, congrArg some hkey.symm⟩
  | clientConsensusState clientId height =>
    obtain ⟨idx, hidx, hkey⟩ := withClient_ok h
    exact ⟨_, hsome _ hidx, congrArg some hkey.symm⟩
  | connection connectionId =>
    simp only [PathInfo.tryFrom] at h
    split at h
    · rename_i idx hidx
      cases h
      exact ⟨_, hsome _ hidx, rfl⟩
    · cases h
  | channelEnd portId channelId =>
    obtain ⟨idx, hidx, hkey⟩ := withChannel_ok h
    exact ⟨_, hsome _ hidx, hkey⟩
  | seqSend portId channelId =>
    obtain ⟨idx, hidx, hkey⟩ := forSequence_ok h
    exact ⟨_, hsome _ hidx, hkey⟩
  | seqRecv portId channelId =>
    obtain ⟨idx, hidx, hkey⟩ := forSequence_ok h
    exact ⟨_, hsome _ hidx, hkey⟩
  | seqAck portId channelId =>
    obtain ⟨idx, hidx, hkey⟩ := forSequence_ok h
    exact ⟨_, hsome _ hidx, hkey⟩
  | commitment portId channelId sequence =>
    obtain ⟨idx, hidx, hkey⟩ := withSeq_ok .commitment h
    exact ⟨_, hsome _ hidx, hkey⟩
  | ack portId channelId sequence =>
    obtain ⟨idx, hidx, hkey⟩ := withSeq_ok .ack h
    exact ⟨_, hsome _ hidx, hkey⟩
  | receipt portId channelId sequence =>
    obtain ⟨idx, hidx, hkey⟩ := withSeq_ok .receipt h
    exact ⟨_, hsome _ hidx, hkey⟩
  | upgradeClient path =>
    cases h
    exact ⟨.upgrade path, rfl, rfl⟩
  | _ => cases h

def Target.tag : Target → Tag
  | clientState _ => .clientState
  | consensusState _ _ => .consensusState
  | connection _ => .connection
  | channelEnd _ _ => .channelEnd
  | nextSequence _ _ => .nextSequence
  | packet kind _ _ _ => kind.tag
  | upgrade _ => .upgradeClient

/-- How many bytes follow the tag. -/
def Tag.width : Tag → Nat
  | clientState | connection => 4
  | consensusState => 20
  | channelEnd | nextSequence => 13
  | commitment | receipt | ack => 21
  | upgradeClient => 9

theorem length_counterBytes (i : Counter) : (counterBytes i).length = 4 := length_beBytes 4 _

theorem length_u64Bytes (n : Fin (2 ^ 64)) : (u64Bytes n).length = 8 := length_beBytes 8 _

theorem length_portChannel (k : PortChannelPK) : k.component.length = 13 := by
  rw [PortChannelPK.component, List.length_append, k.portKey.length_eq, length_counterBytes]

theorem length_upgrade (path : UpgradeClientPath) : path.component.length = 9 := by
  cases path <;> rw [UpgradeClientPath.component, List.length_append, length_u64Bytes, List.length_singleton]

theorem Target.key_layout {t : Target} {key : List Byte} (h : t.key = some key) :
    ∃ component, key = TrieKey.new t.tag component ∧ component.length = t.tag.width := by
  cases t with
  | clientState client =>
    cases h
    exact ⟨_, rfl, length_counterBytes client⟩
  | consensusState client height =>
    cases h
    refine ⟨_, rfl, ?_⟩
    rw [List.length_append, IbcHeight.component, List.length_append, length_counterBytes, length_u64Bytes,
      length_u64Bytes]
    rfl
  | connection counter =>
    cases h
    exact ⟨_, rfl, length_counterBytes counter⟩
  | channelEnd portId channel =>
    obtain ⟨p, -, rfl⟩ := Option.map_eq_some_iff.mp h
    exact ⟨_, rfl, length_portChannel _⟩
  | nextSequence portId channel =>
    obtain ⟨p, -, rfl⟩ := Option.map_eq_some_iff.mp h
    exact ⟨_, rfl, length_portChannel _⟩
  | packet kind portId channel sequence =>
    obtain ⟨p, -, rfl⟩ := Option.map_eq_some_iff.mp h
    refine ⟨_, rfl, ?_⟩
    rw [List.length_append, length_portChannel, length_u64Bytes]
    cases kind <;> rfl
  | upgrade path =>
    cases h
    exact ⟨_, rfl, length_upgrade path⟩

theorem Tag.width_le (tag : Tag) : tag.width ≤ 21 := by
  cases tag <;> decide

theorem Target.length_key_le {t : Target} {key : List Byte} (h : t.key = some key) : key.length ≤ 22 := by
  obtain ⟨component, rfl, hlength⟩ := Target.key_layout h
  have hle := t.tag.width_le
  rw [TrieKey.new, List.length_cons]
  omega

/-- The tag tells how long a key is, so a key is no proper prefix of another. -/
theorem Target.key_eq_of_prefix {t t' : Target} {key key' : List Byte} (h : t.key = some key) (h' : t'.key = some key')
    (hpre : key <+: key') : key = key' := by
  obtain ⟨component, rfl, hlength⟩ := Target.key_layout h
  obtain ⟨component', rfl, hlength'⟩ := Target.key_layout h'
  obtain ⟨htag, -⟩ := List.cons_prefix_cons.mp hpre
  have htag := Tag.code_injective htag
  refine hpre.eq_of_length ?_
  rw [TrieKey.new, TrieKey.new, List.length_cons, List.length_cons, hlength, hlength', htag]

theorem UpgradeClientPath.component_injective : Function.Injective UpgradeClientPath.component := by
  intro a b h
  cases a <;> cases b
  all_goals
    obtain ⟨hheight, htype⟩ := u64Bytes_delimited _ _ _ _ h
    first
    | exact congrArg _ hheight
    | exact absurd htype (by decide)

theorem PacketKind.tag_injective : Function.Injective PacketKind.tag := by
  intro a b h
  cases a <;> cases b <;> first | rfl | exact absurd h (by decide)

theorem PacketKind.tag_ne (kind : PacketKind) : kind.tag ≠ .clientState ∧ kind.tag ≠ .consensusState ∧
    kind.tag ≠ .connection ∧ kind.tag ≠ .channelEnd ∧ kind.tag ≠ .nextSequence ∧ kind.tag ≠ .upgradeClient := by
  cases kind <;> decide

/-- A key stands for one target. -/
theorem Target.key_inj {t t' : Target} {key : List Byte} (h : t.key = some key) (h' : t'.key = some key) : t = t' := by
  have htag : t.tag = t'.tag := by
    obtain ⟨component, hkey, -⟩ := Target.key_layout h
    obtain ⟨component', hkey', -⟩ := Target.key_layout h'
    exact (TrieKey.new_inj (hkey.symm.trans hkey')).1
  cases t with
  | clientState client =>
    cases t' with
    | clientState client' =>
      obtain ⟨-, hc⟩ := TrieKey.new_inj (Option.some.inj (h.trans h'.symm))
      exact congrArg _ (counterBytes_injective hc)
    | packet kind => exact absurd htag.symm kind.tag_ne.1
    | _ => cases htag
  | consensusState client height =>
    cases t' with
    | consensusState client' height' =>
      obtain ⟨rfl, rfl⟩ := TrieKey.forConsensusState_inj (Option.some.inj (h.trans h'.symm))
      rfl
    | packet kind => exact absurd htag.symm kind.tag_ne.2.1
    | _ => cases htag
  | connection counter =>
    cases t' with
    | connection counter' =>
      exact congrArg _ (TrieKey.forConnection_injective (Option.some.inj (h.trans h'.symm)))
    | packet kind => exact absurd htag.symm kind.tag_ne.2.2.1
    | _ => cases htag
  | channelEnd portId channel =>
    cases t' with
    | channelEnd portId' channel' =>
      obtain ⟨p, hp, rfl⟩ := Option.map_eq_some_iff.mp h
      obtain ⟨p', hp', heq⟩ := Option.map_eq_some_iff.mp h'
      obtain ⟨-, hpk⟩ := TrieKey.forChannelPath_inj heq
      cases hpk
      rw [PortKey.tryFrom_inj hp hp']
    | packet kind => exact absurd htag.symm kind.tag_ne.2.2.2.1
    | _ => cases htag
  | nextSequence portId channel =>
    cases t' with
    | nextSequence portId' channel' =>
      obtain ⟨p, hp, rfl⟩ := Option.map_eq_some_iff.mp h
      obtain ⟨p', hp', heq⟩ := Option.map_eq_some_iff.mp h'
      obtain ⟨-, hpk⟩ := TrieKey.forChannelPath_inj heq
      cases hpk
      rw [PortKey.tryFrom_inj hp hp']
    | packet kind => exact absurd htag.symm kind.tag_ne.2.2.2.2.1
    | _ => cases htag
  | packet kind portId channel sequence =>
    cases t' with
    | clientState => exact absurd htag kind.tag_ne.1
    | consensusState => exact absurd htag kind.tag_ne.2.1
    | connection => exact absurd htag kind.tag_ne.2.2.1
    | channelEnd => exact absurd htag kind.tag_ne.2.2.2.1
    | nextSequence => exact absurd htag kind.tag_ne.2.2.2.2.1
    | upgrade => exact absurd htag kind.tag_ne.2.2.2.2.2
    | packet kind' portId' channel' sequence' =>
      obtain ⟨p, hp, rfl⟩ := Option.map_eq_some_iff.mp h
      obtain ⟨p', hp', heq⟩ := Option.map_eq_some_iff.mp h'
      obtain ⟨-, hpk, rfl⟩ := TrieKey.forSequencePath_inj heq
      cases hpk
      rw [PacketKind.tag_injective htag, PortKey.tryFrom_inj hp hp']
  | upgrade path =>
    cases t' with
    | upgrade path' =>
      obtain ⟨-, hc⟩ := TrieKey.new_inj (Option.some.inj (h.trans h'.symm))
      exact congrArg _ (UpgradeClientPath.component_injective hc)
    | packet kind => exact absurd htag.symm kind.tag_ne.2.2.2.2.2
    | _ => cases htag

open SealableTrie Nodes Memory HeapOwnership

variable {digest : List Byte → CryptoHash} {A : Type} [LawfulAllocator A RawNode]

/-- Keys of accepted paths fit into 22 bytes, none is a proper prefix of another, and they are equal
for paths to the same thing only. So a trie which binds no other keys never refuses one of them as
a bad prefix. -/
theorem pathKeys_separate (hd : ∀ b, digest b ≠ emptyTrieRoot) :
    (∀ p q i j, PathInfo.tryFrom p = .ok i → PathInfo.tryFrom q = .ok j →
      i.key.length ≤ 22 ∧ (i.key <+: j.key → i.key = j.key) ∧
        p.target.isSome ∧ (i.key = j.key ↔ p.target = q.target)) ∧
      ∀ s : State A, Reachable digest s →
        (∀ k, (s.bindings k).isSome → ∃ q j, PathInfo.tryFrom q = .ok j ∧ j.key = k) →
        ∀ p i v, PathInfo.tryFrom p = .ok i → (s.trie.set digest i.key v).1 ≠ .error (.err .badKeyPrefix) := by
  constructor
  · intro p q i j hp hq
    obtain ⟨t, ht, hkey⟩ := PathInfo.tryFrom_ok hp
    obtain ⟨t', ht', hkey'⟩ := PathInfo.tryFrom_ok hq
    refine ⟨Target.length_key_le hkey, Target.key_eq_of_prefix hkey hkey', by rw [ht, Option.isSome_some], ?_⟩
    constructor
    · intro heq
      rw [heq] at hkey
      rw [ht, ht', Target.key_inj hkey hkey']
    · intro heq
      rw [ht, ht', Option.some_inj] at heq
      subst heq
      exact Option.some.inj (hkey.symm.trans hkey')
  · intro s hs hkeys p i v hp hset
    obtain ⟨root, hholds⟩ := hs.holds hd
    obtain ⟨t, ht, hkey⟩ := PathInfo.tryFrom_ok hp
    have hlen : i.key.length ≤ maxKeyBytes := (Target.length_key_le hkey).trans (by decide)
    obtain ⟨k, hk, hne, hpre⟩ := badPrefix_of_set hd hholds hlen hset
    obtain ⟨q, j, hq, rfl⟩ := hkeys k hk
    obtain ⟨t', ht', hkey'⟩ := PathInfo.tryFrom_ok hq
    rcases hpre with hpre | hpre
    · exact hne (Target.key_eq_of_prefix hkey hkey' hpre).symm
    · exact hne (Target.key_eq_of_prefix hkey' hkey hpre)

/-- The port `transfer` and `channel-3`. -/
def samplePath (make : List Byte → List Byte → Path) : Path :=
  make [116#8, 114#8, 97#8, 110#8, 115#8, 102#8, 101#8, 114#8]
    [99#8, 104#8, 97#8, 110#8, 110#8, 101#8, 108#8, 45#8, 51#8]

def samplePortChannel : List Byte :=
  [182#8, 182#8, 167#8, 177#8, 247#8, 171#8, 255#8, 255#8, 255#8, 0#8, 0#8, 0#8, 3#8]

def sampleSequences : PathInfo := ⟨4#8 :: samplePortChannel, none, some .send⟩

def sampleCommitment : PathInfo := ⟨5#8 :: samplePortChannel ++ [0#8, 0#8, 0#8, 0#8, 0#8, 0#8, 0#8, 7#8], none, none⟩

theorem samplePath_seqRecv : PathInfo.tryFrom (samplePath .seqRecv) = .ok { sampleSequences with seqKind := some .recv } := by
  decide

theorem samplePath_commitment : PathInfo.tryFrom (samplePath (.commitment · · 7)) = .ok sampleCommitment := by
  decide

/-- With the sequences of a channel set, the commitment of its seventh packet can be set too. -/
theorem pathKeys_separate_sample :
    PathInfo.tryFrom (samplePath .seqSend) = .ok sampleSequences ∧
      PathInfo.tryFrom (samplePath (.commitment · · 7)) = .ok sampleCommitment ∧
      ¬ sampleSequences.key <+: sampleCommitment.key ∧
      (((State.empty sampleAlloc).run sampleDigest [.set sampleSequences.key (sampleValue 1#8)]).trie.set sampleDigest
        sampleCommitment.key (sampleValue 2#8)).1 ≠ .error (.err .badKeyPrefix) := by
  have hseq : PathInfo.tryFrom (samplePath .seqSend) = .ok sampleSequences := by decide
  have hcom := samplePath_commitment
  obtain ⟨hkeys, htrie⟩ := pathKeys_separate (A := TestAllocator RawNode) sampleDigest_ne
  refine ⟨hseq, hcom, ?_, ?_⟩
  · intro hpre
    have heq := (hkeys _ _ _ _ hseq hcom).2.1 hpre
    exact absurd heq (by decide)
  · refine htrie _ (Reachable.intro sampleAlloc_empty _) ?_ _ _ _ hcom
    intro k hk
    by_cases hne : sampleSequences.key = k
    · exact ⟨_, _, hseq, hne⟩
    · rw [State.run_bindings_of_ne] at hk
      · cases hk
      · intro c hc
        rw [List.mem_singleton.mp hc]
        exact hne

end TrieIds
