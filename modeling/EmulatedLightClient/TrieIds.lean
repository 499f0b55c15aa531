import EmulatedLightClient.AsciiText
import EmulatedLightClient.MachineInts
import Mathlib.Data.Prod.Lex
import Mathlib.Order.Fin.Basic

/-!
# Keys of the provable storage

Identifiers are shortened before they go into a key: of clients, connections and
channels the counter is left, of ports the bytes their names stand for in base64.
Identifiers and names are strings of bytes.
-/

namespace TrieIds

open AsciiText ByteBits MachineInts

abbrev Counter := Fin (2 ^ 32)

def Counter.fromCounter (s : List Byte) : Option Counter :=
  (parseNum 32 s).bind fun n => if h : n < 2 ^ 32 then some ⟨n, h⟩ else none

def Counter.fromPrefixed (p id : List Byte) : Option Counter := (stripPrefix p id).bind Counter.fromCounter

/-- A client's counter is what comes after the last dash. -/
def Counter.parse (id : List Byte) : Option (List Byte × Counter) := do
  let (head, tail) ← rsplitOnce 45#8 id
  let counter ← Counter.fromCounter tail
  return (head, counter)

def ClientIdx.tryFrom (id : List Byte) : Option Counter := (Counter.parse id).map (·.2)

def ConnectionIdx.ibcPrefix : List Byte := ascii "connection-"

def ConnectionIdx.tryFrom (id : List Byte) : Option Counter := Counter.fromPrefixed ConnectionIdx.ibcPrefix id

def ChannelIdx.ibcPrefix : List Byte := ascii "channel-"

def ChannelIdx.tryFrom (id : List Byte) : Option Counter := Counter.fromPrefixed ChannelIdx.ibcPrefix id

structure PortKey where
  bytes : List Byte
  length_eq : bytes.length = 9
deriving DecidableEq

/-- Up to twelve alphanumeric characters. A name has no equals sign, so there is no
padding to decode. -/
def PortKey.tryFrom (portId : List Byte) : Option PortKey :=
  if 43#8 ∈ portId ∨ 47#8 ∈ portId ∨ 12 < portId.length then none
  else
    (decodeBase64 (portId ++ List.replicate (12 - portId.length) 47#8)).bind fun bytes =>
      if h : bytes.length = 9 then some ⟨bytes, h⟩ else none

structure PortChannelPK where
  portKey : PortKey
  channelIdx : Counter
deriving DecidableEq

def PortChannelPK.tryFrom (portId channelId : List Byte) : Option PortChannelPK := do
  let portKey ← PortKey.tryFrom portId
  let channelIdx ← ChannelIdx.tryFrom channelId
  return ⟨portKey, channelIdx⟩

/-- Identifiers as the program itself writes them. -/
def CanonicalConnection (id : List Byte) : Prop := ∃ n, id = ConnectionIdx.ibcPrefix ++ decimal n

def CanonicalChannel (id : List Byte) : Prop := ∃ n, id = ChannelIdx.ibcPrefix ++ decimal n

theorem Counter.fromPrefixed_decimal (p : List Byte) (n : Nat) :
    Counter.fromPrefixed p (p ++ decimal n) = if h : n < 2 ^ 32 then some ⟨n, h⟩ else none := by
  simp only [Counter.fromPrefixed, stripPrefix_append, Option.bind_some, Counter.fromCounter, parseNum_decimal]
  by_cases hlt : n < 2 ^ 32
  · rw [if_pos hlt, Option.bind_some]
  · rw [if_neg hlt, Option.bind_none, dif_neg hlt]

theorem Counter.canonical_inj {p id id' : List Byte} {i : Counter} (hid : ∃ n, id = p ++ decimal n)
    (hid' : ∃ n, id' = p ++ decimal n) (h : Counter.fromPrefixed p id = some i)
    (h' : Counter.fromPrefixed p id' = some i) : id = id' := by
  obtain ⟨n, rfl⟩ := hid
  obtain ⟨n', rfl⟩ := hid'
  rw [Counter.fromPrefixed_decimal] at h h'
  split at h
  · split at h'
    · cases h
      cases h'
      rfl
    · cases h'
  · cases h

theorem PortKey.tryFrom_inj {p q : List Byte} {k : PortKey} (hp : PortKey.tryFrom p = some k)
    (hq : PortKey.tryFrom q = some k) : p = q := by
  have hdecoded : ∀ {s : List Byte}, PortKey.tryFrom s = some k → 47#8 ∉ s ∧ s.length ≤ 12 ∧
      decodeBase64 (s ++ List.replicate (12 - s.length) 47#8) = some k.bytes := by
    intro s hs
    unfold PortKey.tryFrom at hs
    split at hs
    · cases hs
    · rename_i hvalid
      obtain ⟨bytes, hbytes, hs⟩ := Option.bind_eq_some_iff.mp hs
      split at hs
      · cases hs
        simp only [not_or, Nat.not_lt] at hvalid
        exact ⟨hvalid.2.1, hvalid.2.2, hbytes⟩
      · cases hs
  obtain ⟨hp₁, hp₂, hp₃⟩ := hdecoded hp
  obtain ⟨hq₁, hq₂, hq₃⟩ := hdecoded hq
  refine append_replicate_inj hp₁ hq₁ (decodeBase64_inj hp₃ hq₃ ?_)
  simp only [List.length_append, List.length_replicate]
  omega

theorem PortChannelPK.tryFrom_some {p c : List Byte} {k : PortChannelPK} :
    PortChannelPK.tryFrom p c = some k ↔
      PortKey.tryFrom p = some k.portKey ∧ ChannelIdx.tryFrom c = some k.channelIdx := by
  simp only [PortChannelPK.tryFrom, Option.bind_eq_bind, Option.bind_eq_some_iff, Option.pure_def,
    Option.some.injEq]
  constructor
  · rintro ⟨portKey, hport, channelIdx, hchannel, rfl⟩
    exact ⟨hport, hchannel⟩
  · rintro ⟨hport, hchannel⟩
    exact ⟨k.portKey, hport, k.channelIdx, hchannel, rfl⟩

/-- Names of ports and canonical channels have keys of their own. -/
theorem PortChannelPK.tryFrom_inj {p q c d : List Byte} {k : PortChannelPK} (hc : CanonicalChannel c)
    (hd : CanonicalChannel d) (hp : PortChannelPK.tryFrom p c = some k)
    (hq : PortChannelPK.tryFrom q d = some k) : p = q ∧ c = d := by
  obtain ⟨hport, hchannel⟩ := PortChannelPK.tryFrom_some.mp hp
  obtain ⟨hport', hchannel'⟩ := PortChannelPK.tryFrom_some.mp hq
  exact ⟨PortKey.tryFrom_inj hport hport', Counter.canonical_inj hc hd hchannel hchannel'⟩

/-- Sequence numbers kept for a channel. -/
inductive SequenceKind where
  | send
  | recv
  | ack
deriving DecidableEq

theorem u64_lt (n : Nat) : n % 2 ^ 64 < 2 ^ 64 := Nat.mod_lt n (Nat.two_pow_pos 64)

def u64 (n : Nat) : Fin (2 ^ 64) := ⟨n % 2 ^ 64, u64_lt n⟩

/-- Revision number and height, compared in this order. -/
structure IbcHeight where
  revisionNumber : Fin (2 ^ 64)
  revisionHeight : Fin (2 ^ 64)
deriving DecidableEq

/-- Heights start from one. -/
def IbcHeight.new (revisionNumber revisionHeight : Fin (2 ^ 64)) : Option IbcHeight :=
  if 0 < revisionHeight.val then some ⟨revisionNumber, revisionHeight⟩ else none

def IbcHeight.blt (a b : IbcHeight) : Bool :=
  decide (a.revisionNumber < b.revisionNumber ∨
    a.revisionNumber = b.revisionNumber ∧ a.revisionHeight < b.revisionHeight)

namespace IbcHeight

def key (h : IbcHeight) : Fin (2 ^ 64) ×ₗ Fin (2 ^ 64) := toLex (h.revisionNumber, h.revisionHeight)

theorem key_injective : Function.Injective key := by
  rintro ⟨n, h⟩ ⟨n', h'⟩ he
  cases he
  rfl

instance linearOrder : LinearOrder IbcHeight := LinearOrder.lift' key key_injective

theorem lt_iff {a b : IbcHeight} :
    a < b ↔ a.revisionNumber < b.revisionNumber ∨ a.revisionNumber = b.revisionNumber ∧ a.revisionHeight < b.revisionHeight :=
  Prod.Lex.toLex_lt_toLex (x := (a.revisionNumber, a.revisionHeight)) (y := (b.revisionNumber, b.revisionHeight))

theorem blt_iff {a b : IbcHeight} : a.blt b ↔ a < b := by
  rw [lt_iff, blt, decide_eq_true_eq]

end IbcHeight

inductive Tag where
  | clientState
  | consensusState
  | connection
  | channelEnd
  | nextSequence
  | commitment
  | receipt
  | ack
  | upgradeClient
deriving DecidableEq

def Tag.code : Tag → Byte
  | clientState => 0#8
  | consensusState => 1#8
  | connection => 2#8
  | channelEnd => 3#8
  | nextSequence => 4#8
  | commitment => 5#8
  | receipt => 6#8
  | ack => 7#8
  | upgradeClient => 8#8

theorem Tag.code_injective : Function.Injective Tag.code := by
  intro a b h
  cases a <;> cases b <;> first | rfl | exact absurd h (by decide)

def counterBytes (i : Counter) : List Byte := beBytes 4 i.val

def u64Bytes (n : Fin (2 ^ 64)) : List Byte := beBytes 8 n.val

def IbcHeight.component (h : IbcHeight) : List Byte := u64Bytes h.revisionNumber ++ u64Bytes h.revisionHeight

def PortChannelPK.component (k : PortChannelPK) : List Byte := k.portKey.bytes ++ counterBytes k.channelIdx

namespace TrieKey

def new (tag : Tag) (component : List Byte) : List Byte := tag.code :: component

def forClientState (client : Counter) : List Byte := new .clientState (counterBytes client)

def forConsensusState (client : Counter) (height : IbcHeight) : List Byte :=
  new .consensusState (counterBytes client ++ height.component)

def forConnection (connection : Counter) : List Byte := new .connection (counterBytes connection)

def forChannelPath (tag : Tag) (portChannel : PortChannelPK) : List Byte := new tag portChannel.component

def forChannelEnd (portChannel : PortChannelPK) : List Byte := forChannelPath .channelEnd portChannel

def forNextSequence (portChannel : PortChannelPK) : List Byte := forChannelPath .nextSequence portChannel

def forSequencePath (tag : Tag) (portChannel : PortChannelPK) (sequence : Fin (2 ^ 64)) : List Byte :=
  new tag (portChannel.component ++ u64Bytes sequence)

def tryForSequencePath (tag : Tag) (portId channelId : List Byte) (sequence : Fin (2 ^ 64)) :
    Option (List Byte) :=
  (PortChannelPK.tryFrom portId channelId).map fun portChannel => forSequencePath tag portChannel sequence

end TrieKey

theorem counterBytes_injective : Function.Injective counterBytes := by
  intro a b h
  have hpow : (2 : Nat) ^ 32 = 256 ^ 4 := by decide
  exact Fin.ext (beBytes_inj (a.isLt.trans_eq hpow) (b.isLt.trans_eq hpow) h)

theorem u64Bytes_injective : Function.Injective u64Bytes := by
  intro a b h
  have hpow : (2 : Nat) ^ 64 = 256 ^ 8 := by decide
  exact Fin.ext (beBytes_inj (a.isLt.trans_eq hpow) (b.isLt.trans_eq hpow) h)

theorem counterBytes_delimited : SelfDelimiting counterBytes :=
  .of_length counterBytes_injective fun i => length_beBytes 4 i.val

theorem u64Bytes_delimited : SelfDelimiting u64Bytes :=
  .of_length u64Bytes_injective fun n => length_beBytes 8 n.val

theorem IbcHeight.component_injective : Function.Injective IbcHeight.component := by
  intro a b h
  obtain ⟨hnumber, hheight⟩ := u64Bytes_delimited _ _ _ _ h
  cases a
  cases b
  cases hnumber
  cases u64Bytes_injective hheight
  rfl

theorem PortChannelPK.component_injective : Function.Injective PortChannelPK.component := by
  intro a b h
  obtain ⟨hport, hchannel⟩ := List.append_inj h (a.portKey.length_eq.trans b.portKey.length_eq.symm)
  obtain ⟨⟨bytes, hbytes⟩, channelIdx⟩ := a
  obtain ⟨⟨bytes', hbytes'⟩, channelIdx'⟩ := b
  cases hport
  cases counterBytes_injective hchannel
  rfl

theorem PortChannelPK.component_delimited : SelfDelimiting PortChannelPK.component := by
  have hlength : ∀ k : PortChannelPK, k.component.length = 13 := by
    intro k
    simp [PortChannelPK.component, counterBytes, k.portKey.length_eq]
  exact .of_length PortChannelPK.component_injective hlength

namespace TrieKey

theorem new_inj {tag tag' : Tag} {c c' : List Byte} (h : new tag c = new tag' c') : tag = tag' ∧ c = c' := by
  obtain ⟨htag, hc⟩ := List.cons.inj h
  exact ⟨Tag.code_injective htag, hc⟩

theorem forConsensusState_inj {i i' : Counter} {h h' : IbcHeight}
    (heq : forConsensusState i h = forConsensusState i' h') : i = i' ∧ h = h' := by
  obtain ⟨hi, hh⟩ := counterBytes_delimited _ _ _ _ (new_inj heq).2
  exact ⟨hi, IbcHeight.component_injective hh⟩

theorem forConnection_injective : Function.Injective forConnection :=
  fun _ _ h => counterBytes_injective (new_inj h).2

theorem forChannelPath_inj {tag tag' : Tag} {k k' : PortChannelPK}
    (h : forChannelPath tag k = forChannelPath tag' k') : tag = tag' ∧ k = k' := by
  obtain ⟨htag, hc⟩ := new_inj h
  exact ⟨htag, PortChannelPK.component_injective hc⟩

theorem forSequencePath_inj {tag tag' : Tag} {k k' : PortChannelPK} {n n' : Fin (2 ^ 64)}
    (h : forSequencePath tag k n = forSequencePath tag' k' n') : tag = tag' ∧ k = k' ∧ n = n' := by
  obtain ⟨htag, hc⟩ := new_inj h
  obtain ⟨hk, hn⟩ := PortChannelPK.component_delimited _ _ _ _ hc
  exact ⟨htag, hk, u64Bytes_injective hn⟩

end TrieKey

/-- The key of the port and channel of the source's test. -/
example : (PortChannelPK.tryFrom (ascii "transfer") (ascii "channel-5")).map TrieKey.forChannelEnd =
    some [0x03#8, 0xb6#8, 0xb6#8, 0xa7#8, 0xb1#8, 0xf7#8, 0xab#8, 0xff#8, 0xff#8, 0xff#8,
      0x00#8, 0x00#8, 0x00#8, 0x05#8] := by
  decide

end TrieIds
