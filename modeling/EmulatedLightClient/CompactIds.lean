import EmulatedLightClient.FailingState
import EmulatedLightClient.Readers
import EmulatedLightClient.TrieIds
import Mathlib.Data.List.DropRight

/-!
# Compact identifiers

Identifiers are turned back from what is kept of them. Of connections and channels only the number is kept,
which may be spelled in more than one way.
-/

namespace TrieIds

open AsciiText ByteBits MachineInts Readers

/-- Alphanumeric characters and a few others. -/
def identifierChar (b : Byte) : Bool :=
  (48 ≤ b.toNat && b.toNat ≤ 57) || (65 ≤ b.toNat && b.toNat ≤ 90) || (97 ≤ b.toNat && b.toNat ≤ 122) ||
    (ascii "._+-#[]<>").contains b

def validIdentifier (min max : Nat) (id : List Byte) : Bool :=
  min ≤ id.length && id.length ≤ max && id.all identifierChar

def validConnectionId (id : List Byte) : Bool := validIdentifier 10 64 id

def validChannelId (id : List Byte) : Bool := validIdentifier 8 64 id

def validPortId (id : List Byte) : Bool := validIdentifier 2 128 id

def ConnectionIdx.toId (i : Counter) : List Byte := ConnectionIdx.ibcPrefix ++ decimal i.val

def ChannelIdx.toId (i : Counter) : List Byte := ChannelIdx.ibcPrefix ++ decimal i.val

namespace Counter

variable {p id : List Byte} {i : Counter}

theorem fromPrefixed_eq_some : fromPrefixed p id = some i ↔ ∃ s, id = p ++ s ∧ parseNum 32 s = some i.val := by
  simp only [fromPrefixed, stripPrefix]
  split
  · rename_i hp
    obtain ⟨s, rfl⟩ := hp
    rw [List.drop_left, Option.bind_some, fromCounter, Option.bind_eq_some_iff]
    constructor
    · rintro ⟨n, hn, h⟩
      rw [dif_pos (parseNum_lt hn)] at h
      cases h
      exact ⟨s, rfl, hn⟩
    · rintro ⟨t, heq, hn⟩
      obtain rfl := List.append_cancel_left heq
      exact ⟨i.val, hn, dif_pos i.isLt⟩
  · rename_i hp
    refine iff_of_false (fun h => by cases h) ?_
    rintro ⟨s, rfl, -⟩
    exact hp (List.prefix_append p s)

/-- The number is spelled as it was exactly if it had no sign and no leading zeros. -/
theorem append_decimal_eq_iff (h : fromPrefixed p id = some i) :
    p ++ decimal i.val = id ↔ PlainDecimal (id.drop p.length) := by
  obtain ⟨s, rfl, hs⟩ := fromPrefixed_eq_some.mp h
  rw [List.append_cancel_left_eq, List.drop_left]
  exact decimal_of_parseNum hs

/-- Of the identifiers with a given index one is plain. -/
theorem plain_unique_iff (h : fromPrefixed p id = some i) :
    (∀ id', fromPrefixed p id' = some i → PlainDecimal (id'.drop p.length) → id' = id) ↔
      PlainDecimal (id.drop p.length) := by
  constructor
  · intro hall
    have hplain := plainDecimal_decimal i.val
    have hcanonical : p ++ decimal i.val = id := by
      refine hall _ ?_ (by rw [List.drop_left]; exact hplain)
      rw [fromPrefixed_decimal, dif_pos i.isLt]
    rw [← hcanonical, List.drop_left]
    exact hplain
  · intro hplain id' h' hplain'
    rw [← (append_decimal_eq_iff h).mpr hplain, ← (append_decimal_eq_iff h').mpr hplain']

end Counter

/-- An accepted identifier is turned back into itself, and shares its index with no other which is, exactly if
its number has neither a sign nor leading zeros. -/
theorem compactIds_lossless_iff (id : List Byte) (i : Counter) :
    (ConnectionIdx.tryFrom id = some i →
      (ConnectionIdx.toId i = id ↔ PlainDecimal (id.drop ConnectionIdx.ibcPrefix.length)) ∧
      ((∀ id', ConnectionIdx.tryFrom id' = some i → PlainDecimal (id'.drop ConnectionIdx.ibcPrefix.length) → id' = id) ↔
        PlainDecimal (id.drop ConnectionIdx.ibcPrefix.length))) ∧
    (ChannelIdx.tryFrom id = some i →
      (ChannelIdx.toId i = id ↔ PlainDecimal (id.drop ChannelIdx.ibcPrefix.length)) ∧
      ((∀ id', ChannelIdx.tryFrom id' = some i → PlainDecimal (id'.drop ChannelIdx.ibcPrefix.length) → id' = id) ↔
        PlainDecimal (id.drop ChannelIdx.ibcPrefix.length))) :=
  ⟨fun h => ⟨Counter.append_decimal_eq_iff h, Counter.plain_unique_iff h⟩,
    fun h => ⟨Counter.append_decimal_eq_iff h, Counter.plain_unique_iff h⟩⟩

theorem compactIds_lossless_sample :
    ConnectionIdx.toId 42 = ascii "connection-42" ∧ ChannelIdx.toId 42 = ascii "channel-42" :=
  ⟨((compactIds_lossless_iff (ascii "connection-42") 42).1 (by decide)).1.mpr (by decide),
    ((compactIds_lossless_iff (ascii "channel-42") 42).2 (by decide)).1.mpr (by decide)⟩

/-- Identifiers of the protocol which share an index. -/
theorem compactIds_aliased :
    (validConnectionId (ascii "connection-07") ∧ ConnectionIdx.tryFrom (ascii "connection-07") = some 7 ∧
      ConnectionIdx.tryFrom (ascii "connection-7") = some 7 ∧ ConnectionIdx.toId 7 ≠ ascii "connection-07") ∧
    validChannelId (ascii "channel-+7") ∧ ChannelIdx.tryFrom (ascii "channel-+7") = some 7 ∧
      ChannelIdx.tryFrom (ascii "channel-7") = some 7 ∧ ChannelIdx.toId 7 ≠ ascii "channel-+7" := by
  decide

namespace PortKey

def ofBytes (bytes : List Byte) : Option PortKey := if h : bytes.length = 9 then some ⟨bytes, h⟩ else none

/-- The name without its padding. -/
def writeInto (k : PortKey) : List Byte := (encodeBase64 k.bytes).rdropWhile (· == 47#8)

/-- A name which the protocol does not allow is a panic. -/
def toPortId (k : PortKey) : Option (List Byte) := if validPortId k.writeInto then some k.writeInto else none

def serialize (k : PortKey) : List Byte := k.bytes

inductive DeserializeError where
  | unexpectedLength
  | invalidPortId
  | notAllBytesRead
deriving DecidableEq

/-- The characters read back have to be a name of a port and its padding. -/
def validName (buf : List Byte) : Bool :=
  match buf.findIdx? fun b => b == 43#8 || b == 47#8 with
  | some pos => decide (2 < pos) && (buf.drop pos).all (· == 47#8)
  | none => true

def deserializeReader : Reader DeserializeError Byte PortKey := do
  let this ← Reader.ofOption .unexpectedLength (ofBytes (← Reader.take .unexpectedLength 9))
  if validName (encodeBase64 this.bytes) then return this else throw .invalidPortId

def tryFromSlice (bytes : List Byte) : Except DeserializeError PortKey := do
  let (this, rest) ← deserializeReader bytes
  if rest = [] then return this else throw .notAllBytesRead

/-- Characters which are a name and what it is padded with. -/
structure Padded (name buf : List Byte) : Prop where
  eq : buf = name ++ List.replicate (12 - name.length) 47#8
  plus : 43#8 ∉ name
  slash : 47#8 ∉ name
  length : name.length ≤ 12

theorem tryFrom_eq_some {s : List Byte} {k : PortKey} : tryFrom s = some k ↔ Padded s (encodeBase64 k.bytes) := by
  have hcodec : ∀ {t : List Byte}, decodeBase64 t = some k.bytes ↔ encodeBase64 k.bytes = t := by
    intro t
    constructor
    · exact encodeBase64_of_decodeBase64
    · rintro rfl
      exact decodeBase64_encodeBase64 (by rw [k.length_eq]; decide)
  unfold tryFrom
  split
  · rename_i hbad
    refine iff_of_false (fun h => by cases h) fun h => ?_
    rcases hbad with hbad | hbad | hbad
    · exact h.plus hbad
    · exact h.slash hbad
    · exact absurd h.length (by omega)
  · rename_i hgood
    simp only [not_or, Nat.not_lt] at hgood
    rw [Option.bind_eq_some_iff]
    constructor
    · rintro ⟨bytes, hbytes, h⟩
      split at h
      · cases h
        exact ⟨hcodec.mp hbytes, hgood.1, hgood.2.1, hgood.2.2⟩
      · cases h
    · intro h
      exact ⟨k.bytes, hcodec.mpr h.eq, dif_pos k.length_eq⟩

theorem writeInto_of_padded {name : List Byte} {k : PortKey} (h : Padded name (encodeBase64 k.bytes)) :
    k.writeInto = name := by
  have hpad : ∀ n, (name ++ List.replicate n 47#8).rdropWhile (· == 47#8) = name := by
    intro n
    induction n with
    | zero =>
      rw [List.replicate_zero, List.append_nil, List.rdropWhile_eq_self_iff]
      intro hne hlast
      exact h.slash (beq_iff_eq.mp hlast ▸ List.getLast_mem hne)
    | succ n ih => rw [List.replicate_succ', ← List.append_assoc, List.rdropWhile_concat_pos _ _ _ rfl, ih]
  rw [writeInto, h.eq, hpad]

theorem findIdx_of_padded {name buf : List Byte} (h : Padded name buf) :
    (buf.findIdx? fun b => b == 43#8 || b == 47#8) = if name.length < 12 then some name.length else none := by
  have hname : (name.findIdx? fun b => b == 43#8 || b == 47#8) = none := by
    rw [List.findIdx?_eq_none_iff]
    intro b hb
    rw [Bool.or_eq_false_iff, beq_eq_false_iff_ne, beq_eq_false_iff_ne]
    exact ⟨fun heq => h.plus (heq ▸ hb), fun heq => h.slash (heq ▸ hb)⟩
  rw [h.eq, List.findIdx?_append, hname, Option.none_or, List.findIdx?_replicate]
  by_cases hlt : name.length < 12
  · rw [if_pos hlt, if_pos ⟨by omega, rfl⟩, Option.map_some, Nat.zero_add]
  · rw [if_neg hlt, if_neg fun hpos => by omega, Option.map_none]

theorem validName_of_padded {name buf : List Byte} (h : Padded name buf) : validName buf ↔ 2 < name.length := by
  have hlen := h.length
  rw [validName, findIdx_of_padded h]
  by_cases hlt : name.length < 12
  · have hdrop : buf.drop name.length = List.replicate (12 - name.length) 47#8 := by
      rw [h.eq, List.drop_left]
    simp [if_pos hlt, hdrop]
  · simp only [if_neg hlt, true_iff]
    omega

/-- What passes the check starts with a name. -/
theorem padded_of_validName {buf : List Byte} (hlen : buf.length = 12) (h : validName buf) :
    ∃ name, Padded name buf ∧ 2 < name.length := by
  cases hpos : buf.findIdx? fun b => b == 43#8 || b == 47#8 with
  | none =>
    rw [List.findIdx?_eq_none_iff] at hpos
    refine ⟨buf, ⟨?_, fun hb => ?_, fun hb => ?_, hlen.le⟩, by omega⟩
    · rw [hlen, Nat.sub_self, List.replicate_zero, List.append_nil]
    · exact absurd (hpos _ hb) (by decide)
    · exact absurd (hpos _ hb) (by decide)
  | some pos =>
    simp only [validName, hpos, Bool.and_eq_true, decide_eq_true_eq, List.all_eq_true, beq_iff_eq] at h
    obtain ⟨hlt, hbefore⟩ := List.findIdx?_eq_some_iff_getElem.mp hpos
    have htake : (buf.take pos).length = pos := List.length_take_of_le hlt.le
    have hnot : ∀ b ∈ buf.take pos, (b == 43#8 || b == 47#8) = false := by
      intro b hb
      obtain ⟨i, hi, rfl⟩ := List.mem_iff_getElem.mp hb
      rw [List.getElem_take]
      simpa using hbefore.2 i (by omega)
    have hrest : buf.drop pos = List.replicate (12 - pos) 47#8 :=
      List.eq_replicate_iff.mpr ⟨by rw [List.length_drop, hlen], h.2⟩
    refine ⟨buf.take pos, ⟨?_, fun hb => ?_, fun hb => ?_, by omega⟩, by omega⟩
    · rw [htake, ← hrest, List.take_append_drop]
    · exact absurd (hnot _ hb) (by decide)
    · exact absurd (hnot _ hb) (by decide)

theorem deserializeReader_eq_ok {s rest : List Byte} {k : PortKey} :
    deserializeReader s = .ok (k, rest) ↔ s = k.bytes ++ rest ∧ validName (encodeBase64 k.bytes) := by
  have hofBytes : ∀ {bytes : List Byte} {k : PortKey}, ofBytes bytes = some k ↔ bytes = k.bytes := by
    intro bytes k
    unfold ofBytes
    split
    · rw [Option.some_inj]
      exact ⟨fun h => h ▸ rfl, fun h => by cases k; cases h; rfl⟩
    · rename_i hlen
      exact iff_of_false (fun h => by cases h) fun h => hlen (h ▸ k.length_eq)
  simp only [deserializeReader, Reader.bind_eq_ok, Reader.take_eq_ok, Reader.ofOption_eq_ok, hofBytes]
  constructor
  · rintro ⟨bytes, mid, ⟨-, rfl⟩, k', mid', ⟨rfl, rfl⟩, h⟩
    split at h
    · rename_i hvalid
      cases h
      exact ⟨rfl, hvalid⟩
    · cases h
  · rintro ⟨rfl, hvalid⟩
    refine ⟨k.bytes, rest, ⟨k.length_eq, rfl⟩, k, rest, ⟨rfl, rfl⟩, ?_⟩
    rw [if_pos hvalid]
    rfl

theorem tryFromSlice_eq_ok {bytes : List Byte} {k : PortKey} :
    tryFromSlice bytes = .ok k ↔ bytes = k.bytes ∧ validName (encodeBase64 k.bytes) := by
  rw [tryFromSlice, FailingState.bind_eq_ok]
  constructor
  · rintro ⟨⟨k', rest⟩, hread, h⟩
    obtain ⟨rfl, hvalid⟩ := deserializeReader_eq_ok.mp hread
    cases rest with
    | nil =>
      cases h
      exact ⟨List.append_nil _, hvalid⟩
    | cons b rest => cases h
  · rintro ⟨rfl, hvalid⟩
    exact ⟨(k, []), deserializeReader_eq_ok.mpr ⟨(List.append_nil _).symm, hvalid⟩, rfl⟩

/-- Digits other than the plus and the slash may occur in identifiers. -/
theorem identifierChar_of_sextet {b : Byte} (h : (sextet b).isSome) (hplus : b ≠ 43#8) (hslash : b ≠ 47#8) :
    identifierChar b := by
  revert b
  decide

/-- The names of ports which are padded to what was decoded. -/
theorem validPortId_of_padded {name : List Byte} {k : PortKey} (h : Padded name (encodeBase64 k.bytes))
    (hlen : 2 ≤ name.length) :
    validPortId name := by
  have hdecode : decodeBase64 (encodeBase64 k.bytes) = some k.bytes :=
    decodeBase64_encodeBase64 (by rw [k.length_eq]; decide)
  have hmax := h.length
  have hchars : ∀ b ∈ name, identifierChar b := by
    intro b hb
    have hmem : b ∈ encodeBase64 k.bytes := by
      rw [h.eq]
      exact List.mem_append_left _ hb
    exact identifierChar_of_sextet (isSome_sextet_of_mem hdecode b hmem) (fun heq => h.plus (heq ▸ hb))
      fun heq => h.slash (heq ▸ hb)
  simp only [validPortId, validIdentifier, Bool.and_eq_true, decide_eq_true_eq, List.all_eq_true]
  exact ⟨⟨hlen, by omega⟩, hchars⟩

end PortKey

/-- Keys of ports are told apart and turned back into the names they come from, and nothing else is read; but
keys of names with two characters are not read either. -/
theorem portKey_roundtrip_iff {s : List Byte} {k : PortKey} (hvalid : validPortId s) (h : PortKey.tryFrom s = some k) :
    k.toPortId = some s ∧ (∀ s', PortKey.tryFrom s' = some k → s' = s) ∧
      (PortKey.tryFromSlice k.serialize = .ok k ↔ s.length ≠ 2) ∧
      ∀ bytes k', PortKey.tryFromSlice bytes = .ok k' →
        bytes = k'.bytes ∧ ∃ name, validPortId name ∧ PortKey.tryFrom name = some k' := by
  have hpadded := PortKey.tryFrom_eq_some.mp h
  have hname := PortKey.writeInto_of_padded hpadded
  refine ⟨?_, fun s' h' => PortKey.tryFrom_inj h' h, ?_, fun bytes k' h' => ?_⟩
  · rw [PortKey.toPortId, hname, if_pos hvalid]
  · have hmin : 2 ≤ s.length := by
      simp only [validPortId, validIdentifier, Bool.and_eq_true, decide_eq_true_eq] at hvalid
      exact hvalid.1.1
    rw [PortKey.tryFromSlice_eq_ok, PortKey.validName_of_padded hpadded, PortKey.serialize, eq_self, true_and]
    omega
  · obtain ⟨rfl, hread⟩ := PortKey.tryFromSlice_eq_ok.mp h'
    have hlen : (encodeBase64 k'.bytes).length = 12 := by
      have hdecode := length_decodeBase64 (decodeBase64_encodeBase64 (by rw [k'.length_eq]; decide))
      rw [k'.length_eq] at hdecode
      omega
    obtain ⟨name, hname', hmin⟩ := PortKey.padded_of_validName hlen hread
    exact ⟨rfl, name, PortKey.validPortId_of_padded hname' hmin.le, PortKey.tryFrom_eq_some.mpr hname'⟩

/-- The key of the transfer module. -/
def PortKey.transfer : PortKey where
  bytes := [0xb6#8, 0xb6#8, 0xa7#8, 0xb1#8, 0xf7#8, 0xab#8, 0xff#8, 0xff#8, 0xff#8]
  length_eq := rfl

theorem portKey_roundtrip_transfer : PortKey.tryFromSlice PortKey.transfer.serialize = .ok PortKey.transfer :=
  (portKey_roundtrip_iff (s := ascii "transfer") (by decide) (by decide)).2.2.1.mpr (by decide)

/-- A name of two characters. -/
theorem portKey_not_read : validPortId (ascii "ab") ∧ ∃ k, PortKey.tryFrom (ascii "ab") = some k ∧
    PortKey.tryFromSlice k.serialize = .error .invalidPortId := by
  refine ⟨by decide,
    ⟨[0x69#8, 0xbf#8, 0xff#8, 0xff#8, 0xff#8, 0xff#8, 0xff#8, 0xff#8, 0xff#8], rfl⟩, ?_, ?_⟩ <;> decide

end TrieIds
