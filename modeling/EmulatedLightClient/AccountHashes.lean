import EmulatedLightClient.SolanaHeader

/-!
# Hashes of accounts

Account hash data are hashed in one piece. The host hashes the same bytes from a buffer with room for the
data of a token account, past which longer data go to the hasher directly; an account without lamports has
the hash zero there.
-/

namespace CfSolana

open ByteBits MachineInts Nodes Buffers

namespace AccountHashData

/-- Fragment of `n` bytes. -/
def get (d : AccountHashData) (n start : Nat) : List Byte := slice d.bytes start n

def lamports (d : AccountHashData) : Fin (2 ^ 64) := Fin.ofNat (2 ^ 64) (ofLeBytes (d.get 8 0))

def rentEpoch (d : AccountHashData) : Fin (2 ^ 64) := Fin.ofNat (2 ^ 64) (ofLeBytes (d.get 8 8))

def executable (d : AccountHashData) : Bool := d.bytes[d.bytes.length - 65]? == some 1#8

theorem length_get_hash (d : AccountHashData) {n : Nat} (hn : 32 ≤ n) (hmax : n ≤ 81) :
    (d.get 32 (d.bytes.length - n)).length = 32 := by
  have hlong : 81 ≤ d.bytes.length := d.long
  exact length_slice (by omega)

theorem length_owner (d : AccountHashData) : (d.get 32 (d.bytes.length - 64)).length = 32 :=
  d.length_get_hash (by decide) (by decide)

theorem length_key (d : AccountHashData) : (d.get 32 (d.bytes.length - 32)).length = 32 :=
  d.length_get_hash (by decide) (by decide)

def owner (d : AccountHashData) : CryptoHash := ⟨d.get 32 (d.bytes.length - 64), d.length_owner⟩

def key (d : AccountHashData) : CryptoHash := ⟨d.get 32 (d.bytes.length - 32), d.length_key⟩

end AccountHashData

/-- The hash function, of a whole string and fed piece by piece. -/
structure Blake3 where
  Hasher : Type
  start : Hasher
  update : Hasher → List Byte → Hasher
  finalize : Hasher → CryptoHash
  hash : List Byte → CryptoHash

/-- Only the string the pieces make up matters. -/
def Blake3.Streams (B : Blake3) : Prop :=
  ∀ pieces : List (List Byte), B.finalize (pieces.foldl B.update B.start) = B.hash pieces.flatten

def AccountHashData.calculateHash (B : Blake3) (d : AccountHashData) : CryptoHash := B.hash d.bytes

namespace HashAccount

def metaSize : Nat := 8 + 8 + 1 + 32 + 32

def dataSize : Nat := 200

def bufferSize : Nat := metaSize + dataSize

/-- Appends to the buffer; what does not fit is a panic. -/
def tryExtend (buffer s : List Byte) : Option (List Byte) :=
  if buffer.length + s.length ≤ bufferSize then some (buffer ++ s) else none

theorem tryExtend_of_le {buffer s : List Byte} (h : buffer.length + s.length ≤ bufferSize) :
    tryExtend buffer s = some (buffer ++ s) := if_pos h

end HashAccount

open HashAccount in
def hashAccount (B : Blake3) (lamports : Fin (2 ^ 64)) (owner : CryptoHash) (executable : Bool)
    (rentEpoch : Fin (2 ^ 64)) (data : List Byte) (pubkey : CryptoHash) : Option CryptoHash :=
  if lamports = 0 then some CryptoHash.default
  else do
    let buffer ← tryExtend [] (leBytes 8 lamports)
    let buffer ← tryExtend buffer (leBytes 8 rentEpoch)
    let (hasher, buffer) ←
      if data.length > dataSize then some (B.update (B.update B.start buffer) data, [])
      else (tryExtend buffer data).map fun buffer => (B.start, buffer)
    let buffer ← tryExtend buffer [if executable then 1#8 else 0#8]
    let buffer ← tryExtend buffer owner.bytes
    let buffer ← tryExtend buffer pubkey.bytes
    return B.finalize (B.update hasher buffer)

namespace AccountHashData

variable (lamports : Fin (2 ^ 64)) (owner : CryptoHash) (executable : Bool) (rentEpoch : Fin (2 ^ 64))
  (data : List Byte)
  (pubkey : CryptoHash)

theorem length_new : (new lamports owner executable rentEpoch data pubkey).bytes.length = 81 + data.length := by
  simp only [new, List.length_append, length_leBytes, owner.size, pubkey.size, List.length_singleton]
  omega

theorem lamports_new : (new lamports owner executable rentEpoch data pubkey).lamports = lamports := by
  have hget : (new lamports owner executable rentEpoch data pubkey).get 8 0 = leBytes 8 lamports := by
    simp only [get, new, List.append_assoc]
    rw [← List.nil_append (leBytes 8 _ ++ _), ← List.append_assoc]
    exact slice_append_mid rfl (length_leBytes 8 _)
  have hlt : lamports.val < 256 ^ 8 := lamports.isLt
  rw [AccountHashData.lamports, hget, ofLeBytes_leBytes hlt]
  exact Fin.ofNat_val_eq_self lamports

theorem rentEpoch_new : (new lamports owner executable rentEpoch data pubkey).rentEpoch = rentEpoch := by
  have hget : (new lamports owner executable rentEpoch data pubkey).get 8 8 = leBytes 8 rentEpoch := by
    simp only [get, new, List.append_assoc]
    rw [← List.append_assoc]
    exact slice_append_mid (length_leBytes 8 _) (length_leBytes 8 _)
  have hlt : rentEpoch.val < 256 ^ 8 := rentEpoch.isLt
  rw [AccountHashData.rentEpoch, hget, ofLeBytes_leBytes hlt]
  exact Fin.ofNat_val_eq_self rentEpoch

theorem data_new : (new lamports owner executable rentEpoch data pubkey).data = data := by
  rw [AccountHashData.data, length_new]
  simp only [new, List.append_assoc]
  rw [← List.append_assoc, ← List.append_assoc]
  exact slice_append_mid (by simp) (by omega)

theorem executable_new : (new lamports owner executable rentEpoch data pubkey).executable = executable := by
  have hget : (new lamports owner executable rentEpoch data pubkey).bytes[16 + data.length]? =
      some (if executable then 1#8 else 0#8) := by
    simp only [new, List.append_assoc]
    have hbefore : 8 + (8 + data.length) = 16 + data.length := by omega
    rw [← List.append_assoc, ← List.append_assoc, List.getElem?_append_right (by simp; omega)]
    simp [hbefore]
  have hindex : 81 + data.length - 65 = 16 + data.length := by omega
  rw [AccountHashData.executable, length_new, hindex, hget]
  cases executable <;> rfl

theorem owner_new : (new lamports owner executable rentEpoch data pubkey).owner = owner := by
  have hget : (new lamports owner executable rentEpoch data pubkey).get 32 (81 + data.length - 64) = owner.bytes := by
    simp only [get, new]
    exact slice_append_mid (by simp; omega) owner.size
  cases owner
  simp only [AccountHashData.owner, length_new, hget]

theorem key_new : (new lamports owner executable rentEpoch data pubkey).key = pubkey := by
  have hget : (new lamports owner executable rentEpoch data pubkey).get 32 (81 + data.length - 32) = pubkey.bytes := by
    simp only [get, new]
    rw [← List.append_nil (_ ++ pubkey.bytes)]
    exact slice_append_mid (by simp [owner.size]; omega) pubkey.size
  cases pubkey
  simp only [AccountHashData.key, length_new, hget]

/-- What the readers give. -/
structure Reads (d : AccountHashData) : Prop where
  lamports : d.lamports = lamports
  owner : d.owner = owner
  executable : d.executable = executable
  rentEpoch : d.rentEpoch = rentEpoch
  data : d.data = data
  key : d.key = pubkey

theorem reads_new : Reads lamports owner executable rentEpoch data pubkey
    (new lamports owner executable rentEpoch data pubkey) where
  lamports := lamports_new lamports owner executable rentEpoch data pubkey
  owner := owner_new lamports owner executable rentEpoch data pubkey
  executable := executable_new lamports owner executable rentEpoch data pubkey
  rentEpoch := rentEpoch_new lamports owner executable rentEpoch data pubkey
  data := data_new lamports owner executable rentEpoch data pubkey
  key := key_new lamports owner executable rentEpoch data pubkey

end AccountHashData

section

variable {B : Blake3} {lamports : Fin (2 ^ 64)} (owner : CryptoHash) (executable : Bool) (rentEpoch : Fin (2 ^ 64))
  (data : List Byte) (pubkey : CryptoHash)

open HashAccount

/-- The buffer has room for what comes after the data. -/
theorem push_rest {buffer : List Byte} {flag : Byte} (h : buffer.length + 65 ≤ bufferSize)
    (f : List Byte → CryptoHash) :
    (do
      let buffer ← tryExtend buffer [flag]
      let buffer ← tryExtend buffer owner.bytes
      let buffer ← tryExtend buffer pubkey.bytes
      return f buffer) = some (f (buffer ++ [flag] ++ owner.bytes ++ pubkey.bytes)) := by
  have howner := owner.size
  have hpubkey := pubkey.size
  simp only [Option.bind_eq_bind]
  rw [tryExtend_of_le (by simp; omega), Option.bind_some]
  rw [tryExtend_of_le (by simp; omega), Option.bind_some]
  rw [tryExtend_of_le (by simp; omega), Option.bind_some]
  rfl

/-- Whether or not the data go through the buffer, there is room in it and the pieces make up the hash data. -/
theorem hashAccount_of_ne_zero (hstreams : B.Streams) (h : lamports ≠ 0) :
    hashAccount B lamports owner executable rentEpoch data pubkey =
      some ((AccountHashData.new lamports owner executable rentEpoch data pubkey).calculateHash B) := by
  have hroom : bufferSize = 281 := rfl
  have hsize : dataSize = 200 := rfl
  have hmeta : (leBytes 8 lamports ++ leBytes 8 rentEpoch).length = 16 := by simp
  unfold hashAccount
  simp only [Option.bind_eq_bind]
  rw [if_neg h, tryExtend_of_le (by simp [hroom]), Option.bind_some, List.nil_append]
  rw [tryExtend_of_le (by simp [hroom]), Option.bind_some]
  by_cases hdata : data.length > dataSize
  · have hpieces := hstreams [leBytes 8 lamports ++ leBytes 8 rentEpoch, data,
      [if executable then 1#8 else 0#8] ++ owner.bytes ++ pubkey.bytes]
    simp only [List.foldl_cons, List.foldl_nil, List.flatten_cons, List.flatten_nil, List.append_nil] at hpieces
    rw [if_pos hdata, Option.bind_some]
    refine (push_rest owner pubkey (by simp [hroom]) _).trans ?_
    rw [List.nil_append, hpieces]
    simp only [AccountHashData.calculateHash, AccountHashData.new, List.append_assoc]
  · have hfits : (leBytes 8 lamports ++ leBytes 8 rentEpoch).length + data.length ≤ bufferSize := by omega
    have hpieces := hstreams [leBytes 8 lamports ++ leBytes 8 rentEpoch ++ data ++
      [if executable then 1#8 else 0#8] ++ owner.bytes ++ pubkey.bytes]
    simp only [List.foldl_cons, List.foldl_nil, List.flatten_cons, List.flatten_nil, List.append_nil] at hpieces
    rw [if_neg hdata, tryExtend_of_le hfits, Option.map_some, Option.bind_some]
    refine (push_rest owner pubkey (by rw [List.length_append, hmeta]; omega) _).trans ?_
    rw [hpieces]
    rfl

/-- What is read back is always what was put in; the hash is the one of the host except for accounts without
lamports, as long as nobody finds data which hash to zero. -/
theorem calculateHash_eq_hashAccount_iff (hstreams : B.Streams)
    (hzero : B.hash (AccountHashData.new lamports owner executable rentEpoch data pubkey).bytes ≠ CryptoHash.default) :
    let d := AccountHashData.new lamports owner executable rentEpoch data pubkey
    AccountHashData.Reads lamports owner executable rentEpoch data pubkey d ∧
      (hashAccount B lamports owner executable rentEpoch data pubkey = some (d.calculateHash B) ↔ lamports ≠ 0) := by
  refine ⟨AccountHashData.reads_new lamports owner executable rentEpoch data pubkey, ?_, ?_⟩
  · rintro hhash rfl
    exact hzero (Option.some.inj hhash).symm
  · exact hashAccount_of_ne_zero owner executable rentEpoch data pubkey hstreams

end

namespace HashAccount

/-- A function under which every string has the given hash. -/
def constHash (hash : CryptoHash) : Blake3 where
  Hasher := Unit
  start := ()
  update _ _ := ()
  finalize _ := hash
  hash _ := hash

/-- The hash of 81 zero bytes. -/
def emptyHash : CryptoHash where
  bytes := [76#8, 145#8, 235#8, 214#8, 164#8, 144#8, 84#8, 47#8, 90#8, 22#8, 230#8, 148#8, 167#8, 162#8, 172#8, 97#8,
    29#8, 206#8, 247#8, 84#8, 154#8, 100#8, 217#8, 22#8, 156#8, 156#8, 44#8, 103#8, 181#8, 194#8, 7#8, 214#8]
  size := rfl

/-- The hash of a byte one with 80 zero bytes after it. -/
def lamportHash : CryptoHash where
  bytes := [66#8, 227#8, 210#8, 35#8, 115#8, 255#8, 92#8, 127#8, 229#8, 158#8, 227#8, 195#8, 14#8, 182#8, 225#8,
    57#8, 127#8, 251#8, 166#8, 8#8, 80#8, 9#8, 106#8, 49#8, 102#8, 222#8, 131#8, 145#8, 97#8, 134#8, 236#8,
    253#8]
  size := rfl

end HashAccount

open HashAccount in
/-- An account with one lamport. -/
theorem calculateHash_eq_hashAccount_one :
    hashAccount (constHash lamportHash) 1 CryptoHash.default false 0 [] CryptoHash.default =
      some ((AccountHashData.new 1 CryptoHash.default false 0 [] CryptoHash.default).calculateHash (constHash lamportHash)) :=
  (calculateHash_eq_hashAccount_iff CryptoHash.default false 0 [] CryptoHash.default (fun _ => rfl)
    (by decide)).2.mpr (by decide)

open HashAccount in
/-- An account without lamports, whose data are hashed all the same. -/
theorem calculateHash_ne_hashAccount :
    hashAccount (constHash emptyHash) 0 CryptoHash.default false 0 [] CryptoHash.default ≠
      some ((AccountHashData.new 0 CryptoHash.default false 0 [] CryptoHash.default).calculateHash (constHash emptyHash)) := by
  decide

end CfSolana
