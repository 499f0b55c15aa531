import EmulatedLightClient.AccountHashes
import EmulatedLightClient.BTreeMap
import EmulatedLightClient.LinearMaps
import EmulatedLightClient.SortedSearch
import Mathlib.Data.List.Pairwise

/-!
# The worker of the Geyser plugin

The validator tells what happens in a slot message by message, and about several slots at a time. The worker
accumulates what it is told, and when a slot is rooted it records a proof for the witness account.
-/

namespace Nodes.CryptoHash

open ByteBits MachineInts

/-- The number which the bytes are in big endian; it orders keys as their bytes do. -/
def order (hash : CryptoHash) : Nat := ofLeBytes hash.bytes.reverse

theorem order_injective : Function.Injective order := by
  intro a b h
  have hrev : a.bytes.reverse = b.bytes.reverse :=
    ofLeBytes_inj (by rw [List.length_reverse, List.length_reverse, a.size, b.size]) h
  exact eq_of_bytes (List.reverse_injective hrev)

instance linearOrder : LinearOrder CryptoHash := LinearOrder.lift' order order_injective

end Nodes.CryptoHash

namespace CfSolana

open ByteBits Nodes

variable (digest : List Byte → CryptoHash)

theorem pushLevels_built {fuel pos : Nat} {hashes : List CryptoHash} {p p' : MerkleProof} (hp : MerkleProof.Built p)
    (h : pushLevels digest fuel hashes pos p = some p') : MerkleProof.Built p' := by
  induction fuel generalizing hashes pos p with
  | zero =>
    cases h
    exact hp
  | succ fuel ih =>
    rw [pushLevels] at h
    split at h
    · obtain ⟨chunk, -, hrest⟩ := Option.bind_eq_some_iff.mp h
      obtain ⟨next, hnext, hlater⟩ := Option.bind_eq_some_iff.mp hrest
      exact ih (.pushLevel hp chunk _ hnext) hlater
    · cases h
      exact hp

theorem MerkleProof.generate_levels {accounts : List (CryptoHash × CryptoHash)} {pubkey root : CryptoHash}
    {proof : MerkleProof} (h : (generate digest accounts pubkey).2 = some (some (root, proof))) :
    proof.levels.isSome := by
  unfold generate at h
  simp only at h
  split at h
  · cases h
  · obtain ⟨proof', hproof, heq⟩ := Option.map_eq_some_iff.mp h
    cases heq
    exact (pushLevels_built digest .default hproof).levels

/-- Generates a proof for the account; the accounts are sorted in either case. -/
def AccountHashData.generateProof (d : AccountHashData) (accounts : List (CryptoHash × CryptoHash)) :
    List (CryptoHash × CryptoHash) × Option (Option (CryptoHash × AccountProof)) :=
  ((MerkleProof.generate digest accounts d.key).1,
    match h : (MerkleProof.generate digest accounts d.key).2 with
    | none => none
    | some none => some none
    | some (some (root, proof)) => some (some (root, ⟨d, proof, MerkleProof.generate_levels digest h⟩)))

/-- The root expected by the proof of an account. -/
def AccountProof.expectedRoot (B : Blake3) (p : AccountProof) : Option CryptoHash :=
  p.proof.expectedRoot digest (p.accountHashData.calculateHash B)

end CfSolana

namespace TrieGeyser

open ByteBits CfSolana LinearMaps Nodes

abbrev Pubkey := CryptoHash

structure BlockInfo where
  parentBlockhash : CryptoHash
  blockhash : CryptoHash

structure AccountUpdateInfo where
  slot : Nat
  writeVersion : Nat
  account : AccountHashData

inductive Message where
  | account (info : AccountUpdateInfo)
  | block (slot : Nat) (block : BlockInfo)
  | slotRooted (slot : Nat)
  | transaction (slot numSigs : Nat)

structure SlotData where
  deltaHashProof : DeltaHashProof
  witnessProof : AccountProof
  rootAccount : AccountHashData

def maxSlots : Nat := 128

/-- Slots which were recorded with their data, each in a queue of its own. -/
structure Database where
  slotNums : List Nat
  slotData : List SlotData
  same : slotData.length = slotNums.length
  sorted : slotNums.Pairwise (· < ·)
  limit : slotNums.length ≤ maxSlots

namespace Database

def new : Database := ⟨[], [], rfl, .nil, Nat.zero_le _⟩

theorem tail_same (db : Database) : db.slotData.tail.length = db.slotNums.tail.length := by
  rw [List.length_tail, List.length_tail, db.same]

theorem tail_limit (db : Database) : db.slotNums.tail.length ≤ maxSlots :=
  (List.tail_sublist _).length_le.trans db.limit

/-- Makes room for one more slot. -/
def popFront (db : Database) : Database :=
  if db.slotNums.length = maxSlots then
    ⟨db.slotNums.tail, db.slotData.tail, db.tail_same, db.sorted.sublist (List.tail_sublist _), db.tail_limit⟩
  else db

theorem length_popFront (db : Database) : db.popFront.slotNums.length < maxSlots := by
  unfold popFront
  split
  · rename_i hfull
    simp only [List.length_tail, hfull]
    decide
  · rename_i hroom
    exact lt_of_le_of_ne db.limit hroom

theorem popFront_sublist (db : Database) : db.popFront.slotNums.Sublist db.slotNums := by
  unfold popFront
  split
  · exact List.tail_sublist _
  · exact List.Sublist.refl _

/-- The latest slot is not before the given one. -/
def outOfOrder (db : Database) (slot : Nat) : Prop := ∃ last ∈ db.slotNums.getLast?, slot ≤ last

instance outOfOrder_decidable (db : Database) (slot : Nat) : Decidable (db.outOfOrder slot) :=
  inferInstanceAs (Decidable (∃ last ∈ db.slotNums.getLast?, slot ≤ last))

theorem lt_of_inOrder {db : Database} {slot s : Nat} (h : ¬ db.outOfOrder slot) (hs : s ∈ db.slotNums) : s < slot := by
  have hne : db.slotNums ≠ [] := List.ne_nil_of_mem hs
  have hlast := List.getLast?_eq_some_getLast hne
  have hlt : db.slotNums.getLast hne < slot := not_le.mp fun hle => h ⟨_, hlast, hle⟩
  have hle : s ≤ db.slotNums.getLast hne := (db.sorted.imp fun hlt => hlt.le).rel_getLast hs
  exact hle.trans_lt hlt

theorem sorted_concat {db : Database} {slot : Nat} (h : ¬ db.outOfOrder slot) :
    (db.popFront.slotNums ++ [slot]).Pairwise (· < ·) := by
  refine List.pairwise_append.mpr ⟨db.popFront.sorted, List.pairwise_singleton _ _, fun a ha b hb => ?_⟩
  rw [List.mem_singleton.mp hb]
  exact lt_of_inOrder h (db.popFront_sublist.mem ha)

theorem same_concat (db : Database) (slot : Nat) (data : SlotData) :
    (db.popFront.slotData ++ [data]).length = (db.popFront.slotNums ++ [slot]).length := by
  rw [List.length_append, List.length_append, db.popFront.same]
  rfl

theorem limit_concat (db : Database) (slot : Nat) : (db.popFront.slotNums ++ [slot]).length ≤ maxSlots := by
  rw [List.length_append]
  exact db.length_popFront

/-- Adds a new entry, the slot of which has to be greater than those of all others. -/
def add (db : Database) (slot : Nat) (data : SlotData) : Database :=
  if h : db.outOfOrder slot then db
  else
    ⟨db.popFront.slotNums ++ [slot], db.popFront.slotData ++ [data], db.same_concat slot data, sorted_concat h,
      db.limit_concat slot⟩

/-- Data for the slot. -/
def get (db : Database) (slot : Nat) : Option SlotData :=
  match SortedSearch.binarySearch db.slotNums slot with
  | .ok index => db.slotData[index]?
  | .error _ => none

end Database

/-- What is known about a slot which is not rooted yet. Accounts come in no particular order, each at most once and
under its key. -/
structure SlotAccumulator where
  block : Option BlockInfo
  accounts : LinearMap Pubkey (Nat × AccountHashData)
  numSigs : Nat
  distinct : (LinearMap.keys accounts).Nodup
  keyed : ∀ pubkey item, LinearMap.get pubkey accounts = some item → item.2.key = pubkey
  fits : numSigs < 2 ^ 64

namespace SlotAccumulator

def default : SlotAccumulator := ⟨none, [], 0, .nil, nofun, by decide⟩

/-- The later one of two updates. -/
def later (item old : Nat × AccountHashData) : Nat × AccountHashData := if old.1 < item.1 then item else old

theorem later_self (item : Nat × AccountHashData) : later item item = item := ite_self item

theorem keyed_upsert (acc : SlotAccumulator) (item : Nat × AccountHashData) (pubkey : Pubkey)
    (found : Nat × AccountHashData)
    (h : LinearMap.get pubkey (LinearMap.upsert item.2.key item (later item) acc.accounts) = some found) :
    found.2.key = pubkey := by
  rw [LinearMap.get_upsert] at h
  split at h
  · rename_i hkey
    cases hold : LinearMap.get item.2.key acc.accounts with
    | none =>
      rw [hold, Option.getD_none, later_self, Option.some_inj] at h
      rw [← h, hkey]
    | some old =>
      rw [hold, Option.getD_some, Option.some_inj] at h
      rw [← h, hkey]
      unfold later
      split
      · rfl
      · exact acc.keyed _ old hold
  · exact acc.keyed pubkey found h

/-- Takes in an update of an account. -/
def update (acc : SlotAccumulator) (info : AccountUpdateInfo) : SlotAccumulator :=
  let pubkey := info.account.key
  let item := (info.writeVersion, info.account)
  { acc with
    accounts := LinearMap.upsert pubkey item (later item) acc.accounts
    distinct := LinearMap.nodup_keys_upsert acc.distinct
    keyed := acc.keyed_upsert item }

/-- Counts signatures, without a check for overflow. -/
def addSigs (acc : SlotAccumulator) (numSigs : Nat) : SlotAccumulator :=
  { acc with numSigs := (acc.numSigs + numSigs) % 2 ^ 64, fits := Nat.mod_lt _ (by decide) }

end SlotAccumulator

structure Config where
  rootAccount : Pubkey
  witnessAccount : Pubkey

structure Worker where
  config : Config
  slots : BTreeMap Nat SlotAccumulator
  db : Database

/-- The order in which the entries of a hash map come. -/
structure Iteration (α : Type) where
  order : List α → List α
  perm : ∀ l, (order l).Perm l

/-- Drops entries up to the slot, from the first one on, and gives the one of the slot. -/
def dropThrough {V : Type} (slot : Nat) : List (Nat × V) → Option V × List (Nat × V)
  | [] => (none, [])
  | (key, value) :: entries =>
    if key ≤ slot then
      if key = slot then (some value, entries) else dropThrough slot entries
    else (none, (key, value) :: entries)

theorem dropThrough_sublist {V : Type} (slot : Nat) (entries : List (Nat × V)) :
    (dropThrough slot entries).2.Sublist entries := by
  fun_induction dropThrough slot entries with
  | case1 => exact List.Sublist.refl _
  | case2 => exact List.sublist_cons_self ..
  | case3 _ _ _ _ _ ih => exact ih.cons _
  | case4 => exact List.Sublist.refl _

namespace Worker

def new (config : Config) : Worker := ⟨config, .empty, .new⟩

/-- The accumulator of the slot, which may be a new one. -/
def slotOrDefault (w : Worker) (slot : Nat) : SlotAccumulator := (w.slots.get slot).getD .default

def put (w : Worker) (slot : Nat) (acc : SlotAccumulator) : Worker := { w with slots := w.slots.insert slot acc }

def handleAccount (w : Worker) (info : AccountUpdateInfo) : Worker :=
  w.put info.slot ((w.slotOrDefault info.slot).update info)

def handleTransaction (w : Worker) (slot numSigs : Nat) : Worker :=
  w.put slot ((w.slotOrDefault slot).addSigs numSigs)

def handleBlock (w : Worker) (slot : Nat) (block : BlockInfo) : Worker :=
  w.put slot { w.slotOrDefault slot with block := some block }

/-- Takes the accumulator of the slot and drops those of slots before it. -/
def takeSlot (w : Worker) (slot : Nat) : Option SlotAccumulator × Worker :=
  let dropped := dropThrough slot w.slots.entries
  (dropped.1, { w with slots := ⟨dropped.2, w.slots.sorted.sublist (dropThrough_sublist slot _)⟩ })

variable (digest : List Byte → CryptoHash) (B : Blake3) (iteration : Iteration (Pubkey × Nat × AccountHashData))

/-- The missing value is a panic. -/
def handleSlotRooted (w : Worker) (slot : Nat) : Option Worker :=
  match w.takeSlot slot with
  | (none, w) => some w
  | (some entry, w) =>
    if LinearMap.get w.config.witnessAccount entry.accounts = none then some w
    else if LinearMap.get w.config.rootAccount entry.accounts = none then some w
    else
      match entry.block with
      | none => some w
      | some block => do
        let accounts := (iteration.order entry.accounts).map fun (pubkey, _, account) =>
          (pubkey, account.calculateHash B)
        let (_, witness) ← LinearMap.get w.config.witnessAccount entry.accounts
        let entryAccounts := LinearMap.remove w.config.witnessAccount entry.accounts
        let generated ← (witness.generateProof digest accounts).2
        let (accountsDeltaHash, witnessProof) ← generated
        let deltaHashProof : DeltaHashProof :=
          { parentBlockhash := block.parentBlockhash
            accountsDeltaHash
            numSigs := ⟨entry.numSigs, entry.fits⟩
            blockhash := block.blockhash
            epochAccountsHash := none }
        let (_, rootAccount) ← LinearMap.get w.config.rootAccount entryAccounts
        return { w with db := w.db.add slot ⟨deltaHashProof, witnessProof, rootAccount⟩ }

def handle (w : Worker) : Message → Option Worker
  | .account info => some (w.handleAccount info)
  | .block slot block => some (w.handleBlock slot block)
  | .slotRooted slot => w.handleSlotRooted digest B iteration slot
  | .transaction slot numSigs => some (w.handleTransaction slot numSigs)

/-- Messages in the order in which they are received, each with the order in which hash maps happen to be walked. -/
def run (w : Worker) (received : List (Iteration (Pubkey × Nat × AccountHashData) × Message)) : Option Worker :=
  received.foldlM (fun w r => w.handle digest B r.1 r.2) w

end Worker

end TrieGeyser
