import EmulatedLightClient.ChunkedWrites
import EmulatedLightClient.WitnessedProgram
import Mathlib.Logic.Relation

/-!
# Runs of the program of the witnessed trie

Instructions for all the tries come in any order, and in between the host does whatever else it does. An account at a
derived address is changed by none but the program, so every trie stands for what the instructions for it made of it.
-/

namespace WitnessedTrie

open AsciiText ByteBits CfSolana FailingState MachineInts Nodes SolanaTrie
open SealableTrie (Bindings emptyTrieRoot)
open SolanaIbc (Clock)
open WriteAccount (AccountMeta Host ProgramError Pubkey createProgramAddress createProgramAddress_eq_ok
  findProgramAddress findProgramAddress_ok systemProgram)

section

variable {host : Host} {programId : Pubkey} {digest : List Byte → CryptoHash}

/-- There is nothing at the address, though it may have lamports. -/
structure Account.Unused (a : Account) : Prop where
  owner : a.owner = systemProgram
  data : a.data = []
  executable : a.executable = false

/-- The account is owned by the program, and if it was not before it is new. Of other accounts the payer may have fewer
lamports. -/
structure Initialised (programId : Pubkey) (size : Nat) (payer key : Pubkey) (bank bank' : Bank) : Prop where
  owner : (bank' key).owner = programId
  data : ((bank key).owner = programId ∧ (bank' key).data = (bank key).data) ∨
    ((bank key).owner = systemProgram ∧ (bank' key).data = List.replicate size 0#8)
  executable : ∀ k, (bank' k).executable = (bank k).executable
  others : ∀ k ≠ key, (bank' k).owner = (bank k).owner ∧ (bank' k).data = (bank k).data
  rest : ∀ k ≠ key, k ≠ payer → bank' k = bank k

theorem createAccount_ok {bank bank' : Bank} {payer account : AccountMeta} {size : Nat}
    (h : createAccount host programId bank payer account size = .ok bank') :
    Initialised programId size payer.pubkey account.pubkey bank bank' := by
  unfold createAccount at h
  split at h
  · cases h
  split at h
  · cases h
  rename_i hne
  split at h
  · cases h
  · rename_i payer' account' hcreate
    cases h
    unfold WriteAccount.createAccount at hcreate
    split at hcreate
    · cases hcreate
    rename_i hfree
    split at hcreate
    · cases hcreate
    split at hcreate
    · cases hcreate
    cases hcreate
    simp only [not_or, not_not] at hfree
    refine ⟨?_, .inr ⟨hfree.2.2, ?_⟩, ?_, ?_, ?_⟩
    · rw [Function.update_self]
    · rw [Function.update_self]
    · intro k
      simp only [Function.update_apply]
      split
      · rename_i hk
        rw [hk]
      · split
        · rename_i hk
          rw [hk]
        · rfl
    · intro k hk
      rw [Function.update_of_ne hk]
      by_cases hpayer : k = payer.pubkey
      · subst hpayer
        rw [Function.update_self]
        exact ⟨rfl, rfl⟩
      · rw [Function.update_of_ne hpayer]
        exact ⟨rfl, rfl⟩
    · intro k hk hpayer
      rw [Function.update_of_ne hk, Function.update_of_ne hpayer]

theorem ensureInitialised_ok {bank bank' : Bank} {payer account : AccountMeta} {size : Nat}
    (h : ensureInitialised host programId bank payer account size = .ok bank') :
    Initialised programId size payer.pubkey account.pubkey bank bank' := by
  unfold ensureInitialised at h
  split at h
  · split at h
    · cases h
    · exact createAccount_ok h
  · rename_i howner
    cases h
    exact ⟨not_not.mp howner, .inl ⟨not_not.mp howner, rfl⟩, fun _ => rfl, fun _ _ => ⟨rfl, rfl⟩, fun _ _ _ => rfl⟩

/-- What the root account has once it is initialised. -/
def rootData (programId : Pubkey) (account : Account) : List Byte :=
  if account.owner = programId then account.data else List.replicate rootSize 0#8

theorem Initialised.rootData {payer key : Pubkey} {bank bank' : Bank} (hsystem : programId ≠ systemProgram)
    (h : Initialised programId rootSize payer key bank bank') :
    (bank' key).data = WitnessedTrie.rootData programId (bank key) := by
  unfold WitnessedTrie.rootData
  rcases h.data with ⟨howner, hdata⟩ | ⟨howner, hdata⟩
  · rw [if_pos howner, hdata]
  · rw [if_neg (howner ▸ hsystem.symm), hdata]

variable (host programId digest) in
/-- What an instruction which is taken did. -/
structure Executed (clock : Clock) (data : Data) (payer root : Pubkey) (bank bank' : Bank) (ret : ReturnData) : Prop where
  rootOwner : (bank' root).owner = programId
  trie : ∃ witness bump opened trie closed, findWitnessAccount host programId root = .ok (witness, bump) ∧
    witness ≠ root ∧ openTrie (FixedData.mk (rootData programId (bank root))) = some opened ∧
    perform digest data.ops opened = .ok trie ∧ closeTrie trie = some closed ∧ (bank' root).data = closed.bytes ∧
    (bank' witness).data = (Witness.Data.new trie.rootHash clock).bytes ∧ (bank' witness).owner = programId ∧
    0 < (bank' witness).lamports ∧ (bank' witness).executable = (bank witness).executable ∧
    ret = ⟨⟨(bank' witness).lamports, (bank' witness).fits⟩, (bank' witness).rentEpoch, Witness.Data.new trie.rootHash clock⟩ ∧
    ∀ k ≠ root, k ≠ witness → k ≠ payer → bank' k = bank k

theorem nextAccountInfo_ok {accounts rest : List AccountMeta} {account : AccountMeta}
    (h : nextAccountInfo accounts = .ok (account, rest)) : accounts = account :: rest := by
  cases accounts with
  | nil => cases h
  | cons a as =>
    cases h
    rfl

theorem getPayer_ok {accounts rest : List AccountMeta} {payer : AccountMeta} (h : getPayer accounts = .ok (payer, rest)) :
    payer ∈ accounts ∧ payer.isSigner = true := by
  obtain ⟨⟨account, rest'⟩, hnext, h⟩ := bind_eq_ok.mp h
  dsimp only at h
  split at h
  · rename_i hsigner
    cases h
    rw [nextAccountInfo_ok hnext]
    exact ⟨List.mem_cons_self, hsigner⟩
  · cases h

theorem getRoot_ok {bank bank' : Bank} {payer account : AccountMeta} {accounts rest : List AccountMeta} {seed : List Byte}
    {bump : Byte} (h : getRoot host programId bank payer accounts seed bump = .ok (account, rest, bank')) :
    rootAddress host programId seed bump = .ok account.pubkey ∧
      Initialised programId rootSize payer.pubkey account.pubkey bank bank' := by
  obtain ⟨⟨account', rest'⟩, -, h⟩ := bind_eq_ok.mp h
  obtain ⟨expected, hexpected, h⟩ := bind_eq_ok.mp h
  split at h
  · cases h
  · rename_i hkey
    obtain ⟨bank₁, hinit, h⟩ := bind_eq_ok.mp h
    cases h
    rw [not_not.mp hkey]
    exact ⟨mapError_ok.mp hexpected, not_not.mp hkey ▸ ensureInitialised_ok hinit⟩

theorem getWitness_ok {bank bank' : Bank} {payer account : AccountMeta} {accounts : List AccountMeta} {root : Pubkey}
    (h : getWitness host programId bank payer accounts root = .ok (account, bank')) :
    (∃ bump, findWitnessAccount host programId root = .ok (account.pubkey, bump)) ∧
      Initialised programId Witness.Data.size payer.pubkey account.pubkey bank bank' := by
  obtain ⟨⟨account', rest'⟩, -, h⟩ := bind_eq_ok.mp h
  obtain ⟨⟨expected, bump⟩, hexpected, h⟩ := bind_eq_ok.mp h
  dsimp only at h
  split at h
  · cases h
  · rename_i hkey
    obtain ⟨bank₁, hinit, h⟩ := bind_eq_ok.mp h
    cases h
    rw [not_not.mp hkey]
    exact ⟨⟨bump, mapError_ok.mp hexpected⟩, not_not.mp hkey ▸ ensureInitialised_ok hinit⟩

theorem checkAccount_ok {account : Account} (hsystem : programId ≠ systemProgram)
    (h : checkAccount programId account = .ok ()) : account.owner = programId ∧ 0 < account.lamports := by
  unfold checkAccount at h
  split at h
  · cases h
  rename_i hlamports
  split at h
  · cases h
  rename_i howner
  rw [not_not] at howner
  refine ⟨howner, Nat.pos_of_ne_zero fun hzero => hlamports ⟨?_, hzero⟩⟩
  rw [howner]
  exact hsystem

theorem processInstruction_ok {clock : Clock} {bank bank' : Bank} {accounts : List AccountMeta} {instruction : List Byte}
    {ret : ReturnData} (hsystem : programId ≠ systemProgram)
    (h : processInstruction host programId digest clock bank accounts instruction = .ok (bank', ret)) :
    ∃ data root payer, Data.fromSlice instruction = .ok data ∧
      rootAddress host programId data.rootSeed data.rootBump = .ok root ∧
      (∃ m ∈ accounts, m.isSigner = true ∧ m.pubkey = payer) ∧
      Executed host programId digest clock data payer root bank bank' ret := by
  obtain ⟨data, hdata, h⟩ := bind_eq_ok.mp h
  obtain ⟨⟨payer, rest⟩, hpayer, h⟩ := bind_eq_ok.mp h
  obtain ⟨⟨root, rest', bank₁⟩, hroot, h⟩ := bind_eq_ok.mp h
  obtain ⟨⟨witness, bank₂⟩, hwitness, h⟩ := bind_eq_ok.mp h
  obtain ⟨hmem, hsigner⟩ := getPayer_ok hpayer
  obtain ⟨haddress, hinit₁⟩ := getRoot_ok hroot
  obtain ⟨⟨bump, hfind⟩, hinit₂⟩ := getWitness_ok hwitness
  dsimp only at h
  split at h
  · cases h
  rename_i opened hopened
  obtain ⟨_, hcheck, h⟩ := bind_eq_ok.mp h
  split at h
  · cases h
  rename_i hne
  split at h
  · cases h
  obtain ⟨trie, hperform, h⟩ := bind_eq_ok.mp h
  split at h
  · cases h
  rename_i closed hclosed
  cases h
  obtain ⟨howner, hlamports⟩ := checkAccount_ok hsystem hcheck
  obtain ⟨hkeptOwner, hkeptData⟩ := hinit₂.others root.pubkey (Ne.symm hne)
  refine ⟨data, root.pubkey, payer.pubkey, mapError_ok.mp hdata, haddress, ⟨payer, hmem, hsigner, rfl⟩, ?_,
    witness.pubkey, bump, opened, trie, closed, hfind, hne, ?_, hperform, hclosed, ?_, ?_, ?_, ?_, ?_, ?_, ?_⟩
  · rw [Function.update_self]
    exact hkeptOwner.trans hinit₁.owner
  · rw [← hinit₁.rootData hsystem, ← hkeptData]
    exact hopened
  · rw [Function.update_self]
    rfl
  · rw [Function.update_of_ne hne, Function.update_self]
    rfl
  · rw [Function.update_of_ne hne, Function.update_self]
    exact howner
  · rw [Function.update_of_ne hne, Function.update_self]
    exact hlamports
  · rw [Function.update_of_ne hne, Function.update_self]
    exact (hinit₂.executable _).trans (hinit₁.executable _)
  · simp only [Function.update_of_ne hne, Function.update_self]
  · intro k hk hk' hk''
    rw [Function.update_of_ne hk, Function.update_of_ne hk', hinit₂.rest k hk' hk'', hinit₁.rest k hk hk'']

theorem execute_ok {clock : Clock} {bank bank' : Bank} {accounts : List AccountMeta} {instruction : List Byte}
    {ret : ReturnData} (hsystem : programId ≠ systemProgram)
    (h : execute host programId digest clock bank accounts instruction = .ok (bank', ret)) :
    ∃ data root payer, Data.fromSlice instruction = .ok data ∧
      rootAddress host programId data.rootSeed data.rootBump = .ok root ∧
      (∃ m ∈ accounts, m.isSigner = true ∧ m.pubkey = payer) ∧
      Executed host programId digest clock data payer root bank bank' ret := by
  obtain ⟨⟨bank₁, ret₁⟩, hprocess, h⟩ := bind_eq_ok.mp h
  dsimp only at h
  split at h
  · cases h
  · cases h
    exact processInstruction_ok hsystem hprocess

/-- What operations make of a map. -/
def applyOps (m : Bindings) (ops : List Op) : Bindings := ops.foldl (fun m op => op.call.apply m) m

/-- Operations which store no zero value. -/
def Nonzero (ops : List Op) : Prop := ∀ op ∈ ops, StoresNonzero op.call

theorem Op.call_whole (op : Op) (key : List Byte) (v : CryptoHash) : op.call ≠ .setAndSeal key v := by
  cases op <;> nofun

/-- Operations change the account as they change the map, or one of them fails without a panic. -/
theorem perform_carries {S : Set (List Byte)} (hd : ∀ b, digest b ≠ emptyTrieRoot) {ops : List Op}
    {t : SealableTrie.Trie (SolanaTrie.Account FixedData)} {m : Bindings} (h : Carries digest S t m) (hops : Nonzero ops)
    (hS : ∀ t' ∈ visited digest ops t, ∀ b, Stored t' b → b ∈ S) :
    (∀ t', perform digest ops t = .ok t' → Carries digest S t' (applyOps m ops)) ∧
      perform digest ops t ≠ .error .panicked := by
  induction ops generalizing t m with
  | nil =>
    refine ⟨?_, nofun⟩
    rintro t' ⟨⟩
    exact h
  | cons op ops ih =>
    rw [visited, List.forall_mem_cons] at hS
    have hcall := h.call hd (hops op List.mem_cons_self) op.call_whole hS.1
    rw [perform]
    cases hmake : makeCall digest t op.call with
    | mk r t₁ =>
      rw [hmake] at hcall hS
      cases r with
      | ok found => exact ih hcall (fun op' hop' => hops op' (List.mem_cons_of_mem _ hop')) hS.2
      | error e =>
        cases e with
        | panic => exact absurd rfl hcall.1
        | err e => exact ⟨nofun, nofun⟩

/-- An instruction which was taken. -/
structure Performed where
  root : Pubkey
  ops : List Op
  clock : Clock

/-- The accounts and the instructions which made them what they are. -/
structure Ledger where
  bank : Bank
  done : List Performed

/-- The instructions for one of the tries. -/
def doneFor (done : List Performed) (root : Pubkey) : List Performed := done.filter fun d => d.root = root

/-- What the trie was made to bind. -/
def bindings (done : List Performed) (root : Pubkey) : Bindings :=
  (doneFor done root).foldl (fun m d => applyOps m d.ops) fun _ => none

def lastFor (done : List Performed) (root : Pubkey) : Option Performed := (doneFor done root).getLast?

section

variable {done : List Performed} {d : Performed} {root : Pubkey}

theorem doneFor_self : doneFor (done ++ [d]) d.root = doneFor done d.root ++ [d] := by
  simp [doneFor]

theorem doneFor_of_ne (h : root ≠ d.root) : doneFor (done ++ [d]) root = doneFor done root := by
  simp [doneFor, h.symm]

theorem bindings_self : bindings (done ++ [d]) d.root = applyOps (bindings done d.root) d.ops := by
  rw [bindings, doneFor_self, List.foldl_append]
  rfl

theorem lastFor_self : lastFor (done ++ [d]) d.root = some d := by
  rw [lastFor, doneFor_self, List.getLast?_concat]

theorem bindings_of_ne (h : root ≠ d.root) : bindings (done ++ [d]) root = bindings done root := by
  rw [bindings, doneFor_of_ne h, bindings]

theorem lastFor_of_ne (h : root ≠ d.root) : lastFor (done ++ [d]) root = lastFor done root := by
  rw [lastFor, doneFor_of_ne h, lastFor]

theorem bindings_of_unused (h : ∀ d ∈ done, d.root ≠ root) : bindings done root = fun _ => none := by
  have hnil : doneFor done root = [] := List.filter_eq_nil_iff.mpr fun d hd => by simpa using h d hd
  rw [bindings, hnil]
  rfl

end

variable (host programId) in
/-- An address for which nobody has a key. -/
def Derived (key : Pubkey) : Prop := ∃ seeds, createProgramAddress host seeds programId = .ok key

theorem Derived.root {seed : List Byte} {bump : Byte} {root : Pubkey} (h : rootAddress host programId seed bump = .ok root) :
    Derived host programId root := ⟨_, h⟩

theorem Derived.witness {root witness : Pubkey} {bump : Byte}
    (h : findWitnessAccount host programId root = .ok (witness, bump)) : Derived host programId witness :=
  ⟨_, findProgramAddress_ok h⟩

variable (host programId) in
/-- What the rest of the host cannot do: write to accounts of the program, take their lamports or their addresses. -/
structure Elsewhere (bank bank' : Bank) : Prop where
  owned : ∀ key, Derived host programId key → (bank key).owner = programId → (bank' key).owner = programId ∧
    (bank' key).data = (bank key).data ∧ (bank key).lamports ≤ (bank' key).lamports ∧
    (bank' key).executable = (bank key).executable
  unused : ∀ key, Derived host programId key → (bank key).Unused → (bank' key).Unused

variable (host programId digest) in
/-- Either an instruction is executed, with whatever accounts and bytes, or something else happens on the host. Nobody
signs for derived addresses. What is hashed for nodes is in the set. An instruction which is executed stores no zero
value: a node which ends in one would be taken for a free block. -/
inductive LedgerStep (S : Set (List Byte)) (s : Ledger) : Ledger → Prop
  | instruction (clock : Clock) (accounts : List AccountMeta) (instruction : List Byte) (data : Data) (root : Pubkey)
      (bank' : Bank) (ret : ReturnData) (hdata : Data.fromSlice instruction = .ok data)
      (hroot : rootAddress host programId data.rootSeed data.rootBump = .ok root)
      (hsigners : ∀ m ∈ accounts, m.isSigner = true → ¬ Derived host programId m.pubkey) (hnonzero : Nonzero data.ops)
      (hS : ∀ t, openTrie (FixedData.mk (rootData programId (s.bank root))) = some t →
        ∀ t' ∈ visited digest data.ops t, ∀ b, Stored t' b → b ∈ S)
      (hrun : execute host programId digest clock s.bank accounts instruction = .ok (bank', ret)) :
      LedgerStep S s ⟨bank', s.done ++ [⟨root, data.ops, clock⟩]⟩
  | refused (clock : Clock) (accounts : List AccountMeta) (instruction : List Byte) (e : InstructionError)
      (hrun : execute host programId digest clock s.bank accounts instruction = .error e) : LedgerStep S s s
  | elsewhere (bank' : Bank) (helse : Elsewhere host programId s.bank bank') : LedgerStep S s ⟨bank', s.done⟩

variable (host programId) in
/-- No two accounts of the tries have one address. -/
structure Separate (roots : Set Pubkey) : Prop where
  witnesses : ∀ r ∈ roots, ∀ r' ∈ roots, ∀ w b b', findWitnessAccount host programId r = .ok (w, b) →
    findWitnessAccount host programId r' = .ok (w, b') → r = r'
  roots : ∀ r ∈ roots, ∀ r' ∈ roots, ∀ b, findWitnessAccount host programId r ≠ .ok (r', b)

def rootsOf (done : List Performed) : Set Pubkey := { r | ∃ d ∈ done, d.root = r }

theorem Separate.mono {roots roots' : Set Pubkey} (h : Separate host programId roots') (hsub : roots ⊆ roots') :
    Separate host programId roots :=
  ⟨fun r hr r' hr' => h.witnesses r (hsub hr) r' (hsub hr'), fun r hr r' hr' => h.roots r (hsub hr) r' (hsub hr')⟩

theorem rootsOf_append (done later : List Performed) : rootsOf done ⊆ rootsOf (done ++ later) := by
  rintro r ⟨d, hd, rfl⟩
  exact ⟨d, List.mem_append_left _ hd, rfl⟩

variable (host programId digest) in
/-- The trie binds what the instructions for it made of it, and its witness account has the root and the time of the last
one of them. -/
structure TrieKept (S : Set (List Byte)) (s : Ledger) (root : Pubkey) : Prop where
  owner : (s.bank root).owner = programId
  trie : ∃ trie witness bump last, openTrie (FixedData.mk (s.bank root).data) = some trie ∧
    Carries digest S trie (bindings s.done root) ∧ findWitnessAccount host programId root = .ok (witness, bump) ∧
    (s.bank witness).owner = programId ∧ 0 < (s.bank witness).lamports ∧ (s.bank witness).executable = false ∧
    lastFor s.done root = some last ∧ (s.bank witness).data = (Witness.Data.new trie.rootHash last.clock).bytes

variable (host programId digest) in
/-- What holds of the accounts throughout. -/
structure LedgerInv (S : Set (List Byte)) (s : Ledger) : Prop where
  kept : ∀ d ∈ s.done, TrieKept host programId digest S s d.root
  unused : ∀ key, Derived host programId key → (∀ d ∈ s.done, key ≠ d.root ∧
    ∀ bump, findWitnessAccount host programId d.root ≠ .ok (key, bump)) → (s.bank key).Unused
  derived : ∀ d ∈ s.done, Derived host programId d.root

section

variable {S : Set (List Byte)} {s : Ledger} {bank' : Bank} {d : Performed}

theorem TrieKept.congr {root : Pubkey} {s' : Ledger} (h : TrieKept host programId digest S s root)
    (hroot : s'.bank root = s.bank root)
    (hwitness : ∀ witness bump, findWitnessAccount host programId root = .ok (witness, bump) →
      s'.bank witness = s.bank witness)
    (hbindings : bindings s'.done root = bindings s.done root) (hlast : lastFor s'.done root = lastFor s.done root) :
    TrieKept host programId digest S s' root := by
  obtain ⟨howner, trie, witness, bump, last, hopen, hcarries, hfind, hwowner, hlamports, hexec, hlastFor, hdata⟩ := h
  have hsame := hwitness witness bump hfind
  rw [← hroot] at howner hopen
  rw [← hbindings] at hcarries
  rw [← hlast] at hlastFor
  rw [← hsame] at hwowner hlamports hexec hdata
  exact ⟨howner, trie, witness, bump, last, hopen, hcarries, hfind, hwowner, hlamports, hexec, hlastFor, hdata⟩

/-- Whether the account is there already or not, what an instruction for the trie opens is what the trie was made. -/
theorem LedgerInv.opened (h : LedgerInv host programId digest S s) (hsystem : programId ≠ systemProgram) {root : Pubkey}
    (hderived : Derived host programId root) (hsep : Separate host programId (insert root (rootsOf s.done))) :
    ∃ t, openTrie (FixedData.mk (rootData programId (s.bank root))) = some t ∧ Carries digest S t (bindings s.done root) := by
  by_cases hdone : root ∈ rootsOf s.done
  · obtain ⟨d, hd, rfl⟩ := hdone
    obtain ⟨howner, trie, -, -, -, hopen, hcarries, -⟩ := h.kept d hd
    refine ⟨trie, ?_, hcarries⟩
    rw [rootData, if_pos howner]
    exact hopen
  · have hne : ∀ d ∈ s.done, d.root ≠ root := fun d hd heq => hdone ⟨d, hd, heq⟩
    obtain ⟨howner, -, -⟩ := h.unused root hderived fun d hd => ⟨(hne d hd).symm, fun bump =>
      hsep.roots d.root (Set.mem_insert_of_mem _ ⟨d, hd, rfl⟩) root (Set.mem_insert _ _) bump⟩
    rw [rootData, if_neg (howner ▸ hsystem.symm), bindings_of_unused hne]
    refine carries_of_zeros ?_ fun b hb => List.eq_of_mem_replicate hb
    change blockSize ≤ (List.replicate rootSize 0#8).length
    rw [List.length_replicate]
    decide

/-- The witness of a trie is not executable, whether the account is there already or not. -/
theorem LedgerInv.witness_executable (h : LedgerInv host programId digest S s) {root witness : Pubkey} {bump : Byte}
    (hsep : Separate host programId (insert root (rootsOf s.done)))
    (hfind : findWitnessAccount host programId root = .ok (witness, bump)) : (s.bank witness).executable = false := by
  by_cases hdone : root ∈ rootsOf s.done
  · obtain ⟨d, hd, rfl⟩ := hdone
    obtain ⟨-, -, witness', bump', -, -, -, hfind', -, -, hexec, -⟩ := h.kept d hd
    cases hfind.symm.trans hfind'
    exact hexec
  · refine (h.unused witness (.witness hfind) fun d hd => ⟨?_, fun bump' hfind' => ?_⟩).executable
    · rintro rfl
      exact hsep.roots root (Set.mem_insert _ _) d.root (Set.mem_insert_of_mem _ ⟨d, hd, rfl⟩) bump hfind
    · exact hdone ⟨d, hd, hsep.witnesses d.root (Set.mem_insert_of_mem _ ⟨d, hd, rfl⟩) root (Set.mem_insert _ _) witness
        bump' bump hfind' hfind⟩

/-- An instruction changes its own trie as it says and no other trie at all. -/
theorem LedgerInv.executed (h : LedgerInv host programId digest S s) (hd : ∀ b, digest b ≠ emptyTrieRoot)
    (hsystem : programId ≠ systemProgram) {clock : Clock} {data : Data} {payer root : Pubkey} {ret : ReturnData}
    (hderived : Derived host programId root) (hpayer : ¬ Derived host programId payer) (hnonzero : Nonzero data.ops)
    (hS : ∀ t, openTrie (FixedData.mk (rootData programId (s.bank root))) = some t →
      ∀ t' ∈ visited digest data.ops t, ∀ b, Stored t' b → b ∈ S)
    (hsep : Separate host programId (rootsOf (s.done ++ [⟨root, data.ops, clock⟩])))
    (hrun : Executed host programId digest clock data payer root s.bank bank' ret) :
    LedgerInv host programId digest S ⟨bank', s.done ++ [⟨root, data.ops, clock⟩]⟩ := by
  obtain ⟨hrootOwner, witness, bump, opened, trie, closed, hfind, hne, hopened, hperform, hclosed, hrootData,
    hwitnessData, hwitnessOwner, hlamports, hexec, -, hothers⟩ := hrun
  have hinsert : insert root (rootsOf s.done) ⊆ rootsOf (s.done ++ [⟨root, data.ops, clock⟩]) := by
    rintro r (rfl | hr)
    · exact ⟨_, List.mem_append_right _ List.mem_cons_self, rfl⟩
    · exact rootsOf_append _ _ hr
  have hsep' := hsep.mono hinsert
  have hunchanged : ∀ k, Derived host programId k → k ≠ root → k ≠ witness → bank' k = s.bank k := by
    intro k hk hkroot hkwitness
    refine hothers k hkroot hkwitness ?_
    rintro rfl
    exact hpayer hk
  refine ⟨?_, ?_, ?_⟩
  · intro d' hd'
    by_cases hroot : d'.root = root
    · -- The trie of the instruction.
      obtain ⟨t, ht, hcarries⟩ := h.opened hsystem hderived hsep'
      cases hopened.symm.trans ht
      have hcarries' := (perform_carries hd hcarries hnonzero (hS opened ht)).1 trie hperform
      obtain ⟨closed', hclosed', hreopen⟩ := hcarries'.close
      cases hclosed.symm.trans hclosed'
      obtain ⟨t', hopen', hhash, hcarries''⟩ := hreopen (FixedData.mk closed.bytes) [] (List.append_nil _).symm
      rw [hroot]
      refine ⟨hrootOwner, t', witness, bump, ⟨root, data.ops, clock⟩, ?_, ?_, hfind, hwitnessOwner, hlamports,
        hexec.trans (h.witness_executable hsep' hfind), ?_, ?_⟩
      · rw [hrootData]
        exact hopen'
      · rw [bindings_self]
        exact hcarries''
      · exact lastFor_self
      · rw [hwitnessData, hhash]
    · have hmem : d' ∈ s.done := by
        rcases List.mem_append.mp hd' with hmem | hmem
        · exact hmem
        · exact absurd (congrArg Performed.root (List.mem_singleton.mp hmem)) hroot
      have hin : d'.root ∈ insert root (rootsOf s.done) := Set.mem_insert_of_mem _ ⟨d', hmem, rfl⟩
      refine (h.kept d' hmem).congr (hunchanged _ (h.derived d' hmem) hroot ?_) ?_ (bindings_of_ne hroot)
        (lastFor_of_ne hroot)
      · rintro heq
        exact hsep'.roots root (Set.mem_insert _ _) d'.root hin bump (heq ▸ hfind)
      · intro w b hw
        refine hunchanged w (.witness hw) ?_ ?_
        · rintro rfl
          exact hsep'.roots d'.root hin w (Set.mem_insert _ _) b hw
        · rintro rfl
          exact hroot (hsep'.witnesses d'.root hin root (Set.mem_insert _ _) w b bump hw hfind)
  · intro key hkey hnone
    obtain ⟨hkroot, hkwitness⟩ := hnone _ (List.mem_append_right _ List.mem_cons_self)
    have hkne : key ≠ witness := by
      rintro rfl
      exact hkwitness bump hfind
    have hsame : bank' key = s.bank key := hunchanged key hkey hkroot hkne
    change (bank' key).Unused
    rw [hsame]
    exact h.unused key hkey fun d' hd' => hnone d' (List.mem_append_left _ hd')
  · intro d' hd'
    rcases List.mem_append.mp hd' with hmem | hmem
    · exact h.derived d' hmem
    · rw [List.mem_singleton.mp hmem]
      exact hderived

theorem LedgerInv.elsewhere (h : LedgerInv host programId digest S s) (helse : Elsewhere host programId s.bank bank') :
    LedgerInv host programId digest S ⟨bank', s.done⟩ := by
  refine ⟨?_, fun key hkey hnone => helse.unused key hkey (h.unused key hkey hnone), h.derived⟩
  intro d hd
  obtain ⟨howner, trie, witness, bump, last, hopen, hcarries, hfind, hwowner, hlamports, hexec, hlast, hdata⟩ :=
    h.kept d hd
  obtain ⟨howner', hdata', -⟩ := helse.owned d.root (h.derived d hd) howner
  obtain ⟨hwowner', hwdata, hmore, hwexec⟩ := helse.owned witness (.witness hfind) hwowner
  refine ⟨howner', trie, witness, bump, last, ?_, hcarries, hfind, hwowner', hlamports.trans_le hmore,
    hwexec.trans hexec, hlast, hwdata.trans hdata⟩
  change openTrie (FixedData.mk (bank' d.root).data) = some trie
  rw [hdata']
  exact hopen

theorem LedgerInv.step (h : LedgerInv host programId digest S s) (hd : ∀ b, digest b ≠ emptyTrieRoot)
    (hsystem : programId ≠ systemProgram) {s' : Ledger} (hsep : Separate host programId (rootsOf s'.done))
    (hstep : LedgerStep host programId digest S s s') : LedgerInv host programId digest S s' := by
  cases hstep with
  | instruction clock accounts instruction data root bank' ret hdata hroot hsigners hnonzero hS hrun =>
    obtain ⟨data', root', payer, hdata', hroot', ⟨m, hm, hsigner, rfl⟩, hexecuted⟩ := execute_ok hsystem hrun
    cases hdata.symm.trans hdata'
    cases hroot.symm.trans hroot'
    exact h.executed hd hsystem (.root hroot) (hsigners m hm hsigner) hnonzero hS hsep hexecuted
  | refused => exact h
  | elsewhere bank' helse => exact h.elsewhere helse

theorem LedgerStep.done_sub {s' : Ledger} (h : LedgerStep host programId digest S s s') :
    ∃ later, s'.done = s.done ++ later := by
  cases h with
  | instruction => exact ⟨_, rfl⟩
  | refused => exact ⟨[], (List.append_nil _).symm⟩
  | elsewhere => exact ⟨[], (List.append_nil _).symm⟩

/-- No account at a derived address is there to begin with. -/
theorem LedgerInv.start {bank : Bank} (hfresh : ∀ key, Derived host programId key → (bank key).Unused) :
    LedgerInv host programId digest S ⟨bank, []⟩ := by
  refine ⟨?_, fun key hkey _ => hfresh key hkey, ?_⟩
  · intro d hd
    cases hd
  · intro d hd
    cases hd

theorem LedgerInv.run (hd : ∀ b, digest b ≠ emptyTrieRoot) (hsystem : programId ≠ systemProgram) {s' : Ledger}
    (h : LedgerInv host programId digest S s) (hsep : Separate host programId (rootsOf s'.done))
    (hrun : Relation.ReflTransGen (LedgerStep host programId digest S) s s') : LedgerInv host programId digest S s' := by
  induction hrun with
  | refl => exact h
  | tail _ hstep ih =>
    obtain ⟨later, hlater⟩ := hstep.done_sub
    refine (ih (hsep.mono ?_)).step hd hsystem hsep hstep
    rw [hlater]
    exact rootsOf_append _ _

theorem ne_panicked_of_bind {α β : Type} {r : Except InstructionError α} {f : α → Except InstructionError β}
    (hr : r ≠ .error .panicked) (hf : ∀ a, r = .ok a → f a ≠ .error .panicked) : (r >>= f) ≠ .error .panicked := by
  cases r with
  | error e => exact fun heq => hr (congrArg Except.error (Except.error.inj heq))
  | ok a => exact hf a rfl

theorem ne_panicked_of_mapError {ε α : Type} {r : Except ε α} {f : ε → InstructionError}
    (h : ∀ e, r = .error e → f e ≠ .panicked) : r.mapError f ≠ .error .panicked := by
  cases r with
  | error e => exact fun heq => h e rfl (Except.error.inj heq)
  | ok a => nofun

theorem nextAccountInfo_ne_panicked (accounts : List AccountMeta) : nextAccountInfo accounts ≠ .error .panicked := by
  cases accounts <;> nofun

theorem getPayer_ne_panicked (accounts : List AccountMeta) : getPayer accounts ≠ .error .panicked := by
  refine ne_panicked_of_bind (nextAccountInfo_ne_panicked _) fun a _ => ?_
  dsimp only
  split <;> nofun

theorem ensureInitialised_ne_panicked (bank : Bank) (payer account : AccountMeta) (size : Nat) :
    ensureInitialised host programId bank payer account size ≠ .error .panicked := by
  unfold ensureInitialised createAccount
  split
  · split
    · nofun
    · split
      · nofun
      · split
        · nofun
        · split <;> nofun
  · nofun

theorem getRoot_ne_panicked (bank : Bank) (payer : AccountMeta) (accounts : List AccountMeta) (seed : List Byte)
    (bump : Byte) : getRoot host programId bank payer accounts seed bump ≠ .error .panicked := by
  refine ne_panicked_of_bind (nextAccountInfo_ne_panicked _) fun a _ => ?_
  refine ne_panicked_of_bind (ne_panicked_of_mapError fun e _ => nofun) fun expected _ => ?_
  split
  · nofun
  · exact ne_panicked_of_bind (ensureInitialised_ne_panicked _ _ _ _) fun _ _ => nofun

theorem getWitness_ne_panicked (bank : Bank) (payer : AccountMeta) (accounts : List AccountMeta) {root witness : Pubkey}
    {bump : Byte} (hfind : findWitnessAccount host programId root = .ok (witness, bump)) :
    getWitness host programId bank payer accounts root ≠ .error .panicked := by
  refine ne_panicked_of_bind (nextAccountInfo_ne_panicked _) fun a _ => ?_
  refine ne_panicked_of_bind (by rw [hfind]; nofun) fun expected _ => ?_
  dsimp only
  split
  · nofun
  · exact ne_panicked_of_bind (ensureInitialised_ne_panicked _ _ _ _) fun _ _ => nofun

theorem checkAccount_ne_panicked (account : Account) : checkAccount programId account ≠ .error .panicked := by
  unfold checkAccount
  split
  · nofun
  · split <;> nofun

/-- Whoever calls with whatever accounts, operations on what the tries were made do not panic. -/
theorem LedgerInv.execute_ne_panicked (h : LedgerInv host programId digest S s) (hd : ∀ b, digest b ≠ emptyTrieRoot)
    (hsystem : programId ≠ systemProgram) {clock : Clock} {accounts : List AccountMeta} {instruction : List Byte}
    {data : Data} {root witness : Pubkey} {bump : Byte} (hdata : Data.fromSlice instruction = .ok data)
    (hroot : rootAddress host programId data.rootSeed data.rootBump = .ok root)
    (hfind : findWitnessAccount host programId root = .ok (witness, bump)) (hnonzero : Nonzero data.ops)
    (hS : ∀ t, openTrie (FixedData.mk (rootData programId (s.bank root))) = some t →
      ∀ t' ∈ visited digest data.ops t, ∀ b, Stored t' b → b ∈ S)
    (hsep : Separate host programId (insert root (rootsOf s.done))) :
    execute host programId digest clock s.bank accounts instruction ≠ .error .panicked := by
  refine ne_panicked_of_bind ?_ fun result _ => ?_
  swap
  · dsimp only
    split <;> nofun
  refine ne_panicked_of_bind (by rw [hdata]; nofun) fun data' hdata' => ?_
  cases hdata.symm.trans (mapError_ok.mp hdata')
  refine ne_panicked_of_bind (getPayer_ne_panicked _) fun ⟨payer, rest⟩ _ => ?_
  refine ne_panicked_of_bind (getRoot_ne_panicked _ _ _ _ _) fun ⟨account, rest', bank₁⟩ hgetRoot => ?_
  obtain ⟨haddress, hinit₁⟩ := getRoot_ok hgetRoot
  have hkey : account.pubkey = root := Except.ok.inj (haddress.symm.trans hroot)
  rw [← hkey] at hfind hroot hsep hS
  refine ne_panicked_of_bind (getWitness_ne_panicked _ _ _ hfind) fun ⟨witness', bank₂⟩ hgetWitness => ?_
  obtain ⟨-, hinit₂⟩ := getWitness_ok hgetWitness
  dsimp only
  split
  · nofun
  rename_i opened hopened
  refine ne_panicked_of_bind (checkAccount_ne_panicked _) fun _ _ => ?_
  split
  · nofun
  rename_i hne
  split
  · nofun
  obtain ⟨-, hkeptData⟩ := hinit₂.others account.pubkey (Ne.symm hne)
  have hopen : openTrie (FixedData.mk (rootData programId (s.bank account.pubkey))) = some opened := by
    rw [← hinit₁.rootData hsystem, ← hkeptData]
    exact hopened
  obtain ⟨t, ht, hcarries⟩ := h.opened hsystem (.root hroot) hsep
  cases hopen.symm.trans ht
  obtain ⟨hperformed, hfine⟩ := perform_carries hd hcarries hnonzero (hS opened hopen)
  refine ne_panicked_of_bind hfine fun trie htrie => ?_
  obtain ⟨closed, hclosed, -⟩ := (hperformed trie htrie).close
  rw [hclosed]
  nofun

/-- What the program returns is enough to tell the hash of the witness account. -/
theorem LedgerInv.hashAccount_eq (h : LedgerInv host programId digest S s) (B : CfSolana.Blake3) {clock : Clock}
    {data : Data} {payer root witness : Pubkey} {bump : Byte} {ret : ReturnData}
    (hsep : Separate host programId (insert root (rootsOf s.done)))
    (hfind : findWitnessAccount host programId root = .ok (witness, bump))
    (hrun : Executed host programId digest clock data payer root s.bank bank' ret) :
    ret.hashAccount B witness programId = (bank' witness).hash B witness := by
  obtain ⟨_, witness', bump', _, _, _, hfind', _, _, _, _, _, hdata, howner, _, hexec, rfl, _⟩ := hrun
  cases hfind.symm.trans hfind'
  rw [h.witness_executable hsep hfind] at hexec
  simp only [ReturnData.hashAccount, Account.hash, ReturnData.executable, hdata, howner, hexec]

/-- Over every run, each of the tries is what the instructions for it made of it and nothing but them, its witness
account has its root with the time of the last one, and no instruction which stores no zero value panics. -/
theorem program_keeps_tries (B : CfSolana.Blake3) (hd : ∀ b, digest b ≠ emptyTrieRoot) (hsystem : programId ≠ systemProgram)
    {bank : Bank} (hfresh : ∀ key, Derived host programId key → (bank key).Unused)
    (hrun : Relation.ReflTransGen (LedgerStep host programId digest S) ⟨bank, []⟩ s)
    (hsep : Separate host programId (rootsOf s.done)) :
    (∀ d ∈ s.done, TrieKept host programId digest S s d.root) ∧
    ∀ (clock : Clock) (accounts : List AccountMeta) (instruction : List Byte) (data : Data) (root witness : Pubkey)
      (bump : Byte), Data.fromSlice instruction = .ok data →
      rootAddress host programId data.rootSeed data.rootBump = .ok root →
      findWitnessAccount host programId root = .ok (witness, bump) → Nonzero data.ops →
      (∀ t, openTrie (FixedData.mk (rootData programId (s.bank root))) = some t →
        ∀ t' ∈ visited digest data.ops t, ∀ b, Stored t' b → b ∈ S) →
      Separate host programId (insert root (rootsOf s.done)) →
      execute host programId digest clock s.bank accounts instruction ≠ .error .panicked ∧
      ∀ bank' ret, execute host programId digest clock s.bank accounts instruction = .ok (bank', ret) →
        ret.hashAccount B witness programId = (bank' witness).hash B witness := by
  have hinv := (LedgerInv.start (S := S) hfresh).run hd hsystem hsep hrun
  refine ⟨hinv.kept, fun clock accounts instruction data root witness bump hdata hroot hfind hnonzero hS hsep' => ?_⟩
  refine ⟨hinv.execute_ne_panicked hd hsystem hdata hroot hfind hnonzero hS hsep', fun bank' ret hexecute => ?_⟩
  obtain ⟨data', root', payer, hdata', hroot', -, hexecuted⟩ := execute_ok hsystem hexecute
  cases hdata.symm.trans hdata'
  cases hroot.symm.trans hroot'
  exact hinv.hashAccount_eq B hsep' hfind hexecuted

end

end

namespace ProgramSample

theorem size_replicate (b : Byte) : (List.replicate 32 b).length = 32 := rfl

def program : Pubkey := ⟨List.replicate 32 9#8, size_replicate _⟩

def payer : Pubkey := ⟨List.replicate 32 2#8, size_replicate _⟩

def rootAccount : Pubkey := ⟨[255, 85, 253, 38, 13, 164, 188, 87, 76, 96, 199, 29, 11, 143, 94, 95, 203, 182, 84, 72, 214,
  226, 215, 96, 142, 156, 229, 57, 183, 129, 63, 201], rfl⟩

def witnessAccount : Pubkey := ⟨[104, 9, 216, 121, 136, 92, 78, 71, 204, 237, 190, 64, 79, 5, 137, 161, 87, 181, 101, 88,
  228, 187, 187, 192, 187, 49, 19, 197, 30, 1, 148, 217], rfl⟩

theorem minimumBalance_pos (n : Nat) : 0 < 890880 + 6960 * n := by omega

theorem length_fresh (a b : Nat) : (List.replicate (b - a) 0#8).length = b - a := List.length_replicate

/-- A host which knows the addresses for one seed. -/
def host : Host where
  derive bytes :=
    if bytes = rootSeed ++ ascii "a" ++ [254#8] ++ program.val then some rootAccount
    else if bytes = witnessSeed ++ rootAccount.val ++ [255#8] ++ program.val then some witnessAccount
    else none
  minimumBalance n := 890880 + 6960 * n
  permitted _ _ := true
  fresh a b := List.replicate (b - a) 0#8
  minimumBalance_pos := minimumBalance_pos
  length_fresh := length_fresh

theorem derived_cases {key : Pubkey} (h : Derived host program key) : key = rootAccount ∨ key = witnessAccount := by
  obtain ⟨seeds, hseeds⟩ := h
  obtain ⟨-, -, hderive⟩ := createProgramAddress_eq_ok.mp hseeds
  unfold host at hderive
  dsimp only at hderive
  split at hderive
  · exact .inl (Option.some.inj hderive).symm
  · split at hderive
    · exact .inr (Option.some.inj hderive).symm
    · cases hderive

theorem payer_fits : 10 ^ 9 < 2 ^ 64 := by decide

def bank (key : Pubkey) : Account :=
  if key = payer then ⟨⟨10 ^ 9, systemProgram, []⟩, false, 0, payer_fits⟩
  else ⟨⟨0, systemProgram, []⟩, false, 0, Nat.two_pow_pos 64⟩

def accounts : List AccountMeta :=
  [⟨payer, true, true⟩, ⟨rootAccount, false, true⟩, ⟨witnessAccount, false, true⟩, ⟨systemProgram, false, false⟩]

def clock : Clock := ⟨7, 1000⟩

theorem bank_fresh (key : Pubkey) (h : Derived host program key) : (bank key).Unused := by
  have hne : key ≠ payer := by
    rcases derived_cases h with rfl | rfl
    · decide
    · decide
  unfold bank
  rw [if_neg hne]
  exact ⟨rfl, rfl, rfl⟩

theorem separate {roots : Set Pubkey} (hone : ∀ r ∈ roots, r = rootAccount) : Separate host program roots := by
  refine ⟨fun r hr r' hr' _ _ _ _ _ => (hone r hr).trans (hone r' hr').symm, fun r hr r' hr' b h => ?_⟩
  rw [hone r hr, hone r' hr'] at h
  have hwitness : findWitnessAccount host program rootAccount = .ok (witnessAccount, 255#8) := by decide
  rw [hwitness, Except.ok.injEq, Prod.mk.injEq] at h
  exact absurd h.1 (by decide)

theorem rootsOf_one {ops : List Op} {clock : Clock} : ∀ r ∈ rootsOf [⟨rootAccount, ops, clock⟩], r = rootAccount := by
  rintro r ⟨d, hd, rfl⟩
  rw [List.mem_singleton.mp hd]

theorem signers {m : AccountMeta} (hm : m ∈ accounts) (hsigner : m.isSigner = true) : ¬ Derived host program m.pubkey := by
  intro hderived
  simp only [accounts, List.mem_cons, List.not_mem_nil, or_false] at hm
  rcases hm with rfl | rfl | rfl | rfl
  · rcases derived_cases hderived with h | h
    · exact absurd h (by decide)
    · exact absurd h (by decide)
  · cases hsigner
  · cases hsigner
  · cases hsigner

/-- An instruction for the trie of the seed, if it is taken. -/
theorem ledger_step {digest : List Byte → CryptoHash} {S : Set (List Byte)} {instruction : List Byte} {ops : List Op}
    (hdata : Data.fromSlice instruction = .ok ⟨[97#8], 254#8, ops⟩) (hnonzero : Nonzero ops)
    (hS : ∀ t, openTrie (FixedData.mk (rootData program (bank rootAccount))) = some t →
      ∀ t' ∈ visited digest ops t, ∀ b, Stored t' b → b ∈ S)
    (hsome : (execute host program digest clock bank accounts instruction).toOption.isSome = true) :
    LedgerStep host program digest S ⟨bank, []⟩
      ⟨((execute host program digest clock bank accounts instruction).toOption.map Prod.fst).getD bank,
        [⟨rootAccount, ops, clock⟩]⟩ := by
  have hroot : rootAddress host program [97#8] 254#8 = .ok rootAccount := by decide
  cases hrun : execute host program digest clock bank accounts instruction with
  | error e =>
    rw [hrun] at hsome
    cases hsome
  | ok result =>
    exact LedgerStep.instruction (s := ⟨bank, []⟩) clock accounts instruction _ rootAccount result.1 result.2 hdata hroot
      (fun _ => signers) hnonzero hS hrun

end ProgramSample

end WitnessedTrie
