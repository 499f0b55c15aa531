import EmulatedLightClient.ExtKeys
import EmulatedLightClient.NodeCodec
import EmulatedLightClient.CompactIds
import EmulatedLightClient.OwnedBits
import EmulatedLightClient.OwnedEdits
import EmulatedLightClient.FailingState
import EmulatedLightClient.HeapOwnership
import EmulatedLightClient.WriteLogSpec
import EmulatedLightClient.Nodes
import EmulatedLightClient.TrieSet
import EmulatedLightClient.TrieDel
import EmulatedLightClient.TrieSeal
import EmulatedLightClient.TrieProof
import EmulatedLightClient.Trie
import EmulatedLightClient.Subtrie
import EmulatedLightClient.SubtrieRefines
import EmulatedLightClient.SubtrieExact
import EmulatedLightClient.Represent
import EmulatedLightClient.SetRefines
import EmulatedLightClient.DelRefines
import EmulatedLightClient.SealRefines
import EmulatedLightClient.ProofClimb
import EmulatedLightClient.GetRefines
import EmulatedLightClient.TrieRefinement
import EmulatedLightClient.TestAllocator
import EmulatedLightClient.ProofCompleteness
import EmulatedLightClient.PrefixFree
import EmulatedLightClient.HeapShape
import EmulatedLightClient.Canonical
import EmulatedLightClient.Sealing
import EmulatedLightClient.ProofSoundness
import EmulatedLightClient.ProofBinding
import EmulatedLightClient.GuestChainInvariant
import EmulatedLightClient.ClientStore
import EmulatedLightClient.BTreeMap
import EmulatedLightClient.TestContext
import EmulatedLightClient.Weights
import EmulatedLightClient.HeaderVerification
import EmulatedLightClient.GuestMessages
import EmulatedLightClient.ClientRun
import EmulatedLightClient.ClientFollows
import EmulatedLightClient.PreviousEpoch
import EmulatedLightClient.PendingBlocks
import EmulatedLightClient.CandidatesSpec
import EmulatedLightClient.CandidatesRun
import EmulatedLightClient.CandidatesLimits
import EmulatedLightClient.CandidatesRefusals
import EmulatedLightClient.StakeChanges
import EmulatedLightClient.EpochSelection
import EmulatedLightClient.DecimalConversion
import EmulatedLightClient.WrappedTokens
import EmulatedLightClient.EscrowIsolation
import EmulatedLightClient.ErrorAcks
import EmulatedLightClient.TransferFees
import EmulatedLightClient.ConsensusStates
import EmulatedLightClient.Clients
import EmulatedLightClient.TopElements
import EmulatedLightClient.TopStates
import EmulatedLightClient.ClientIsolation
import EmulatedLightClient.Neighbourhoods
import EmulatedLightClient.HostStore
import EmulatedLightClient.PathInfo
import EmulatedLightClient.SlotBatching
import EmulatedLightClient.Readers
import EmulatedLightClient.ProofCodec
import EmulatedLightClient.HashTrees
import EmulatedLightClient.HeaderCodec
import EmulatedLightClient.EpochCodec
import EmulatedLightClient.IbcProofs
import EmulatedLightClient.IbcSoundness
import EmulatedLightClient.IbcCompleteness
import EmulatedLightClient.MerkleProof
import EmulatedLightClient.MerkleCodec
import EmulatedLightClient.MerkleRoots
import EmulatedLightClient.SolanaHeader
import EmulatedLightClient.AccountHashes
import EmulatedLightClient.WitnessData
import EmulatedLightClient.WitnessedProgram
import EmulatedLightClient.WitnessedRun
import EmulatedLightClient.ObservedRollup
import EmulatedLightClient.SolanaMessages
import EmulatedLightClient.SolanaClient
import EmulatedLightClient.SolanaMisbehaviour
import EmulatedLightClient.AccountAllocator
import EmulatedLightClient.AccountData
import EmulatedLightClient.AccountHeap
import EmulatedLightClient.HeldAccounts
import EmulatedLightClient.TrieFollows
import EmulatedLightClient.AccountPanics
import EmulatedLightClient.AggregatedSignatures
import EmulatedLightClient.PartialMaps
import EmulatedLightClient.RestakingAccounts
import EmulatedLightClient.RestakingOwners
import EmulatedLightClient.ProofDecoding
import EmulatedLightClient.WriteLogRuns
import EmulatedLightClient.TrieOperations
import EmulatedLightClient.Ed25519Program
import EmulatedLightClient.Ed25519RoundTrip
import EmulatedLightClient.BumpAllocator
import EmulatedLightClient.BridgeMemo
import EmulatedLightClient.WriteReconstruction
import EmulatedLightClient.MessageOrder
import EmulatedLightClient.BlockCodec
import EmulatedLightClient.InPlaceEdits
import EmulatedLightClient.PrefixSplitting
import EmulatedLightClient.ChunkIteration
import EmulatedLightClient.HonestChain
import EmulatedLightClient.GuestHandlers
import EmulatedLightClient.RelayedChain
import EmulatedLightClient.ProvenState
import EmulatedLightClient.AccountTries
import EmulatedLightClient.RollupClient
import EmulatedLightClient.RollupStore
import EmulatedLightClient.BankHashes
import EmulatedLightClient.FollowedRollup
import EmulatedLightClient.RollupProofs
