import ConsensusClient.Lib.Outcome
import ConsensusClient.Lib.FiniteMap
import ConsensusClient.Lib.OrderedMap
import ConsensusClient.Lib.VoteSet
import ConsensusClient.Lib.Ghost
import ConsensusClient.Lib.LatestMessage
import ConsensusClient.Lib.Pieces
import ConsensusClient.Lib.Parties
import ConsensusClient.Containers.Slot
import ConsensusClient.Containers.Justifiable
import ConsensusClient.Containers.Basic
import ConsensusClient.Containers.Attestation
import ConsensusClient.Containers.State
import ConsensusClient.Containers.Window
import ConsensusClient.Containers.VoteLoop
import ConsensusClient.Containers.Ledger
import ConsensusClient.Containers.Flatten
import ConsensusClient.Containers.Chain
import ConsensusClient.Containers.Justifications
import ConsensusClient.Lib.Tabulate
import ConsensusClient.Containers.Instance
import ConsensusClient.Containers.Finality
import ConsensusClient.Containers.History
import ConsensusClient.Containers.JustifiedSet
import ConsensusClient.Containers.LatestJustified
import ConsensusClient.Containers.Panic
import ConsensusClient.Containers.Tally
import ConsensusClient.Containers.Pending
import ConsensusClient.Containers.Accountability
import ConsensusClient.Containers.Links
import ConsensusClient.Containers.Signatures
import ConsensusClient.Containers.Verification
import ConsensusClient.Containers.Aggregation
import ConsensusClient.Containers.BuildBlock
import ConsensusClient.Containers.Proofs
import ConsensusClient.Containers.Cover
import ConsensusClient.Containers.FixedPoint
import ConsensusClient.Containers.Collection
import ConsensusClient.Containers.Acceptance
import ConsensusClient.Containers.Backing
import ConsensusClient.Containers.Liveness
import ConsensusClient.ForkChoice.Store
import ConsensusClient.ForkChoice.Handlers
import ConsensusClient.ForkChoice.Head
import ConsensusClient.ForkChoice.SafeTarget
import ConsensusClient.ForkChoice.Run
import ConsensusClient.ForkChoice.Votes
import ConsensusClient.ForkChoice.Flush
import ConsensusClient.ForkChoice.FailedBlocks
import ConsensusClient.ForkChoice.Tree
import ConsensusClient.ForkChoice.Sound
import ConsensusClient.ForkChoice.GossipOrder
import ConsensusClient.ForkChoice.Waiting
import ConsensusClient.ForkChoice.Checkpoints
import ConsensusClient.ForkChoice.Majority
import ConsensusClient.ForkChoice.Arrival
import ConsensusClient.ForkChoice.Redelivery
import ConsensusClient.ForkChoice.Target
import ConsensusClient.ForkChoice.Rules
import ConsensusClient.ForkChoice.OwnVotes
import ConsensusClient.ForkChoice.Production
import ConsensusClient.ForkChoice.Authenticity
import ConsensusClient.ForkChoice.ProofCache
import ConsensusClient.Validator.Service
import ConsensusClient.Validator.OwnBlocks
import ConsensusClient.Validator.OwnSignatures
import ConsensusClient.Node.ChainTask
import ConsensusClient.Node.Agreement
import ConsensusClient.Node.Propagation
import ConsensusClient.Node.Messages
import ConsensusClient.Node.Network
import ConsensusClient.Node.Convergence
import ConsensusClient.Node.VoteOrder
import ConsensusClient.Node.OwnCheckpoints
import ConsensusClient.Node.Client
import ConsensusClient.Node.ImportedBlocks
import ConsensusClient.Node.OneTimeKeys
import ConsensusClient.Networking.ReqResp
import ConsensusClient.Networking.Topic
import ConsensusClient.Networking.Service
import ConsensusClient.Networking.Requests
import ConsensusClient.Networking.Gossip
import ConsensusClient.Networking.Peers
