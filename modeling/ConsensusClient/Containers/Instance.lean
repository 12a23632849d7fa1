import Mathlib.Tactic.DeriveEncodable
import Mathlib.Data.Finset.Lattice.Fold
import Mathlib.Data.Nat.Pairing
import Mathlib.Logic.Equiv.List
import Mathlib.Order.Lattice.Nat
import ConsensusClient.Lib.Tabulate
import ConsensusClient.Containers.Basic

/-!
# A Concrete Environment

An instance of the third-party primitives that can be evaluated: hashes are tabulated on the
containers that occur in a run, and the signature of a message at an epoch is the key paired
with both. The hashes are ideal whatever the tables are.
-/

namespace ConsensusClient

deriving instance Encodable for Checkpoint
deriving instance Encodable for AttestationData
deriving instance Encodable for AggregatedAttestation
deriving instance Encodable for BlockBody
deriving instance Encodable for BlockHeader
deriving instance Encodable for Validator
deriving instance Encodable for Config
deriving instance Encodable for State

/-- The containers whose hashes a run looks at. -/
structure HashTables where
  headers : List BlockHeader
  bodies : List BlockBody
  datas : List AttestationData
  states : List State

/-- The signature of a message at an epoch under the key `k`. -/
def toySignature (k : ℕ) (epoch : ℕ) (message : H256) : Signature :=
  Nat.pair k (Nat.pair epoch message)

/-- The environment with tabulated hashes. Public and secret keys are the same numbers, and an
    aggregated proof is the paired signatures. -/
def Env.tabulated (t : HashTables) : Env where
  hashHeader := tabulate t.headers
  hashBody := tabulate t.bodies
  hashData := tabulate t.datas
  hashState := tabulate t.states
  decodesPublicKey _ := true
  decodesSignature _ := true
  decodesProof _ := true
  xmssVerify key epoch message signature := signature == toySignature key epoch message
  xmssSign key message epoch := some (toySignature key epoch message)
  xmssAggregate _ signatures _ _ := some (signatures.foldr Nat.pair 0)
  xmssVerifyAggregated keys message proof epoch :=
    proof == (keys.map fun k => toySignature k epoch message).foldr Nat.pair 0

theorem Env.tabulated_hashIdeal (t : HashTables) : (Env.tabulated t).HashIdeal where
  header_injective := tabulate_injective t.headers
  body_injective := tabulate_injective t.bodies
  data_injective := tabulate_injective t.datas
  state_injective := tabulate_injective t.states
  header_ne_zero := tabulate_ne_zero t.headers
  state_ne_zero := tabulate_ne_zero t.states

/-! ## Sample orders -/

/-- Sets are iterated in increasing order. -/
def SetOrder.increasing : SetOrder := fun s =>
  ⟨(List.range (s.sup id + 1)).filter fun v => v ∈ s, List.nodup_range.filter _, by
    ext v
    simp only [List.mem_toFinset, List.mem_filter, List.mem_range, decide_eq_true_eq,
      and_iff_right_iff_imp, Nat.lt_succ_iff]
    exact fun hv => Finset.le_sup (f := id) hv⟩

/-- Votes are iterated from the last one that was inserted, and sets in increasing order. -/
def IterationOrders.lastFirst : IterationOrders where
  votes l := ⟨l, List.Perm.refl l⟩
  unproved _ := SetOrder.increasing

/-! ## Sample containers -/

namespace Sample

/-- A vote of the validators with a set bit, made in the slot of its target. -/
def vote (bits : List Bool) (source target : Checkpoint) : AggregatedAttestation where
  aggregationBits := bits
  data := { slot := target.slot, head := target, target, source }

/-- The header of the block at `slot` for `n` validators. -/
def header (n slot parentRoot stateRoot bodyRoot : ℕ) : BlockHeader where
  slot := slot
  proposerIndex := slot % n
  parentRoot := parentRoot
  stateRoot := stateRoot
  bodyRoot := bodyRoot

/-- A state with the given header and justification data. -/
def state (validators : List Validator) (header : BlockHeader) (justified finalized : Checkpoint)
    (hashes : List H256) (bits : List Bool) : State where
  config := { genesisTime := 0 }
  slot := header.slot
  latestBlockHeader := header
  latestJustified := justified
  latestFinalized := finalized
  historicalBlockHashes := hashes
  justifiedSlots := bits
  validators := validators
  justificationsRoots := []
  justificationsValidators := []

/-- The signed block at `slot` for `n` validators. -/
def block (n slot parentRoot stateRoot : ℕ) (attestations : List AggregatedAttestation) :
    SignedBlockWithAttestation where
  message := {
    block := { slot, proposerIndex := slot % n, parentRoot, stateRoot, body := { attestations } }
    proposerAttestation :=
      { validatorId := slot % n, data := ⟨slot, ⟨0, 0⟩, ⟨0, 0⟩, ⟨0, 0⟩⟩ } }
  signature := { attestationSignatures := [], proposerSignature := 0 }

end Sample

end ConsensusClient
