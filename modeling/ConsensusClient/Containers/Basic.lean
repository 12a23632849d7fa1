import Mathlib.Data.Finset.Dedup
import Mathlib.Data.List.AList
import Mathlib.Data.Nat.Notation
import ConsensusClient.Lib.Outcome
import ConsensusClient.Lib.Pieces

/-!
# Containers

The data types of `containers/src`: checkpoints, attestations, blocks and the state, with the
third-party primitives they rest on (`hash_tree_root` of the `ssz` crate and the `xmss`
signature scheme) collected in `Env`.

A hash is a natural number, with `0` for `H256::zero()`: 256-bit words cannot carry an
injective hash of unbounded data, and nothing in the client looks inside a hash except for
its order. Keys, signatures and proofs are byte strings that the client only passes on; they
are represented by the number they spell. An SSZ list is a list, and a `BitList` is a list of
booleans.
-/

namespace ConsensusClient

/-- `H256` -/
abbrev H256 := ℕ

/-- Bytes of an XMSS public key. -/
abbrev PublicKey := ℕ

/-- Bytes of an XMSS secret key. -/
abbrev SecretKey := ℕ

/-- Bytes of an XMSS signature; `Signature::default()` is the zero string. -/
abbrev Signature := ℕ

/-- Bytes of a `lean-multisig` proof. -/
abbrev AggregatedSignature := ℕ

/-- `HashMap<K, V>`; where the order of an iteration matters it is a parameter of its own. -/
abbrev HashMap (K V : Type) := AList (fun _ : K => V)

/-! ## Printed forms of a hash -/

/-- `H256::as_bytes` -/
def H256.asBytes (root : H256) : List UInt8 := bigEndian 32 root

/-- `{byte:02x}` -/
def hexByte (byte : UInt8) : String :=
  String.ofList [Nat.digitChar (byte.toNat / 16), Nat.digitChar (byte.toNat % 16)]

/-- `{root:?}`: all the bytes. -/
def H256.debug (root : H256) : String := "0x" ++ String.join (root.asBytes.map hexByte)

/-- `{root}`: the first two bytes and the last two. -/
def H256.display (root : H256) : String :=
  "0x" ++ String.join ((root.asBytes.take 2).map hexByte) ++ "…" ++
    String.join ((root.asBytes.drop 30).map hexByte)

example : H256.debug 48879 =
    "0x000000000000000000000000000000000000000000000000000000000000beef" := by
  decide +kernel

example : H256.display 48879 = "0x0000…beef" := by decide +kernel

/-! ## Limits -/

/-- `ValidatorRegistryLimit` -/
def validatorRegistryLimit : ℕ := 4096

/-- `HistoricalRootsLimit` -/
def historicalRootsLimit : ℕ := 262144

/-! ## Attestations -/

/-- A block root with its slot. -/
@[ext] structure Checkpoint where
  root : H256
  slot : ℕ
  deriving DecidableEq

/-- Attestation content describing the validator's observed chain view. -/
structure AttestationData where
  slot : ℕ
  head : Checkpoint
  target : Checkpoint
  source : Checkpoint
  deriving DecidableEq

/-- Validator specific attestation wrapping shared attestation data. -/
structure Attestation where
  validatorId : ℕ
  data : AttestationData
  deriving DecidableEq

/-- Validator attestation bundled with its signature. -/
structure SignedAttestation where
  validatorId : ℕ
  message : AttestationData
  signature : Signature
  deriving DecidableEq

/-- Bitlist representing validator participation in an attestation. -/
abbrev AggregationBits := List Bool

/-- Aggregated attestation consisting of participation bits and message. -/
structure AggregatedAttestation where
  aggregationBits : AggregationBits
  data : AttestationData
  deriving DecidableEq

/-- Aggregated signature proof with participant tracking. -/
structure AggregatedSignatureProof where
  participants : AggregationBits
  proofData : AggregatedSignature
  deriving DecidableEq

/-- Key for looking up individual validator signatures. -/
structure SignatureKey where
  validatorId : ℕ
  dataRoot : H256
  deriving DecidableEq

/-! ## Blocks -/

/-- The body of a block. -/
structure BlockBody where
  attestations : List AggregatedAttestation
  deriving DecidableEq

/-- Header of a block. -/
structure BlockHeader where
  slot : ℕ
  proposerIndex : ℕ
  parentRoot : H256
  stateRoot : H256
  bodyRoot : H256
  deriving DecidableEq

/-- A block. -/
structure Block where
  slot : ℕ
  proposerIndex : ℕ
  parentRoot : H256
  stateRoot : H256
  body : BlockBody
  deriving DecidableEq

/-- Bundle containing a block and the proposer's attestation. -/
structure BlockWithAttestation where
  block : Block
  proposerAttestation : Attestation
  deriving DecidableEq

/-- The signatures of a block: one proof for each attestation, and the proposer's signature. -/
structure BlockSignatures where
  attestationSignatures : List AggregatedSignatureProof
  proposerSignature : Signature
  deriving DecidableEq

/-- Envelope carrying a block, an attestation from proposer, and aggregated signatures. -/
structure SignedBlockWithAttestation where
  message : BlockWithAttestation
  signature : BlockSignatures
  deriving DecidableEq

/-- The block inside the envelope. -/
abbrev SignedBlockWithAttestation.block (sb : SignedBlockWithAttestation) : Block :=
  sb.message.block

/-! ## State -/

/-- Entry of the validator registry. -/
structure Validator where
  pubkey : PublicKey
  index : ℕ
  deriving DecidableEq

/-- Chain configuration. -/
structure Config where
  genesisTime : ℕ
  deriving DecidableEq

/-- Justification bits of the slots right after the finalized slot. -/
abbrev JustifiedSlots := List Bool

/-- The consensus state. -/
structure State where
  config : Config
  slot : ℕ
  latestBlockHeader : BlockHeader
  latestJustified : Checkpoint
  latestFinalized : Checkpoint
  historicalBlockHashes : List H256
  justifiedSlots : JustifiedSlots
  validators : List Validator
  justificationsRoots : List H256
  justificationsValidators : List Bool
  deriving DecidableEq

/-! ## Orders of iteration -/

/-- The order in which a `HashSet<u64>` with a given content is iterated. -/
abbrev SetOrder := (s : Finset ℕ) → { l : List ℕ // l.Nodup ∧ l.toFinset = s }

/-- The orders in which the hash tables are iterated while a block is produced. They differ from
    call to call and from node to node, so every call is given its own. -/
structure IterationOrders where
  /-- The map of the known votes. -/
  votes : (l : List Attestation) → { l' : List Attestation // l'.Perm l }
  /-- For each group of votes, the set of the validators whose votes are still to be proved. -/
  unproved : AttestationData → SetOrder

/-! ## Third-party primitives -/

/-- The operations of third-party crates the client builds on. -/
structure Env where
  /-- `hash_tree_root` of a block header. -/
  hashHeader : BlockHeader → H256
  /-- `hash_tree_root` of a block body. -/
  hashBody : BlockBody → H256
  /-- `hash_tree_root` of attestation data. -/
  hashData : AttestationData → H256
  /-- `hash_tree_root` of a state. -/
  hashState : State → H256
  /-- The bytes decode to a `leansig` public key. -/
  decodesPublicKey : PublicKey → Bool
  /-- The bytes decode to a `leansig` signature. -/
  decodesSignature : Signature → Bool
  /-- The bytes decode to a `lean-multisig` proof. -/
  decodesProof : AggregatedSignature → Bool
  /-- `SignatureScheme::verify` on decoded values (key, epoch, message, signature). -/
  xmssVerify : PublicKey → ℕ → H256 → Signature → Bool
  /-- `SignatureScheme::sign` (key, message, epoch). -/
  xmssSign : SecretKey → H256 → ℕ → Option Signature
  /-- `xmss_aggregate_signatures` (keys, signatures, message, epoch). -/
  xmssAggregate : List PublicKey → List Signature → H256 → ℕ → Option AggregatedSignature
  /-- `xmss_verify_aggregated_signatures` (keys, message, proof, epoch). -/
  xmssVerifyAggregated : List PublicKey → H256 → AggregatedSignature → ℕ → Bool

/-- The idealised hash function: injective on each container, and never the zero hash. -/
structure Env.HashIdeal (E : Env) : Prop where
  header_injective : Function.Injective E.hashHeader
  body_injective : Function.Injective E.hashBody
  data_injective : Function.Injective E.hashData
  state_injective : Function.Injective E.hashState
  header_ne_zero : ∀ h, E.hashHeader h ≠ 0
  state_ne_zero : ∀ s, E.hashState s ≠ 0

/-- The header of a block. Its root is the root of the block, since a body enters the Merkle
    tree of a block by its own root. -/
def Block.header (E : Env) (b : Block) : BlockHeader where
  slot := b.slot
  proposerIndex := b.proposerIndex
  parentRoot := b.parentRoot
  stateRoot := b.stateRoot
  bodyRoot := E.hashBody b.body

/-- `Block::hash_tree_root` -/
def Block.hashTreeRoot (E : Env) (b : Block) : H256 := E.hashHeader (b.header E)

/-- Under an ideal hash the root of a block determines the block. -/
theorem Block.hashTreeRoot_injective {E : Env} (hE : E.HashIdeal) :
    Function.Injective (Block.hashTreeRoot E) := by
  intro a b h
  have hh := hE.header_injective h
  cases a; cases b
  simp only [Block.header, BlockHeader.mk.injEq] at hh
  obtain ⟨rfl, rfl, rfl, rfl, hbody⟩ := hh
  rw [hE.body_injective hbody]

theorem Block.hashTreeRoot_ne_zero {E : Env} (hE : E.HashIdeal) (b : Block) :
    b.hashTreeRoot E ≠ 0 := hE.header_ne_zero _

end ConsensusClient
