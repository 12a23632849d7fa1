import Mathlib.Data.List.Sort
import Mathlib.Logic.Function.Iterate
import ConsensusClient.Lib.FiniteMap
import ConsensusClient.Containers.Slot
import ConsensusClient.Containers.Attestation

/-!
# State Transition

Translation of the state transition of `containers/src/state.rs`: slot processing, the block
header, and the vote loop of `process_attestations`, with the window of justified slots it
maintains.

Every `ensure!`, `?`, index operation and assertion of the source stands where it stands there,
so that an outcome of the model is the outcome of the code. Metrics and log lines are left out.
-/

namespace ConsensusClient

/-! ## Lists with a limit -/

/-- `PersistentList::push` -/
def pushLimited {α : Type} (limit : ℕ) (l : List α) (x : α) : Res (List α) :=
  if l.length < limit then .ok (l ++ [x]) else bail "list is full"

/-- Pushes the elements of `xs` one by one. -/
def pushAll {α : Type} (limit : ℕ) (l xs : List α) : Res (List α) :=
  xs.foldlM (pushLimited limit) l

/-! ## The window of justified slots -/

namespace JustifiedSlots

/-- `JustifiedSlots::is_slot_justified` -/
def isSlotJustified (js : JustifiedSlots) (finalizedSlot targetSlot : ℕ) : Res Bool :=
  match justifiedIndexAfter targetSlot finalizedSlot with
  | none => .ok true
  | some i => okOr js[i]? s!"Slot Slot({targetSlot}) is outside the tracked range"

/-- `JustifiedSlots::with_justified` -/
def withJustified (js : JustifiedSlots) (finalizedSlot targetSlot : ℕ) (value : Bool) :
    Res JustifiedSlots :=
  match justifiedIndexAfter targetSlot finalizedSlot with
  | none => .ok js
  | some i =>
    if i < js.length then .ok (js.set i value)
    else bail s!"Slot Slot({targetSlot}) is outside the tracked range"

/-- `JustifiedSlots::shift_window` -/
def shiftWindow (js : JustifiedSlots) (delta : ℕ) : Res JustifiedSlots :=
  if delta = 0 then .ok js
  else if delta ≤ js.length then .ok (js.drop delta)
  else crash "range start index out of range for slice"

/-- `JustifiedSlots::extend_to_slot` -/
def extendToSlot (js : JustifiedSlots) (finalizedSlot targetSlot : ℕ) : JustifiedSlots :=
  match justifiedIndexAfter targetSlot finalizedSlot with
  | none => js
  | some i =>
    if js.length ≤ i + 1 then js ++ List.replicate (i + 1 - js.length) false else js

end JustifiedSlots

/-! ## Genesis -/

/-- `State::generate_genesis_with_validators` -/
def generateGenesisWithValidators (E : Env) (genesisTime : ℕ) (validators : List Validator) :
    Res State :=
  if validators.length ≤ validatorRegistryLimit then
    .ok {
      config := { genesisTime }
      slot := 0
      latestBlockHeader := {
        slot := 0, proposerIndex := 0, parentRoot := 0, stateRoot := 0
        bodyRoot := E.hashBody { attestations := [] } }
      latestJustified := { root := 0, slot := 0 }
      latestFinalized := { root := 0, slot := 0 }
      historicalBlockHashes := []
      justifiedSlots := []
      validators
      justificationsRoots := []
      justificationsValidators := [] }
  else crash "Failed to add validator"

/-! ## Slots and header -/

/-- One round of the loop of `process_slots`. -/
def State.processSlot (E : Env) (s : State) : State :=
  let header :=
    if s.latestBlockHeader.stateRoot = 0 then
      { s.latestBlockHeader with stateRoot := E.hashState s }
    else s.latestBlockHeader
  { s with latestBlockHeader := header, slot := s.slot + 1 }

/-- `State::process_slots` -/
def State.processSlots (E : Env) (s : State) (targetSlot : ℕ) : Res State := do
  ensure (s.slot < targetSlot) "target slot must be in the future"
  pure ((State.processSlot E)^[targetSlot - s.slot] s)

/-- `is_proposer_for`; the remainder by zero panics. -/
def isProposerFor (validatorIndex slot numValidators : ℕ) : Res Bool :=
  if numValidators = 0 then crash "attempt to calculate the remainder with a divisor of zero"
  else .ok (decide (slot % numValidators = validatorIndex))

/-- `State::process_block_header` -/
def State.processBlockHeader (E : Env) (s : State) (block : Block) : Res State := do
  let parentHeader := s.latestBlockHeader
  let parentRoot := E.hashHeader parentHeader
  ensure (block.slot = s.slot) "Block slot mismatch"
  ensure (parentHeader.slot < block.slot) "Block is older than latest header"
  let isProposer ← isProposerFor block.proposerIndex s.slot s.validators.length
  ensure (isProposer = true) "Incorrect block proposer"
  ensure (block.parentRoot = parentRoot) "Block parent root mismatch"
  let anchor : Checkpoint := { root := parentRoot, slot := 0 }
  let isGenesisParent := parentHeader.slot = 0
  let numEmptySlots := block.slot - parentHeader.slot - 1
  let hashes ← pushLimited historicalRootsLimit s.historicalBlockHashes parentRoot
  let hashes ← pushAll historicalRootsLimit hashes (List.replicate numEmptySlots 0)
  let lastMaterializedSlot := block.slot - 1
  pure { s with
    historicalBlockHashes := hashes
    justifiedSlots :=
      JustifiedSlots.extendToSlot s.justifiedSlots s.latestFinalized.slot lastMaterializedSlot
    latestJustified := if isGenesisParent then anchor else s.latestJustified
    latestFinalized := if isGenesisParent then anchor else s.latestFinalized
    latestBlockHeader := {
      slot := block.slot, proposerIndex := block.proposerIndex, parentRoot := block.parentRoot
      bodyRoot := E.hashBody block.body, stateRoot := 0 } }

/-! ## The vote loop -/

/-- The mutable variables of the vote loop. The source keeps `finalized_slot` beside
    `latest_finalized`; the two are assigned together, so the model reads it from the
    checkpoint. -/
structure VoteLoop where
  latestJustified : Checkpoint
  latestFinalized : Checkpoint
  justifiedSlots : JustifiedSlots
  justifications : HashMap H256 (List Bool)
  deriving DecidableEq

/-- Stores the tally of a target root. -/
def VoteLoop.storeTally (l : VoteLoop) (root : H256) (tally : List Bool) : VoteLoop :=
  { l with justifications := l.justifications.insert root tally }

/-- Makes `target` the latest justified checkpoint and drops its tally. -/
def VoteLoop.markJustified (l : VoteLoop) (window : JustifiedSlots) (target : Checkpoint) :
    VoteLoop :=
  { l with
    latestJustified := target
    justifiedSlots := window
    justifications := l.justifications.erase target.root }

/-- Makes `source` the latest finalized checkpoint and keeps the tallies after it. -/
def VoteLoop.markFinalized (l : VoteLoop) (window : JustifiedSlots) (source : Checkpoint)
    (rootToSlot : HashMap H256 ℕ) : VoteLoop :=
  { l with
    latestFinalized := source
    justifiedSlots := window
    justifications := l.justifications.retain fun root _ =>
      decide (source.slot < (rootToSlot.lookup root).getD 0) }

/-- The slice `bits[start..end]`; out of range it panics. -/
def sliceBits (bits : List Bool) (start stop : ℕ) : Res (List Bool) :=
  if stop ≤ bits.length then .ok ((bits.drop start).take (stop - start))
  else crash "range end index out of range for slice"

/-- Reads the tally at position `p.2` of the bitlist into the map, under the root `p.1`. -/
def State.readTally (s : State) (m : HashMap H256 (List Bool)) (p : H256 × ℕ) :
    Res (HashMap H256 (List Bool)) := do
  let bits ← sliceBits s.justificationsValidators (p.2 * s.validators.length)
    ((p.2 + 1) * s.validators.length)
  pure (m.insert p.1 bits)

/-- The stored tallies as a map from target root to votes. -/
def State.unflatten (s : State) : Res (HashMap H256 (List Bool)) :=
  s.justificationsRoots.zipIdx.foldlM s.readTally ∅

/-- Enters slot `i` into the map from roots to slots, where the higher slot wins. -/
def recordSlot (hashes : List H256) (m : HashMap H256 ℕ) (i : ℕ) : HashMap H256 ℕ :=
  let root := hashes.getD i 0
  match m.lookup root with
  | some slot => if slot < i then m.insert root i else m
  | none => m.insert root i

/-- The map from the roots after the finalized slot to their (last) slot. -/
def State.rootToSlot (s : State) : HashMap H256 ℕ :=
  let start := s.latestFinalized.slot + 1
  let stop := s.historicalBlockHashes.length
  (List.range' start (stop - start)).foldl (recordSlot s.historicalBlockHashes) ∅

/-- The skip checks of the vote loop, in the order of the source: `true` if the vote counts. -/
def State.voteCounts (s : State) (l : VoteLoop) (source target : Checkpoint) : Res Bool := do
  let sourceJustified ←
    JustifiedSlots.isSlotJustified l.justifiedSlots l.latestFinalized.slot source.slot
  -- skip votes whose source is not justified
  if sourceJustified = false then pure false
  else
    let targetJustified ←
      JustifiedSlots.isSlotJustified l.justifiedSlots l.latestFinalized.slot target.slot
    -- skip targets that are justified already, and the zero hash
    if targetJustified = true then pure false
    else if source.root = 0 ∨ target.root = 0 then pure false
    else
      -- both checkpoints must be on this chain
      let sourceHash ← okOr s.historicalBlockHashes[source.slot]? "index out of bounds"
      if source.root ≠ sourceHash then pure false
      else
        let targetHash ← okOr s.historicalBlockHashes[target.slot]? "index out of bounds"
        if target.root ≠ targetHash then pure false
        else if target.slot ≤ source.slot then pure false
        -- the finalized slot here is the one at the start of the block
        else isJustifiableAfter target.slot s.latestFinalized.slot

/-- Sets the bits of the voting validators in a tally. -/
def castVotes (tally : List Bool) (ids : List ℕ) : Res (List Bool) :=
  ids.foldlM
    (fun t id => if id < t.length then .ok (t.set id true)
      else bail "validator index is out of range")
    tally

/-- The tally of a target root before the votes of an attestation are added. -/
def State.tallyOf (s : State) (l : VoteLoop) (root : H256) : List Bool :=
  (l.justifications.lookup root).getD (List.replicate s.validators.length false)

/-- The finalization test: no slot strictly between source and target is justifiable after
    the finalized slot at the start of the block. -/
def State.linkIsDirect (s : State) (source target : Checkpoint) : Res Bool := do
  let any ← (List.range' (source.slot + 1) (target.slot - (source.slot + 1))).anyM
    fun slot => isJustifiableAfter slot s.latestFinalized.slot
  pure (!any)

/-- Moves the finalized checkpoint to `source`: the window is shifted and the tallies at or
    below the new finalized slot are dropped. Where the slot does not grow, only the checkpoint
    changes (`checked_sub` gives `None`, or a distance of zero). -/
def State.finalize (s : State) (l : VoteLoop) (source : Checkpoint) : Res VoteLoop :=
  let old := l.latestFinalized.slot
  if old < source.slot then do
    let window ← JustifiedSlots.shiftWindow l.justifiedSlots (source.slot - old)
    ensure (∀ root ∈ l.justifications.keys, root ∈ s.rootToSlot)
      "Justification root missing from root_to_slot"
    pure (l.markFinalized window source s.rootToSlot)
  else .ok { l with latestFinalized := source }

/-- The part of a round that runs once a target has two thirds of the votes. -/
def State.justify (s : State) (l : VoteLoop) (source target : Checkpoint) : Res VoteLoop := do
  let window ←
    JustifiedSlots.withJustified l.justifiedSlots l.latestFinalized.slot target.slot true
  let direct ← s.linkIsDirect source target
  if direct = true then s.finalize (l.markJustified window target) source
  else pure (l.markJustified window target)

/-- One round of the vote loop of `process_attestations`. -/
def State.processAttestation (s : State) (l : VoteLoop) (a : AggregatedAttestation) :
    Res VoteLoop := do
  let counts ← s.voteCounts l a.data.source a.data.target
  if counts = false then pure l
  else
    let ids ← AggregationBits.toValidatorIndices a.aggregationBits
    let tally ← castVotes (s.tallyOf l a.data.target.root) ids
    let l := l.storeTally a.data.target.root tally
    -- one tally for each target, whatever the sources of its votes
    if 2 * s.validators.length ≤ 3 * tally.count true then
      s.justify l a.data.source a.data.target
    else pure l

/-- The variables of the vote loop before its first round. -/
def State.voteLoop (s : State) : Res VoteLoop := do
  ensure (∀ root ∈ s.justificationsRoots, root ≠ 0)
    "zero hash is not allowed in justification roots"
  let justifications ← s.unflatten
  pure {
    latestJustified := s.latestJustified
    latestFinalized := s.latestFinalized
    justifiedSlots := s.justifiedSlots
    justifications }

/-- The roots with a tally, in increasing order. -/
def VoteLoop.sortedRoots (l : VoteLoop) : List H256 :=
  l.justifications.keys.insertionSort (· ≤ ·)

/-- The state with the variables of the vote loop written back; the tallies are flattened in
    the order of their roots. -/
def State.withVotes (s : State) (l : VoteLoop) : State :=
  { s with
    justificationsRoots := l.sortedRoots
    justificationsValidators :=
      l.sortedRoots.flatMap fun root => (l.justifications.lookup root).getD []
    justifiedSlots := l.justifiedSlots
    latestJustified := l.latestJustified
    latestFinalized := l.latestFinalized }

/-- The end of `process_attestations`, after the vote loop. -/
def State.flatten (s : State) (l : VoteLoop) : Res State := do
  ensure (l.sortedRoots.length ≤ historicalRootsLimit) "too many elements for list"
  pure (s.withVotes l)

/-- `State::process_attestations` -/
def State.processAttestations (s : State) (attestations : List AggregatedAttestation) :
    Res State := do
  let l ← s.voteLoop
  let l ← attestations.foldlM s.processAttestation l
  s.flatten l

/-! ## Blocks -/

/-- `State::process_block` -/
def State.processBlock (E : Env) (s : State) (block : Block) : Res State := do
  let s ← s.processBlockHeader E block
  ensure (hasDuplicateData E block.body.attestations = false)
    "block contains duplicate attestation data"
  s.processAttestations block.body.attestations

/-- `State::state_transition` -/
def State.stateTransition (E : Env) (s : State) (signedBlock : SignedBlockWithAttestation)
    (validSignatures : Bool) : Res State := do
  ensure (validSignatures = true) "invalid block signatures"
  let block := signedBlock.block
  let s ← s.processSlots E block.slot
  let s ← s.processBlock E block
  let stateRoot := E.hashState s
  ensure (block.stateRoot = stateRoot)
    s!"invalid block state root (block.state_root={block.stateRoot.display}, actual={stateRoot.display})"
  pure s

end ConsensusClient
