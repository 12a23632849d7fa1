import ConsensusClient.Containers.BuildBlock

/-!
# The Fork-Choice Store

Translation of `fork_choice/src/store.rs`, with `on_tick` of `handlers.rs`, which block
production calls: the store, the head rule, the merging of votes at the intervals of a slot, and
the production of a block on the head.

An index operation on a hash map panics where the key is absent. The loops that walk along the
blocks of the store are cut off after as many rounds as there are blocks: a longer walk has come
back to a block it has seen, and the loop of the source then runs forever.
-/

namespace ConsensusClient

/-- `INTERVALS_PER_SLOT` -/
def intervalsPerSlot : ℕ := 4

/-- `SECONDS_PER_SLOT` -/
def secondsPerSlot : ℕ := 4

/-- `SECONDS_PER_INTERVAL` -/
def secondsPerInterval : ℕ := secondsPerSlot / intervalsPerSlot

/-- `JUSTIFICATION_LOOKBACK_SLOTS` -/
def justificationLookbackSlots : ℕ := 3

/-- Forkchoice store tracking chain state and validator attestations. -/
structure Store where
  time : ℕ
  config : Config
  head : H256
  safeTarget : H256
  latestJustified : Checkpoint
  latestFinalized : Checkpoint
  blocks : HashMap H256 Block
  states : HashMap H256 State
  latestKnownAttestations : HashMap ℕ AttestationData
  latestNewAttestations : HashMap ℕ AttestationData
  blocksQueue : HashMap H256 (List SignedBlockWithAttestation)
  gossipSignatures : HashMap SignatureKey Signature
  aggregatedPayloads : HashMap SignatureKey (List AggregatedSignatureProof)

/-! ## Attestation data -/

/-- `store.blocks[&root]` -/
def Store.blockAt (store : Store) (root : H256) : Res Block :=
  expect (store.blocks.lookup root) "no entry found for key"

/-- The first loop of `get_attestation_target`: walk back toward the safe target. -/
def Store.walkToSafe (store : Store) (safeSlot : ℕ) : ℕ → H256 → Res H256
  | 0, target => pure target
  | rounds + 1, target => do
    let block ← store.blockAt target
    if safeSlot < block.slot then store.walkToSafe safeSlot rounds block.parentRoot
    else pure target

/-- The second loop of `get_attestation_target`: walk back to a justifiable slot. -/
def Store.walkToJustifiable (store : Store) : ℕ → H256 → Res H256
  | 0, _ => .error .diverge
  | fuel + 1, target => do
    let block ← store.blockAt target
    let justifiable ← isJustifiableAfter block.slot store.latestFinalized.slot
    if justifiable then pure target else store.walkToJustifiable fuel block.parentRoot

/-- `Store::get_attestation_target` -/
def Store.getAttestationTarget (store : Store) : Res Checkpoint := do
  let safe ← store.blockAt store.safeTarget
  -- a few steps back toward the safe target, and then on to a justifiable slot
  let target ← store.walkToSafe safe.slot justificationLookbackSlots store.head
  let target ← store.walkToJustifiable (store.blocks.entries.length + 1) target
  let block ← store.blockAt target
  pure { root := target, slot := block.slot }

/-- `Store::produce_attestation_data` -/
def Store.produceAttestationData (store : Store) (slot : ℕ) : Res AttestationData := do
  let head ← okOr (store.blocks.lookup store.head) "head block is not known"
  let target ← store.getAttestationTarget
  pure {
    slot
    head := { root := store.head, slot := head.slot }
    target
    source := store.latestJustified }

/-! ## Initialization -/

/-- The checkpoint of the anchor state, or the anchor block in place of the zero checkpoint. -/
def anchorCheckpoint (blockRoot : H256) (blockSlot : ℕ) (c : Checkpoint) : Checkpoint :=
  if c.root = 0 then { root := blockRoot, slot := blockSlot } else c

/-- `get_forkchoice_store` -/
def getForkchoiceStore (E : Env) (anchorState : State) (anchorBlock : SignedBlockWithAttestation)
    (config : Config) : Store :=
  let block := anchorBlock.block
  let root := block.hashTreeRoot E
  { time := block.slot * intervalsPerSlot
    config
    head := root
    safeTarget := root
    latestJustified := anchorCheckpoint root block.slot anchorState.latestJustified
    latestFinalized := anchorCheckpoint root block.slot anchorState.latestFinalized
    blocks := AList.singleton root block
    states := AList.singleton root anchorState
    latestKnownAttestations := ∅
    latestNewAttestations := ∅
    blocksQueue := ∅
    gossipSignatures := ∅
    aggregatedPayloads := ∅ }

/-! ## The head rule -/

/-- The inner loop of the first stage: one vote adds to every block on its way up that lies
    after the start. -/
def Store.addVote (store : Store) (rootSlot : ℕ) :
    ℕ → H256 → ℕ → HashMap H256 ℕ → Res (HashMap H256 ℕ)
  | 0, _, currSlot, weights => if rootSlot < currSlot then .error .diverge else .ok weights
  | fuel + 1, curr, currSlot, weights =>
    if rootSlot < currSlot then
      let weights := weights.insert curr ((weights.lookup curr).getD 0 + 1)
      -- climb to the parent while it is known
      match store.blocks.lookup curr with
      | none => .ok weights
      | some block =>
        if block.parentRoot = 0 then .ok weights
        else
          match store.blocks.lookup block.parentRoot with
          | none => .ok weights
          | some next => store.addVote rootSlot fuel block.parentRoot next.slot weights
    else .ok weights

/-- The first stage: accumulate weights by walking up from the head of each vote. -/
def Store.voteWeights (store : Store) (rootSlot : ℕ)
    (latestAttestations : HashMap ℕ AttestationData) : Res (HashMap H256 ℕ) :=
  latestAttestations.entries.foldlM
    (fun weights vote =>
      match store.blocks.lookup vote.2.head.root with
      | none => .ok weights
      | some block =>
        store.addVote rootSlot store.blocks.entries.length vote.2.head.root block.slot weights)
    ∅

/-- One round of the second stage. -/
def addChild (weights : HashMap H256 ℕ) (minVotes : ℕ) (children : HashMap H256 (List H256))
    (root : H256) (block : Block) : HashMap H256 (List H256) :=
  if block.parentRoot ≠ 0 ∧ minVotes ≤ (weights.lookup root).getD 0 then
    children.insert block.parentRoot ((children.lookup block.parentRoot).getD [] ++ [root])
  else children

/-- The second stage: build the adjacency tree from the parents to the children. -/
def Store.childMap (store : Store) (weights : HashMap H256 ℕ) (minVotes : ℕ) :
    HashMap H256 (List H256) :=
  store.blocks.entries.foldl (fun children e => addChild weights minVotes children e.1 e.2) ∅

/-- The order of the children: most attestations, then the highest hash. -/
def compareChildren (weights : HashMap H256 ℕ) (a b : H256) : Ordering :=
  (compare ((weights.lookup a).getD 0) ((weights.lookup b).getD 0)).then (compare a b)

/-- `Iterator::max_by`, which takes the last of several maxima. -/
def maxBy {α : Type} (cmp : α → α → Ordering) : List α → Option α
  | [] => none
  | x :: xs => some (xs.foldl (fun best y => if cmp best y = .gt then best else y) x)

/-- The third stage: greedy walk choosing the heaviest child at each fork. -/
def walkHeaviest (weights : HashMap H256 ℕ) (children : HashMap H256 (List H256)) :
    ℕ → H256 → Res H256
  | 0, _ => .error .diverge
  | fuel + 1, curr =>
    match maxBy (compareChildren weights) ((children.lookup curr).getD []) with
    | none => .ok curr
    | some best => walkHeaviest weights children fuel best

/-- `Iterator::min_by_key` on the slots, which takes the first of several minima. -/
def minBySlot : List (H256 × Block) → Option (H256 × Block)
  | [] => none
  | x :: xs => some (xs.foldl (fun best y => if y.2.slot < best.2.slot then y else best) x)

/-- The block to start from: the zero root stands for the oldest block. -/
def Store.startRoot (store : Store) (root : H256) : Res H256 :=
  if root = 0 then do
    let oldest ← expect (minBySlot (store.blocks.entries.map fun e => (e.1, e.2)))
      "Error: Empty block."
    pure oldest.1
  else pure root

/-- `get_fork_choice_head` -/
def Store.getForkChoiceHead (store : Store) (root : H256)
    (latestAttestations : HashMap ℕ AttestationData) (minVotes : ℕ) : Res H256 := do
  let root ← store.startRoot root
  let block ← store.blockAt root
  let weights ← store.voteWeights block.slot latestAttestations
  walkHeaviest weights (store.childMap weights minVotes) (store.blocks.entries.length + 1) root

/-- `get_latest_justified` -/
def getLatestJustified (states : HashMap H256 State) : Option Checkpoint :=
  maxByKey (fun checkpoint => checkpoint.slot) (states.entries.map fun e => e.2.latestJustified)

/-- `update_head` -/
def Store.updateHead (store : Store) : Res Store := do
  let head ←
    store.getForkChoiceHead store.latestJustified.root store.latestKnownAttestations 0
  pure { store with head }

/-- `update_safe_target` -/
def Store.updateSafeTarget (store : Store) : Res Store := do
  let numValidators :=
    match store.states.lookup store.head with
    | some state => state.validators.length
    | none => 0
  -- two thirds of the validators, rounded up
  let minScore := (numValidators * 2 + 2) / 3
  let safeTarget ←
    store.getForkChoiceHead store.latestJustified.root store.latestNewAttestations minScore
  pure { store with safeTarget }

/-! ## Ticks -/

/-- The two vote maps after the new votes are drained into the known ones. -/
def Store.mergeVotes (store : Store) : Store :=
  { store with
    latestKnownAttestations := store.latestNewAttestations ∪ store.latestKnownAttestations
    latestNewAttestations := ∅ }

/-- `accept_new_attestations` -/
def Store.acceptNewAttestations (store : Store) : Res Store :=
  store.mergeVotes.updateHead

/-- `tick_interval` -/
def Store.tickInterval (store : Store) (hasProposal : Bool) : Res Store :=
  let store := { store with time := store.time + 1 }
  let currInterval := store.time % intervalsPerSlot
  if currInterval = 0 ∧ hasProposal = true then store.acceptNewAttestations
  else if currInterval = 2 then store.updateSafeTarget
  else if currInterval = 3 then store.acceptNewAttestations
  else .ok store

/-- The loop of `on_tick`, over the intervals still to go. -/
def Store.tickTo (hasProposal : Bool) : ℕ → Store → Res Store
  | 0, store => .ok store
  | left + 1, store => do
    -- the proposal is signalled for the last interval only
    let store ← store.tickInterval (hasProposal && left == 0)
    Store.tickTo hasProposal left store

/-- `on_tick` -/
def Store.onTick (store : Store) (time : ℕ) (hasProposal : Bool) : Res Store :=
  let target := (time - store.config.genesisTime) / secondsPerInterval
  Store.tickTo hasProposal (target - store.time) store

/-! ## Block production -/

/-- `get_proposal_head`; the head returned is the head of the store it leaves. -/
def Store.getProposalHead (store : Store) (slot : ℕ) : Res Store := do
  let slotTime := store.config.genesisTime + slot * secondsPerSlot
  let store ← store.onTick slotTime true
  store.acceptNewAttestations

/-- The arguments with which `produce_block_with_signatures` calls `build_block`: the pool lists
    the known votes in the order in which their map is iterated. -/
def Store.buildArgs (orders : IterationOrders) (store : Store) (slot validatorIndex : ℕ) :
    BuildArgs where
  slot := slot
  proposerIndex := validatorIndex
  parentRoot := store.head
  availableAttestations := some (orders.votes (store.latestKnownAttestations.entries.map fun e =>
    { validatorId := e.1, data := e.2 })).val
  knownBlockRoots := some store.blocks.keys
  gossipSignatures := some store.gossipSignatures
  aggregatedPayloads := some store.aggregatedPayloads

/-- The part of `produce_block_with_signatures` that does not change the store: the block on the
    head, its post-state and the proofs of its votes. -/
def Store.buildOnHead (E : Env) (orders : IterationOrders) (store : Store)
    (slot validatorIndex : ℕ) : Res BuiltBlock := do
  let headState ← okOr (store.states.lookup store.head) "Head state not found"
  let numValidators := headState.validators.length
  if numValidators = 0 then crash "attempt to calculate the remainder with a divisor of zero"
  else do
    ensure (validatorIndex = slot % numValidators)
      s!"Validator {validatorIndex} is not the proposer for slot {slot} (expected {slot % numValidators})"
    headState.buildBlock E orders.unproved (store.buildArgs orders slot validatorIndex) none

/-- The store with a block and its post-state added. -/
def Store.insertBlock (store : Store) (root : H256) (block : Block) (post : State) : Store :=
  { store with
    blocks := store.blocks.insert root block
    states := store.states.insert root post }

/-- `produce_block_with_signatures` -/
def Store.produceBlockWithSignatures (E : Env) (orders : IterationOrders) (store : Store)
    (slot validatorIndex : ℕ) :
    Res (After Store (H256 × Block × List AggregatedSignatureProof)) := do
  let store ← store.getProposalHead slot
  attempt store (store.buildOnHead E orders slot validatorIndex) fun built =>
    let root := built.block.hashTreeRoot E
    done (store.insertBlock root built.block built.post) (root, built.block, built.proofs)

end ConsensusClient
