import ConsensusClient.ForkChoice.Store

/-!
# Handlers of the Store

Translation of `fork_choice/src/handlers.rs`: attestations from gossip and from blocks, blocks,
and the queue of blocks whose parent is not yet available.

Blocks are processed inside `on_block` and inside `process_pending_blocks`, and statements about
runs refer to the blocks that were. Both therefore return these blocks, in the order of
processing, in place of `()`.
-/

namespace ConsensusClient

/-! ## Attestations -/

/-- `validate_attestation_data` -/
def Store.validateAttestationData (store : Store) (data : AttestationData) : Res Unit := do
  ensure (data.source.root ∈ store.blocks) s!"Unknown source block: {data.source.root.debug}"
  ensure (data.target.root ∈ store.blocks) s!"Unknown target block: {data.target.root.debug}"
  ensure (data.head.root ∈ store.blocks) s!"Unknown head block: {data.head.root.debug}"
  ensure (data.source.slot ≤ data.target.slot)
    s!"Source checkpoint slot {data.source.slot} must not exceed target slot {data.target.slot}"
  let sourceBlock ← store.blockAt data.source.root
  let targetBlock ← store.blockAt data.target.root
  ensure (sourceBlock.slot = data.source.slot)
    s!"Source checkpoint slot mismatch: checkpoint {data.source.slot} vs block {sourceBlock.slot}"
  ensure (targetBlock.slot = data.target.slot)
    s!"Target checkpoint slot mismatch: checkpoint {data.target.slot} vs block {targetBlock.slot}"
  let currentSlot := store.time / intervalsPerSlot
  ensure (data.slot ≤ currentSlot + 1)
    s!"Attestation too far in future: attestation slot {data.slot} > current slot {currentSlot} + 1"

/-- `map.get(&id).map_or(true, |existing| existing.slot < slot)` -/
def isNewer (votes : HashMap ℕ AttestationData) (validatorId slot : ℕ) : Bool :=
  match votes.lookup validatorId with
  | some existing => existing.slot < slot
  | none => true

/-- The on-chain branch of `on_attestation_internal`. -/
def Store.onChainVote (store : Store) (validatorId : ℕ) (data : AttestationData) : Store :=
  let known :=
    if isNewer store.latestKnownAttestations validatorId data.slot then
      store.latestKnownAttestations.insert validatorId data
    else store.latestKnownAttestations
  let new :=
    match store.latestNewAttestations.lookup validatorId with
    | some existing =>
      -- remove from new attestations if superseded
      if existing.slot ≤ data.slot then store.latestNewAttestations.erase validatorId
      else store.latestNewAttestations
    | none => store.latestNewAttestations
  { store with latestKnownAttestations := known, latestNewAttestations := new }

/-- The gossip branch of `on_attestation_internal`. -/
def Store.gossipVote (store : Store) (validatorId : ℕ) (data : AttestationData) : Store :=
  if isNewer store.latestNewAttestations validatorId data.slot then
    { store with latestNewAttestations := store.latestNewAttestations.insert validatorId data }
  else store

/-- `on_attestation_internal`, which always returns `Ok`. -/
def Store.onAttestationInternal (store : Store) (validatorId : ℕ) (data : AttestationData)
    (isFromBlock : Bool) : Store :=
  if isFromBlock then store.onChainVote validatorId data else store.gossipVote validatorId data

/-- The signature stored for later block building. -/
def Store.storeSignature (E : Env) (store : Store) (validatorId : ℕ) (data : AttestationData)
    (signature : Signature) : Store :=
  { store with
    gossipSignatures := store.gossipSignatures.insert ⟨validatorId, E.hashData data⟩ signature }

/-- `on_gossip_attestation` -/
def Store.onGossipAttestation (E : Env) (store : Store) (sa : SignedAttestation) :
    Res (After Store Unit) :=
  attempt store (store.validateAttestationData sa.message) fun _ =>
    let store := store.storeSignature E sa.validatorId sa.message sa.signature
    done (store.onAttestationInternal sa.validatorId sa.message false) ()

/-- `on_attestation` -/
def Store.onAttestation (E : Env) (store : Store) (sa : SignedAttestation)
    (isFromBlock : Bool) : Res (After Store Unit) :=
  attempt store (store.validateAttestationData sa.message) fun _ =>
    let store :=
      if isFromBlock then store
      else store.storeSignature E sa.validatorId sa.message sa.signature
    done (store.onAttestationInternal sa.validatorId sa.message isFromBlock) ()

/-! ## Blocks -/

/-- The checkpoints of the store after a block with this post-state. -/
def Store.updateCheckpoints (store : Store) (post : State) : Store :=
  { store with
    latestJustified :=
      if store.latestJustified.slot < post.latestJustified.slot then post.latestJustified
      else store.latestJustified
    latestFinalized :=
      if store.latestFinalized.slot < post.latestFinalized.slot then post.latestFinalized
      else store.latestFinalized }

/-- `payloads.entry(key).or_insert_with(Vec::new).push(proof)` -/
def addPayload (proof : AggregatedSignatureProof)
    (payloads : HashMap SignatureKey (List AggregatedSignatureProof)) (key : SignatureKey) :
    HashMap SignatureKey (List AggregatedSignatureProof) :=
  payloads.insert key ((payloads.lookup key).getD [] ++ [proof])

/-- The proof cache after one attestation of a block, stored under each of its validators. -/
def cacheProof (E : Env) (proofs : List AggregatedSignatureProof)
    (payloads : HashMap SignatureKey (List AggregatedSignatureProof))
    (a : AggregatedAttestation × ℕ) : HashMap SignatureKey (List AggregatedSignatureProof) :=
  match proofs[a.2]? with
  | some proof =>
    (AggregationBits.setIndices a.1.aggregationBits).foldl
      (fun payloads v => addPayload proof payloads ⟨v, E.hashData a.1.data⟩) payloads
  | none => payloads

/-- The proof cache after a block. -/
def Store.cacheProofs (E : Env) (store : Store) (sb : SignedBlockWithAttestation) : Store :=
  { store with
    aggregatedPayloads :=
      sb.block.body.attestations.zipIdx.foldl
        (cacheProof E sb.signature.attestationSignatures) store.aggregatedPayloads }

/-- The votes in the body of a block, one for each validator of each attestation. -/
def bodyVotes (block : Block) : List (ℕ × AttestationData) :=
  block.body.attestations.flatMap fun a =>
    (AggregationBits.setIndices a.aggregationBits).map fun v => (v, a.data)

/-- The votes of the body enter the store as on-chain votes. -/
def Store.castBodyVotes (store : Store) (block : Block) : Store :=
  (bodyVotes block).foldl (fun store v => store.onAttestationInternal v.1 v.2 true) store

/-- The proposer's attestation, processed as if received via gossip. -/
def Store.castProposerVote (E : Env) (store : Store) (sb : SignedBlockWithAttestation) : Store :=
  let proposer := sb.message.proposerAttestation
  let store :=
    store.storeSignature E proposer.validatorId proposer.data sb.signature.proposerSignature
  store.onAttestationInternal proposer.validatorId proposer.data false

/-- The store right before `process_block_internal` updates the head. -/
def Store.importBlock (E : Env) (store : Store) (sb : SignedBlockWithAttestation)
    (blockRoot : H256) (post : State) : Store :=
  (((store.insertBlock blockRoot sb.block post).updateCheckpoints post).cacheProofs E
    sb).castBodyVotes sb.block

/-- `process_block_internal` -/
def Store.processBlockInternal (E : Env) (store : Store) (sb : SignedBlockWithAttestation)
    (blockRoot : H256) : Res (After Store Unit) :=
  attempt store (okOr (store.states.lookup sb.block.parentRoot) "no parent state") fun state =>
    attempt store (state.stateTransition E sb true) fun post => do
      -- the head is updated before the vote of the proposer enters, so that vote does not count
      let store ← (store.importBlock E sb blockRoot post).updateHead
      done (store.castProposerVote E sb) ()

/-! ## The queue -/

/-- What a loop over queued blocks has reached: the store, the roots still to be looked up (the
    last one pushed first), and the blocks processed so far. -/
structure Flush where
  store : Store
  roots : List H256
  processed : List SignedBlockWithAttestation

/-- One round of the inner loop of `process_pending_blocks`. -/
def Flush.step (E : Env) (f : Flush) (sb : SignedBlockWithAttestation) : Res Flush := do
  let root := sb.block.hashTreeRoot E
  -- no check whether the block is known by now
  let after ← f.store.processBlockInternal E sb root
  match after.result with
  | .ok _ => pure ⟨after.state, root :: f.roots, f.processed ++ [sb]⟩
  | .error _ => pure { f with store := after.state }

/-- The blocks queued in the store. -/
def Store.queued (store : Store) : List SignedBlockWithAttestation :=
  store.blocksQueue.entries.flatMap fun e => e.2

/-- The outer loop of `process_pending_blocks`. Every round takes away a root, and for every
    root it adds a block has left the queue. -/
def processPending (E : Env) : ℕ → Flush → Res Flush
  | 0, f => if f.roots = [] then pure f else .error .diverge
  | fuel + 1, f =>
    match f.roots with
    | [] => pure f
    | parentRoot :: roots =>
      match f.store.blocksQueue.lookup parentRoot with
      | none => processPending E fuel { f with roots }
      | some purgatory => do
        -- the children leave the queue, also those that fail
        let store := { f.store with blocksQueue := f.store.blocksQueue.erase parentRoot }
        let f ← purgatory.foldlM (Flush.step E) { f with store, roots }
        processPending E fuel f

/-- `process_pending_blocks` -/
def Store.processPendingBlocks (E : Env) (store : Store) (roots : List H256) : Res Flush :=
  processPending E (roots.length + store.queued.length) ⟨store, roots, []⟩

/-- `&root.as_bytes()[..4]`: what the message shows of the missing parent. -/
def firstBytes (root : H256) : List UInt8 := root.asBytes.take 4

/-- `on_block` -/
def Store.onBlock (E : Env) (store : Store) (sb : SignedBlockWithAttestation) :
    Res (After Store (List SignedBlockWithAttestation)) :=
  let blockRoot := sb.block.hashTreeRoot E
  let parentRoot := sb.block.parentRoot
  if blockRoot ∈ store.blocks then done store []
  -- without its parent state the block waits in the queue
  else if parentRoot ∉ store.states ∧ parentRoot ≠ 0 then
    let store := { store with
      blocksQueue := store.blocksQueue.insert parentRoot
        ((store.blocksQueue.lookup parentRoot).getD [] ++ [sb]) }
    .ok ⟨store, .error s!"Err: (Fork-choice::Handlers::OnBlock) Block queued: parent {firstBytes parentRoot} not yet available (pending: {store.queued.length} blocks)"⟩
  else do
    let after ← store.processBlockInternal E sb blockRoot
    match after.result with
    | .error msg => .ok ⟨after.state, .error msg⟩
    | .ok _ =>
      let f ← after.state.processPendingBlocks E [blockRoot]
      done f.store (sb :: f.processed)

end ConsensusClient
