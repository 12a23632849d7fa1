import ConsensusClient.ForkChoice.Flush
import ConsensusClient.ForkChoice.Votes

/-!
# Failed Blocks

`process_block_internal` writes the block, its state, the checkpoints, the proofs, the votes and
the head one after the other, with calls in between that return a `Result`. The errors of these
calls are written out in `processBlockStepwise`; none of them occurs after the first write, since
`on_attestation_internal` returns `Ok` on every path. A block that fails therefore leaves the store
as it was, but for the queue: a block without its parent state is appended to it, and a queued
block has left it before its turn comes.

## Main results

* `Store.processBlockStepwise_eq`: none of the exits after the first write is taken
* `Store.onBlock_error`: an error means that the block was queued or that nothing happened
* `processPending_drop`: a queued block that fails might as well not have been queued
* `failed_block_changes_nothing`: the three together, for every store and block
-/

namespace ConsensusClient

/-! ## The early exits of `process_block_internal` -/

/-- The operator `?` on a call that changes the store: an error returns with the store as the call
    left it. -/
def Store.continueWith (after : After Store Unit) (rest : Store → Res (After Store Unit)) :
    Res (After Store Unit) :=
  match after.result with
  | .ok _ => rest after.state
  | .error msg => .ok ⟨after.state, .error msg⟩

/-- `on_attestation_internal` with its result; both branches end in `Ok(())`. -/
def Store.onAttestationInternalResult (store : Store) (validatorId : ℕ) (data : AttestationData)
    (isFromBlock : Bool) : After Store Unit :=
  ⟨store.onAttestationInternal validatorId data isFromBlock, .ok ()⟩

/-- The loop over the votes of a body, which stops at the first error. -/
def Store.castVotesStepwise (store : Store) : List (ℕ × AttestationData) → Res (After Store Unit)
  | [] => done store ()
  | v :: votes =>
    Store.continueWith (store.onAttestationInternalResult v.1 v.2 true) fun store =>
      store.castVotesStepwise votes

/-- `process_block_internal`, with an exit at every `?` of the source. -/
def Store.processBlockStepwise (E : Env) (store : Store) (sb : SignedBlockWithAttestation)
    (blockRoot : H256) : Res (After Store Unit) :=
  attempt store (okOr (store.states.lookup sb.block.parentRoot) "no parent state") fun state =>
    attempt store (state.stateTransition E sb true) fun post => do
      let store := store.insertBlock blockRoot sb.block post
      let store := store.updateCheckpoints post
      let store := store.cacheProofs E sb
      let after ← store.castVotesStepwise (bodyVotes sb.block)
      Store.continueWith after fun store => do
        let store ← store.updateHead
        let proposer := sb.message.proposerAttestation
        let store :=
          store.storeSignature E proposer.validatorId proposer.data sb.signature.proposerSignature
        Store.continueWith
          (store.onAttestationInternalResult proposer.validatorId proposer.data false)
          fun store => done store ()

section Failure

variable {E : Env} {store store' : Store} {sb : SignedBlockWithAttestation} {msg : String}

theorem Store.castVotesStepwise_eq (store : Store) (votes : List (ℕ × AttestationData)) :
    store.castVotesStepwise votes =
      done (votes.foldl (fun store v => store.onAttestationInternal v.1 v.2 true) store) () := by
  induction votes generalizing store with
  | nil => rfl
  | cons v votes ih => exact ih (store.onAttestationInternal v.1 v.2 true)

/-- None of the exits after the first write is taken. -/
theorem Store.processBlockStepwise_eq (E : Env) (store : Store) (sb : SignedBlockWithAttestation)
    (blockRoot : H256) :
    store.processBlockStepwise E sb blockRoot = store.processBlockInternal E sb blockRoot := by
  simp only [Store.processBlockStepwise, Store.castVotesStepwise_eq, done, ok_bind]
  rfl

/-! ## A block that is delivered -/

/-- When `on_block` returns an error, the block was queued or nothing happened. -/
theorem Store.onBlock_error (h : store.onBlock E sb = .ok ⟨store', .error msg⟩) :
    (sb.block.parentRoot ∉ store.states ∧ sb.block.parentRoot ≠ 0 ∧ store' = store.enqueue sb) ∨
      ((sb.block.parentRoot ∈ store.states ∨ sb.block.parentRoot = 0) ∧ store' = store) := by
  unfold Store.onBlock at h
  simp only at h
  split_ifs at h with hknown hmissing
  · exact absurd (congrArg After.result (Except.ok.inj h)) (by simp)
  · left
    exact ⟨hmissing.1, hmissing.2, (congrArg After.state (Except.ok.inj h)).symm⟩
  · right
    obtain ⟨⟨s₁, r⟩, hr, hrest⟩ := bind_eq_ok.mp h
    cases r with
    | error m =>
      have hstate : s₁ = store' := congrArg After.state (Except.ok.inj hrest)
      refine ⟨?_, hstate ▸ (Store.processBlockInternal_eq_error hr).1⟩
      by_contra hno
      push Not at hno
      exact hmissing hno
    | ok u =>
      -- the flush does not return errors
      obtain ⟨f, -, hdone⟩ := bind_eq_ok.mp hrest
      exact absurd (congrArg After.result (Except.ok.inj hdone)) (by simp)

/-! ## A block of the queue -/

/-- The round of a queued block that fails changes nothing. -/
theorem Flush.step_error {f : Flush}
    (h : f.store.processBlockInternal E sb (sb.block.hashTreeRoot E) = .ok ⟨store', .error msg⟩) :
    f.step E sb = .ok f := by
  obtain ⟨rfl, -⟩ := Store.processBlockInternal_eq_error h
  rw [Flush.step, h, ok_bind]
  rfl

/-- The flush goes on as if the block had not been in the queue. -/
theorem processPending_drop {fuel : ℕ} {f f₁ : Flush} {parentRoot : H256} {roots : List H256}
    {pre post : List SignedBlockWithAttestation} (hroots : f.roots = parentRoot :: roots)
    (hqueue : f.store.blocksQueue.lookup parentRoot = some (pre ++ sb :: post))
    (hpre : pre.foldlM (Flush.step E)
      ⟨{ f.store with blocksQueue := f.store.blocksQueue.erase parentRoot }, roots, f.processed⟩ =
        .ok f₁)
    (hfail : f₁.store.processBlockInternal E sb (sb.block.hashTreeRoot E) =
      .ok ⟨store', .error msg⟩) :
    processPending E (fuel + 1) f = processPending E (fuel + 1) { f with
      store := { f.store with
        blocksQueue := f.store.blocksQueue.insert parentRoot (pre ++ post) } } := by
  have hdrop : (pre ++ sb :: post).foldlM (Flush.step E)
      ⟨{ f.store with blocksQueue := f.store.blocksQueue.erase parentRoot }, roots, f.processed⟩ =
        (pre ++ post).foldlM (Flush.step E)
          ⟨{ f.store with blocksQueue := f.store.blocksQueue.erase parentRoot }, roots,
            f.processed⟩ := by
    rw [List.foldlM_append, List.foldlM_append, hpre, ok_bind, ok_bind, List.foldlM_cons,
      Flush.step_error hfail, ok_bind]
  simp only [processPending, hroots, hqueue, AList.lookup_insert, AList.erase_insert, hdrop]

/-- A block that fails changes nothing: when `on_block` returns an error, the store is as it was,
    or has the block appended to the queue where its parent state is missing; and a queued block
    that fails at its turn in a flush leaves the store, the stack and the rest of the flush as if it
    had not been in the queue. -/
theorem failed_block_changes_nothing :
    (∀ (store : Store) (sb : SignedBlockWithAttestation) (store' : Store) (msg : String),
      store.onBlock E sb = .ok ⟨store', .error msg⟩ →
      (sb.block.parentRoot ∉ store.states ∧ sb.block.parentRoot ≠ 0 ∧ store' = { store with
        blocksQueue := store.blocksQueue.insert sb.block.parentRoot
          ((store.blocksQueue.lookup sb.block.parentRoot).getD [] ++ [sb]) }) ∨
      ((sb.block.parentRoot ∈ store.states ∨ sb.block.parentRoot = 0) ∧ store' = store)) ∧
    ∀ (f f₁ : Flush) (parentRoot : H256) (roots : List H256)
      (pre : List SignedBlockWithAttestation) (sb : SignedBlockWithAttestation)
      (post : List SignedBlockWithAttestation) (store' : Store) (msg : String),
      f.roots = parentRoot :: roots →
      f.store.blocksQueue.lookup parentRoot = some (pre ++ sb :: post) →
      pre.foldlM (Flush.step E)
        ⟨{ f.store with blocksQueue := f.store.blocksQueue.erase parentRoot }, roots,
          f.processed⟩ = .ok f₁ →
      f₁.store.processBlockStepwise E sb (sb.block.hashTreeRoot E) = .ok ⟨store', .error msg⟩ →
      store' = f₁.store ∧ f₁.step E sb = .ok f₁ ∧
        ∀ fuel, processPending E (fuel + 1) f = processPending E (fuel + 1) { f with
          store := { f.store with
            blocksQueue := f.store.blocksQueue.insert parentRoot (pre ++ post) } } := by
  constructor
  · intro store sb store' msg h
    exact Store.onBlock_error h
  · intro f f₁ parentRoot roots pre sb post store' msg hroots hqueue hpre hfail
    rw [Store.processBlockStepwise_eq] at hfail
    exact ⟨(Store.processBlockInternal_eq_error hfail).1, Flush.step_error hfail,
      fun _ => processPending_drop hroots hqueue hpre hfail⟩

end Failure

namespace GenesisVotes

/-- A block at slot 0 on the genesis block, which no state transition accepts. -/
def stale : SignedBlockWithAttestation := SoloChain.block 0 1 9 []

/-- A block whose parent is not known. -/
def orphan : SignedBlockWithAttestation := SoloChain.block 5 77 9 []

/-- The flush reaches the genesis block, for which the stale block waits. -/
def flush : Flush := ⟨init.enqueue stale, [1], []⟩

theorem orphan_refused :
    ∃ store' msg, init.onBlock SoloChain.env orphan = .ok ⟨store', .error msg⟩ := by
  have heval : ((init.onBlock SoloChain.env orphan).toOption.map
      fun after => after.result.toOption.isNone) = some true := by decide +kernel
  obtain ⟨⟨store', result⟩, hcall, hnone⟩ := exists_ok_of_map heval
  cases result with
  | ok _ => exact absurd hnone (by simp [Except.toOption])
  | error msg => exact ⟨store', msg, hcall⟩

theorem stale_refused (store : Store)
    (hstate : store.states.lookup 1 = some SoloChain.genesis) :
    store.processBlockStepwise SoloChain.env stale (stale.block.hashTreeRoot SoloChain.env) =
      .ok ⟨store, .error "target slot must be in the future"⟩ := by
  have hfail : SoloChain.genesis.stateTransition SoloChain.env stale true =
      .error (.err "target slot must be in the future") := by decide +kernel
  have hparent : store.states.lookup stale.block.parentRoot = some SoloChain.genesis := hstate
  rw [Store.processBlockStepwise, hparent]
  simp only [okOr, attempt, hfail]

end GenesisVotes

/-- A block without a known parent is queued, and a block that waits for the genesis block fails at
    its turn. -/
theorem orphan_and_stale_block :
    (∃ store' msg, GenesisVotes.init.onBlock SoloChain.env GenesisVotes.orphan =
        .ok ⟨store', .error msg⟩ ∧ store' = GenesisVotes.init.enqueue GenesisVotes.orphan) ∧
      ∀ fuel, processPending SoloChain.env (fuel + 1) GenesisVotes.flush =
        processPending SoloChain.env (fuel + 1) { GenesisVotes.flush with
          store := { GenesisVotes.flush.store with
            blocksQueue := GenesisVotes.flush.store.blocksQueue.insert 1 [] } } := by
  obtain ⟨hblock, hflush⟩ := @failed_block_changes_nothing SoloChain.env
  constructor
  · obtain ⟨store', msg, hrefused⟩ := GenesisVotes.orphan_refused
    refine ⟨store', msg, hrefused, ?_⟩
    rcases hblock _ _ _ _ hrefused with ⟨-, -, h⟩ | ⟨h, -⟩
    · exact h
    · exact absurd h (by decide +kernel)
  · exact (hflush GenesisVotes.flush ⟨_, [], []⟩ 1 [] [] GenesisVotes.stale [] _ _ rfl
      (by decide +kernel) rfl (GenesisVotes.stale_refused _ (by decide +kernel))).2.2

end ConsensusClient
