import ConsensusClient.Containers.Collection
import ConsensusClient.ForkChoice.OwnVotes
import ConsensusClient.ForkChoice.Sound

/-!
# Block Production and the Votes of Peers

`produce_block_with_signatures` moves the store to the proposal head before it checks anything,
so a failed call leaves the store that `get_proposal_head` leaves, and adds no block.

The votes it collects come from peers. `validate_attestation_data` looks at the blocks and slots
of a vote, but neither at the validator index nor at the fork of the target. A vote with an
index that is not registered, or with a target on another fork that is not before the new block,
makes a candidate block fail, and with it the production of the block.

## Main results

* `failed_production_keeps_tree`: what a failed production leaves behind
* `Store.pool_perm`: the pool of votes, in whatever order their map is iterated
* `collection_ends_iff`: when the collection loop on the head of a reached store ends
* `unregistered_vote_stops_production`: a vote of nobody with which it does not
-/

namespace ConsensusClient

/-! ## Failed production -/

section Failure

variable {E : Env} {orders : IterationOrders} {store store' : Store} {slot validatorIndex : ℕ}

/-- A failed production leaves the store at the proposal head: the clock, the head, the safe target
    and the votes have moved there, and everything else is as it was. -/
theorem failed_production_keeps_tree {msg : String}
    (h : store.produceBlockWithSignatures E orders slot validatorIndex = .ok ⟨store', .error msg⟩) :
    store.getProposalHead slot = .ok store' ∧ store.MovedTo store' := by
  obtain ⟨s₀, h₀, ⟨built, -, hafter⟩ | ⟨msg', hafter⟩⟩ := Store.produceBlockWithSignatures_eq_ok h
  · exact absurd hafter (by simp)
  · obtain rfl : store' = s₀ := congrArg After.state hafter
    exact ⟨h₀, Store.getProposalHead_movedTo h₀⟩

end Failure

/-- Validator 5 asks for a block of slot 1 that validator 0 proposes. The clock is at the slot by
    the time it is refused. -/
theorem GenesisVotes.refused : ∃ store',
    init.produceBlockWithSignatures SoloChain.env .lastFirst 1 5 =
        .ok ⟨store', .error "Validator 5 is not the proposer for slot 1 (expected 0)"⟩ ∧
      store'.time = 4 := by
  have h : (init.produceBlockWithSignatures SoloChain.env .lastFirst 1 5).toOption.map
      (fun after => (after.result, after.state.time)) =
        some (.error "Validator 5 is not the proposer for slot 1 (expected 0)", 4) := by
    decide +kernel
  obtain ⟨⟨store', result⟩, hcall, hafter⟩ := exists_ok_of_map h
  obtain ⟨rfl, htime⟩ := Prod.mk.inj hafter
  exact ⟨store', hcall, htime⟩

theorem refused_proposer_keeps_tree : ∃ store', GenesisVotes.init.getProposalHead 1 = .ok store' ∧
    GenesisVotes.init.MovedTo store' := by
  obtain ⟨store', hcall, -⟩ := GenesisVotes.refused
  exact ⟨store', failed_production_keeps_tree hcall⟩

/-- The refused call has moved the clock from 0 to 4. -/
theorem refused_proposer_moves_clock : ∃ store' msg,
    GenesisVotes.init.run SoloChain.env [] = .ok GenesisVotes.init ∧
      GenesisVotes.init.produceBlockWithSignatures SoloChain.env .lastFirst 1 5 =
        .ok ⟨store', .error msg⟩ ∧
      store'.time ≠ GenesisVotes.init.time := by
  obtain ⟨store', hcall, htime⟩ := GenesisVotes.refused
  refine ⟨store', _, rfl, hcall, ?_⟩
  rw [htime]
  decide

/-! ## The collection loop on the head -/

/-- The arguments of `build_block` for the proposer of the slot. -/
def Store.proposal (orders : IterationOrders) (store : Store) (headState : State) (slot : ℕ) :
    BuildArgs :=
  store.buildArgs orders slot (slot % headState.validators.length)

/-- The collection loop of `build_block` in `produce_block_with_signatures`. -/
def Store.collectOnHead (E : Env) (orders : IterationOrders) (store : Store) (headState : State)
    (slot : ℕ) : Res (List Attestation) :=
  let args := store.proposal orders headState slot
  headState.collect E args ((args.availableAttestations.getD []).length + 1) []

section Collection

variable {E : Env} {orders : IterationOrders} {g headState : State} {store s₀ : Store}
  {time slot : ℕ} {validators : List Validator} {head : Block}

/-- The pool lists the known votes, in some order. -/
theorem Store.pool_perm (orders : IterationOrders) (store : Store) (headState : State) (slot : ℕ) :
    ((store.proposal orders headState slot).availableAttestations.getD []).Perm
      (store.latestKnownAttestations.entries.map fun e => { validatorId := e.1, data := e.2 }) :=
  (orders.votes _).property

/-- Every validator has one vote in the map of the known votes. -/
theorem Store.known_nodup (store : Store) :
    ((store.latestKnownAttestations.entries.map fun e =>
      ({ validatorId := e.1, data := e.2 } : Attestation)).map fun a => a.validatorId).Nodup := by
  rw [List.map_map]
  exact store.latestKnownAttestations.nodupKeys

/-- The state of the head is one of a chain, and a block at a later slot fits on it. -/
theorem Store.Sound.head_fits {offered : SignedBlockWithAttestation → Prop} (hE : E.HashIdeal)
    (hg : generateGenesisWithValidators E time validators = .ok g) (hn : validators ≠ [])
    (sound : store.Sound E g offered) (hhead : store.blocks.lookup store.head = some head)
    (hslot : head.slot < slot) (hstate : store.states.lookup store.head = some headState) :
    (∃ blocks, ReachedFromGenesis E g blocks headState) ∧
      (store.proposal orders headState slot).FitsOn E headState := by
  obtain ⟨block, hblock, hroot, hacc⟩ := sound.tree.accepted_of_state hstate
  obtain rfl := Option.some.inj (hhead.symm.trans hblock)
  obtain ⟨blocks, hrun, -⟩ := hacc.exists_chain
  refine ⟨⟨blocks, ⟨time, validators, hn, hg⟩, hrun⟩, ?_⟩
  exact {
    slot_lt := (hacc.header_eq hg hE).2 ▸ hslot
    proposer := rfl
    parent_root := hroot.symm.trans (hacc.blockRoot_eq hg hE).symm }

/-- On the head of a store reached from genesis, in whatever order the known votes are iterated, the
    collection loop ends exactly when there is room in the history and the votes of no candidate
    fail. It always does if the known votes are of registered validators, for targets before the
    block. -/
theorem collection_ends_iff (hE : E.HashIdeal)
    (hg : generateGenesisWithValidators E time validators = .ok g) (hn : validators ≠ [])
    {anchor : SignedBlockWithAttestation} (hanchor : anchor.block = genesisBlock E g)
    {config : Config} {ops : List StoreOp}
    (hreach : (getForkchoiceStore E g anchor config).run E ops = .ok store)
    (hproposal : store.getProposalHead slot = .ok s₀)
    (hhead : s₀.blocks.lookup s₀.head = some head) (hslot : head.slot < slot)
    (hstate : s₀.states.lookup s₀.head = some headState) :
    ((∃ collected, s₀.collectOnHead E orders headState slot = .ok collected) ↔
      slot ≤ historicalRootsLimit ∧
        ∀ votes, headState.Collects E (s₀.proposal orders headState slot) votes →
          ¬ headState.VotesFail E (s₀.proposal orders headState slot) votes) ∧
    (slot ≤ historicalRootsLimit →
      (∀ v data, s₀.latestKnownAttestations.lookup v = some data →
        v < validators.length ∧ data.target.slot < slot) →
      ∃ collected, s₀.collectOnHead E orders headState slot = .ok collected) := by
  have sound : s₀.Sound E g fun _ => True :=
    (((Store.Sound.genesis hg hanchor config).run hg hE hreach).getProposalHead hg hE slot).of_eq
      hproposal
  obtain ⟨⟨blocks, hchain⟩, fits⟩ := sound.head_fits hE hg hn hhead hslot hstate
  have inv := hchain.chainInv hE
  have hle := hchain.finalized_le_justified hE
  -- the order of the pool does not change its votes
  have hperm := s₀.pool_perm orders headState slot
  have hnodup := (hperm.map fun a => a.validatorId).nodup_iff.mpr s₀.known_nodup
  have hiff : (∃ collected, s₀.collectOnHead E orders headState slot = .ok collected) ↔ _ :=
    inv.exists_collect_iff hE hle fits rfl rfl hnodup
  refine ⟨hiff, fun hroom hknown => hiff.mpr ⟨hroom, fun votes hvotes => ?_⟩⟩
  obtain ⟨hlimit, rfl⟩ := generateGenesisWithValidators_eq_ok hg
  have hreg : headState.validators = validators := hchain.validators_eq
  -- the pool is made of the known votes
  refine CollectInv.not_votesFail inv fits (hreg ▸ hlimit)
    (hvotes.inv hE inv hle rfl hnodup.of_map) fun a ha => ?_
  obtain ⟨⟨v, data⟩, hentry, rfl⟩ := List.mem_map.mp (hperm.mem_iff.mp ha)
  rw [hreg]
  exact hknown v data (AList.mem_lookup_iff.mpr hentry)

end Collection

/-! ## A vote of nobody -/

namespace LateVotes

/-- A vote for the block at slot 1 that arrives at slot 3, under the name of any validator. -/
def anyVote (validatorId : ℕ) : SignedAttestation where
  validatorId := validatorId
  message := { slot := 3, head := ⟨2, 1⟩, target := ⟨2, 1⟩, source := ⟨1, 0⟩ }
  signature := 0

/-- The blocks at slots 1 and 2 have come, and then the vote. -/
def voteOps (validatorId : ℕ) : List StoreOp :=
  deliveries (blocks.take 2) ++ [.attestation (anyVote validatorId) false]

/-- The store at the proposal head of slot 3. -/
def proposalStore (validatorId : ℕ) : Res Store := do
  let store ← init.run env (voteOps validatorId)
  store.getProposalHead 3

end LateVotes

/-- The vote of the registered validator is known, and the loop ends. -/
theorem registered_vote_is_collected : ∃ store s₀ collected,
    LateVotes.init.run LateVotes.env (LateVotes.voteOps 0) = .ok store ∧
      store.getProposalHead 3 = .ok s₀ ∧
      s₀.latestKnownAttestations.entries = [⟨0, (LateVotes.anyVote 0).message⟩] ∧
      s₀.collectOnHead LateVotes.env .lastFirst LateVotes.state2 3 = .ok collected := by
  -- the store at the proposal head, with its vote and the state of its head
  have h : (LateVotes.proposalStore 0).toOption.map (fun s => (s.latestKnownAttestations.entries,
      s.blocks.lookup s.head, s.states.lookup s.head)) =
      some ([⟨0, (LateVotes.anyVote 0).message⟩], some (Sample.block 1 2 2 3 []).block,
        some LateVotes.state2) := by
    decide +kernel
  obtain ⟨s₀, hcall, hs₀⟩ := exists_ok_of_map h
  simp only [Prod.mk.injEq] at hs₀
  obtain ⟨hknown, hhead, hstate⟩ := hs₀
  obtain ⟨store, hrun, hproposal⟩ := bind_eq_ok.mp hcall
  -- the vote is of a registered validator, for a target before the slot
  have hvotes : ∀ v data, s₀.latestKnownAttestations.lookup v = some data →
      v < LateVotes.validators.length ∧ data.target.slot < 3 := by
    intro v data hlookup
    have hentry := AList.mem_lookup_iff.mp hlookup
    rw [hknown, List.mem_singleton] at hentry
    cases hentry
    decide
  obtain ⟨collected, hcollected⟩ := (collection_ends_iff (Env.tabulated_hashIdeal _)
    (show generateGenesisWithValidators LateVotes.env 0 LateVotes.validators =
      .ok LateVotes.genesis from rfl) (by simp [LateVotes.validators])
    (show LateVotes.anchor.block = _ from rfl) hrun hproposal hhead (by decide) hstate).2
    (by decide) hvotes
  exact ⟨store, s₀, collected, hrun, hproposal, hknown, hcollected⟩

/-- The same vote under the index 5, in a registry with one validator, enters as well: the handlers
    do not check the index. The candidate block that carries it fails. -/
theorem unregistered_vote_stops_production : ∃ store s₀,
    LateVotes.init.run LateVotes.env (LateVotes.voteOps 5) = .ok store ∧
      store.getProposalHead 3 = .ok s₀ ∧
      s₀.blocks.lookup s₀.head = some (Sample.block 1 2 2 3 []).block ∧
      s₀.states.lookup s₀.head = some LateVotes.state2 ∧
      s₀.collectOnHead LateVotes.env .lastFirst LateVotes.state2 3 =
        .error (.err "validator index is out of range") := by
  have h : (LateVotes.proposalStore 5).toOption.map (fun s => (s.blocks.lookup s.head,
      s.states.lookup s.head, s.collectOnHead LateVotes.env .lastFirst LateVotes.state2 3)) =
      some (some (Sample.block 1 2 2 3 []).block, some LateVotes.state2,
        .error (.err "validator index is out of range")) := by
    decide +kernel
  obtain ⟨s₀, hcall, hs₀⟩ := exists_ok_of_map h
  simp only [Prod.mk.injEq] at hs₀
  obtain ⟨hhead, hstate, hcollect⟩ := hs₀
  obtain ⟨store, hrun, hproposal⟩ := bind_eq_ok.mp hcall
  exact ⟨store, s₀, hrun, hproposal, hhead, hstate, hcollect⟩

end ConsensusClient
