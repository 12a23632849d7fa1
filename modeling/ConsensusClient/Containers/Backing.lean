import ConsensusClient.Containers.Accountability
import ConsensusClient.Containers.Collection

/-!
# The Votes behind the Checkpoints of a Chain

The justified and the finalized checkpoint of a chain have the votes of two thirds of the
validators, or are at the genesis slot, although `latest_justified` may move back. Once there is a
block, both are roots of blocks of the chain.

## Main results

* `ReachedFromGenesis.backed`: both checkpoints of a chain are backed by its counted votes
* `ReachedFromGenesis.checkpoint_voters`: they have two thirds of the votes in the blocks
* `ReachedFromGenesis.checkpoint_onChain`: they are roots of blocks of the chain
-/

namespace ConsensusClient

/-- The checkpoint is at the genesis slot or has two thirds of the votes of the ledger. -/
def Backed (n : ℕ) (ledger : List AggregatedAttestation) (c : Checkpoint) : Prop :=
  c.slot = 0 ∨ Quorum n (voters ledger c)

theorem Backed.append {n : ℕ} {ledger : List AggregatedAttestation} {c : Checkpoint}
    (h : Backed n ledger c) (votes : List AggregatedAttestation) : Backed n (ledger ++ votes) c :=
  h.imp_right fun hq => hq.mono (voters_subset_append ledger votes c)

section Chain

variable {E : Env} {g s s' : State} {ledger : List AggregatedAttestation} {l l' : VoteLoop}
  {blocks : List SignedBlockWithAttestation}

/-- A round justifies a target with the votes of two thirds only. -/
theorem LoopInv.justified_backed_round (inv : LoopInv s ledger l) {a : AggregatedAttestation}
    (hback : Backed s.validators.length ledger l.latestJustified)
    (h : s.processAttestation l a = .ok l') :
    Backed s.validators.length (ledger ++ s.counted l a) l'.latestJustified := by
  rcases State.latestJustified_round h with ⟨hjust, -, -⟩ | ⟨tally, ht, hq, hjust, -, -⟩
  · rw [hjust]
    exact hback.append _
  · -- the tally of the target holds the votes of the ledger and of this round
    rw [hjust, State.counted_of_counts ht.counts]
    refine Or.inr ?_
    rwa [(inv.bitsOf_tally ht).1.count_eq_card] at hq

theorem LoopInv.justified_backed_foldlM (hd : DistinctRoots s.historicalBlockHashes)
    {votes : List AggregatedAttestation} (inv : LoopInv s ledger l)
    (hback : Backed s.validators.length ledger l.latestJustified)
    (h : votes.foldlM s.processAttestation l = .ok l') :
    Backed s.validators.length (ledger ++ s.countedVotes l votes) l'.latestJustified := by
  induction votes generalizing l ledger with
  | nil =>
    obtain rfl := Except.ok.inj h
    exact hback.append _
  | cons a rest ih =>
    rw [List.foldlM_cons] at h
    obtain ⟨l₁, h₁, h⟩ := bind_eq_ok.mp h
    rw [State.countedVotes_cons h₁, ← List.append_assoc]
    exact ih (inv.processAttestation hd h₁) (inv.justified_backed_round hback h₁) h

/-- A header makes the justified checkpoint the genesis block, or leaves it. -/
theorem Backed.beforeVotes {n : ℕ} (hback : Backed n ledger s.latestJustified) (block : Block) :
    Backed n ledger (s.beforeVotes E block).latestJustified := by
  by_cases h0 : s.latestBlockHeader.slot = 0
  · exact Or.inl (by
      simp [State.beforeVotes, State.withHeader, State.advanced, State.sealedHeader, h0])
  · simpa [State.beforeVotes, State.withHeader, State.advanced, State.sealedHeader, h0]
      using hback

theorem ChainInv.justified_backed_runChain (hE : E.HashIdeal) (inv : ChainInv E s ledger)
    (hback : Backed s.validators.length ledger s.latestJustified)
    (h : s.runChain E blocks = .ok s') :
    Backed s.validators.length (ledger ++ s.chainVotes E blocks) s'.latestJustified := by
  induction blocks generalizing s ledger with
  | nil =>
    obtain rfl := Except.ok.inj h
    exact hback.append _
  | cons sb rest ih =>
    obtain ⟨s₁, h₁, h⟩ := State.runChain_cons h
    obtain ⟨l, l', step⟩ := State.stateTransition_step hE inv.unsealed h₁
    -- the vote loop starts with the checkpoint of the state
    obtain ⟨l₀, hl₀, linv⟩ := inv.loopInv_beforeVotes hE step.slot_lt
    obtain rfl := Except.ok.inj (step.start.symm.trans hl₀)
    have hstart : Backed s.validators.length ledger l.latestJustified := by
      rw [(State.voteLoop_checkpoints step.start).1]
      exact hback.beforeVotes sb.block
    have hloop := linv.justified_backed_foldlM
      ((inv.chainRoots_beforeVotes sb.block).distinctRoots hE) hstart step.run
    -- the rest of the chain starts from the ledger after this block
    rw [State.chainVotes_cons h₁, ← List.append_assoc, ← State.stateTransition_validators h₁]
    refine ih (inv.stateTransition hE h₁) ?_ h
    rw [State.stateTransition_validators h₁, step.blockVotes_eq hE inv.unsealed h₁, step.result]
    exact hloop

/-- Both checkpoints of a chain are backed by its counted votes. -/
theorem ReachedFromGenesis.backed (hE : E.HashIdeal) (h : ReachedFromGenesis E g blocks s)
    (hne : blocks ≠ []) {c : Checkpoint} (hc : c = s.latestJustified ∨ c = s.latestFinalized) :
    Backed g.validators.length (g.chainVotes E blocks) c := by
  rcases hc with rfl | rfl
  · obtain ⟨time, validators, hn, hg⟩ := h.genesis
    have hfresh : g.latestJustified.slot = 0 := by
      obtain ⟨-, rfl⟩ := generateGenesisWithValidators_eq_ok hg
      rfl
    exact (ChainInv.genesis hn hg).justified_backed_runChain hE (Or.inl hfresh) h.run
  · obtain ⟨m, -, linv⟩ := h.settled hE (h.slot_ne_zero hE hne)
    rw [← h.validators_eq]
    exact linv.finalized_quorum

/-- Both checkpoints of a chain have two thirds of the votes included in its blocks, or are at
    the genesis slot. -/
theorem ReachedFromGenesis.checkpoint_voters (hE : E.HashIdeal)
    (h : ReachedFromGenesis E g blocks s) (hne : blocks ≠ []) {c : Checkpoint}
    (hc : c = s.latestJustified ∨ c = s.latestFinalized) :
    c.slot = 0 ∨ Quorum g.validators.length (targetVoters g.validators.length blocks c) := by
  obtain ⟨m, -, linv⟩ := h.settled hE (h.slot_ne_zero hE hne)
  have hback := h.backed hE hne hc
  refine hback.imp_right fun hq => hq.mono fun v hv => ?_
  obtain ⟨a, -, hincl, htarget⟩ := exists_includedVote (fun _ h => h) hv
  have hlt := linv.voters_subset c hv
  rw [h.validators_eq] at hlt
  exact Finset.mem_filter.mpr ⟨hlt, a.data, hincl, htarget⟩

/-- After at least one block, both checkpoints are on the chain, at a slot with a block. -/
theorem ReachedFromGenesis.checkpoint_onChain (hE : E.HashIdeal)
    (h : ReachedFromGenesis E g blocks s) (hne : blocks ≠ []) {c : Checkpoint}
    (hc : c = s.latestJustified ∨ c = s.latestFinalized) : s.OnChain c ∧ c.root ≠ 0 := by
  obtain ⟨m, -, linv⟩ := h.settled hE (h.slot_ne_zero hE hne)
  obtain ⟨time, validators, hn, hg⟩ := h.genesis
  have hslot : g.latestBlockHeader.slot = 0 := by
    obtain ⟨-, rfl⟩ := generateGenesisWithValidators_eq_ok hg
    rfl
  obtain ⟨hj, hf⟩ := State.Rooted.runChain hE (ChainInv.genesis hn hg) (Or.inl hslot) hne h.run
  rcases hc with rfl | rfl
  · exact ⟨linv.justified_on_chain, hj⟩
  · exact ⟨linv.finalized_on_chain, hf⟩

end Chain

end ConsensusClient
