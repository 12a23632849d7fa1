import ConsensusClient.Containers.Accountability

/-!
# Finalizing Links

What stands behind a finalized checkpoint. A round that finalizes its source has just justified
its target, so two thirds of the validators have a vote for that target on the chain, and the
source had two thirds before. But the tally of the target pools the votes from all sources: only
the validators of the vote that completes it are known to have voted for the link from the
finalized source, which may be a single one (`finalized_without_supermajority_link`).

## Main results

* `ReachedFromGenesis.counted_included`: a vote that counted is in a block of the chain
* `finalized_by_pooled_votes`: which votes a finalized checkpoint has behind it
* `finalized_without_supermajority_link`: one vote out of three for the link that finalizes
-/

namespace ConsensusClient

/-! ## Sources of counted votes -/

section Sources

variable {E : Env} {s s' : State} {ledger : List AggregatedAttestation}
  {blocks : List SignedBlockWithAttestation}

/-- The vote is from a block of the chain of `s` to a later slot. -/
def State.FromChain (s : State) (d : AttestationData) : Prop :=
  s.OnChain d.source ∧ d.source.slot < d.target.slot

theorem State.FromChain.mono {d : AttestationData}
    (hgrows : s.historicalBlockHashes <+: s'.historicalBlockHashes) (h : s.FromChain d) :
    s'.FromChain d := by
  refine ⟨?_, h.2⟩
  obtain ⟨rest, hrest⟩ := hgrows
  show s'.historicalBlockHashes[d.source.slot]? = some d.source.root
  rw [← hrest, List.getElem?_append_left (List.getElem?_eq_some_iff.mp h.1).1]
  exact h.1

theorem State.fromChain_of_counted {l : VoteLoop} {attestations : List AggregatedAttestation}
    {a : AggregatedAttestation} (h : a ∈ s.countedVotes l attestations) : s.FromChain a.data := by
  induction attestations generalizing l with
  | nil => exact absurd h (by simp [State.countedVotes])
  | cons b rest ih =>
    unfold State.countedVotes at h
    split at h
    · rcases List.mem_append.mp h with h | h
      · unfold State.counted at h
        split at h
        · rename_i hcounts
          obtain rfl := List.mem_singleton.mp h
          have hc := State.voteCounts_eq_true.mp hcounts
          exact ⟨hc.source_on_chain, hc.source_lt_target⟩
        · exact absurd h (by simp)
      · exact ih h
    · exact absurd h (by simp)

theorem State.countedVotes_append {l l' : VoteLoop} {xs : List AggregatedAttestation}
    (h : xs.foldlM s.processAttestation l = .ok l') (ys : List AggregatedAttestation) :
    s.countedVotes l (xs ++ ys) = s.countedVotes l xs ++ s.countedVotes l' ys := by
  induction xs generalizing l with
  | nil =>
    obtain rfl := Except.ok.inj h
    rfl
  | cons a rest ih =>
    rw [List.foldlM_cons] at h
    obtain ⟨l₁, hround, h⟩ := bind_eq_ok.mp h
    rw [List.cons_append, State.countedVotes_cons hround, State.countedVotes_cons hround, ih h,
      List.append_assoc]

/-- Along a chain the history only grows. -/
theorem ChainInv.history_mono (hE : E.HashIdeal) (inv : ChainInv E s ledger)
    (h : s.runChain E blocks = .ok s') :
    s.historicalBlockHashes <+: s'.historicalBlockHashes := by
  by_cases hne : blocks = []
  · subst hne
    obtain rfl := Except.ok.inj h
    exact List.prefix_refl _
  · exact (List.prefix_append _ _).trans (State.history_prefix hE inv hne h)

/-- The votes counted on a chain are from blocks of the chain. -/
theorem ChainInv.fromChain (hE : E.HashIdeal) (inv : ChainInv E s ledger)
    (h : s.runChain E blocks = .ok s') :
    ∀ a ∈ s.chainVotes E blocks, s'.FromChain a.data := by
  induction blocks generalizing s ledger with
  | nil => simp [State.chainVotes]
  | cons sb rest ih =>
    obtain ⟨s₁, h₁, h⟩ := State.runChain_cons h
    have inv₁ := inv.stateTransition hE h₁
    intro a ha
    rw [State.chainVotes_cons h₁] at ha
    rcases List.mem_append.mp ha with ha | ha
    · -- a vote of the first block
      obtain ⟨l, l', step⟩ := State.stateTransition_step hE inv.unsealed h₁
      rw [step.blockVotes_eq hE inv.unsealed h₁] at ha
      have hsame : s₁.historicalBlockHashes =
          (s.beforeVotes E sb.block).historicalBlockHashes := by
        rw [step.result]
        rfl
      refine (State.fromChain_of_counted ha).mono ?_
      rw [← hsame]
      exact inv₁.history_mono hE h
    · exact ih inv₁ h a ha

end Sources

/-! ## The round that finalizes -/

section Finalizing

variable {E : Env} {g s : State} {blocks : List SignedBlockWithAttestation}
  {sb : SignedBlockWithAttestation} {pre post : List AggregatedAttestation}
  {a : AggregatedAttestation} {l l' : VoteLoop}

/-- The validators, out of `n`, with a vote for `target` in the blocks from a block of the chain
    of `s` below it. -/
def PooledVoters (s : State) (n : ℕ) (blocks : List SignedBlockWithAttestation)
    (target : Checkpoint) (V : Finset ℕ) : Prop :=
  ∀ v ∈ V, v < n ∧ ∃ d ∈ includedVotes blocks v, d.target = target ∧ s.FromChain d

/-- What is behind the round of `a` in the block `sb` if it finalizes a higher slot. -/
structure FinalizedByPool (E : Env) (g s : State) (blocks : List SignedBlockWithAttestation)
    (sb : SignedBlockWithAttestation) (a : AggregatedAttestation) (l' : VoteLoop) : Prop where
  /-- The source is finalized because the target is justified. -/
  finalized_eq : l'.latestFinalized = a.data.source
  justified_eq : l'.latestJustified = a.data.target
  /-- Two thirds of the validators have a vote for the target, from blocks of the chain. -/
  target_pool : ∃ V, Quorum g.validators.length V ∧
    PooledVoters (s.beforeVotes E sb.block) g.validators.length (blocks ++ [sb]) a.data.target V
  /-- Two thirds of the validators have a vote for the source. -/
  source_quorum : Quorum g.validators.length
    (targetVoters g.validators.length (blocks ++ [sb]) a.data.source)
  /-- The validators of the vote that completes the tally, at least one, have a vote for exactly
      this link. -/
  completed : (AggregationBits.setIndices a.aggregationBits ≠ []) ∧
    ∀ v ∈ AggregationBits.setIndices a.aggregationBits,
      v ∈ linkVoters g.validators.length (blocks ++ [sb]) a.data.source a.data.target

/-- A counted vote is from a block of the chain, and it is included in the blocks, up to and
    including this one. -/
theorem ReachedFromGenesis.counted_included (hE : E.HashIdeal)
    (hreach : ReachedFromGenesis E g blocks s) {done : List AggregatedAttestation}
    (hdone : done ⊆ sb.block.body.attestations) {b : AggregatedAttestation}
    (hb : b ∈ g.chainVotes E blocks ++ (s.beforeVotes E sb.block).countedVotes l done) :
    (s.beforeVotes E sb.block).FromChain b.data ∧
      ∀ v ∈ AggregationBits.setIndices b.aggregationBits,
        b.data ∈ includedVotes (blocks ++ [sb]) v := by
  rcases List.mem_append.mp hb with hb | hb
  · obtain ⟨time, validators, hne, hg⟩ := hreach.genesis
    refine ⟨?_, fun v hv => ?_⟩
    · refine ((ChainInv.genesis hne hg).fromChain hE hreach.run b hb).mono ?_
      exact List.prefix_append _ _
    · obtain ⟨sb', hsb', hin⟩ := State.mem_chainVotes hb
      exact mem_includedVotes.mpr ⟨sb', by simp [hsb'], b, hin, hv, rfl⟩
  · refine ⟨State.fromChain_of_counted hb, fun v hv => ?_⟩
    exact mem_includedVotes.mpr ⟨sb, by simp, b, hdone (State.mem_countedVotes hb), hv, rfl⟩

/-- A checkpoint is finalized by a pool of two thirds for the target of its link, and by at least
    one vote for the link itself. -/
theorem finalized_by_pooled_votes (hE : E.HashIdeal) (hreach : ReachedFromGenesis E g blocks s)
    (hsplit : sb.block.body.attestations = pre ++ a :: post)
    (hl : s.loopAfter E sb.block pre = .ok l) (hl' : s.loopAfter E sb.block (pre ++ [a]) = .ok l')
    (hmove : l.latestFinalized.slot < l'.latestFinalized.slot) :
    FinalizedByPool E g s blocks sb a l' := by
  have inv := hreach.chainInv hE
  obtain ⟨-, l₀, h₀, hpre, linv⟩ := inv.loopAfter hE hl
  obtain ⟨-, l₀', h₀', hrun', linv'⟩ := inv.loopAfter hE hl'
  obtain rfl := Except.ok.inj (h₀.symm.trans h₀')
  rw [List.foldlM_append, hpre, ok_bind, List.foldlM_cons] at hrun'
  obtain ⟨l₁, hround, hrun'⟩ := bind_eq_ok.mp hrun'
  obtain rfl := Except.ok.inj hrun'
  have hn : (s.beforeVotes E sb.block).validators.length = g.validators.length :=
    congrArg List.length hreach.validators_eq
  have hupto : pre ++ [a] ⊆ sb.block.body.attestations := by
    rw [hsplit]
    intro b hb
    rcases List.mem_append.mp hb with hb | hb
    · exact List.mem_append_left _ hb
    · exact List.mem_append_right _ (by simp [List.mem_singleton.mp hb])
  -- only a round that finalizes its source moves the finalized slot
  cases State.processAttestation_round hround with
  | skipped hc => exact absurd hmove (lt_irrefl _)
  | tallied tally ht hq => exact absurd hmove (lt_irrefl _)
  | justified tally ht hq window hw hdir => exact absurd hmove (lt_irrefl _)
  | refinalized tally ht hq window hw hdir hle => exact absurd hmove (Nat.not_lt.mpr hle)
  | finalized tally ht hq window shifted hw hdir hlt hs hroots =>
    have ha : a ∈ sb.block.body.attestations := by rw [hsplit]; simp
    have hledger : (s.beforeVotes E sb.block).countedVotes l₀ (pre ++ [a]) =
        (s.beforeVotes E sb.block).countedVotes l₀ pre ++ [a] := by
      rw [State.countedVotes_append hpre, State.countedVotes_cons hround,
        State.counted_of_counts ht.counts]
      rfl
    obtain ⟨hbits, hvoter⟩ := linv.bitsOf_tally ht
    rw [List.append_assoc, ← hledger] at hbits
    -- whoever counts for a checkpoint has an included vote for it, from a block of the chain
    have hpool : ∀ c, PooledVoters (s.beforeVotes E sb.block) g.validators.length (blocks ++ [sb])
        c (voters (g.chainVotes E blocks ++
          (s.beforeVotes E sb.block).countedVotes l₀ (pre ++ [a])) c) := by
      intro c v hv
      obtain ⟨b, hb, htarget, hmem⟩ := mem_voters.mp hv
      obtain ⟨hfrom, hin⟩ := hreach.counted_included hE hupto hb
      exact ⟨hn ▸ linv'.voter_lt b hb v hmem, b.data, hin v hmem, htarget, hfrom⟩
    exact {
      finalized_eq := rfl
      justified_eq := rfl
      target_pool := by
        refine ⟨_, ?_, hpool _⟩
        rw [← hn]
        show 2 * _ ≤ 3 * _
        rw [← hbits.count_eq_card]
        exact hq
      source_quorum := by
        have hquorum := linv'.finalized_quorum.resolve_left (Nat.ne_of_gt (Nat.zero_lt_of_lt hmove))
        rw [hn] at hquorum
        refine hquorum.mono fun v hv => ?_
        obtain ⟨hlt, d, hd, htarget, -⟩ := hpool _ v hv
        exact Finset.mem_filter.mpr ⟨Finset.mem_range.mpr hlt, d, hd, htarget⟩
      completed := by
        refine ⟨ht.nonempty, fun v hv => ?_⟩
        refine Finset.mem_filter.mpr ⟨Finset.mem_range.mpr (hn ▸ hvoter v hv), a.data, ?_, rfl, rfl⟩
        exact mem_includedVotes.mpr ⟨sb, by simp, a, ha, hv, rfl⟩ }

end Finalizing

/-! ## A link with one vote -/

namespace PooledFork

open Sample

theorem reached_main2 : ReachedFromGenesis env genesis (mainBlocks.take 2) main2 where
  genesis := ⟨0, validators, by simp [validators], rfl⟩
  run := by decide +kernel

/-- The block at slot 3, with the votes that finalize slot 1. -/
def block3 : SignedBlockWithAttestation := block 3 3 3 6 votes3

/-- Before its last vote: slot 1 is justified, and one vote for slot 2 is in. -/
def loopBefore : VoteLoop where
  latestJustified := ⟨2, 1⟩
  latestFinalized := ⟨1, 0⟩
  justifiedSlots := [true, false]
  justifications := AList.insert 3 [true, false, false] ∅

def loopEnd : VoteLoop where
  latestJustified := ⟨3, 2⟩
  latestFinalized := ⟨2, 1⟩
  justifiedSlots := [true]
  justifications := ∅

theorem loopAfter_take_two :
    main2.loopAfter env block3.block (votes3.take 2) = .ok loopBefore := by
  rfl

theorem loopAfter_votes : main2.loopAfter env block3.block votes3 = .ok loopEnd := by
  rfl

end PooledFork

/-- The block at slot 3 finalizes slot 1 for a link to slot 2 with the vote of one validator out
    of three. -/
theorem finalized_without_supermajority_link :
    PooledFork.env.HashIdeal ∧
      ReachedFromGenesis PooledFork.env PooledFork.genesis (PooledFork.mainBlocks.take 2)
        PooledFork.main2 ∧
      PooledFork.main2.loopAfter PooledFork.env PooledFork.block3.block
        (PooledFork.votes3.take 2) = .ok PooledFork.loopBefore ∧
      PooledFork.main2.loopAfter PooledFork.env PooledFork.block3.block PooledFork.votes3 =
        .ok PooledFork.loopEnd ∧
      PooledFork.main2.stateTransition PooledFork.env PooledFork.block3 true =
        .ok PooledFork.main3 ∧
      PooledFork.loopBefore.latestFinalized.slot < PooledFork.loopEnd.latestFinalized.slot ∧
      ¬ Quorum PooledFork.genesis.validators.length
        (linkVoters PooledFork.genesis.validators.length PooledFork.mainBlocks
          PooledFork.loopEnd.latestFinalized PooledFork.loopEnd.latestJustified) :=
  ⟨Env.tabulated_hashIdeal _, PooledFork.reached_main2, PooledFork.loopAfter_take_two,
    PooledFork.loopAfter_votes, by decide +kernel, by decide, by decide +kernel⟩

/-- There the two votes for slot 2 come from two sources. -/
theorem slot_one_finalized_by_pool :
    FinalizedByPool PooledFork.env PooledFork.genesis PooledFork.main2
      (PooledFork.mainBlocks.take 2) PooledFork.block3 (Sample.vote [false, true] ⟨2, 1⟩ ⟨3, 2⟩)
      PooledFork.loopEnd :=
  finalized_by_pooled_votes (Env.tabulated_hashIdeal _) PooledFork.reached_main2
    (show PooledFork.votes3 = PooledFork.votes3.take 2 ++ _ :: [] from rfl)
    PooledFork.loopAfter_take_two PooledFork.loopAfter_votes (by decide)

end ConsensusClient
