import ConsensusClient.Containers.Collection

/-!
# Which Blocks the State Transition Accepts

The checks of the state transition are spread over slot processing, the header, the test for
duplicates and the rounds of the vote loop, and some of them are index operations and assertions
on a path that only a vote with the right checkpoints takes. This module collects them: on a
reachable state, a block that passes is accepted with exactly one state root, and no other block
is accepted with any.

A vote that is only useless is skipped. What makes a round refuse the whole block is a checkpoint
outside the history, an attestation without voters or with unknown ones, and a late completion of
two thirds from a source that was overtaken by finalization.

## Main results

* `LoopInv.exists_round_iff`: a round succeeds exactly when it is not refused
* `ChainInv.exists_processBlock_iff`: a block is processed exactly when it passes the checks
* `accepted_exactly_with_one_root`: the transition accepts such a block with one state root
-/

namespace ConsensusClient

/-! ## One round -/

/-- The round of `a` does not return a new state: its source is not before the block, it fails, its
    votes count and there are none, or it is stale. -/
def State.RefusedRound (s : State) (l : VoteLoop) (a : AggregatedAttestation) : Prop :=
  s.historicalBlockHashes.length ≤ a.data.source.slot ∨ s.FailingRound l a ∨
    s.Counts l a.data.source a.data.target ∧ AggregationBits.setIndices a.aggregationBits = [] ∨
    s.StaleRound l a

section Round

variable {s : State} {ledger : List AggregatedAttestation} {l : VoteLoop}
  {a : AggregatedAttestation}

/-- The skip checks give an answer exactly for checkpoints in the history, where the target is
    only looked up behind a justified source. -/
theorem LoopInv.exists_voteCounts_iff (inv : LoopInv s ledger l) {source target : Checkpoint} :
    (∃ counts, s.voteCounts l source target = .ok counts) ↔
      source.slot < s.historicalBlockHashes.length ∧
        (l.justifiedSlots.bitAt l.latestFinalized.slot source.slot = some true →
          target.slot < s.historicalBlockHashes.length) := by
  have hlen := inv.window_length
  -- a slot with a bit is one of the history
  have hin : ∀ t b, l.justifiedSlots.bitAt l.latestFinalized.slot t = some b →
      t < s.historicalBlockHashes.length := by
    intro t b hb
    by_contra hge
    rw [JustifiedSlots.bitAt_eq_none.mpr (by omega)] at hb
    exact absurd hb (by simp)
  constructor
  · rintro ⟨counts, h⟩
    unfold State.voteCounts at h
    obtain ⟨b₁, h₁, h⟩ := bind_eq_ok.mp h
    rw [JustifiedSlots.isSlotJustified_eq_ok] at h₁
    -- the target is looked up behind a justified source only
    refine ⟨hin _ _ h₁, fun hjust => ?_⟩
    obtain rfl : b₁ = true := Option.some.inj (h₁.symm.trans hjust)
    rw [if_neg (by simp)] at h
    obtain ⟨b₂, h₂, -⟩ := bind_eq_ok.mp h
    exact hin _ _ (JustifiedSlots.isSlotJustified_eq_ok.mp h₂)
  · rintro ⟨hsource, htarget⟩
    exact inv.exists_voteCounts hsource htarget

/-- The round of a vote that counts succeeds exactly when there are voters, all of them are
    registered, and it is not stale. -/
theorem LoopInv.exists_counted_iff (inv : LoopInv s ledger l)
    (hd : DistinctRoots s.historicalBlockHashes)
    (hc : s.Counts l a.data.source a.data.target) :
    (∃ l', s.processAttestation l a = .ok l') ↔
      AggregationBits.setIndices a.aggregationBits ≠ [] ∧
        (∀ v ∈ AggregationBits.setIndices a.aggregationBits, v < s.validators.length) ∧
        ¬ s.StaleRound l a := by
  constructor
  · rintro ⟨l', h⟩
    -- a stale round panics
    have hstale : ¬ s.StaleRound l a := by
      intro hstale
      obtain ⟨m, hm⟩ := inv.panics_of_stale hstale
      exact absurd (hm.symm.trans h) (by simp)
    -- the others get as far as the tally, which needs registered voters
    unfold State.processAttestation at h
    rw [State.voteCounts_eq_true.mpr hc, ok_bind, if_neg (by simp)] at h
    obtain ⟨ids, hids, h⟩ := bind_eq_ok.mp h
    obtain ⟨rfl, hbits⟩ := toValidatorIndices_eq_ok.mp hids
    obtain ⟨tally, ht, -⟩ := bind_eq_ok.mp h
    exact ⟨hbits, (inv.bitsOf_tally ⟨hc, hbits, ht⟩).2, hstale⟩
  · rintro ⟨hbits, hreg, hstale⟩
    rw [← inv.tallyOf_length hc] at hreg
    obtain ⟨tally, ht⟩ := exists_castVotes hreg
    unfold State.processAttestation
    rw [State.voteCounts_eq_true.mpr hc, ok_bind, if_neg (by simp),
      toValidatorIndices_eq_ok.mpr ⟨rfl, hbits⟩, ok_bind, ht, ok_bind]
    simp only
    -- with two thirds the target is justified, otherwise the tally is stored
    split_ifs with hq
    · refine inv.exists_justify hd ⟨hc, hbits, ht⟩ hq ?_
      by_contra hlt
      exact hstale ⟨tally, ⟨hc, hbits, ht⟩, hq, Nat.lt_of_not_le hlt⟩
    · exact ⟨_, rfl⟩

/-- A round succeeds exactly when it is not refused. -/
theorem LoopInv.exists_round_iff (inv : LoopInv s ledger l)
    (hd : DistinctRoots s.historicalBlockHashes) :
    (∃ l', s.processAttestation l a = .ok l') ↔ ¬ s.RefusedRound l a := by
  by_cases hc : s.Counts l a.data.source a.data.target
  · -- the checkpoints of a vote that counts are in the history
    have hsource := (List.getElem?_eq_some_iff.mp hc.source_on_chain).1
    have htarget := (List.getElem?_eq_some_iff.mp hc.target_on_chain).1
    rw [inv.exists_counted_iff hd hc]
    unfold State.RefusedRound State.FailingRound
    simp only [hc, hsource.not_ge, htarget.not_ge, and_false, true_and, false_or, not_or,
      not_exists, not_and, not_le]
    tauto
  · have hrefused : s.RefusedRound l a ↔ ¬ (a.data.source.slot < s.historicalBlockHashes.length ∧
        (l.justifiedSlots.bitAt l.latestFinalized.slot a.data.source.slot = some true →
          a.data.target.slot < s.historicalBlockHashes.length)) := by
      have hstale : ¬ s.StaleRound l a := fun ⟨_, ht, _⟩ => hc ht.counts
      unfold State.RefusedRound State.FailingRound
      simp only [hc, hstale, false_and, or_false, not_and_or, not_lt, Classical.not_imp]
    rw [hrefused, not_not, ← inv.exists_voteCounts_iff]
    -- the vote is skipped, once the checks have an answer
    refine exists_bind_iff fun counts hcounts => ?_
    obtain rfl : counts = false := by
      cases counts with
      | false => rfl
      | true => exact absurd (State.voteCounts_eq_true.mp hcounts) hc
    exact ⟨l, rfl⟩

end Round

/-! ## Blocks -/

/-- The block passes every check of the state transition but the one of its state root. -/
structure State.Accepts (E : Env) (s : State) (block : Block) : Prop where
  slot_lt : s.slot < block.slot
  /-- The roots of all slots before the block fit into the history. -/
  room : block.slot ≤ historicalRootsLimit
  proposer : block.slot % s.validators.length = block.proposerIndex
  parent_root : block.parentRoot = s.blockRoot E
  distinct_data : hasDuplicateData E block.body.attestations = false
  /-- No round is refused when the loop gets to it. -/
  rounds : ∀ pre a rest l, block.body.attestations = pre ++ a :: rest →
    s.loopAfter E block pre = .ok l → ¬ (s.beforeVotes E block).RefusedRound l a

/-- The signed block with another state root. -/
def SignedBlockWithAttestation.withStateRoot (sb : SignedBlockWithAttestation) (root : H256) :
    SignedBlockWithAttestation :=
  { sb with message := { sb.message with block := { sb.block with stateRoot := root } } }

section Block

variable {E : Env} {s : State} {ledger : List AggregatedAttestation} {block : Block}

/-- Slots and header are processed exactly for a block of the right slot, proposer and parent,
    as long as the history has room. -/
theorem ChainInv.exists_withHeader_iff (hE : E.HashIdeal) (inv : ChainInv E s ledger) :
    (∃ s₁ s₂, s.processSlots E block.slot = .ok s₁ ∧ s₁.processBlockHeader E block = .ok s₂) ↔
      s.slot < block.slot ∧ block.slot ≤ historicalRootsLimit ∧
        block.slot % s.validators.length = block.proposerIndex ∧
        block.parentRoot = s.blockRoot E := by
  -- the history has one root for each slot before the latest block
  have hroom : s.slot < block.slot →
      (s.historicalBlockHashes.length + (block.slot - s.latestBlockHeader.slot) ≤
        historicalRootsLimit ↔ block.slot ≤ historicalRootsLimit) := by
    intro hlt
    have hslot := inv.slot_eq
    rw [inv.history_length, Nat.add_sub_cancel' (by omega)]
  have hiff : s.slot < block.slot → block.slot % s.validators.length = block.proposerIndex →
      block.parentRoot = s.blockRoot E →
      ((∃ s₂, (s.advanced E block.slot).processBlockHeader E block = .ok s₂) ↔
        block.slot ≤ historicalRootsLimit) := by
    intro hlt hprop hparent
    have hslot := inv.slot_eq
    exact (State.exists_processBlockHeader_iff (s := s.advanced E block.slot) block rfl
      (show s.latestBlockHeader.slot < block.slot by omega) inv.validators_pos.ne' hprop
      hparent).trans (hroom hlt)
  constructor
  · rintro ⟨s₁, s₂, h₁, h₂⟩
    obtain ⟨-, hlt, hprop, hparent⟩ := State.header_eq_ok hE inv.unsealed h₁ h₂
    obtain ⟨-, rfl⟩ := (State.processSlots_eq_ok hE inv.unsealed).mp h₁
    exact ⟨hlt, (hiff hlt hprop hparent).mp ⟨s₂, h₂⟩, hprop, hparent⟩
  · rintro ⟨hlt, hle, hprop, hparent⟩
    obtain ⟨s₂, h₂⟩ := (hiff hlt hprop hparent).mpr hle
    exact ⟨_, s₂, (State.processSlots_eq_ok hE inv.unsealed).mpr ⟨hlt, rfl⟩, h₂⟩

/-- The votes of a block are processed exactly when no round is refused. -/
theorem ChainInv.exists_processAttestations_iff (hE : E.HashIdeal) (inv : ChainInv E s ledger)
    (hlt : s.slot < block.slot) (hroom : block.slot ≤ historicalRootsLimit)
    {l₀ : VoteLoop} (h₀ : (s.beforeVotes E block).voteLoop = .ok l₀) :
    (∃ post, (s.beforeVotes E block).processAttestations block.body.attestations = .ok post) ↔
      ∀ pre a rest l, block.body.attestations = pre ++ a :: rest →
        pre.foldlM (s.beforeVotes E block).processAttestation l₀ = .ok l →
        ¬ (s.beforeVotes E block).RefusedRound l a := by
  obtain ⟨l₁, h₁, linv⟩ := inv.loopInv_beforeVotes hE hlt
  obtain rfl := Except.ok.inj (h₀.symm.trans h₁)
  have hd := (inv.chainRoots_beforeVotes block).distinctRoots hE
  have hhist : (s.beforeVotes E block).historicalBlockHashes.length ≤ historicalRootsLimit := by
    rwa [inv.length_beforeVotes hlt]
  unfold State.processAttestations
  rw [h₀, ok_bind, exists_bind_iff fun l hl => (linv.foldlM hd hl).exists_flatten hhist,
    exists_foldlM_iff]
  refine forall_congr' fun pre => forall_congr' fun a => forall_congr' fun rest =>
    forall_congr' fun l => forall_congr' fun _ => forall_congr' fun hpre => ?_
  exact (linv.foldlM hd hpre).exists_round_iff hd

/-- A block is processed exactly when it passes the checks. -/
theorem ChainInv.exists_processBlock_iff (hE : E.HashIdeal) (inv : ChainInv E s ledger) :
    (∃ s₁ post, s.processSlots E block.slot = .ok s₁ ∧ s₁.processBlock E block = .ok post) ↔
      s.Accepts E block := by
  constructor
  · rintro ⟨s₁, post, h₁, h⟩
    obtain ⟨s₂, h₂, h⟩ := bind_eq_ok.mp h
    obtain ⟨_, hdup, hvotes⟩ := bind_eq_ok.mp h
    -- the checks of the header, then those of the votes
    obtain ⟨hlt, hroom, hprop, hparent⟩ := (inv.exists_withHeader_iff hE).mp ⟨s₁, s₂, h₁, h₂⟩
    obtain ⟨rfl, -⟩ := State.header_eq_ok hE inv.unsealed h₁ h₂
    refine ⟨hlt, hroom, hprop, hparent, ensure_eq_ok.mp hdup, fun pre a rest l hsplit hl => ?_⟩
    -- the loop state that a prefix leaves is the one from which the round starts
    unfold State.loopAfter at hl
    rw [h₁, ok_bind, h₂, ok_bind] at hl
    obtain ⟨l₀, h₀, hpre⟩ := bind_eq_ok.mp hl
    exact (inv.exists_processAttestations_iff hE hlt hroom h₀).mp ⟨post, hvotes⟩ pre a rest l
      hsplit hpre
  · intro acc
    -- conversely, each part succeeds after the one before it
    obtain ⟨s₁, s₂, h₁, h₂⟩ := (inv.exists_withHeader_iff hE).mpr
      ⟨acc.slot_lt, acc.room, acc.proposer, acc.parent_root⟩
    obtain ⟨rfl, -⟩ := State.header_eq_ok hE inv.unsealed h₁ h₂
    obtain ⟨l₀, h₀, -⟩ := inv.loopInv_beforeVotes hE acc.slot_lt
    obtain ⟨post, hpost⟩ :=
      (inv.exists_processAttestations_iff hE acc.slot_lt acc.room h₀).mpr fun pre a rest l hsplit
        hpre => acc.rounds pre a rest l hsplit (by
          unfold State.loopAfter
          rw [h₁, ok_bind, h₂, ok_bind, h₀, ok_bind, hpre])
    refine ⟨s₁, post, h₁, ?_⟩
    unfold State.processBlock
    rw [h₂, ok_bind, ensure_of acc.distinct_data, ok_bind, hpost]

/-- The transition with a given state root is the processing of the block, if the root is that of
    the result. -/
theorem State.stateTransition_withStateRoot {sb : SignedBlockWithAttestation} {root : H256}
    {post : State} :
    s.stateTransition E (sb.withStateRoot root) true = .ok post ↔
      (∃ s₁, s.processSlots E sb.block.slot = .ok s₁ ∧ s₁.processBlock E sb.block = .ok post) ∧
        root = E.hashState post := by
  constructor
  · intro h
    obtain ⟨_, -, h⟩ := bind_eq_ok.mp h
    obtain ⟨s₁, h₁, h⟩ := bind_eq_ok.mp h
    obtain ⟨s₃, h₃, h⟩ := bind_eq_ok.mp h
    obtain ⟨_, hroot, h⟩ := bind_eq_ok.mp h
    obtain rfl := Except.ok.inj h
    exact ⟨⟨s₁, h₁, h₃⟩, ensure_eq_ok.mp hroot⟩
  · rintro ⟨⟨s₁, h₁, h₃⟩, rfl⟩
    refine bind_eq_ok.mpr ⟨(), ensure_of rfl, ?_⟩
    refine bind_eq_ok.mpr ⟨s₁, h₁, bind_eq_ok.mpr ⟨post, h₃, ?_⟩⟩
    exact bind_eq_ok.mpr ⟨(), ensure_of rfl, rfl⟩

end Block

/-- On a state reached from genesis, the state transition accepts only blocks that pass the
    checks, and accepts each of these with exactly one state root. -/
theorem accepted_exactly_with_one_root {E : Env} {g s : State}
    {blocks : List SignedBlockWithAttestation} (hE : E.HashIdeal)
    (hreach : ReachedFromGenesis E g blocks s) (sb : SignedBlockWithAttestation) :
    (∀ valid post, s.stateTransition E sb valid = .ok post →
        valid = true ∧ s.Accepts E sb.block) ∧
      (s.Accepts E sb.block →
        ∃! root, ∃ post, s.stateTransition E (sb.withStateRoot root) true = .ok post) := by
  have inv := hreach.chainInv hE
  constructor
  · intro valid post h
    obtain ⟨_, hvalid, h⟩ := bind_eq_ok.mp h
    obtain ⟨s₁, h₁, h⟩ := bind_eq_ok.mp h
    obtain ⟨s₃, h₃, -⟩ := bind_eq_ok.mp h
    exact ⟨ensure_eq_ok.mp hvalid, (inv.exists_processBlock_iff hE).mp ⟨s₁, s₃, h₁, h₃⟩⟩
  · intro acc
    obtain ⟨s₁, post, h₁, h₃⟩ := (inv.exists_processBlock_iff hE).mpr acc
    refine ⟨E.hashState post,
      ⟨post, State.stateTransition_withStateRoot.mpr ⟨⟨s₁, h₁, h₃⟩, rfl⟩⟩, ?_⟩
    rintro root ⟨post', h'⟩
    -- the result does not depend on the root, so both runs end in the same state
    obtain ⟨⟨s₁', h₁', h₃'⟩, rfl⟩ := State.stateTransition_withStateRoot.mp h'
    obtain rfl := Except.ok.inj (h₁.symm.trans h₁')
    obtain rfl := Except.ok.inj (h₃.symm.trans h₃')
    rfl

/-- The block at slot 4 of the chain with one validator is accepted with its state root only. -/
theorem block_four_accepted_with_one_root :
    SoloChain.state3.Accepts SoloChain.env (SoloChain.block 4 3 4 SoloChain.links).block ∧
      ∃! root, ∃ post, SoloChain.state3.stateTransition SoloChain.env
        ((SoloChain.block 4 3 4 SoloChain.links).withStateRoot root) true = .ok post := by
  obtain ⟨hpass, hroot⟩ := accepted_exactly_with_one_root (Env.tabulated_hashIdeal _)
    SoloChain.reached_state3 (SoloChain.block 4 3 4 SoloChain.links)
  have hacc := (hpass true _ SoloChain.transition_state4).2
  exact ⟨hacc, hroot hacc⟩

end ConsensusClient
