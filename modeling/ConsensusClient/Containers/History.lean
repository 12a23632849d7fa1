import ConsensusClient.Containers.Finality

/-!
# The History of a Chain

`historical_block_hashes` lists the roots of the blocks of a chain by slot. The root of a block
is not known while the block is processed: its header is stored with a zero state root, which
the first slot after the block fills with the hash of the post-state, and only the next block
hashes the header. Since an accepted block names the hash of its post-state, the sealed header
is the header of the block (`BlockStep.sealedHeader_eq`), and the entry is the root of the block.

## Main results

* `BlockStep.sealedHeader_eq`: the header of a state, sealed, is the header of its block
* `RecordsChain.runChain`: the history along a run of blocks
* `history_lists_chain_roots`: each entry is the root of the block at its slot, or zero
* `ReachedFromGenesis.checkpoints_mem`: both checkpoints are blocks of the chain
-/

namespace ConsensusClient

/-- The genesis block, as `main` builds it. -/
def genesisBlock (E : Env) (genesis : State) : Block where
  slot := 0
  proposerIndex := 0
  parentRoot := 0
  stateRoot := E.hashState genesis
  body := { attestations := [] }

section History

variable {E : Env} {g s s' : State} {chain : List Block}
  {blocks : List SignedBlockWithAttestation} {sb : SignedBlockWithAttestation}

/-! ## Sealed headers -/

/-- The header stored for an accepted block, once sealed, is the header of the block. -/
theorem BlockStep.sealedHeader_eq {block : Block} {l l' : VoteLoop}
    (step : BlockStep E s block s' l l') : s'.sealedHeader E = block.header E := by
  have hheader : s'.latestBlockHeader = { block.header E with stateRoot := 0 } := by
    rw [step.result]
    rfl
  rw [State.sealedHeader, hheader, ← step.state_root]
  rfl

theorem BlockStep.blockRoot_eq {block : Block} {l l' : VoteLoop}
    (step : BlockStep E s block s' l l') : s'.blockRoot E = block.hashTreeRoot E := by
  rw [State.blockRoot, step.sealedHeader_eq]
  rfl

/-- A genesis state seals to the header of the genesis block. -/
theorem genesis_sealedHeader {time : ℕ} {validators : List Validator}
    (h : generateGenesisWithValidators E time validators = .ok g) :
    g.sealedHeader E = (genesisBlock E g).header E := by
  obtain ⟨-, rfl⟩ := generateGenesisWithValidators_eq_ok h
  rfl

/-! ## The history of the blocks so far -/

/-- The history of `s` is the one of the blocks of `chain`, the last of which is its latest. -/
structure RecordsChain (E : Env) (chain : List Block) (s : State) : Prop where
  /-- No block is after the latest one. -/
  slot_le : ∀ b ∈ chain, b.slot ≤ s.latestBlockHeader.slot
  /-- The latest block is on the chain. -/
  latest_mem : ∃ b ∈ chain, b.slot = s.latestBlockHeader.slot
  /-- The root of the latest block is the root of the sealed header. -/
  latest_root : ∀ b ∈ chain, b.slot = s.latestBlockHeader.slot →
    b.hashTreeRoot E = s.blockRoot E
  /-- The slot of an earlier block has its root. -/
  entry : ∀ b ∈ chain, b.slot < s.latestBlockHeader.slot →
    s.historicalBlockHashes[b.slot]? = some (b.hashTreeRoot E)
  /-- The other slots have the zero hash. -/
  empty_slot : ∀ i, i < s.latestBlockHeader.slot → (∀ b ∈ chain, b.slot ≠ i) →
    s.historicalBlockHashes[i]? = some 0

theorem RecordsChain.genesis {time : ℕ} {validators : List Validator}
    (h : generateGenesisWithValidators E time validators = .ok g) :
    RecordsChain E [genesisBlock E g] g := by
  have hslot : g.latestBlockHeader.slot = 0 := congrArg BlockHeader.slot (genesis_sealedHeader h)
  exact {
    slot_le := by simp [hslot, genesisBlock]
    latest_mem := ⟨_, List.mem_singleton_self _, hslot.symm⟩
    latest_root := by
      intro b hb _
      rw [List.mem_singleton.mp hb, State.blockRoot, genesis_sealedHeader h]
      rfl
    entry := fun b _ hlt => absurd hlt (by omega)
    empty_slot := fun i hlt => absurd hlt (by omega) }

/-- An accepted block extends the history by the root of its parent and the slots without a
    block after it. -/
theorem RecordsChain.stateTransition (hE : E.HashIdeal) {ledger : List AggregatedAttestation}
    (inv : ChainInv E s ledger) (hrec : RecordsChain E chain s)
    (h : s.stateTransition E sb true = .ok s') : RecordsChain E (chain ++ [sb.block]) s' := by
  obtain ⟨l, l', step⟩ := State.stateTransition_step hE inv.unsealed h
  have hslot : s'.latestBlockHeader.slot = sb.block.slot := by rw [step.result]; rfl
  have hhist : s'.historicalBlockHashes = s.historicalBlockHashes ++ s.blockRoot E ::
      List.replicate (sb.block.slot - s.latestBlockHeader.slot - 1) 0 := by
    rw [step.result]
    rfl
  have hlen := inv.history_length
  have hlt := step.slot_lt
  rw [inv.slot_eq] at hlt
  -- the slots before, at and after the latest block of `s`
  have hold : ∀ i, i < s.latestBlockHeader.slot →
      s'.historicalBlockHashes[i]? = s.historicalBlockHashes[i]? := by
    intro i hi
    rw [hhist, List.getElem?_append_left (by omega)]
  have hlatest : s'.historicalBlockHashes[s.latestBlockHeader.slot]? = some (s.blockRoot E) := by
    rw [hhist, ← hlen, List.getElem?_append_right le_rfl, Nat.sub_self]
    rfl
  have hnew : ∀ i, s.latestBlockHeader.slot < i → i < sb.block.slot →
      s'.historicalBlockHashes[i]? = some 0 := by
    intro i hi hi'
    rw [hhist, List.getElem?_append_right (by omega), List.getElem?_cons, if_neg (by omega),
      List.getElem?_replicate, if_pos (by omega)]
  exact {
    slot_le := by
      intro b hb
      rw [hslot]
      rcases List.mem_append.mp hb with hb | hb
      · exact (hrec.slot_le b hb).trans hlt.le
      · rw [List.mem_singleton.mp hb]
    latest_mem := ⟨sb.block, by simp, hslot.symm⟩
    latest_root := by
      intro b hb hbs
      rw [hslot] at hbs
      rcases List.mem_append.mp hb with hb | hb
      · have := hrec.slot_le b hb
        omega
      · rw [List.mem_singleton.mp hb, step.blockRoot_eq]
    entry := by
      intro b hb hbs
      rw [hslot] at hbs
      rcases List.mem_append.mp hb with hb | hb
      · -- the latest block of `s` is entered now, the others were before
        rcases Nat.eq_or_lt_of_le (hrec.slot_le b hb) with heq | hlt'
        · rw [heq, hlatest, hrec.latest_root b hb heq]
        · rw [hold _ hlt', hrec.entry b hb hlt']
      · rw [List.mem_singleton.mp hb] at hbs
        exact absurd hbs (lt_irrefl _)
    empty_slot := by
      intro i hi hnone
      rw [hslot] at hi
      have hnone' : ∀ b ∈ chain, b.slot ≠ i := fun b hb => hnone b (by simp [hb])
      -- an empty slot is old, or after the latest block
      rcases Nat.lt_trichotomy i s.latestBlockHeader.slot with hi' | rfl | hi'
      · rw [hold i hi', hrec.empty_slot i hi' hnone']
      · obtain ⟨b, hb, hbs⟩ := hrec.latest_mem
        exact absurd hbs (hnone' b hb)
      · exact hnew i hi' hi }

/-- The history along a run is the one of all blocks of the run. -/
theorem RecordsChain.runChain (hE : E.HashIdeal) {ledger : List AggregatedAttestation}
    (inv : ChainInv E s ledger) (hrec : RecordsChain E chain s)
    (h : s.runChain E blocks = .ok s') :
    RecordsChain E (chain ++ blocks.map fun sb => sb.block) s' := by
  induction blocks generalizing s chain ledger with
  | nil =>
    obtain rfl := Except.ok.inj h
    simpa using hrec
  | cons sb rest ih =>
    obtain ⟨s₁, h₁, h⟩ := State.runChain_cons h
    have hrest := ih (inv.stateTransition hE h₁) (hrec.stateTransition hE inv h₁) h
    simpa using hrest

/-! ## Chains from genesis -/

/-- A chain of at least one block has a proposer, and hence a validator. -/
theorem ReachedFromGenesis.of_runChain {time : ℕ} {validators : List Validator}
    (hg : generateGenesisWithValidators E time validators = .ok g) (hne : blocks ≠ [])
    (hrun : g.runChain E blocks = .ok s) : ReachedFromGenesis E g blocks s where
  genesis := by
    refine ⟨time, validators, ?_, hg⟩
    rintro rfl
    obtain ⟨sb, rest, rfl⟩ := List.exists_cons_of_ne_nil hne
    obtain ⟨s₁, h₁, -⟩ := State.runChain_cons hrun
    obtain ⟨s₂, s₃, h₂, h₃, -⟩ := State.stateTransition_eq_ok h₁
    obtain ⟨-, -, -, hn, -⟩ := State.processBlockHeader_eq_ok h₃
    apply hn
    rw [State.processSlots_validators h₂]
    obtain ⟨-, rfl⟩ := generateGenesisWithValidators_eq_ok hg
    rfl
  run := hrun

/-- The history of a chain from genesis lists its block roots: it reaches up to the slot before
    the last block, a slot with a block of the chain has the root of that block, and a slot
    without one has the zero hash. -/
theorem history_lists_chain_roots (hE : E.HashIdeal) {time : ℕ} {validators : List Validator}
    (hg : generateGenesisWithValidators E time validators = .ok g) (hne : blocks ≠ [])
    (hrun : g.runChain E blocks = .ok s) :
    s.historicalBlockHashes.length = (blocks.getLast hne).block.slot ∧
    ∀ i < (blocks.getLast hne).block.slot,
      (∀ b ∈ genesisBlock E g :: blocks.map (fun sb => sb.block), b.slot = i →
        s.historicalBlockHashes[i]? = some (b.hashTreeRoot E)) ∧
      ((∀ b ∈ genesisBlock E g :: blocks.map (fun sb => sb.block), b.slot ≠ i) →
        s.historicalBlockHashes[i]? = some 0) := by
  have hreach := ReachedFromGenesis.of_runChain hg hne hrun
  have inv := hreach.chainInv hE
  obtain ⟨_, _, hn, hg'⟩ := hreach.genesis
  have hrec := (RecordsChain.genesis hg).runChain hE (ChainInv.genesis hn hg') hrun
  -- the latest header is the one of the last block
  have hlast : s.latestBlockHeader.slot = (blocks.getLast hne).block.slot := by
    rw [← List.dropLast_append_getLast hne, State.runChain_append] at hrun
    obtain ⟨s₁, h₁, hrun⟩ := bind_eq_ok.mp hrun
    obtain ⟨s₂, h₂, hrun⟩ := State.runChain_cons hrun
    obtain rfl := Except.ok.inj hrun
    have inv₁ := (ChainInv.genesis hn hg').runChain hE h₁
    obtain ⟨l, l', step⟩ := State.stateTransition_step hE inv₁.unsealed h₂
    rw [step.result]
    rfl
  rw [← hlast]
  refine ⟨inv.history_length, fun i hi => ⟨?_, hrec.empty_slot i hi⟩⟩
  rintro b hb rfl
  exact hrec.entry b hb hi

/-- The chain with one validator has blocks at slots 0, 2 and 3, and none at slot 1. -/
theorem history_of_solo_chain :
    SoloChain.state4.historicalBlockHashes.length = 4 ∧
      SoloChain.state4.historicalBlockHashes[2]? =
        some ((SoloChain.block 2 1 2 []).block.hashTreeRoot SoloChain.env) ∧
      SoloChain.state4.historicalBlockHashes[1]? = some 0 := by
  have hrun : SoloChain.genesis.runChain SoloChain.env [SoloChain.block 2 1 2 [],
      SoloChain.block 3 2 3 [], SoloChain.block 4 3 4 SoloChain.links] = .ok SoloChain.state4 := by
    decide +kernel
  obtain ⟨hlen, hentry⟩ := history_lists_chain_roots (Env.tabulated_hashIdeal _)
    (show generateGenesisWithValidators SoloChain.env 0 [{ pubkey := 7, index := 0 }] =
      .ok SoloChain.genesis from rfl) (by simp) hrun
  refine ⟨hlen, (hentry 2 (by decide)).1 _ (by simp) rfl, (hentry 1 (by decide)).2 ?_⟩
  intro b hb
  simp only [List.map_cons, List.map_nil, List.mem_cons, List.not_mem_nil, or_false] at hb
  rcases hb with rfl | rfl | rfl | rfl
  · decide
  · decide
  · decide
  · decide

/-! ## The checkpoints are blocks of the chain -/

/-- Neither checkpoint has the zero root, which stands for an empty slot. -/
def VoteLoop.Rooted (l : VoteLoop) : Prop :=
  l.latestJustified.root ≠ 0 ∧ l.latestFinalized.root ≠ 0

/-- The checkpoints of a state, once the genesis block is their root. -/
def State.Rooted (s : State) : Prop :=
  s.latestJustified.root ≠ 0 ∧ s.latestFinalized.root ≠ 0

/-- A round moves the checkpoints to the target and the source of a counted vote only. -/
theorem VoteLoop.Rooted.processAttestation {l l' : VoteLoop} {a : AggregatedAttestation}
    (hl : l.Rooted) (h : s.processAttestation l a = .ok l') : l'.Rooted := by
  cases State.processAttestation_round h with
  | skipped hc => exact hl
  | tallied tally ht hq => exact hl
  | justified tally ht hq window hw hdir => exact ⟨ht.counts.target_ne_zero, hl.2⟩
  | refinalized tally ht hq window hw hdir hle =>
    exact ⟨ht.counts.target_ne_zero, ht.counts.source_ne_zero⟩
  | finalized tally ht hq window shifted hw hdir hlt hs hroots =>
    exact ⟨ht.counts.target_ne_zero, ht.counts.source_ne_zero⟩

theorem VoteLoop.Rooted.foldlM {votes : List AggregatedAttestation} {l l' : VoteLoop}
    (hl : l.Rooted) (h : votes.foldlM s.processAttestation l = .ok l') : l'.Rooted := by
  induction votes generalizing l with
  | nil =>
    obtain rfl := Except.ok.inj h
    exact hl
  | cons a rest ih =>
    rw [List.foldlM_cons] at h
    obtain ⟨l₁, hround, h⟩ := bind_eq_ok.mp h
    exact ih (hl.processAttestation hround) h

/-- The first block roots the checkpoints in the genesis block, and they stay rooted. -/
theorem State.Rooted.stateTransition (hE : E.HashIdeal)
    (hu : s.latestBlockHeader.stateRoot = 0) (hs : s.latestBlockHeader.slot = 0 ∨ s.Rooted)
    (h : s.stateTransition E sb true = .ok s') : s'.Rooted := by
  obtain ⟨l, l', step⟩ := State.stateTransition_step hE hu h
  have hbefore : (s.beforeVotes E sb.block).Rooted := by
    by_cases h0 : s.latestBlockHeader.slot = 0
    · simp [State.Rooted, State.beforeVotes, State.withHeader, State.advanced,
        State.sealedHeader, h0, hE.header_ne_zero]
    · have hslot : ((s.advanced E sb.block.slot).latestBlockHeader).slot ≠ 0 := h0
      simp only [State.Rooted, State.beforeVotes, State.withHeader, if_neg hslot]
      exact hs.resolve_left h0
  have hl : l.Rooted := by
    obtain ⟨-, m, -, rfl⟩ := State.voteLoop_eq_ok.mp step.start
    exact hbefore
  rw [step.result]
  exact hl.foldlM step.run

theorem State.Rooted.runChain (hE : E.HashIdeal) {ledger : List AggregatedAttestation}
    (inv : ChainInv E s ledger) (hs : s.latestBlockHeader.slot = 0 ∨ s.Rooted)
    (hne : blocks ≠ []) (h : s.runChain E blocks = .ok s') : s'.Rooted := by
  induction blocks generalizing s ledger with
  | nil => exact absurd rfl hne
  | cons sb rest ih =>
    obtain ⟨s₁, h₁, h⟩ := State.runChain_cons h
    have hrooted := State.Rooted.stateTransition hE inv.unsealed hs h₁
    by_cases hrest : rest = []
    · subst hrest
      obtain rfl := Except.ok.inj h
      exact hrooted
    · exact ih (inv.stateTransition hE h₁) (Or.inr hrooted) hrest h

/-- An entry of the history other than the zero hash is the root of a block of the chain. -/
theorem RecordsChain.exists_block (hrec : RecordsChain E chain s)
    (hlen : s.historicalBlockHashes.length = s.latestBlockHeader.slot) {c : Checkpoint}
    (hne : c.root ≠ 0) (hc : s.historicalBlockHashes[c.slot]? = some c.root) :
    ∃ b ∈ chain, b.slot = c.slot ∧ b.hashTreeRoot E = c.root := by
  have hlt := (List.getElem?_eq_some_iff.mp hc).1
  rw [hlen] at hlt
  by_contra hnone
  have hslot : ∀ b ∈ chain, b.slot ≠ c.slot := by
    intro b hb hbs
    apply hnone
    refine ⟨b, hb, hbs, ?_⟩
    have hentry := hrec.entry b hb (hbs ▸ hlt)
    rw [hbs, hc] at hentry
    exact (Option.some.inj hentry).symm
  rw [hrec.empty_slot c.slot hlt hslot] at hc
  exact hne (Option.some.inj hc).symm

/-- After at least one block, both checkpoints are blocks of the chain. -/
theorem ReachedFromGenesis.checkpoints_mem (hE : E.HashIdeal)
    (h : ReachedFromGenesis E g blocks s) (hne : blocks ≠ []) {c : Checkpoint}
    (hc : c = s.latestJustified ∨ c = s.latestFinalized) :
    ∃ b ∈ genesisBlock E g :: blocks.map (fun sb => sb.block),
      b.slot = c.slot ∧ b.hashTreeRoot E = c.root := by
  obtain ⟨time, validators, hn, hg⟩ := h.genesis
  have ginv : ChainInv E g [] := ChainInv.genesis hn hg
  have inv := h.chainInv hE
  have hrec := (RecordsChain.genesis hg).runChain hE ginv h.run
  have hslot : g.latestBlockHeader.slot = 0 := congrArg BlockHeader.slot (genesis_sealedHeader hg)
  have hrooted := State.Rooted.runChain hE ginv (Or.inl hslot) hne h.run
  obtain ⟨l, hl, linv⟩ := inv.settled (State.runChain_slot_ne_zero hE ginv hne h.run)
  obtain ⟨-, m, -, rfl⟩ := State.voteLoop_eq_ok.mp hl
  rcases hc with rfl | rfl
  · exact hrec.exists_block inv.history_length hrooted.1 linv.justified_on_chain
  · exact hrec.exists_block inv.history_length hrooted.2 linv.finalized_on_chain

end History

end ConsensusClient
