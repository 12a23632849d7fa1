import ConsensusClient.Containers.Tally

/-!
# Accountability of Conflicting Finality

Two chains from one genesis may finalize conflicting checkpoints. This module asks who is to
blame: which validators have, among the votes included in the two chains, two votes for
different targets at one slot, or two votes of which one surrounds the other.

The tally pools the votes for a target over all their sources, and the source that is finalized
is the one of the vote that completes two thirds. Hence two thirds of the validators need not
have voted for the link that finalizes, and conflicting checkpoints can be finalized with no
offence at all (`conflicting_finality_without_offence`). What remains is that a third of the
validators voted for both checkpoints, and that a third is to blame if the lower of the two was
finalized by a link of two thirds that the other chain did not cut short.

## Main results

* `third_offends`: two quorums whose common members all offend put a third to blame
* `third_voted_for_both`: conflicting finalized checkpoints have a third of the votes in common
* `UncutLink.third_offends`: a link of two thirds makes the common voters offenders
* `conflicting_finality_accountable`: both parts, for any two chains from one genesis
* `conflicting_finality_without_offence`: two forks of three validators without any offence
-/

namespace ConsensusClient

/-! ## Included votes and offences -/

/-- The votes of validator `v` included in a list of blocks. -/
def includedVotes (blocks : List SignedBlockWithAttestation) (v : ℕ) : List AttestationData :=
  ((blocks.flatMap fun sb => sb.block.body.attestations).filter fun a =>
    v ∈ AggregationBits.setIndices a.aggregationBits).map fun a => a.data

/-- Two votes for different targets at one slot. -/
def DoubleVote (d₁ d₂ : AttestationData) : Prop :=
  d₁.target.slot = d₂.target.slot ∧ d₁.target ≠ d₂.target

/-- The first vote surrounds the second. -/
def Surrounds (d₁ d₂ : AttestationData) : Prop :=
  d₁.source.slot < d₂.source.slot ∧ d₂.target.slot < d₁.target.slot

instance (d₁ d₂ : AttestationData) : Decidable (DoubleVote d₁ d₂) :=
  inferInstanceAs (Decidable (_ ∧ _))

instance (d₁ d₂ : AttestationData) : Decidable (Surrounds d₁ d₂) :=
  inferInstanceAs (Decidable (_ ∧ _))

/-- The validators, out of `n`, with a pair of offending votes in the blocks. -/
def offenders (n : ℕ) (blocks : List SignedBlockWithAttestation) : Finset ℕ :=
  (Finset.range n).filter fun v =>
    ∃ d₁ ∈ includedVotes blocks v, ∃ d₂ ∈ includedVotes blocks v,
      DoubleVote d₁ d₂ ∨ Surrounds d₁ d₂

/-- The validators, out of `n`, with a vote for `target` in the blocks. -/
def targetVoters (n : ℕ) (blocks : List SignedBlockWithAttestation) (target : Checkpoint) :
    Finset ℕ :=
  (Finset.range n).filter fun v => ∃ d ∈ includedVotes blocks v, d.target = target

/-- The validators, out of `n`, with a vote for exactly this link in the blocks. -/
def linkVoters (n : ℕ) (blocks : List SignedBlockWithAttestation) (source target : Checkpoint) :
    Finset ℕ :=
  (Finset.range n).filter fun v =>
    ∃ d ∈ includedVotes blocks v, d.source = source ∧ d.target = target

/-- The checkpoint is a block of the chain of `s` before its latest block. -/
def State.OnChain (s : State) (c : Checkpoint) : Prop :=
  s.historicalBlockHashes[c.slot]? = some c.root

instance (s : State) (c : Checkpoint) : Decidable (s.OnChain c) :=
  inferInstanceAs (Decidable (_ = _))

/-- The finalized checkpoint of `s` is not on the chain of `s'`. The zero checkpoint of a genesis
    state stands for the genesis block, which is on every chain. -/
def State.FinalizedOff (s s' : State) : Prop :=
  s.latestFinalized ≠ ⟨0, 0⟩ ∧ ¬ s'.OnChain s.latestFinalized

instance (s s' : State) : Decidable (s.FinalizedOff s') :=
  inferInstanceAs (Decidable (_ ∧ _))

/-- Neither finalized checkpoint is on the chain of the other state. -/
def ConflictingFinality (s₁ s₂ : State) : Prop :=
  s₁.FinalizedOff s₂ ∧ s₂.FinalizedOff s₁

instance (s₁ s₂ : State) : Decidable (ConflictingFinality s₁ s₂) :=
  inferInstanceAs (Decidable (_ ∧ _))

theorem mem_includedVotes {blocks : List SignedBlockWithAttestation} {v : ℕ}
    {d : AttestationData} :
    d ∈ includedVotes blocks v ↔ ∃ sb ∈ blocks, ∃ a ∈ sb.block.body.attestations,
      v ∈ AggregationBits.setIndices a.aggregationBits ∧ a.data = d := by
  simp only [includedVotes, List.mem_map, List.mem_filter, List.mem_flatMap, decide_eq_true_eq]
  constructor
  · rintro ⟨a, ⟨⟨sb, hsb, ha⟩, hv⟩, rfl⟩
    exact ⟨sb, hsb, a, ha, hv, rfl⟩
  · rintro ⟨sb, hsb, a, ha, hv, rfl⟩
    exact ⟨a, ⟨⟨sb, hsb, ha⟩, hv⟩, rfl⟩

theorem includedVotes_append (blocks blocks' : List SignedBlockWithAttestation) (v : ℕ) :
    includedVotes (blocks ++ blocks') v = includedVotes blocks v ++ includedVotes blocks' v := by
  simp [includedVotes]

/-! ## Counted votes are included -/

theorem State.mem_countedVotes {s : State} {l : VoteLoop}
    {attestations : List AggregatedAttestation} {a : AggregatedAttestation}
    (h : a ∈ s.countedVotes l attestations) : a ∈ attestations := by
  induction attestations generalizing l with
  | nil => exact h
  | cons b rest ih =>
    unfold State.countedVotes at h
    split at h
    · rcases List.mem_append.mp h with h | h
      · unfold State.counted at h
        split at h
        · exact List.mem_cons.mpr (Or.inl (List.mem_singleton.mp h))
        · exact absurd h (by simp)
      · exact List.mem_cons_of_mem _ (ih h)
    · exact absurd h (by simp)

theorem State.mem_blockVotes {E : Env} {s : State} {block : Block} {a : AggregatedAttestation}
    (h : a ∈ s.blockVotes E block) : a ∈ block.body.attestations := by
  unfold State.blockVotes at h
  split at h
  · rename_i votes heq
    obtain ⟨s₁, -, heq⟩ := bind_eq_ok.mp heq
    obtain ⟨s₂, -, heq⟩ := bind_eq_ok.mp heq
    obtain ⟨l, -, heq⟩ := bind_eq_ok.mp heq
    obtain rfl := Except.ok.inj heq
    exact State.mem_countedVotes h
  · exact absurd h (by simp)

theorem State.mem_chainVotes {E : Env} {s : State} {blocks : List SignedBlockWithAttestation}
    {a : AggregatedAttestation} (h : a ∈ s.chainVotes E blocks) :
    ∃ sb ∈ blocks, a ∈ sb.block.body.attestations := by
  induction blocks generalizing s with
  | nil => exact absurd h (by simp [State.chainVotes])
  | cons sb rest ih =>
    unfold State.chainVotes at h
    split at h
    · rcases List.mem_append.mp h with h | h
      · exact ⟨sb, by simp, State.mem_blockVotes h⟩
      · obtain ⟨sb', hsb', ha⟩ := ih h
        exact ⟨sb', by simp [hsb'], ha⟩
    · exact absurd h (by simp)

/-! ## The votes behind a justified block -/

section Justified

variable {E : Env} {g s : State} {blocks : List SignedBlockWithAttestation}

/-- A validator that counts for a target on a chain has an included vote for it. -/
theorem exists_includedVote {ledger : List AggregatedAttestation} {c : Checkpoint} {v : ℕ}
    (hledger : ∀ a ∈ ledger, a ∈ g.chainVotes E blocks) (hv : v ∈ voters ledger c) :
    ∃ a ∈ ledger, a.data ∈ includedVotes blocks v ∧ a.data.target = c := by
  obtain ⟨a, ha, htarget, hmem⟩ := mem_voters.mp hv
  obtain ⟨sb, hsb, hin⟩ := State.mem_chainVotes (hledger a ha)
  exact ⟨a, ha, mem_includedVotes.mpr ⟨sb, hsb, a, hin, hmem, rfl⟩, htarget⟩

/-- The finalized checkpoint of a chain is its genesis block or has two thirds of the votes. -/
theorem finalized_quorum_targetVoters (hE : E.HashIdeal)
    (hreach : ReachedFromGenesis E g blocks s) (hblock : s.latestBlockHeader.slot ≠ 0)
    (h0 : s.latestFinalized.slot ≠ 0) :
    Quorum s.validators.length
      (targetVoters s.validators.length blocks s.latestFinalized) := by
  obtain ⟨m, -, linv⟩ := hreach.settled hE hblock
  apply (linv.finalized_quorum.resolve_left h0).mono
  intro v hv
  obtain ⟨a, -, hincl, htarget⟩ := exists_includedVote (fun _ h => h) hv
  exact Finset.mem_filter.mpr ⟨linv.voters_subset _ hv, a.data, hincl, htarget⟩

/-- A property of prefixes that the whole list has and the empty one has not is first met at
    some element. -/
private theorem exists_first_prefix {α : Type} {P : List α → Prop} {xs : List α}
    (hnil : ¬ P []) (hxs : P xs) :
    ∃ pre x post, xs = pre ++ x :: post ∧ ¬ P pre ∧ P (pre ++ [x]) := by
  induction xs using List.reverseRecOn with
  | nil => exact absurd hxs hnil
  | append_singleton ys y ih =>
    by_cases hys : P ys
    · obtain ⟨pre, x, post, rfl, hpre, hx⟩ := ih hys
      exact ⟨pre, x, post ++ [y], by simp, hpre, hx⟩
    · exact ⟨ys, y, [], rfl, hys, hxs⟩

/-- The first block of a chain at or above a slot `k > 0` to be justified has two thirds of
    votes whose sources are all below `k`. -/
theorem exists_first_justified {l : VoteLoop} {ledger : List AggregatedAttestation} {k : ℕ}
    {top : Checkpoint} (linv : LoopInv s ledger l) (hn : 0 < s.validators.length) (hk : 0 < k)
    (htop : s.OnChain top) (hle : k ≤ top.slot)
    (hq : Quorum s.validators.length (voters ledger top)) :
    ∃ c, s.OnChain c ∧ k ≤ c.slot ∧ Quorum s.validators.length (voters ledger c) ∧
      ∃ part, (∀ a ∈ part, a ∈ ledger) ∧ Quorum s.validators.length (voters part c) ∧
        ∀ a ∈ part, a.data.source.slot < k := by
  -- cut the ledger where some block at or above `k` first has two thirds
  let P : List AggregatedAttestation → Prop := fun pre =>
    ∃ c, s.OnChain c ∧ k ≤ c.slot ∧ Quorum s.validators.length (voters pre c)
  have hmono : ∀ pre rest, P pre → P (pre ++ rest) := by
    rintro pre rest ⟨c, hc, hkc, hqc⟩
    exact ⟨c, hc, hkc, hqc.mono (voters_subset_append _ _ _)⟩
  have hnil : ¬ P [] := by
    rintro ⟨c, -, -, hqc⟩
    rw [voters_nil] at hqc
    exact not_quorum_empty hn hqc
  obtain ⟨pre, a, post, hsplit, hpre, c, hc, hkc, hqc⟩ :=
    exists_first_prefix hnil ⟨top, htop, hle, hq⟩
  have hsub : ledger = (pre ++ [a]) ++ post := by rw [hsplit]; simp
  refine ⟨c, hc, hkc, ?_, pre ++ [a], ?_, hqc, ?_⟩
  · rw [hsub]
    exact hqc.mono (voters_subset_append _ _ _)
  · intro b hb
    rw [hsub]
    exact List.mem_append_left _ hb
  · intro b hb
    obtain ⟨before, after, hba⟩ := List.append_of_mem hb
    -- when `b` was counted its source was at most a justified slot, and none was at `k` yet
    obtain ⟨-, c', hle', hc', hq'⟩ := linv.source_justified before b (after ++ post)
      (by rw [hsub, hba]; simp)
    by_contra hge
    rcases hq' with h0 | hq'
    · omega
    · apply hpre
      rcases List.eq_nil_or_concat after with rfl | ⟨after', z, rfl⟩
      · obtain ⟨rfl, -⟩ := List.append_inj' hba rfl
        exact ⟨c', hc', by omega, hq'⟩
      · rw [List.concat_eq_append, ← List.cons_append, ← List.append_assoc] at hba
        obtain ⟨rfl, -⟩ := List.append_inj' hba rfl
        exact hmono before _ ⟨c', hc', by omega, hq'⟩

end Justified

/-! ## Two chains from one genesis -/

section TwoChains

variable {E : Env} {g s s₁ s₂ : State} {blocks blocks₁ blocks₂ : List SignedBlockWithAttestation}

/-- A block on two chains has the same history on both. -/
theorem history_eq_of_onChain (hE : E.HashIdeal) (h₁ : ChainRoots E s₁.historicalBlockHashes)
    (h₂ : ChainRoots E s₂.historicalBlockHashes) {c : Checkpoint} (hc : c.root ≠ 0)
    (hc₁ : s₁.OnChain c) (hc₂ : s₂.OnChain c) :
    s₁.historicalBlockHashes.take c.slot = s₂.historicalBlockHashes.take c.slot := by
  rcases h₁ _ _ hc₁ with h0 | ⟨p, -, hp, htake₁⟩
  · exact absurd h0 hc
  rcases h₂ _ _ hc₂ with h0 | ⟨q, -, hq, htake₂⟩
  · exact absurd h0 hc
  -- the root fixes the sealed header, and the state root in it fixes the state
  have hheader := hE.header_injective (hp.symm.trans hq)
  have hstate : p = q := hE.state_injective (congrArg BlockHeader.stateRoot hheader)
  rw [← htake₁, ← htake₂, hstate]

/-- A block below one on both chains is on both chains too. -/
theorem State.OnChain.below_common (hE : E.HashIdeal)
    (h₁ : ChainRoots E s₁.historicalBlockHashes) (h₂ : ChainRoots E s₂.historicalBlockHashes)
    {c low : Checkpoint} (hc : c.root ≠ 0) (hc₁ : s₁.OnChain c) (hc₂ : s₂.OnChain c)
    (hlow : s₁.OnChain low) (hlt : low.slot < c.slot) : s₂.OnChain low := by
  have htake := history_eq_of_onChain hE h₁ h₂ hc hc₁ hc₂
  unfold State.OnChain at hlow ⊢
  rw [← hlow, ← List.getElem?_take_of_lt hlt, ← htake, List.getElem?_take_of_lt hlt]

/-- The history of a chain starts with the history and the latest block it was built on. -/
theorem State.history_prefix (hE : E.HashIdeal) {ledger : List AggregatedAttestation}
    (inv : ChainInv E s ledger) (hne : blocks ≠ []) (h : s.runChain E blocks = .ok s₁) :
    s.historicalBlockHashes ++ [s.blockRoot E] <+: s₁.historicalBlockHashes := by
  induction blocks generalizing s ledger with
  | nil => exact absurd rfl hne
  | cons sb rest ih =>
    obtain ⟨s', h', h⟩ := State.runChain_cons h
    obtain ⟨l, l', step⟩ := State.stateTransition_step hE inv.unsealed h'
    -- the next block appends the root of this one, and further blocks only append
    have hfirst : s.historicalBlockHashes ++ [s.blockRoot E] <+: s'.historicalBlockHashes := by
      rw [step.result]
      show _ <+: (s.beforeVotes E sb.block).historicalBlockHashes
      rw [State.history_beforeVotes]
      exact ⟨_, by rw [List.append_assoc]; rfl⟩
    cases rest with
    | nil =>
      obtain rfl := Except.ok.inj h
      exact hfirst
    | cons sb' rest =>
      have hrest := ih (inv.stateTransition hE h') (by simp) h
      exact hfirst.trans ((List.prefix_append _ _).trans hrest)

theorem genesis_eq {time : ℕ} {validators : List Validator}
    (hg : generateGenesisWithValidators E time validators = .ok g) :
    g.historicalBlockHashes = [] ∧ g.latestFinalized = ⟨0, 0⟩ := by
  obtain ⟨-, rfl⟩ := generateGenesisWithValidators_eq_ok hg
  exact ⟨rfl, rfl⟩

/-- A chain whose finalized checkpoint is off another chain has at least one block. -/
theorem ReachedFromGenesis.blocks_ne_nil (h : ReachedFromGenesis E g blocks s)
    (hoff : s.FinalizedOff s₁) : blocks ≠ [] := by
  rintro rfl
  obtain rfl := Except.ok.inj h.run
  obtain ⟨time, validators, -, hg⟩ := h.genesis
  exact hoff.1 (genesis_eq hg).2

theorem ReachedFromGenesis.slot_ne_zero (hE : E.HashIdeal)
    (h : ReachedFromGenesis E g blocks s) (hne : blocks ≠ []) :
    s.latestBlockHeader.slot ≠ 0 := by
  obtain ⟨time, validators, hn, hg⟩ := h.genesis
  exact State.runChain_slot_ne_zero hE (ChainInv.genesis hn hg) hne h.run

/-- Conflicting finalized checkpoints lie after the genesis block. -/
theorem finalized_ne_genesis (hE : E.HashIdeal) (h₁ : ReachedFromGenesis E g blocks₁ s₁)
    (h₂ : ReachedFromGenesis E g blocks₂ s₂) (hconf : ConflictingFinality s₁ s₂) :
    s₁.latestFinalized.slot ≠ 0 := by
  intro h0
  have hne₁ := h₁.blocks_ne_nil hconf.1
  have hne₂ := h₂.blocks_ne_nil hconf.2
  obtain ⟨m, -, linv⟩ := h₁.settled hE (h₁.slot_ne_zero hE hne₁)
  have hfin := linv.finalized_on_chain
  obtain ⟨time, validators, hn, hg⟩ := h₁.genesis
  have ginv : ChainInv E g [] := ChainInv.genesis hn hg
  obtain ⟨rest₁, hrest₁⟩ := State.history_prefix hE ginv hne₁ h₁.run
  obtain ⟨rest₂, hrest₂⟩ := State.history_prefix hE ginv hne₂ h₂.run
  -- both histories start with the genesis block
  apply hconf.1.2
  show s₂.historicalBlockHashes[s₁.latestFinalized.slot]? = some s₁.latestFinalized.root
  simp only at hfin
  rw [← hfin, h0, ← hrest₁, ← hrest₂, (genesis_eq hg).1]
  rfl

/-- The finalized checkpoint of a conflict has two thirds of the votes on its chain. -/
theorem ConflictingFinality.quorum (hconf : ConflictingFinality s₁ s₂) (hE : E.HashIdeal)
    (h₁ : ReachedFromGenesis E g blocks₁ s₁) (h₂ : ReachedFromGenesis E g blocks₂ s₂) :
    Quorum s₁.validators.length
      (targetVoters s₁.validators.length blocks₁ s₁.latestFinalized) :=
  finalized_quorum_targetVoters hE h₁ (h₁.slot_ne_zero hE (h₁.blocks_ne_nil hconf.1))
    (finalized_ne_genesis hE h₁ h₂ hconf)

/-- Two quorums whose common voters all offend put a third of the validators to blame. -/
theorem third_offends {n : ℕ} {V W : Finset ℕ} (hV : Quorum n V) (hW : Quorum n W)
    (hVn : V ⊆ Finset.range n) (hWn : W ⊆ Finset.range n)
    (hoff : ∀ v ∈ V, v ∈ W → ∃ d₁ ∈ includedVotes blocks v, ∃ d₂ ∈ includedVotes blocks v,
      DoubleVote d₁ d₂ ∨ Surrounds d₁ d₂) :
    n ≤ 3 * (offenders n blocks).card := by
  have hsub : V ∩ W ⊆ offenders n blocks := by
    intro v hv
    obtain ⟨hvV, hvW⟩ := Finset.mem_inter.mp hv
    exact Finset.mem_filter.mpr ⟨hVn hvV, hoff v hvV hvW⟩
  exact (hV.inter hW hVn hWn).trans (Nat.mul_le_mul_left 3 (Finset.card_le_card hsub))

/-- The link from the finalized checkpoint of `s₁` to `target` has two thirds of the validators,
    and no slot inside it was justified on the chain of `s₂`. -/
structure UncutLink (E : Env) (g : State) (blocks₁ : List SignedBlockWithAttestation)
    (s₁ : State) (blocks₂ : List SignedBlockWithAttestation) (s₂ : State)
    (target : Checkpoint) : Prop where
  target_on_chain : s₁.OnChain target
  target_ne_zero : target.root ≠ 0
  after : s₁.latestFinalized.slot < target.slot
  quorum : Quorum g.validators.length
    (linkVoters g.validators.length blocks₁ s₁.latestFinalized target)
  uncut : ∀ c, s₂.OnChain c → s₁.latestFinalized.slot < c.slot → c.slot < target.slot →
    ¬ Quorum g.validators.length (voters (g.chainVotes E blocks₂) c)

theorem targetVoters_subset (n : ℕ) (blocks : List SignedBlockWithAttestation)
    (c : Checkpoint) : targetVoters n blocks c ⊆ Finset.range n :=
  Finset.filter_subset _ _

theorem linkVoters_subset (n : ℕ) (blocks : List SignedBlockWithAttestation)
    (source target : Checkpoint) : linkVoters n blocks source target ⊆ Finset.range n :=
  Finset.filter_subset _ _

/-- A third of the validators voted for both of two finalized checkpoints. -/
theorem third_voted_for_both (hE : E.HashIdeal) (h₁ : ReachedFromGenesis E g blocks₁ s₁)
    (h₂ : ReachedFromGenesis E g blocks₂ s₂) (hconf : ConflictingFinality s₁ s₂) :
    g.validators.length ≤ 3 *
      (targetVoters g.validators.length blocks₁ s₁.latestFinalized ∩
        targetVoters g.validators.length blocks₂ s₂.latestFinalized).card := by
  have hq₁ := hconf.quorum hE h₁ h₂
  have hq₂ := ConflictingFinality.quorum hconf.symm hE h₂ h₁
  rw [h₁.validators_eq] at hq₁
  rw [h₂.validators_eq] at hq₂
  exact hq₁.inter hq₂ (targetVoters_subset _ _ _) (targetVoters_subset _ _ _)

/-- If the lower of two conflicting finalized checkpoints has a link of two thirds that the
    other chain did not cut, then a third of the validators offended. -/
theorem UncutLink.third_offends {target : Checkpoint}
    (link : UncutLink E g blocks₁ s₁ blocks₂ s₂ target) (hE : E.HashIdeal)
    (h₁ : ReachedFromGenesis E g blocks₁ s₁) (h₂ : ReachedFromGenesis E g blocks₂ s₂)
    (hconf : ConflictingFinality s₁ s₂)
    (hle : s₁.latestFinalized.slot ≤ s₂.latestFinalized.slot) :
    g.validators.length ≤ 3 * (offenders g.validators.length (blocks₁ ++ blocks₂)).card := by
  have hf₁ := finalized_ne_genesis hE h₁ h₂ hconf
  have hf₂ := finalized_ne_genesis hE h₂ h₁ hconf.symm
  have hinv₁ := h₁.chainInv hE
  have hinv₂ := h₂.chainInv hE
  obtain ⟨m₁, -, linv₁⟩ :=
    h₁.settled hE (h₁.slot_ne_zero hE (h₁.blocks_ne_nil hconf.1))
  obtain ⟨m₂, -, linv₂⟩ :=
    h₂.settled hE (h₂.slot_ne_zero hE (h₂.blocks_ne_nil hconf.2))
  -- the first block of the second chain at or above the lower checkpoint to be justified
  obtain ⟨c, hc, hkc, hqc, part, hpart, hqpart, hsource⟩ :=
    exists_first_justified linv₂ hinv₂.validators_pos (Nat.pos_of_ne_zero hf₁)
      linv₂.finalized_on_chain hle (linv₂.finalized_quorum.resolve_left hf₂)
  rw [h₂.validators_eq] at hqc hqpart
  have hvoters : voters part c ⊆ Finset.range g.validators.length := by
    intro v hv
    obtain ⟨a, ha, htarget, hmem⟩ := mem_voters.mp hv
    rw [← h₂.validators_eq]
    exact Finset.mem_range.mpr (linv₂.voter_lt a (hpart a ha) v hmem)
  -- a voter for `c` has an included vote for it, from a source below the lower checkpoint
  have hvote : ∀ v ∈ voters part c, ∃ d ∈ includedVotes (blocks₁ ++ blocks₂) v,
      d.target = c ∧ d.source.slot < s₁.latestFinalized.slot := by
    intro v hv
    obtain ⟨a, ha, hincl, htarget⟩ := exists_includedVote hpart hv
    refine ⟨a.data, ?_, htarget, hsource a ha⟩
    rw [includedVotes_append]
    exact List.mem_append_right _ hincl
  have hleft : ∀ v, ∀ d ∈ includedVotes blocks₁ v, d ∈ includedVotes (blocks₁ ++ blocks₂) v := by
    intro v d hd
    rw [includedVotes_append]
    exact List.mem_append_left _ hd
  rcases Nat.lt_trichotomy c.slot s₁.latestFinalized.slot with hlt | heq | hgt
  · omega
  · -- at the slot of the lower checkpoint: two votes for different targets
    have hq₁ := hconf.quorum hE h₁ h₂
    rw [h₁.validators_eq] at hq₁
    refine ConsensusClient.third_offends hq₁ hqpart (targetVoters_subset _ _ _) hvoters ?_
    intro v hv hv'
    obtain ⟨d₁, hd₁, htarget₁⟩ := (Finset.mem_filter.mp hv).2
    obtain ⟨d₂, hd₂, htarget₂, -⟩ := hvote v hv'
    refine ⟨d₁, hleft v d₁ hd₁, d₂, hd₂, Or.inl ⟨?_, ?_⟩⟩
    · rw [htarget₁, htarget₂, heq]
    · rw [htarget₁, htarget₂]
      rintro rfl
      exact hconf.1.2 hc
  · -- above it: every voter for the link offends, unless `c` cuts the link
    refine ConsensusClient.third_offends link.quorum hqpart (linkVoters_subset _ _ _ _) hvoters ?_
    intro v hv hv'
    obtain ⟨d₁, hd₁, hsource₁, htarget₁⟩ := (Finset.mem_filter.mp hv).2
    obtain ⟨d₂, hd₂, htarget₂, hsource₂⟩ := hvote v hv'
    have hd₁' := hleft v d₁ hd₁
    rcases Nat.lt_trichotomy c.slot target.slot with hcut | heq | hover
    · exact absurd hqc (link.uncut c hc hgt hcut)
    · refine ⟨d₁, hd₁', d₂, hd₂, Or.inl ⟨?_, ?_⟩⟩
      · rw [htarget₁, htarget₂, heq]
      · rw [htarget₁, htarget₂]
        rintro rfl
        -- a common block after the lower checkpoint has that checkpoint in its history
        exact hconf.1.2 (State.OnChain.below_common hE hinv₁.chain_roots hinv₂.chain_roots
          link.target_ne_zero link.target_on_chain hc linv₁.finalized_on_chain link.after)
    · refine ⟨d₂, hd₂, d₁, hd₁', Or.inr ⟨?_, ?_⟩⟩
      · rw [hsource₁]
        exact hsource₂
      · rw [htarget₁, htarget₂]
        exact hover

/-- Accountability of conflicting finality: a third of the validators voted for both finalized
    checkpoints, and a third of them offended if the lower one has an uncut link of two
    thirds. -/
theorem conflicting_finality_accountable (hE : E.HashIdeal)
    (h₁ : ReachedFromGenesis E g blocks₁ s₁) (h₂ : ReachedFromGenesis E g blocks₂ s₂)
    (hconf : ConflictingFinality s₁ s₂) :
    g.validators.length ≤ 3 *
      (targetVoters g.validators.length blocks₁ s₁.latestFinalized ∩
        targetVoters g.validators.length blocks₂ s₂.latestFinalized).card ∧
    ∀ target, s₁.latestFinalized.slot ≤ s₂.latestFinalized.slot →
      UncutLink E g blocks₁ s₁ blocks₂ s₂ target →
      g.validators.length ≤ 3 * (offenders g.validators.length (blocks₁ ++ blocks₂)).card := by
  constructor
  · exact third_voted_for_both hE h₁ h₂ hconf
  · intro target hle link
    exact link.third_offends hE h₁ h₂ hconf hle

end TwoChains

/-! ## Two forks

A chain with blocks at slots 1, 2 and 3, and one that leaves it at the genesis block. Roots and
state roots are numbered in this order: genesis, the blocks at slots 1 and 2, then the fork. -/

/-! ### Three validators, none of them to blame -/

namespace PooledFork

open Sample

def validators : List Validator := [⟨7, 0⟩, ⟨8, 1⟩, ⟨9, 2⟩]

/-- Slot 2 is justified by one vote from slot 0 and one from slot 1; the second finalizes. -/
def votes3 : List AggregatedAttestation :=
  [vote [true, true] ⟨1, 0⟩ ⟨2, 1⟩, vote [true] ⟨1, 0⟩ ⟨3, 2⟩, vote [false, true] ⟨2, 1⟩ ⟨3, 2⟩]

/-- Slot 4 is justified by one vote from slot 0 and one from slot 3; the second finalizes. -/
def votes5 : List AggregatedAttestation :=
  [vote [true, false, true] ⟨1, 0⟩ ⟨4, 3⟩, vote [true] ⟨1, 0⟩ ⟨5, 4⟩,
    vote [false, true] ⟨4, 3⟩ ⟨5, 4⟩]

def genesis : State := state validators (header 3 0 0 0 1) ⟨0, 0⟩ ⟨0, 0⟩ [] []

def main1 : State := state validators (header 3 1 1 0 1) ⟨1, 0⟩ ⟨1, 0⟩ [1] []

def main2 : State := state validators (header 3 2 2 0 1) ⟨1, 0⟩ ⟨1, 0⟩ [1, 2] [false]

def main3 : State := state validators (header 3 3 3 0 2) ⟨3, 2⟩ ⟨2, 1⟩ [1, 2, 3] [true]

def fork3 : State := state validators (header 3 3 1 0 1) ⟨1, 0⟩ ⟨1, 0⟩ [1, 0, 0] [false, false]

def fork4 : State :=
  state validators (header 3 4 4 0 1) ⟨1, 0⟩ ⟨1, 0⟩ [1, 0, 0, 4] [false, false, false]

def fork5 : State := state validators (header 3 5 5 0 3) ⟨5, 4⟩ ⟨4, 3⟩ [1, 0, 0, 4, 5] [true]

def env : Env := Env.tabulated {
  headers := [header 3 0 0 1 1, header 3 1 1 2 1, header 3 2 2 3 1, header 3 3 1 4 1,
    header 3 4 4 5 1]
  bodies := [⟨[]⟩, ⟨votes3⟩, ⟨votes5⟩]
  datas := []
  states := [genesis, main1, main2, fork3, fork4, main3, fork5] }

def mainBlocks : List SignedBlockWithAttestation :=
  [block 3 1 1 2 [], block 3 2 2 3 [], block 3 3 3 6 votes3]

def forkBlocks : List SignedBlockWithAttestation :=
  [block 3 3 1 4 [], block 3 4 4 5 [], block 3 5 5 7 votes5]

theorem reached_main3 : ReachedFromGenesis env genesis mainBlocks main3 where
  genesis := ⟨0, validators, by simp [validators], rfl⟩
  run := by decide +kernel

theorem reached_fork5 : ReachedFromGenesis env genesis forkBlocks fork5 where
  genesis := ⟨0, validators, by simp [validators], rfl⟩
  run := by decide +kernel

end PooledFork

/-- Slots 1 and 3 are finalized on two forks, and no validator has a double or a surrounding
    vote. -/
theorem conflicting_finality_without_offence :
    PooledFork.env.HashIdeal ∧
      ReachedFromGenesis PooledFork.env PooledFork.genesis PooledFork.mainBlocks
        PooledFork.main3 ∧
      ReachedFromGenesis PooledFork.env PooledFork.genesis PooledFork.forkBlocks
        PooledFork.fork5 ∧
      ConflictingFinality PooledFork.main3 PooledFork.fork5 ∧
      ¬ PooledFork.genesis.validators.length ≤
        3 * (offenders PooledFork.genesis.validators.length
          (PooledFork.mainBlocks ++ PooledFork.forkBlocks)).card :=
  ⟨Env.tabulated_hashIdeal _, PooledFork.reached_main3, PooledFork.reached_fork5,
    by decide +kernel, by decide +kernel⟩

/-! ### One validator that votes on both forks -/

namespace SoloFork

open Sample

def validators : List Validator := [⟨7, 0⟩]

def votes3 : List AggregatedAttestation :=
  [vote [true] ⟨1, 0⟩ ⟨2, 1⟩, vote [true] ⟨2, 1⟩ ⟨3, 2⟩]

def votes4 : List AggregatedAttestation :=
  [vote [true] ⟨1, 0⟩ ⟨4, 2⟩, vote [true] ⟨4, 2⟩ ⟨5, 3⟩]

def genesis : State := state validators (header 1 0 0 0 1) ⟨0, 0⟩ ⟨0, 0⟩ [] []

def main1 : State := state validators (header 1 1 1 0 1) ⟨1, 0⟩ ⟨1, 0⟩ [1] []

def main2 : State := state validators (header 1 2 2 0 1) ⟨1, 0⟩ ⟨1, 0⟩ [1, 2] [false]

def main3 : State := state validators (header 1 3 3 0 2) ⟨3, 2⟩ ⟨2, 1⟩ [1, 2, 3] [true]

def fork2 : State := state validators (header 1 2 1 0 1) ⟨1, 0⟩ ⟨1, 0⟩ [1, 0] [false]

def fork3 : State := state validators (header 1 3 4 0 1) ⟨1, 0⟩ ⟨1, 0⟩ [1, 0, 4] [false, false]

def fork4 : State := state validators (header 1 4 5 0 3) ⟨5, 3⟩ ⟨4, 2⟩ [1, 0, 4, 5] [true]

def env : Env := Env.tabulated {
  headers := [header 1 0 0 1 1, header 1 1 1 2 1, header 1 2 2 3 1, header 1 2 1 4 1,
    header 1 3 4 5 1]
  bodies := [⟨[]⟩, ⟨votes3⟩, ⟨votes4⟩]
  datas := []
  states := [genesis, main1, main2, fork2, fork3, main3, fork4] }

def mainBlocks : List SignedBlockWithAttestation :=
  [block 1 1 1 2 [], block 1 2 2 3 [], block 1 3 3 6 votes3]

def forkBlocks : List SignedBlockWithAttestation :=
  [block 1 2 1 4 [], block 1 3 4 5 [], block 1 4 5 7 votes4]

theorem reached_main3 : ReachedFromGenesis env genesis mainBlocks main3 where
  genesis := ⟨0, validators, by simp [validators], rfl⟩
  run := by decide +kernel

theorem reached_fork4 : ReachedFromGenesis env genesis forkBlocks fork4 where
  genesis := ⟨0, validators, by simp [validators], rfl⟩
  run := by decide +kernel

/-- The link that finalizes slot 1 has the vote of the only validator. -/
theorem uncutLink : UncutLink env genesis mainBlocks main3 forkBlocks fork4 ⟨3, 2⟩ where
  target_on_chain := by decide
  target_ne_zero := by decide
  after := by decide
  quorum := by decide +kernel
  uncut := by
    intro c _ hlo hhi
    have hlo' : 1 < c.slot := hlo
    have hhi' : c.slot < 2 := hhi
    omega

end SoloFork

/-- On the fork with one validator, that validator is to blame. -/
theorem solo_fork_accountable :
    ConflictingFinality SoloFork.main3 SoloFork.fork4 ∧
      1 ≤ 3 * (offenders 1 (SoloFork.mainBlocks ++ SoloFork.forkBlocks)).card := by
  have hconf : ConflictingFinality SoloFork.main3 SoloFork.fork4 := by decide +kernel
  have hacc := conflicting_finality_accountable (Env.tabulated_hashIdeal _)
    SoloFork.reached_main3 SoloFork.reached_fork4 hconf
  exact ⟨hconf, hacc.2 _ (by decide) SoloFork.uncutLink⟩

end ConsensusClient
