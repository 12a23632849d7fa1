import ConsensusClient.Containers.Finality

/-!
# When the State Transition Panics

The finalization test scans the slots between the source and the target of a vote and asks for
each of them whether it is justifiable after the finalized slot; that question panics on a slot
before the finalized one. A source at or below the finalized slot passes the skip checks
unseen, so the scan can start before the finalized slot. This module shows that this is the only
way to make the state transition of a reachable state panic, and that it always does.

## Main results

* `LoopInv.returns_iff`: a round panics exactly when its source is stale
* `ChainInv.returns_processAttestations_iff`: the same for the votes of a block
* `stateTransition_returns_iff`: and for the whole transition of a reachable state
* `stateTransition_panics_on_stale_source`: a reachable state and a block where it happens
-/

namespace ConsensusClient

/-! ## One round -/

section Round

variable {s : State} {ledger : List AggregatedAttestation} {l : VoteLoop}
  {a : AggregatedAttestation}

/-- The round of `a` completes two thirds for its target with a source more than one slot below
    the finalized slot. -/
def State.StaleRound (s : State) (l : VoteLoop) (a : AggregatedAttestation) : Prop :=
  ∃ tally, s.Tallied l a tally ∧ 2 * s.validators.length ≤ 3 * tally.count true ∧
    a.data.source.slot + 1 < s.latestFinalized.slot

/-- A stale round panics in the finalization test. -/
theorem LoopInv.panics_of_stale (inv : LoopInv s ledger l) (h : s.StaleRound l a) :
    (s.processAttestation l a).Panics := by
  obtain ⟨tally, ht, hq, hstale⟩ := h
  have hft := VoteLoop.lt_of_bit_false ht.counts.target_unjustified
  have hle := inv.finalized_le
  -- the target lies in the window, so its bit can be set
  have hin : a.data.target.slot < l.latestFinalized.slot + 1 + l.justifiedSlots.length := by
    rw [inv.window_length]
    exact (List.getElem?_eq_some_iff.mp ht.counts.target_on_chain).1
  obtain ⟨window, hw⟩ := JustifiedSlots.exists_withJustified (b := true) hin
  have hscan := State.linkIsDirect_of_stale (s := s) hstale
    (show a.data.source.slot + 1 < a.data.target.slot by omega)
  refine ⟨"Candidate slot must not be before finalized slot", ?_⟩
  unfold State.processAttestation
  rw [State.voteCounts_eq_true.mpr ht.counts, ok_bind, if_neg (by simp),
    toValidatorIndices_eq_ok.mpr ⟨rfl, ht.nonempty⟩, ok_bind, ht.cast, ok_bind]
  simp only [hq, if_true]
  unfold State.justify
  rw [show (l.storeTally a.data.target.root tally).justifiedSlots.withJustified
      (l.storeTally a.data.target.root tally).latestFinalized.slot a.data.target.slot true =
      .ok window from hw, ok_bind, hscan]
  rfl

/-- Finalizing a source of the window does not panic. -/
theorem LoopInv.returns_finalize {source : Checkpoint} (inv : LoopInv s ledger l)
    (hsource : s.historicalBlockHashes[source.slot]? = some source.root) :
    (s.finalize l source).Returns := by
  unfold State.finalize
  apply returns_ite
  · intro hlt
    -- the source is in the history, so the window is long enough to be shifted up to it
    have hin : source.slot - l.latestFinalized.slot ≤ l.justifiedSlots.length := by
      have h₁ := (List.getElem?_eq_some_iff.mp hsource).1
      have h₂ := inv.window_length
      omega
    obtain ⟨window, hw⟩ := JustifiedSlots.exists_shiftWindow hin
    rw [hw, ok_bind]
    apply returns_bind (returns_ensure _ _)
    intro _ _
    exact returns_ok _
  · intro _
    exact returns_ok _

/-- A round that is not stale does not panic. -/
theorem LoopInv.returns_of_not_stale (inv : LoopInv s ledger l)
    (hd : DistinctRoots s.historicalBlockHashes)
    (hbits : AggregationBits.setIndices a.aggregationBits ≠ []) (h : ¬ s.StaleRound l a) :
    (s.processAttestation l a).Returns := by
  unfold State.processAttestation
  apply returns_bind (State.returns_voteCounts inv.finalized_le)
  intro counts hcounts
  apply returns_ite (fun _ => returns_ok l)
  intro hne
  rw [Bool.not_eq_false] at hne
  subst hne
  rw [toValidatorIndices_eq_ok.mpr ⟨rfl, hbits⟩, ok_bind]
  apply returns_bind (returns_castVotes _ _)
  intro tally htally
  have ht : s.Tallied l a tally := ⟨State.voteCounts_eq_true.mp hcounts, hbits, htally⟩
  apply returns_ite _ (fun _ => returns_ok _)
  intro hq
  unfold State.justify
  have hft := VoteLoop.lt_of_bit_false ht.counts.target_unjustified
  have hin : a.data.target.slot < l.latestFinalized.slot + 1 + l.justifiedSlots.length := by
    rw [inv.window_length]
    exact (List.getElem?_eq_some_iff.mp ht.counts.target_on_chain).1
  -- the target is in the window, so its bit can be set
  obtain ⟨window, hw⟩ := JustifiedSlots.exists_withJustified (b := true) hin
  rw [show (l.storeTally a.data.target.root tally).justifiedSlots.withJustified
      (l.storeTally a.data.target.root tally).latestFinalized.slot a.data.target.slot true =
      .ok window from hw, ok_bind]
  -- the scan starts at or after the finalized slot, since the round is not stale
  have hscan : s.latestFinalized.slot ≤ a.data.source.slot + 1 := by
    by_contra hlt
    exact h ⟨tally, ht, hq, by omega⟩
  rw [State.linkIsDirect_of_le (Or.inl hscan), ok_bind]
  apply returns_ite _ (fun _ => returns_ok _)
  intro _
  exact (inv.justifiedBy hd ht hq hw).returns_finalize ht.counts.source_on_chain

/-- A round panics exactly when it is stale. -/
theorem LoopInv.returns_iff (inv : LoopInv s ledger l)
    (hd : DistinctRoots s.historicalBlockHashes)
    (hbits : AggregationBits.setIndices a.aggregationBits ≠ []) :
    (s.processAttestation l a).Returns ↔ ¬ s.StaleRound l a := by
  constructor
  · intro hret hstale
    exact hret.not_panics (inv.panics_of_stale hstale)
  · exact inv.returns_of_not_stale hd hbits

end Round

/-! ## Whole blocks -/

section Block

variable {E : Env} {g s : State} {blocks : List SignedBlockWithAttestation}
  {sb : SignedBlockWithAttestation}

/-- Some vote of the block, when it is reached, passes the skip checks and completes two thirds
    for its target with a source more than one slot below the finalized slot. -/
def State.HasStaleLink (E : Env) (s : State) (block : Block) : Prop :=
  hasDuplicateData E block.body.attestations = false ∧
    ∃ pre a post l, block.body.attestations = pre ++ a :: post ∧
      s.loopAfter E block pre = .ok l ∧ (s.beforeVotes E block).StaleRound l a

/-- Slot processing never panics. -/
theorem State.returns_processSlots (s : State) (slot : ℕ) : (s.processSlots E slot).Returns :=
  returns_bind (returns_ensure _ _) fun _ _ => returns_ok _

theorem State.returns_flatten (s : State) (l : VoteLoop) : (s.flatten l).Returns :=
  returns_bind (returns_ensure _ _) fun _ _ => returns_ok _

/-- The votes of a block are processed without a panic exactly when no round is stale. -/
theorem ChainInv.returns_processAttestations_iff (hE : E.HashIdeal)
    {ledger : List AggregatedAttestation} (inv : ChainInv E s ledger) {block : Block}
    (hslot : s.slot < block.slot)
    (hbits : ∀ a ∈ block.body.attestations, AggregationBits.setIndices a.aggregationBits ≠ []) :
    ((s.beforeVotes E block).processAttestations block.body.attestations).Returns ↔
      ∀ pre a post l₀ l, block.body.attestations = pre ++ a :: post →
        (s.beforeVotes E block).voteLoop = .ok l₀ →
        pre.foldlM (s.beforeVotes E block).processAttestation l₀ = .ok l →
        ¬ (s.beforeVotes E block).StaleRound l a := by
  obtain ⟨l₀, h₀, linv⟩ := inv.loopInv_beforeVotes hE hslot
  have hd := (inv.chainRoots_beforeVotes block).distinctRoots hE
  unfold State.processAttestations
  -- storing the tallies never panics, so the loop decides, round by round
  rw [h₀, ok_bind, returns_bind_iff fun l => State.returns_flatten _ l, returns_foldlM_iff]
  constructor
  · intro h pre a post l₁ l hsplit h₁ hpre
    obtain rfl := Except.ok.inj h₁
    have ha : a ∈ block.body.attestations := by rw [hsplit]; simp
    exact ((linv.foldlM hd hpre).returns_iff hd (hbits a ha)).mp (h pre a post l hsplit hpre)
  · intro h pre a post l hsplit hpre
    have ha : a ∈ block.body.attestations := by rw [hsplit]; simp
    exact ((linv.foldlM hd hpre).returns_iff hd (hbits a ha)).mpr
      (h pre a post l₀ l hsplit rfl hpre)

/-- On a state reached from genesis, a block whose attestations all have a bit set makes the
    state transition panic exactly when it has a stale link. -/
theorem stateTransition_returns_iff (hE : E.HashIdeal)
    (hreach : ReachedFromGenesis E g blocks s)
    (hbits : ∀ a ∈ sb.block.body.attestations,
      AggregationBits.setIndices a.aggregationBits ≠ []) :
    (∀ valid, (s.stateTransition E sb valid).Returns) ↔ ¬ s.HasStaleLink E sb.block := by
  have inv := hreach.chainInv hE
  constructor
  · rintro h ⟨hdup, pre, a, post, l, hsplit, hl, hstale⟩
    -- the prefix was processed, so slot and header processing and the duplicate check pass
    have hslot := (inv.loopAfter hE hl).1
    unfold State.loopAfter at hl
    obtain ⟨s₁, h₁, hl⟩ := bind_eq_ok.mp hl
    obtain ⟨s₂, h₂, hl⟩ := bind_eq_ok.mp hl
    obtain ⟨l₀, h₀, hl⟩ := bind_eq_ok.mp hl
    obtain ⟨rfl, -⟩ := State.header_eq_ok hE inv.unsealed h₁ h₂
    have hret := h true
    unfold State.stateTransition State.processBlock at hret
    rw [show ensure (true = true) "invalid block signatures" = .ok () from rfl, ok_bind] at hret
    simp only [h₁, ok_bind, h₂, hdup, ensure, if_true] at hret
    rw [returns_bind_iff] at hret
    · exact (inv.returns_processAttestations_iff hE hslot hbits).mp hret pre a post l₀ l hsplit
        h₀ hl hstale
    · intro s₃
      exact returns_bind (returns_ensure _ _) fun _ _ => returns_ok _
  · intro h valid
    unfold State.stateTransition
    -- everything before and after the vote loop returns
    apply returns_bind (returns_ensure _ _)
    intro _ _
    apply returns_bind (State.returns_processSlots _ _)
    intro s₁ h₁
    refine returns_bind ?_ fun s₃ _ => returns_bind (returns_ensure _ _) fun _ _ => returns_ok _
    unfold State.processBlock
    have hn : s₁.validators.length ≠ 0 := by
      obtain ⟨-, rfl⟩ := (State.processSlots_eq_ok hE inv.unsealed).mp h₁
      exact inv.validators_pos.ne'
    apply returns_bind (State.returns_processBlockHeader hn)
    intro s₂ h₂
    apply returns_bind (returns_ensure _ _)
    intro _ hdup
    obtain ⟨rfl, hslot, -⟩ := State.header_eq_ok hE inv.unsealed h₁ h₂
    apply (inv.returns_processAttestations_iff hE hslot hbits).mpr
    intro pre a post l₀ l hsplit h₀ hpre hstale
    refine h ⟨ensure_eq_ok.mp hdup, pre, a, post, l, hsplit, ?_, hstale⟩
    unfold State.loopAfter
    rw [h₁, ok_bind, h₂, ok_bind, h₀, ok_bind, hpre]

end Block

/-! ## A panicking block -/

/-- The block at slot 5 of the chain with one validator: a vote from genesis to the block at
    slot 4, when slot 2 is finalized. -/
def SoloChain.staleBlock : SignedBlockWithAttestation :=
  SoloChain.block 5 4 5 [SoloChain.vote ⟨1, 0⟩ ⟨4, 4⟩]

theorem SoloChain.reached_state4 :
    ReachedFromGenesis env genesis [block 2 1 2 [], block 3 2 3 [], block 4 3 4 links] state4 where
  genesis := ⟨0, [{ pubkey := 7, index := 0 }], by simp, rfl⟩
  run := by decide +kernel

/-- A reachable state and a block with non-empty attestations on which the transition panics. -/
theorem stateTransition_panics_on_stale_source :
    ReachedFromGenesis SoloChain.env SoloChain.genesis
        [SoloChain.block 2 1 2 [], SoloChain.block 3 2 3 [], SoloChain.block 4 3 4 SoloChain.links]
        SoloChain.state4 ∧
      (∀ a ∈ SoloChain.staleBlock.block.body.attestations,
        AggregationBits.setIndices a.aggregationBits ≠ []) ∧
      SoloChain.state4.stateTransition SoloChain.env SoloChain.staleBlock true =
        .error (.panic "Candidate slot must not be before finalized slot") :=
  ⟨SoloChain.reached_state4, by decide, by decide +kernel⟩

/-- The block at slot 4 finalizes slot 2 without a stale link. -/
theorem no_stale_link_at_slot_four :
    ¬ SoloChain.state3.HasStaleLink SoloChain.env
      (SoloChain.block 4 3 4 SoloChain.links).block := by
  apply (stateTransition_returns_iff (Env.tabulated_hashIdeal _) SoloChain.reached_state3
    (by decide)).mp
  intro valid
  cases valid with
  | false => exact Or.inr ⟨_, rfl⟩
  | true => exact Or.inl ⟨_, SoloChain.transition_state4⟩

end ConsensusClient
