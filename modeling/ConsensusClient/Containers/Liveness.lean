import ConsensusClient.Containers.Backing
import ConsensusClient.Containers.Justifiable

/-!
# Finality Can Always Advance

Slots become justifiable ever more rarely after the finalized one, and a vote only counts for a
justifiable target. Still no chain gets stuck: whatever its blocks voted for so far, two thirds of
the validators can finalize a later slot with four more blocks. The first and third of them stand
at distances `k * k` and `k * (k + 1)`, between which no slot is justifiable, and the second and
fourth carry the votes for them.

## Main results

* `not_justifiable_between`: the gap between a square and the next pronic number
* `LoopInv.quorum_round`: what a vote of two thirds does in one round
* `ReachedFromGenesis.exists_supportedBlock`: two thirds can justify any justifiable slot
* `quorum_can_finalize`: and finalize one with at most four blocks, from every reached state
-/

namespace ConsensusClient

/-! ## Blocks with well-formed votes -/

section NextBlock

variable {E : Env} {s : State} {ledger : List AggregatedAttestation}

/-- The arguments of a block at `slot` on the state `s`. -/
def BuildArgs.next (E : Env) (s : State) (slot : ℕ) : BuildArgs where
  slot := slot
  proposerIndex := slot % s.validators.length
  parentRoot := s.blockRoot E
  availableAttestations := none
  knownBlockRoots := none
  gossipSignatures := none
  aggregatedPayloads := none

/-- The votes of `a` are of registered validators, from a source that is not before the finalized
    slot, for a target before the block. -/
structure State.MayCarry (s : State) (slot : ℕ) (a : AggregatedAttestation) : Prop where
  nonempty : AggregationBits.setIndices a.aggregationBits ≠ []
  registered : ∀ v ∈ AggregationBits.setIndices a.aggregationBits, v < s.validators.length
  finalized_le : s.latestFinalized.slot ≤ a.data.source.slot
  source_lt : a.data.source.slot < slot
  target_lt : a.data.target.slot < slot

/-- A chain with room in its history can be extended by a block with such votes. -/
theorem ChainInv.exists_block (hE : E.HashIdeal) (inv : ChainInv E s ledger) {slot : ℕ}
    (hlt : s.slot < slot) (hroom : slot ≤ historicalRootsLimit)
    {votes : List AggregatedAttestation} (hlen : votes.length ≤ validatorRegistryLimit)
    (hnodup : (votes.map fun a => a.data).Nodup) (hvotes : ∀ a ∈ votes, s.MayCarry slot a) :
    ∃ (sb : SignedBlockWithAttestation) (s' : State), s.stateTransition E sb true = .ok s' ∧
      sb.block.slot = slot ∧ sb.block.body.attestations = votes := by
  have fits : (BuildArgs.next E s slot).FitsOn E s := ⟨hlt, rfl, rfl⟩
  have hcand : ∃ post, s.applyCandidate E (BuildArgs.next E s slot) votes = .ok post := by
    refine (inv.exists_applyCandidate_iff hE fits hlen
      ((hasDuplicateData_eq_false hE.data_injective).mpr hnodup)
      (fun a ha => (hvotes a ha).nonempty) fun a ha => ⟨(hvotes a ha).source_lt, ?_⟩).mpr
      ⟨hroom, ?_⟩
    · rw [inv.finalized_beforeVotes]
      exact (hvotes a ha).finalized_le
    · rintro pre a rest l rfl - (⟨-, hlong⟩ | ⟨-, v, hv, hforeign⟩)
      · rw [inv.length_beforeVotes hlt] at hlong
        exact absurd (hvotes a (by simp)).target_lt (Nat.not_lt.mpr hlong)
      · exact absurd ((hvotes a (by simp)).registered v hv) (Nat.not_lt.mpr hforeign)
  obtain ⟨post, hpost⟩ := hcand
  -- the transition does not read the signatures
  let block : Block :=
    { (BuildArgs.next E s slot).candidate votes with stateRoot := E.hashState post }
  let vote : Attestation := ⟨0, ⟨slot, ⟨0, 0⟩, ⟨0, 0⟩, ⟨0, 0⟩⟩⟩
  exact ⟨⟨⟨block, vote⟩, ⟨[], 0⟩⟩, post, State.applyCandidate_transition hpost rfl, rfl, rfl⟩

end NextBlock

/-! ## A link with two thirds of the votes -/

section Link

variable {s : State} {ledger : List AggregatedAttestation} {l l' : VoteLoop}
  {a : AggregatedAttestation}

/-- Without a justifiable slot between source and target, the source is finalized. -/
theorem State.linkIsDirect_of_gap {source target : Checkpoint}
    (hle : s.latestFinalized.slot ≤ source.slot)
    (hgap : ∀ x, source.slot < x → x < target.slot →
      justifiableDistance (x - s.latestFinalized.slot) = false) :
    s.linkIsDirect source target = .ok true := by
  rw [State.linkIsDirect_of_le (Or.inl (hle.trans (Nat.le_succ _))), Except.ok.injEq,
    Bool.not_eq_true', List.any_eq_false]
  intro x hx
  rw [mem_between] at hx
  simp [hgap x hx.1 hx.2]

/-- A vote of two thirds that counts justifies its target, and finalizes its source if no slot
    between them is justifiable. -/
theorem LoopInv.quorum_round (inv : LoopInv s ledger l)
    (hcounts : s.Counts l a.data.source a.data.target)
    (hq : Quorum s.validators.length (AggregationBits.setIndices a.aggregationBits).toFinset)
    (h : s.processAttestation l a = .ok l') :
    l'.latestJustified = a.data.target ∧
      (s.linkIsDirect a.data.source a.data.target = .ok false ∧
          l'.latestFinalized = l.latestFinalized ∨
        s.linkIsDirect a.data.source a.data.target = .ok true ∧
          l'.latestFinalized = a.data.source) := by
  cases State.processAttestation_round h with
  | skipped hskip =>
    rw [State.voteCounts_eq_true.mpr hcounts] at hskip
    simp at hskip
  | tallied tally ht hfew =>
    -- the tally has at least the votes of `a`
    have hbits := (inv.bitsOf_tally ht).1
    have hmore := hq.mono (W := voters (ledger ++ [a]) a.data.target) (by
      rw [voters_append, voters_singleton]
      exact Finset.subset_union_right)
    rw [Quorum, ← hbits.count_eq_card] at hmore
    exact absurd hmore hfew
  | justified tally ht hq window hw hd => exact ⟨rfl, Or.inl ⟨hd, rfl⟩⟩
  | refinalized tally ht hq window hw hd hle => exact ⟨rfl, Or.inr ⟨hd, rfl⟩⟩
  | finalized tally ht hq window shifted hw hd hlt hs hroots => exact ⟨rfl, Or.inr ⟨hd, rfl⟩⟩

end Link

/-! ## The votes of a quorum -/

/-- The bits of the validators of `V`, out of `n`. -/
def bitsFor (n : ℕ) (V : Finset ℕ) : AggregationBits := (List.range n).map fun v => decide (v ∈ V)

theorem mem_setIndices_bitsFor {n : ℕ} {V : Finset ℕ} {v : ℕ} :
    v ∈ AggregationBits.setIndices (bitsFor n V) ↔ v < n ∧ v ∈ V := by
  simp only [mem_setIndices, bitsFor, List.getElem?_map, Option.map_eq_some_iff,
    decide_eq_true_eq, List.getElem?_eq_some_iff, List.getElem_range, List.length_range]
  constructor
  · rintro ⟨_, ⟨hlt, rfl⟩, hv⟩
    exact ⟨hlt, hv⟩
  · intro h
    exact ⟨v, ⟨h.1, rfl⟩, h.2⟩

theorem toFinset_bitsFor {n : ℕ} {V : Finset ℕ} (h : V ⊆ Finset.range n) :
    (AggregationBits.setIndices (bitsFor n V)).toFinset = V := by
  ext v
  rw [List.mem_toFinset, mem_setIndices_bitsFor]
  exact ⟨fun hv => hv.2, fun hv => ⟨Finset.mem_range.mp (h hv), hv⟩⟩

/-- The vote of the validators of `V` for the latest block of `s`, from its justified checkpoint. -/
def State.supportVote (E : Env) (s : State) (V : Finset ℕ) : AggregatedAttestation where
  aggregationBits := bitsFor s.validators.length V
  data := {
    slot := s.slot
    head := ⟨s.blockRoot E, s.slot⟩
    target := ⟨s.blockRoot E, s.slot⟩
    source := s.latestJustified }

section Support

variable {E : Env} {g s : State} {blocks : List SignedBlockWithAttestation} {V : Finset ℕ}

/-- After the first block, a header leaves the checkpoints alone. -/
theorem State.checkpoints_beforeVotes (h0 : s.latestBlockHeader.slot ≠ 0) (block : Block) :
    (s.beforeVotes E block).latestJustified = s.latestJustified ∧
      (s.beforeVotes E block).latestFinalized = s.latestFinalized := by
  simp [State.beforeVotes, State.withHeader, State.advanced, State.sealedHeader, h0]

/-- The justified checkpoint of a chain has its bit set, in the window of the next block. -/
theorem ReachedFromGenesis.justified_bit (hE : E.HashIdeal) (h : ReachedFromGenesis E g blocks s)
    (hne : blocks ≠ []) {block : Block} {l : VoteLoop}
    (linv : LoopInv (s.beforeVotes E block) (g.chainVotes E blocks) l) :
    l.justifiedSlots.bitAt l.latestFinalized.slot s.latestJustified.slot = some true := by
  rcases Nat.lt_or_ge l.latestFinalized.slot s.latestJustified.slot with hlt | hge
  · obtain ⟨hon, -⟩ := h.checkpoint_onChain hE hne (Or.inl rfl)
    refine (linv.bit_iff _ _ hlt (State.getElem?_beforeVotes hon)).mpr ?_
    rcases h.backed hE hne (Or.inl rfl) with h0 | hq
    · omega
    · rw [← h.validators_eq] at hq
      exact hq
  · exact JustifiedSlots.bitAt_of_le hge

/-- A vote for the latest block counts in the next block, where its slot is justifiable. -/
theorem ReachedFromGenesis.support_counts (hE : E.HashIdeal)
    (h : ReachedFromGenesis E g blocks s) (hne : blocks ≠ [])
    (hfin : s.latestFinalized.slot < s.slot)
    (hjust : justifiableDistance (s.slot - s.latestFinalized.slot) = true) {block : Block}
    (hlt : s.slot < block.slot) {l : VoteLoop} (hl : (s.beforeVotes E block).voteLoop = .ok l)
    (linv : LoopInv (s.beforeVotes E block) (g.chainVotes E blocks) l) :
    (s.beforeVotes E block).Counts l (s.supportVote E V).data.source
      (s.supportVote E V).data.target := by
  have inv := h.chainInv hE
  have h0 := h.slot_ne_zero hE hne
  obtain ⟨hon, hroot⟩ := h.checkpoint_onChain hE hne (Or.inl rfl)
  obtain ⟨m, -, settled⟩ := h.settled hE h0
  have hfinal : l.latestFinalized = s.latestFinalized :=
    (State.voteLoop_checkpoints hl).2.trans (State.checkpoints_beforeVotes h0 block).2
  have hlen : s.historicalBlockHashes.length = s.slot := by
    rw [inv.history_length, inv.slot_eq]
  -- the target is the latest block, whose root the next block enters
  have htip : (s.beforeVotes E block).historicalBlockHashes[s.slot]? = some (s.blockRoot E) := by
    rw [State.history_beforeVotes, ← hlen, List.getElem?_append_right le_rfl, Nat.sub_self]
    rfl
  have hbit : l.justifiedSlots.bitAt l.latestFinalized.slot s.slot = some false := by
    -- nobody could vote for the latest block before
    obtain ⟨b, hb⟩ := JustifiedSlots.exists_bitAt
      (show s.slot < l.latestFinalized.slot + 1 + l.justifiedSlots.length by
        rw [linv.window_length, inv.length_beforeVotes hlt]
        exact hlt)
    cases b with
    | false => exact hb
    | true =>
      have hq := (linv.bit_iff _ _ (hfinal ▸ hfin) htip).mp hb
      rw [settled.voters_eq_empty hlen.le] at hq
      exact absurd hq (not_quorum_empty inv.validators_pos)
  exact {
    source_justified := h.justified_bit hE hne linv
    target_unjustified := hbit
    source_ne_zero := hroot
    target_ne_zero := hE.header_ne_zero _
    source_on_chain := State.getElem?_beforeVotes hon
    target_on_chain := htip
    source_lt_target := (List.getElem?_eq_some_iff.mp hon).1.trans_eq hlen
    finalized_le_target := by
      rw [inv.finalized_beforeVotes]
      exact hfin.le
    justifiable := by
      rw [inv.finalized_beforeVotes]
      exact hjust }

/-- The justified checkpoint of a chain is before its latest block. -/
theorem ReachedFromGenesis.justified_lt (hE : E.HashIdeal) (h : ReachedFromGenesis E g blocks s)
    (hne : blocks ≠ []) : s.latestJustified.slot < s.slot := by
  have inv := h.chainInv hE
  obtain ⟨hon, -⟩ := h.checkpoint_onChain hE hne (Or.inl rfl)
  have hlen := (List.getElem?_eq_some_iff.mp hon).1
  rwa [inv.history_length, ← inv.slot_eq] at hlen

/-- The next block may carry the vote of a quorum for the latest one. -/
theorem ReachedFromGenesis.mayCarry_support (hE : E.HashIdeal)
    (h : ReachedFromGenesis E g blocks s) (hne : blocks ≠ [])
    (hV : V ⊆ Finset.range s.validators.length) (hq : Quorum s.validators.length V) :
    s.MayCarry (s.slot + 1) (s.supportVote E V) where
  nonempty := by
    intro hnil
    have hempty : V = ∅ := by
      rw [← toFinset_bitsFor hV]
      exact congrArg List.toFinset hnil
    exact not_quorum_empty (h.chainInv hE).validators_pos (hempty ▸ hq)
  registered := fun v hv => (mem_setIndices_bitsFor.mp hv).1
  finalized_le := h.finalized_le_justified hE
  source_lt := (h.justified_lt hE hne).trans (Nat.lt_succ_self _)
  target_lt := Nat.lt_succ_self _

/-- Two thirds of the validators can justify the latest block of a chain, where its slot is
    justifiable, and then finalize the checkpoint that was justified before, if no slot between the
    two is justifiable. -/
theorem ReachedFromGenesis.exists_support (hE : E.HashIdeal)
    (h : ReachedFromGenesis E g blocks s) (hne : blocks ≠ [])
    (hfin : s.latestFinalized.slot < s.slot)
    (hjust : justifiableDistance (s.slot - s.latestFinalized.slot) = true)
    (hroom : s.slot + 1 ≤ historicalRootsLimit) (hV : V ⊆ Finset.range s.validators.length)
    (hq : Quorum s.validators.length V) :
    ∃ (sb : SignedBlockWithAttestation) (s' : State), s.stateTransition E sb true = .ok s' ∧
      sb.block.slot = s.slot + 1 ∧ sb.block.body.attestations = [s.supportVote E V] ∧
      s'.latestJustified = ⟨s.blockRoot E, s.slot⟩ ∧
      s.latestFinalized.slot ≤ s'.latestFinalized.slot ∧
      ((∀ x, s.latestJustified.slot < x → x < s.slot →
          justifiableDistance (x - s.latestFinalized.slot) = false) →
        s'.latestFinalized = s.latestJustified) := by
  have inv := h.chainInv hE
  have hcarry := h.mayCarry_support hE hne hV hq
  -- the next block, with the vote of the quorum only
  obtain ⟨sb, s', htrans, hslot, hvotes⟩ := inv.exists_block hE (Nat.lt_succ_self _) hroom
    (by simp [validatorRegistryLimit]) (by simp)
    (show ∀ a ∈ [s.supportVote E V], s.MayCarry (s.slot + 1) a by simpa using hcarry)
  obtain ⟨l, l', step⟩ := State.stateTransition_step hE inv.unsealed htrans
  obtain ⟨l₁, hl₁, linv⟩ := inv.loopInv_beforeVotes hE step.slot_lt
  obtain rfl := Except.ok.inj (step.start.symm.trans hl₁)
  -- the only round of the block is the one of the quorum
  have hround : (s.beforeVotes E sb.block).processAttestation l (s.supportVote E V) = .ok l' := by
    have hrun := step.run
    rw [hvotes, List.foldlM_cons] at hrun
    obtain ⟨l₂, hround, hrest⟩ := bind_eq_ok.mp hrun
    obtain rfl := Except.ok.inj hrest
    exact hround
  obtain ⟨hjustified, hcases⟩ := linv.quorum_round
    (h.support_counts hE hne hfin hjust step.slot_lt hl₁ linv)
    (show Quorum _ (AggregationBits.setIndices (bitsFor _ V)).toFinset by
      rw [toFinset_bitsFor hV]
      exact hq) hround
  have hstart : l.latestFinalized = s.latestFinalized := (State.voteLoop_checkpoints hl₁).2.trans
    (State.checkpoints_beforeVotes (h.slot_ne_zero hE hne) sb.block).2
  have hj : s'.latestJustified = l'.latestJustified := by rw [step.result]; rfl
  have hf : s'.latestFinalized = l'.latestFinalized := by rw [step.result]; rfl
  refine ⟨sb, s', htrans, hslot, hvotes, hj.trans hjustified, ?_, fun hgap => ?_⟩
  · rcases hcases with ⟨-, hsame⟩ | ⟨-, hmoved⟩
    · rw [hf, hsame, hstart]
    · rw [hf, hmoved]
      exact hcarry.finalized_le
  · -- the scan of a link without a justifiable slot finds nothing
    rcases hcases with ⟨hfalse, -⟩ | ⟨-, hmoved⟩
    · rw [State.linkIsDirect_of_gap, Except.ok.injEq] at hfalse
      · simp at hfalse
      · rw [inv.finalized_beforeVotes]
        exact hcarry.finalized_le
      · rw [inv.finalized_beforeVotes]
        exact hgap
    · exact hf.trans hmoved

/-! ## A block and the votes for it -/

/-- Two more blocks on the state `s`: one at slot `t`, and one with the votes of `V` for it. -/
structure SupportedBlock (E : Env) (V : Finset ℕ) (s : State) (t : ℕ)
    (pair : List SignedBlockWithAttestation) (s' : State) : Prop where
  run : s.runChain E pair = .ok s'
  length_eq : pair.length = 2
  slot_eq : s'.slot = t + 1
  votes : ∀ v, ∀ d ∈ includedVotes pair v, v ∈ V ∧ d.target.slot = t
  justified_slot : s'.latestJustified.slot = t
  finalized_le : s.latestFinalized.slot ≤ s'.latestFinalized.slot
  /-- The checkpoint that was justified before is finalized, if no slot after it and before `t` is
      justifiable. -/
  finalizes : s.latestBlockHeader.slot ≠ 0 →
    (∀ x, s.latestJustified.slot < x → x < t →
      justifiableDistance (x - s.latestFinalized.slot) = false) →
    s'.latestFinalized.slot = s.latestJustified.slot

/-- The history with one more block. -/
theorem ReachedFromGenesis.snoc (h : ReachedFromGenesis E g blocks s)
    {sb : SignedBlockWithAttestation} {s' : State} (hs : s.stateTransition E sb true = .ok s') :
    ReachedFromGenesis E g (blocks ++ [sb]) s' where
  genesis := h.genesis
  run := by
    rw [State.runChain_append, h.run, ok_bind, State.runChain, List.foldlM_cons, hs]
    rfl

/-- A block without votes only moves the slot. -/
theorem ChainInv.exists_empty_block (hE : E.HashIdeal) {ledger : List AggregatedAttestation}
    (inv : ChainInv E s ledger) {t : ℕ} (hlt : s.slot < t) (hroom : t ≤ historicalRootsLimit) :
    ∃ (sb : SignedBlockWithAttestation) (s' : State), s.stateTransition E sb true = .ok s' ∧
      sb.block.body.attestations = [] ∧ s'.slot = t ∧
      s'.latestFinalized.slot = s.latestFinalized.slot ∧
      (s.latestBlockHeader.slot ≠ 0 → s'.latestJustified = s.latestJustified) := by
  obtain ⟨sb, s', htrans, hslot, hvotes⟩ := inv.exists_block hE hlt hroom
    (by simp) (by simp) (show ∀ a ∈ ([] : List AggregatedAttestation), s.MayCarry t a by simp)
  obtain ⟨l, l', step⟩ := State.stateTransition_step hE inv.unsealed htrans
  obtain rfl : l = l' := by
    have hrun := step.run
    rw [hvotes] at hrun
    exact Except.ok.inj hrun
  obtain ⟨hj, hf⟩ := State.voteLoop_checkpoints step.start
  refine ⟨sb, s', htrans, hvotes, ?_, ?_, fun h0 => ?_⟩
  · rw [step.result]
    exact hslot
  · rw [step.result]
    exact (congrArg Checkpoint.slot hf).trans (inv.finalized_beforeVotes sb.block)
  · rw [step.result]
    exact hj.trans (State.checkpoints_beforeVotes h0 sb.block).1

/-- Two thirds of the validators can justify any justifiable slot after the latest block. -/
theorem ReachedFromGenesis.exists_supportedBlock (hE : E.HashIdeal)
    (h : ReachedFromGenesis E g blocks s) (hV : V ⊆ Finset.range s.validators.length)
    (hq : Quorum s.validators.length V) {t : ℕ} (hlt : s.slot < t)
    (hfin : s.latestFinalized.slot < t)
    (hjust : justifiableDistance (t - s.latestFinalized.slot) = true)
    (hroom : t + 1 ≤ historicalRootsLimit) :
    ∃ pair s', SupportedBlock E V s t pair s' := by
  have inv := h.chainInv hE
  -- an empty block at the slot, and one after it with the votes for the slot
  obtain ⟨sb₁, s₁, h₁, hvotes₁, rfl, hfin₁, hjust₁⟩ := inv.exists_empty_block hE hlt
    ((Nat.le_succ t).trans hroom)
  have hvalidators := State.stateTransition_validators h₁
  obtain ⟨sb₂, s₂, h₂, hslot₂, hvotes₂, hjust₂, hfin₂, hgap⟩ :=
    (h.snoc h₁).exists_support (V := V) hE (by simp) (hfin₁ ▸ hfin) (hfin₁ ▸ hjust) hroom
      (hvalidators ▸ hV) (hvalidators ▸ hq)
  refine ⟨[sb₁, sb₂], s₂, ?_⟩
  exact {
    run := by
      rw [State.runChain, List.foldlM_cons, h₁, ok_bind, List.foldlM_cons, h₂]
      rfl
    length_eq := rfl
    slot_eq := by
      obtain ⟨l, l', step⟩ := State.stateTransition_step hE ((h.snoc h₁).chainInv hE).unsealed h₂
      rw [step.result]
      exact hslot₂
    votes := by
      intro v d hd
      simp only [includedVotes, List.flatMap_cons, List.flatMap_nil, hvotes₁, hvotes₂,
        List.nil_append, List.append_nil, List.mem_map, List.mem_filter, List.mem_singleton,
        decide_eq_true_eq] at hd
      obtain ⟨a, ⟨rfl, hv⟩, rfl⟩ := hd
      exact ⟨(mem_setIndices_bitsFor.mp hv).2, rfl⟩
    justified_slot := congrArg Checkpoint.slot hjust₂
    finalized_le := hfin₁ ▸ hfin₂
    finalizes := by
      -- no slot in between is justifiable, so the source is finalized as well
      intro h0 hnone
      rw [hgap (by rw [hjust₁ h0, hfin₁]; exact hnone), hjust₁ h0] }

end Support

/-! ## Two justifiable slots with a gap between them -/

section Gap

variable {f k : ℕ} (hroom : f + k * k + k + 1 ≤ historicalRootsLimit)

include hroom in
/-- The distances up to `k * (k + 1)` are below the precision of a double. -/
theorem distance_lt {x : ℕ} (hx : x ≤ f + k * k + k) : 4 * (x - f) + 1 < 2 ^ 53 := by
  rw [historicalRootsLimit] at hroom
  omega

include hroom in
theorem justifiable_square : justifiableDistance (f + k * k - f) = true := by
  refine (justifiableDistance_iff (distance_lt hroom (by omega))).mpr (Or.inr (Or.inl ⟨k, ?_⟩))
  omega

include hroom in
theorem justifiable_pronic : justifiableDistance (f + k * k + k - f) = true := by
  refine (justifiableDistance_iff (distance_lt hroom le_rfl)).mpr (Or.inr (Or.inr ⟨k, ?_⟩))
  rw [Nat.mul_succ]
  omega

include hroom in
/-- No slot between a square and the next pronic number is justifiable. -/
theorem not_justifiable_between (hk : 3 ≤ k) {x : ℕ} (hlo : f + k * k < x)
    (hhi : x < f + k * k + k) : justifiableDistance (x - f) = false := by
  have hnine : 3 * 3 ≤ k * k := Nat.mul_le_mul hk hk
  rw [← Bool.not_eq_true, justifiableDistance_iff (distance_lt hroom hhi.le)]
  rintro (hsmall | ⟨j, hj⟩ | ⟨j, hj⟩)
  · omega
  · -- `j * j` between `k * k` and `(k + 1) * (k + 1)`
    have hlow : k < j := Nat.lt_of_not_le fun hle => by
      have := Nat.mul_le_mul hle hle
      omega
    have hhigh := Nat.mul_le_mul hlow hlow
    simp only [Nat.succ_eq_add_one, Nat.add_mul, Nat.mul_add] at hhigh
    omega
  · -- `j * (j + 1)` between `(k - 1) * k` and `k * (k + 1)`
    have hhigh : j < k := Nat.lt_of_not_le fun hle => by
      have := Nat.mul_le_mul hle (Nat.succ_le_succ hle)
      simp only [Nat.succ_eq_add_one, Nat.mul_add] at this
      rw [Nat.mul_add] at hj
      omega
    have hlow := Nat.mul_le_mul hhigh.le hhigh
    simp only [Nat.succ_eq_add_one] at hlow
    omega

end Gap

/-! ## Finality -/

/-- On every chain, whatever its blocks voted for, two thirds of the validators can finalize a
    later slot with at most four more blocks, without a further vote for a slot of the chain so
    far. -/
theorem quorum_can_finalize {E : Env} (hE : E.HashIdeal) {g s : State}
    {blocks : List SignedBlockWithAttestation} (hreach : ReachedFromGenesis E g blocks s)
    {V : Finset ℕ} (hV : V ⊆ Finset.range s.validators.length)
    (hq : Quorum s.validators.length V) {k : ℕ} (hk : 3 ≤ k)
    (hslot : s.slot < s.latestFinalized.slot + k * k)
    (hroom : s.latestFinalized.slot + k * k + k + 1 ≤ historicalRootsLimit) :
    ∃ more s', s.runChain E more = .ok s' ∧ more.length ≤ 4 ∧
      s'.slot ≤ s.latestFinalized.slot + k * k + k + 1 ∧
      (∀ v, ∀ d ∈ includedVotes more v, v ∈ V ∧ s.slot < d.target.slot) ∧
      s.latestFinalized.slot < s'.latestFinalized.slot := by
  have hpos : 0 < k * k := Nat.mul_pos (by omega) (by omega)
  -- the first link goes to the square distance
  obtain ⟨first, s₁, p₁⟩ := hreach.exists_supportedBlock hE hV hq hslot (by omega)
    (justifiable_square hroom) (by omega)
  have hslot₁ := p₁.slot_eq
  rcases Nat.eq_or_lt_of_le p₁.finalized_le with hfin | hfin
  · -- the first link finalized nothing, so the second one does
    have hreach₁ : ReachedFromGenesis E g (blocks ++ first) s₁ := {
      genesis := hreach.genesis
      run := by rw [State.runChain_append, hreach.run, ok_bind, p₁.run] }
    have hvalidators := State.runChain_validators p₁.run
    obtain ⟨second, s₂, p₂⟩ := hreach₁.exists_supportedBlock hE (hvalidators ▸ hV)
      (hvalidators ▸ hq) (show s₁.slot < s.latestFinalized.slot + k * k + k by omega)
      (by omega) (hfin ▸ justifiable_pronic hroom) (by omega)
    have hfinal : s₂.latestFinalized.slot = s.latestFinalized.slot + k * k := by
      rw [p₂.finalizes, p₁.justified_slot]
      · rw [← (hreach₁.chainInv hE).slot_eq, hslot₁]
        omega
      · rw [p₁.justified_slot, ← hfin]
        exact fun x hlo hhi => not_justifiable_between hroom hk hlo hhi
    refine ⟨first ++ second, s₂, ?_, ?_, p₂.slot_eq.le, fun v d hd => ?_, by omega⟩
    · rw [State.runChain_append, p₁.run, ok_bind, p₂.run]
    · rw [List.length_append, p₁.length_eq, p₂.length_eq]
    · rw [includedVotes_append, List.mem_append] at hd
      rcases hd with hd | hd
      · obtain ⟨hv, htarget⟩ := p₁.votes v d hd
        exact ⟨hv, htarget ▸ hslot⟩
      · obtain ⟨hv, htarget⟩ := p₂.votes v d hd
        exact ⟨hv, by omega⟩
  · refine ⟨first, s₁, p₁.run, ?_, by omega, fun v d hd => ?_, hfin⟩
    · rw [p₁.length_eq]
      omega
    · obtain ⟨hv, htarget⟩ := p₁.votes v d hd
      exact ⟨hv, htarget ▸ hslot⟩

/-- The chain with one validator, at slot 3 with nothing finalized, can finalize a slot by 13. -/
theorem solo_chain_can_finalize :
    SoloChain.state3.latestFinalized.slot = 0 ∧ ∃ more s',
      SoloChain.state3.runChain SoloChain.env more = .ok s' ∧ more.length ≤ 4 ∧ s'.slot ≤ 13 ∧
      (∀ v, ∀ d ∈ includedVotes more v, v ∈ ({0} : Finset ℕ) ∧ 3 < d.target.slot) ∧
      0 < s'.latestFinalized.slot :=
  ⟨rfl, quorum_can_finalize (Env.tabulated_hashIdeal _) SoloChain.reached_state3
    (by decide) (by decide) le_rfl (by decide) (by decide)⟩

end ConsensusClient
