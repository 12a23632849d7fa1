import ConsensusClient.Containers.LatestJustified
import ConsensusClient.Containers.Panic
import ConsensusClient.Containers.Pending
import ConsensusClient.Containers.Proofs

/-!
# The Collection Loop of Block Building

`build_block` tries candidate blocks until their votes justify no checkpoint that makes further
votes of the pool eligible. A candidate is processed like any block, so a vote that makes
`process_attestations` return an error or panic stops block production. The votes that are
collected have the latest justified checkpoint of a candidate as their source; what else they
may say is up to the handlers. This module states exactly which votes make the loop fail.

## Main results

* `State.finalized_le_justified_runChain`: the justified slot is not before the finalized one
* `ChainInv.exists_applyCandidate_iff`: which candidates are accepted
* `State.Collects.exists_collect`, `State.Collects.accepted`: the loop ends exactly when every
  candidate is accepted
* `ChainInv.exists_collect_iff`: the same in terms of the votes of the candidates
-/

namespace ConsensusClient

/-! ## The latest justified slot and the finalized slot -/

section JustifiedAfterFinalized

variable {E : Env} {s s' : State} {l l' : VoteLoop} {a : AggregatedAttestation}

/-- A round does not leave the latest justified checkpoint behind the finalized one, although it
    may move it back: a new target lies after the finalized slot and after its source. -/
theorem State.finalized_le_justified_round
    (hle : l.latestFinalized.slot ≤ l.latestJustified.slot)
    (h : s.processAttestation l a = .ok l') :
    l'.latestFinalized.slot ≤ l'.latestJustified.slot := by
  rcases State.latestJustified_round h with ⟨hjust, hfin, -⟩ | ⟨tally, ht, -, hjust, -, hfin⟩
  · rw [hjust, hfin]
    exact hle
  · have hafter := VoteLoop.lt_of_bit_false ht.counts.target_unjustified
    have hsource := ht.counts.source_lt_target
    rw [hjust]
    rcases hfin with hfin | hfin
    · rw [hfin]
      exact hafter.le
    · rw [hfin]
      exact hsource.le

theorem State.finalized_le_justified_foldlM {votes : List AggregatedAttestation}
    (hle : l.latestFinalized.slot ≤ l.latestJustified.slot)
    (h : votes.foldlM s.processAttestation l = .ok l') :
    l'.latestFinalized.slot ≤ l'.latestJustified.slot := by
  refine foldlM_induction (I := fun l => l.latestFinalized.slot ≤ l.latestJustified.slot)
    ?_ hle h
  intro _ _ _ _ _ _ _ hc hround
  exact State.finalized_le_justified_round hc hround

/-- The vote loop starts with the checkpoints of the state. -/
theorem State.voteLoop_checkpoints (h : s.voteLoop = .ok l) :
    l.latestJustified = s.latestJustified ∧ l.latestFinalized = s.latestFinalized := by
  obtain ⟨_, -, h⟩ := bind_eq_ok.mp h
  obtain ⟨justifications, -, h⟩ := bind_eq_ok.mp h
  obtain rfl := Except.ok.inj h
  exact ⟨rfl, rfl⟩

/-- A header makes both checkpoints the genesis block, or leaves both. -/
theorem State.finalized_le_justified_beforeVotes
    (hle : s.latestFinalized.slot ≤ s.latestJustified.slot) (block : Block) :
    (s.beforeVotes E block).latestFinalized.slot ≤
      (s.beforeVotes E block).latestJustified.slot := by
  by_cases h0 : s.latestBlockHeader.slot = 0
  · simp [State.beforeVotes, State.withHeader, State.advanced, State.sealedHeader, h0]
  · simpa [State.beforeVotes, State.withHeader, State.advanced, State.sealedHeader, h0] using hle

/-- On a chain, the latest justified slot is never before the finalized slot. -/
theorem State.finalized_le_justified_runChain {blocks : List SignedBlockWithAttestation}
    (hE : E.HashIdeal) {ledger : List AggregatedAttestation} (inv : ChainInv E s ledger)
    (hle : s.latestFinalized.slot ≤ s.latestJustified.slot)
    (h : s.runChain E blocks = .ok s') : s'.latestFinalized.slot ≤ s'.latestJustified.slot := by
  induction blocks generalizing s ledger with
  | nil =>
    obtain rfl := Except.ok.inj h
    exact hle
  | cons sb rest ih =>
    obtain ⟨s₁, h₁, h⟩ := State.runChain_cons h
    obtain ⟨l, l', step⟩ := State.stateTransition_step hE inv.unsealed h₁
    refine ih (inv.stateTransition hE h₁) ?_ h
    obtain ⟨hjust, hfin⟩ := State.voteLoop_checkpoints step.start
    have hstart := State.finalized_le_justified_beforeVotes (E := E) hle sb.block
    rw [← hjust, ← hfin] at hstart
    rw [step.result]
    exact State.finalized_le_justified_foldlM hstart step.run

theorem ReachedFromGenesis.finalized_le_justified (hE : E.HashIdeal) {g : State}
    {blocks : List SignedBlockWithAttestation} (h : ReachedFromGenesis E g blocks s) :
    s.latestFinalized.slot ≤ s.latestJustified.slot := by
  obtain ⟨time, validators, hn, hg⟩ := h.genesis
  have inv := ChainInv.genesis hn hg
  have hslot : g.latestBlockHeader.slot = 0 := by
    obtain ⟨-, rfl⟩ := generateGenesisWithValidators_eq_ok hg
    rfl
  obtain ⟨hfresh, -⟩ := inv.fresh hslot
  exact State.finalized_le_justified_runChain hE inv
    (by rw [hfresh.finalized_slot, hfresh.justified_slot]) h.run

end JustifiedAfterFinalized

/-! ## Rounds that fail -/

/-- The round of `a` fails: its source is justified and its target is not before the block, or its
    votes count and one of them is of a validator that is not registered. -/
def State.FailingRound (s : State) (l : VoteLoop) (a : AggregatedAttestation) : Prop :=
  l.justifiedSlots.bitAt l.latestFinalized.slot a.data.source.slot = some true ∧
      s.historicalBlockHashes.length ≤ a.data.target.slot ∨
    s.Counts l a.data.source a.data.target ∧
      ∃ v ∈ AggregationBits.setIndices a.aggregationBits, s.validators.length ≤ v

section Rounds

variable {s : State} {ledger : List AggregatedAttestation} {l : VoteLoop}
  {a : AggregatedAttestation}

/-- Casting the votes of registered validators succeeds. -/
theorem exists_castVotes {tally : List Bool} {ids : List ℕ} (h : ∀ v ∈ ids, v < tally.length) :
    ∃ tally', castVotes tally ids = .ok tally' := by
  unfold castVotes
  induction ids generalizing tally with
  | nil => exact ⟨tally, rfl⟩
  | cons v ids ih =>
    rw [List.forall_mem_cons] at h
    rw [List.foldlM_cons, if_pos h.1, ok_bind]
    exact ih (by simpa using h.2)

/-- The tally of a vote that counts has one bit for each validator. -/
theorem LoopInv.tallyOf_length (inv : LoopInv s ledger l)
    (hc : s.Counts l a.data.source a.data.target) :
    (s.tallyOf l a.data.target.root).length = s.validators.length := by
  unfold State.tallyOf
  cases hl : l.justifications.lookup a.data.target.root with
  | none => simp
  | some tally =>
    exact (inv.tally_bits _ _ _ (VoteLoop.lt_of_bit_false hc.target_unjustified)
      hc.target_on_chain hl).1.length_eq

/-- Finalizing a source of the history succeeds. -/
theorem LoopInv.exists_finalize (inv : LoopInv s ledger l)
    (hd : DistinctRoots s.historicalBlockHashes) {source : Checkpoint}
    (hsource : s.historicalBlockHashes[source.slot]? = some source.root) :
    ∃ l', s.finalize l source = .ok l' := by
  unfold State.finalize
  by_cases hlt : l.latestFinalized.slot < source.slot
  · have hin : source.slot - l.latestFinalized.slot ≤ l.justifiedSlots.length := by
      have h₁ := (List.getElem?_eq_some_iff.mp hsource).1
      have h₂ := inv.window_length
      omega
    obtain ⟨window, hw⟩ := JustifiedSlots.exists_shiftWindow hin
    simp only [hlt, if_true, hw, ok_bind, ensure_of (inv.keys_mem_rootToSlot hd)]
    exact ⟨_, rfl⟩
  · simp only [hlt, if_false]
    exact ⟨_, rfl⟩

/-- Justifying a target succeeds, if the source is not far behind the finalized slot. -/
theorem LoopInv.exists_justify (inv : LoopInv s ledger l)
    (hd : DistinctRoots s.historicalBlockHashes) {tally : List Bool} (ht : s.Tallied l a tally)
    (hq : 2 * s.validators.length ≤ 3 * tally.count true)
    (hscan : s.latestFinalized.slot ≤ a.data.source.slot + 1) :
    ∃ l', s.justify (l.storeTally a.data.target.root tally) a.data.source a.data.target =
      .ok l' := by
  have hin : a.data.target.slot < l.latestFinalized.slot + 1 + l.justifiedSlots.length := by
    rw [inv.window_length]
    exact (List.getElem?_eq_some_iff.mp ht.counts.target_on_chain).1
  obtain ⟨window, hw⟩ := JustifiedSlots.exists_withJustified (b := true) hin
  unfold State.justify
  rw [show (l.storeTally a.data.target.root tally).justifiedSlots.withJustified
      (l.storeTally a.data.target.root tally).latestFinalized.slot a.data.target.slot true =
      .ok window from hw, ok_bind, State.linkIsDirect_of_le (Or.inl hscan), ok_bind]
  split_ifs
  · exact (inv.justifiedBy hd ht hq hw).exists_finalize hd ht.counts.source_on_chain
  · exact ⟨_, rfl⟩

/-- The skip checks give an answer for checkpoints in the history. -/
theorem LoopInv.exists_voteCounts (inv : LoopInv s ledger l) {source target : Checkpoint}
    (hsource : source.slot < s.historicalBlockHashes.length)
    (htarget : l.justifiedSlots.bitAt l.latestFinalized.slot source.slot = some true →
      target.slot < s.historicalBlockHashes.length) :
    ∃ counts, s.voteCounts l source target = .ok counts := by
  have hlen := inv.window_length
  have hbit : ∀ t, t < s.historicalBlockHashes.length →
      ∃ b, l.justifiedSlots.bitAt l.latestFinalized.slot t = some b :=
    fun t ht => JustifiedSlots.exists_bitAt (by omega)
  obtain ⟨b₁, h₁⟩ := hbit source.slot hsource
  unfold State.voteCounts
  rw [JustifiedSlots.isSlotJustified_eq_ok.mpr h₁, ok_bind]
  cases b₁ with
  | false => exact ⟨false, rfl⟩
  | true =>
    have htarget := htarget h₁
    obtain ⟨b₂, h₂⟩ := hbit target.slot htarget
    rw [if_neg (by simp), JustifiedSlots.isSlotJustified_eq_ok.mpr h₂, ok_bind,
      List.getElem?_eq_getElem hsource, List.getElem?_eq_getElem htarget]
    simp only [okOr, ok_bind]
    -- the assertion of the last check holds for an unjustified target
    have hlast : b₂ = false →
        ∃ b, isJustifiableAfter target.slot s.latestFinalized.slot = .ok b := by
      rintro rfl
      have hlt := VoteLoop.lt_of_bit_false h₂
      have hle := inv.finalized_le
      exact ⟨_, isJustifiableAfter_of_le (by omega)⟩
    split_ifs with hb₂
    · exact ⟨_, rfl⟩
    · exact ⟨_, rfl⟩
    · exact ⟨_, rfl⟩
    · exact ⟨_, rfl⟩
    · exact ⟨_, rfl⟩
    · exact hlast (by simpa using hb₂)

/-- A round succeeds exactly when it is not a failing one, if its source is in the history and not
    far behind the finalized slot. -/
theorem LoopInv.exists_processAttestation_iff (inv : LoopInv s ledger l)
    (hd : DistinctRoots s.historicalBlockHashes)
    (hbits : AggregationBits.setIndices a.aggregationBits ≠ [])
    (hsource : a.data.source.slot < s.historicalBlockHashes.length)
    (hscan : s.latestFinalized.slot ≤ a.data.source.slot + 1) :
    (∃ l', s.processAttestation l a = .ok l') ↔ ¬ s.FailingRound l a := by
  have hlen := inv.window_length
  constructor
  · rintro ⟨l', h⟩ (⟨hjust, hout⟩ | ⟨hc, v, hv, hforeign⟩)
    · -- the target has no bit, so the second check returns an error
      obtain ⟨counts, hcounts, -⟩ := bind_eq_ok.mp h
      unfold State.voteCounts at hcounts
      rw [JustifiedSlots.isSlotJustified_eq_ok.mpr hjust, ok_bind, if_neg (by simp)] at hcounts
      obtain ⟨b, hb, -⟩ := bind_eq_ok.mp hcounts
      rw [JustifiedSlots.isSlotJustified_eq_ok, JustifiedSlots.bitAt_eq_none.mpr (by omega)] at hb
      exact absurd hb (by simp)
    · obtain ⟨counts, hcounts, h⟩ := bind_eq_ok.mp h
      obtain rfl := Except.ok.inj (hcounts.symm.trans (State.voteCounts_eq_true.mpr hc))
      rw [if_neg (by simp), toValidatorIndices_eq_ok.mpr ⟨rfl, hbits⟩, ok_bind] at h
      obtain ⟨tally, ht, -⟩ := bind_eq_ok.mp h
      -- a tally has registered voters only
      have hlt := (inv.bitsOf_tally ⟨hc, hbits, ht⟩).2 v hv
      omega
  · intro hnot
    have htarget : l.justifiedSlots.bitAt l.latestFinalized.slot a.data.source.slot = some true →
        a.data.target.slot < s.historicalBlockHashes.length := by
      intro hjust
      by_contra hge
      exact hnot (Or.inl ⟨hjust, Nat.le_of_not_lt hge⟩)
    -- without the two faults every part of the round succeeds
    obtain ⟨counts, hcounts⟩ := inv.exists_voteCounts hsource htarget
    unfold State.processAttestation
    rw [hcounts, ok_bind]
    cases counts with
    | false => exact ⟨l, rfl⟩
    | true =>
      have hc := State.voteCounts_eq_true.mp hcounts
      have hreg : ∀ v ∈ AggregationBits.setIndices a.aggregationBits,
          v < (s.tallyOf l a.data.target.root).length := by
        intro v hv
        rw [inv.tallyOf_length hc]
        by_contra hge
        exact hnot (Or.inr ⟨hc, v, hv, Nat.le_of_not_lt hge⟩)
      obtain ⟨tally, ht⟩ := exists_castVotes hreg
      rw [if_neg (by simp), toValidatorIndices_eq_ok.mpr ⟨rfl, hbits⟩, ok_bind, ht, ok_bind]
      simp only
      split_ifs with hq
      · exact inv.exists_justify hd ⟨hc, hbits, ht⟩ hq hscan
      · exact ⟨_, rfl⟩

end Rounds

/-! ## Candidate blocks -/

section Candidates

variable {E : Env} {s : State} {ledger : List AggregatedAttestation} {args : BuildArgs}

/-- A header that fits the state is accepted as long as the history has room. -/
theorem State.exists_processBlockHeader_iff (block : Block) (hslot : block.slot = s.slot)
    (hlt : s.latestBlockHeader.slot < block.slot) (hn : s.validators.length ≠ 0)
    (hproposer : s.slot % s.validators.length = block.proposerIndex)
    (hparent : block.parentRoot = E.hashHeader s.latestBlockHeader) :
    (∃ s', s.processBlockHeader E block = .ok s') ↔
      s.historicalBlockHashes.length + (block.slot - s.latestBlockHeader.slot) ≤
        historicalRootsLimit := by
  have hisProposer : isProposerFor block.proposerIndex s.slot s.validators.length = .ok true := by
    unfold isProposerFor
    rw [if_neg hn, hproposer, decide_eq_true rfl]
  unfold State.processBlockHeader
  simp only [ensure_of hslot, ensure_of hlt, hisProposer, ensure_of hparent, ok_bind]
  rw [ensure_of trivial, ok_bind]
  -- the parent root is pushed first, and then one zero for each empty slot
  by_cases hroom : s.historicalBlockHashes.length < historicalRootsLimit
  · rw [pushLimited_eq_ok.mpr ⟨hroom, rfl⟩, ok_bind]
    have hiff : (∃ r, pushAll historicalRootsLimit
        (s.historicalBlockHashes ++ [E.hashHeader s.latestBlockHeader])
        (List.replicate (block.slot - s.latestBlockHeader.slot - 1) 0) = .ok r) ↔ _ :=
      exists_pushAll_iff (by simp; omega)
    rw [List.length_append, List.length_singleton, List.length_replicate] at hiff
    rw [show s.historicalBlockHashes.length + (block.slot - s.latestBlockHeader.slot) =
      s.historicalBlockHashes.length + 1 + (block.slot - s.latestBlockHeader.slot - 1) by omega,
      ← hiff]
    exact exists_bind_iff fun hashes _ => ⟨_, rfl⟩
  · refine iff_of_false ?_ (by omega)
    rintro ⟨s', h⟩
    obtain ⟨hashes, hhashes, -⟩ := bind_eq_ok.mp h
    exact hroom (pushLimited_eq_ok.mp hhashes).1

/-- The tallies of the loop are not more than the slots of the history. -/
theorem LoopInv.sortedRoots_length_le {l : VoteLoop} (inv : LoopInv s ledger l) :
    l.sortedRoots.length ≤ s.historicalBlockHashes.length := by
  unfold VoteLoop.sortedRoots
  rw [List.length_insertionSort]
  refine (List.subperm_of_subset l.justifications.keys_nodup fun root hroot => ?_).length_le
  obtain ⟨-, t, -, hget, -⟩ := inv.key_pending root hroot
  exact List.mem_of_getElem? hget

/-- The tallies can be written back to a state whose history is not too long. -/
theorem LoopInv.exists_flatten {l : VoteLoop} (inv : LoopInv s ledger l)
    (hlen : s.historicalBlockHashes.length ≤ historicalRootsLimit) :
    ∃ post, s.flatten l = .ok post := by
  have hroots := inv.sortedRoots_length_le
  rw [State.flatten, ensure_of (by omega), ok_bind]
  exact ⟨_, rfl⟩

/-- Slot, proposer and parent are those of a block on the state. -/
structure BuildArgs.FitsOn (E : Env) (args : BuildArgs) (s : State) : Prop where
  slot_lt : s.slot < args.slot
  proposer : args.slot % s.validators.length = args.proposerIndex
  parent_root : args.parentRoot = s.blockRoot E

/-- Slot and header of a candidate are processed as long as the history has room. -/
theorem ChainInv.exists_header_iff (inv : ChainInv E s ledger)
    (fits : args.FitsOn E s) (groups : List AggregatedAttestation) :
    (∃ s₂, (s.advanced E args.slot).processBlockHeader E (args.candidate groups) = .ok s₂) ↔
      args.slot ≤ historicalRootsLimit := by
  have hslot := inv.slot_eq
  have hlt : s.latestBlockHeader.slot < args.slot := hslot ▸ fits.slot_lt
  refine (State.exists_processBlockHeader_iff (s := s.advanced E args.slot)
    (args.candidate groups) rfl hlt inv.validators_pos.ne' fits.proposer fits.parent_root).trans ?_
  show s.historicalBlockHashes.length + (args.slot - s.latestBlockHeader.slot) ≤ _ ↔ _
  rw [inv.history_length, Nat.add_sub_cancel' hlt.le]

/-- A candidate whose votes have sources between the finalized slot and its own is accepted
    exactly when the history has room and no round fails. -/
theorem ChainInv.exists_applyCandidate_iff (hE : E.HashIdeal) (inv : ChainInv E s ledger)
    (fits : args.FitsOn E s) {groups : List AggregatedAttestation}
    (hlen : groups.length ≤ validatorRegistryLimit) (hdup : hasDuplicateData E groups = false)
    (hbits : ∀ g ∈ groups, AggregationBits.setIndices g.aggregationBits ≠ [])
    (hsources : ∀ g ∈ groups, g.data.source.slot < args.slot ∧
      (s.beforeVotes E (args.candidate groups)).latestFinalized.slot ≤ g.data.source.slot) :
    (∃ post, s.applyCandidate E args groups = .ok post) ↔
      args.slot ≤ historicalRootsLimit ∧ ∀ pre g rest l, groups = pre ++ g :: rest →
        s.loopAfter E (args.candidate groups) pre = .ok l →
        ¬ (s.beforeVotes E (args.candidate groups)).FailingRound l g := by
  have hslots := (State.processSlots_eq_ok hE inv.unsealed).mpr ⟨fits.slot_lt, rfl⟩
  -- pushing and slots succeed, and the header does if there is room
  obtain ⟨pushed, hpushed⟩ := (exists_pushAll_iff (Nat.zero_le _)).mpr
    (show ([] : List AggregatedAttestation).length + groups.length ≤ validatorRegistryLimit by
      simpa using hlen)
  obtain rfl : pushed = groups := by simpa using pushAll_eq_ok hpushed
  unfold State.applyCandidate State.processBlock State.loopAfter
  rw [show (args.candidate pushed).slot = args.slot from rfl]
  simp only [hpushed, ok_bind, hslots]
  by_cases hroom : args.slot ≤ historicalRootsLimit
  · obtain ⟨s₂, h₂⟩ := (inv.exists_header_iff fits pushed).mpr hroom
    obtain ⟨rfl, -⟩ := State.header_eq_ok hE inv.unsealed hslots h₂
    obtain ⟨l₀, h₀, linv⟩ := inv.loopInv_beforeVotes hE
      (show s.slot < (args.candidate pushed).slot from fits.slot_lt)
    have hd := (inv.chainRoots_beforeVotes (args.candidate pushed)).distinctRoots hE
    have hhist : (s.beforeVotes E (args.candidate pushed)).historicalBlockHashes.length =
        args.slot := inv.length_beforeVotes fits.slot_lt
    simp only [h₂, ok_bind, ensure_of hdup, State.processAttestations, h₀,
      show (args.candidate pushed).body.attestations = pushed from rfl, hroom, true_and]
    -- writing the tallies back succeeds, so the rounds decide
    rw [exists_bind_iff fun l hl => (linv.foldlM hd hl).exists_flatten (hhist ▸ hroom),
      exists_foldlM_iff]
    refine forall_congr' fun pre => forall_congr' fun g => forall_congr' fun rest =>
      forall_congr' fun l => forall_congr' fun hsplit => forall_congr' fun hpre => ?_
    have hg : g ∈ pushed := by simp [hsplit]
    obtain ⟨hlt, hle⟩ := hsources g hg
    exact (linv.foldlM hd hpre).exists_processAttestation_iff hd (hbits g hg)
      (hhist ▸ hlt) (hle.trans (Nat.le_succ _))
  · -- without room the header fails, whatever the votes are
    refine iff_of_false ?_ fun h => hroom h.1
    rintro ⟨post, h⟩
    obtain ⟨s₂, h₂, -⟩ := bind_eq_ok.mp h
    exact hroom ((inv.exists_header_iff fits pushed).mp ⟨s₂, h₂⟩)

end Candidates

/-! ## The loop -/

/-- The vote lists of the candidate blocks that the collection loop forms. -/
inductive State.Collects (E : Env) (s : State) (args : BuildArgs) : List Attestation → Prop
  /-- The first candidate has no votes. -/
  | start : Collects E s args []
  /-- The next one has the votes of the pool in addition that the last one makes eligible. -/
  | more {votes pool : List Attestation} {groups : List AggregatedAttestation} {post : State}
      {known : List H256} (h : Collects E s args votes)
      (hgroups : aggregateByData votes = .ok groups)
      (hpost : s.applyCandidate E args groups = .ok post)
      (hpool : args.availableAttestations = some pool)
      (hknown : args.knownBlockRoots = some known)
      (hnew : pool.filter (args.collects E known post.latestJustified votes) ≠ []) :
      Collects E s args (votes ++ pool.filter (args.collects E known post.latestJustified votes))

/-- The candidate with these votes is not accepted because of them: an index is too large for the
    bits, or the round of one of the groups fails. -/
def State.VotesFail (E : Env) (s : State) (args : BuildArgs) (votes : List Attestation) : Prop :=
  (∃ a ∈ votes, validatorRegistryLimit ≤ a.validatorId) ∨
    ∃ groups pre g rest l, aggregateByData votes = .ok groups ∧ groups = pre ++ g :: rest ∧
      s.loopAfter E (args.candidate groups) pre = .ok l ∧
      (s.beforeVotes E (args.candidate groups)).FailingRound l g

/-- What holds of the votes of every candidate. -/
structure CollectInv (E : Env) (s : State) (args : BuildArgs) (pool votes : List Attestation) :
    Prop where
  nodup : votes.Nodup
  subset : ∀ a ∈ votes, a ∈ pool
  sources : ∀ a ∈ votes, a.data.source.slot < args.slot ∧
    (s.beforeVotes E (args.candidate [])).latestFinalized.slot ≤ a.data.source.slot

section Loop

variable {E : Env} {s : State} {ledger : List AggregatedAttestation} {args : BuildArgs}
  {pool votes : List Attestation} {known : List H256}

/-- The checkpoint that a candidate justifies last is before its slot and not before the slot that
    is finalized when its votes are processed. -/
theorem ChainInv.applyCandidate_justified (hE : E.HashIdeal) (inv : ChainInv E s ledger)
    (hle : s.latestFinalized.slot ≤ s.latestJustified.slot)
    {groups : List AggregatedAttestation} {post : State}
    (h : s.applyCandidate E args groups = .ok post) :
    post.latestJustified.slot < args.slot ∧
      (s.beforeVotes E (args.candidate [])).latestFinalized.slot ≤ post.latestJustified.slot := by
  obtain ⟨advanced, headed, hadvanced, hheaded, -, h⟩ := State.applyCandidate_eq_ok h
  obtain ⟨rfl, hlt, -⟩ := State.header_eq_ok hE inv.unsealed
    (show s.processSlots E (args.candidate groups).slot = .ok advanced from hadvanced) hheaded
  obtain ⟨l₀, l, h₀, hrun, rfl⟩ := State.processAttestations_eq_ok h
  obtain ⟨l₁, h₁, linv⟩ := inv.loopInv_beforeVotes hE hlt
  obtain rfl := Except.ok.inj (h₀.symm.trans h₁)
  have linv' := linv.foldlM ((inv.chainRoots_beforeVotes (args.candidate groups)).distinctRoots hE)
    hrun
  constructor
  · -- it is on the chain, and the history ends right before the candidate
    have hon := (List.getElem?_eq_some_iff.mp linv'.justified_on_chain).1
    rw [inv.length_beforeVotes hlt] at hon
    exact hon
  · obtain ⟨hjust, hfin⟩ := State.voteLoop_checkpoints h₀
    have hstart := State.finalized_le_justified_beforeVotes (E := E) hle (args.candidate groups)
    rw [← hjust, ← hfin] at hstart
    exact linv'.finalized_le.trans (State.finalized_le_justified_foldlM hstart hrun)

/-- The votes that are added were not collected before, are of the pool, and have the latest
    justified checkpoint of the candidate as their source. -/
theorem BuildArgs.mem_collected {justified : Checkpoint} {a : Attestation}
    (h : a ∈ pool.filter (args.collects E known justified votes)) :
    a ∈ pool ∧ a ∉ votes ∧ a.data.source = justified := by
  obtain ⟨hpool, hcollects⟩ := List.mem_filter.mp h
  simp only [BuildArgs.collects, Bool.and_eq_true, decide_eq_true_eq, Bool.not_eq_true',
    decide_eq_false_iff_not] at hcollects
  exact ⟨hpool, hcollects.1.2, hcollects.1.1.2⟩

theorem State.Collects.inv (hE : E.HashIdeal) (inv : ChainInv E s ledger)
    (hle : s.latestFinalized.slot ≤ s.latestJustified.slot)
    (hpool : args.availableAttestations = some pool) (hnodup : pool.Nodup)
    (h : s.Collects E args votes) : CollectInv E s args pool votes := by
  induction h with
  | start => exact ⟨List.nodup_nil, by simp, by simp⟩
  | more h hgroups hpost hpool' hknown hnew ih =>
    obtain rfl := Option.some.inj (hpool.symm.trans hpool')
    -- the votes added have the checkpoint that the candidate justifies as their source
    have hjust := inv.applyCandidate_justified hE hle hpost
    refine ⟨?_, ?_, ?_⟩
    · refine List.Nodup.append ih.nodup (hnodup.filter _) ?_
      intro a ha hnew
      exact (BuildArgs.mem_collected hnew).2.1 ha
    · intro a ha
      rcases List.mem_append.mp ha with ha | ha
      · exact ih.subset a ha
      · exact (BuildArgs.mem_collected ha).1
    · intro a ha
      rcases List.mem_append.mp ha with ha | ha
      · exact ih.sources a ha
      · rw [(BuildArgs.mem_collected ha).2.2]
        exact hjust

/-- Every validator has one vote in the pool, so there are not more votes than validators. -/
theorem CollectInv.votes_length_le (hids : (pool.map fun a => a.validatorId).Nodup)
    (hlimit : ∀ a ∈ votes, a.validatorId < validatorRegistryLimit)
    (cinv : CollectInv E s args pool votes) : votes.length ≤ validatorRegistryLimit := by
  have hmap : (votes.map fun a => a.validatorId).Nodup :=
    cinv.nodup.map_on fun a ha b hb heq =>
      List.inj_on_of_nodup_map hids (cinv.subset a ha) (cinv.subset b hb) heq
  have hsub : (votes.map fun a => a.validatorId) ⊆ List.range validatorRegistryLimit := by
    intro v hv
    obtain ⟨a, ha, rfl⟩ := List.mem_map.mp hv
    exact List.mem_range.mpr (hlimit a ha)
  have hcount := (List.subperm_of_subset hmap hsub).length_le
  rwa [List.length_map, List.length_range] at hcount

/-- With indices in range, the groups are votes that the candidate can carry. -/
theorem CollectInv.exists_applyCandidate_iff (hE : E.HashIdeal) (inv : ChainInv E s ledger)
    (fits : args.FitsOn E s) (hids : (pool.map fun a => a.validatorId).Nodup)
    (hlimit : ∀ a ∈ votes, a.validatorId < validatorRegistryLimit)
    {groups : List AggregatedAttestation} (hgroups : aggregateByData votes = .ok groups)
    (cinv : CollectInv E s args pool votes) :
    (∃ post, s.applyCandidate E args groups = .ok post) ↔
      args.slot ≤ historicalRootsLimit ∧ ∀ pre g rest l, groups = pre ++ g :: rest →
        s.loopAfter E (args.candidate groups) pre = .ok l →
        ¬ (s.beforeVotes E (args.candidate groups)).FailingRound l g := by
  obtain ⟨hdistinct, hmem, hvoters⟩ := aggregateByData_eq_ok hgroups
  have hvote : ∀ g ∈ groups, ∃ a ∈ votes, a.data = g.data :=
    fun g hg => (hmem g.data).mp ⟨g, hg, rfl⟩
  apply inv.exists_applyCandidate_iff hE fits
  · exact (aggregateByData_length_le hgroups).trans (cinv.votes_length_le hids hlimit)
  · exact (hasDuplicateData_eq_false hE.data_injective).mpr hdistinct
  · intro g hg
    obtain ⟨a, ha, hdata⟩ := hvote g hg
    have hv : a.validatorId ∈ votersFor votes g.data := by
      rw [← hdata]
      exact mem_votersFor.mpr ha
    exact List.ne_nil_of_mem ((hvoters g hg _).mpr hv)
  · intro g hg
    obtain ⟨a, ha, hdata⟩ := hvote g hg
    rw [← hdata]
    exact cinv.sources a ha

/-- The candidate with the votes is accepted exactly when there is room in the history and the
    votes do not fail. -/
theorem CollectInv.exists_candidate_iff (hE : E.HashIdeal) (inv : ChainInv E s ledger)
    (fits : args.FitsOn E s) (hids : (pool.map fun a => a.validatorId).Nodup)
    (cinv : CollectInv E s args pool votes) :
    (∃ groups post, aggregateByData votes = .ok groups ∧
      s.applyCandidate E args groups = .ok post) ↔
      args.slot ≤ historicalRootsLimit ∧ ¬ s.VotesFail E args votes := by
  constructor
  · rintro ⟨groups, post, hgroups, hpost⟩
    have hlimit := exists_aggregateByData_iff.mp ⟨groups, hgroups⟩
    obtain ⟨hroom, hrounds⟩ :=
      (cinv.exists_applyCandidate_iff hE inv fits hids hlimit hgroups).mp ⟨post, hpost⟩
    refine ⟨hroom, ?_⟩
    rintro (⟨a, ha, hge⟩ | ⟨groups', pre, g, rest, l, hgroups', hsplit, hl, hfails⟩)
    · exact absurd (hlimit a ha) (Nat.not_lt.mpr hge)
    · obtain rfl := Except.ok.inj (hgroups.symm.trans hgroups')
      exact hrounds pre g rest l hsplit hl hfails
  · rintro ⟨hroom, hnot⟩
    -- votes that do not fail are grouped, and no group fails at its turn
    have hlimit : ∀ a ∈ votes, a.validatorId < validatorRegistryLimit := by
      intro a ha
      by_contra hge
      exact hnot (Or.inl ⟨a, ha, Nat.le_of_not_lt hge⟩)
    obtain ⟨groups, hgroups⟩ := exists_aggregateByData_iff.mpr hlimit
    obtain ⟨post, hpost⟩ :=
      (cinv.exists_applyCandidate_iff hE inv fits hids hlimit hgroups).mpr ⟨hroom,
        fun pre g rest l hsplit hl hfails =>
          hnot (Or.inr ⟨groups, pre, g, rest, l, hgroups, hsplit, hl, hfails⟩)⟩
    exact ⟨groups, post, hgroups, hpost⟩

/-- Votes of registered validators for targets before the block do not fail. -/
theorem CollectInv.not_votesFail (inv : ChainInv E s ledger) (fits : args.FitsOn E s)
    (hreg : s.validators.length ≤ validatorRegistryLimit) (cinv : CollectInv E s args pool votes)
    (hpool : ∀ a ∈ pool, a.validatorId < s.validators.length ∧ a.data.target.slot < args.slot) :
    ¬ s.VotesFail E args votes := by
  rintro (⟨a, ha, hge⟩ | ⟨groups, pre, g, rest, l, hgroups, hsplit, -, hfails⟩)
  · have hlt := (hpool a (cinv.subset a ha)).1
    omega
  · obtain ⟨-, hmem, hvoters⟩ := aggregateByData_eq_ok hgroups
    have hg : g ∈ groups := by simp [hsplit]
    rcases hfails with ⟨-, hout⟩ | ⟨-, v, hv, hforeign⟩
    · -- the target of the group is the target of one of the votes
      obtain ⟨a, ha, hdata⟩ := (hmem g.data).mp ⟨g, hg, rfl⟩
      have hlt := (hpool a (cinv.subset a ha)).2
      rw [inv.length_beforeVotes fits.slot_lt, ← hdata] at hout
      exact absurd hlt (Nat.not_lt.mpr hout)
    · have ha := mem_votersFor.mp ((hvoters g hg v).mp hv)
      have hlt := (hpool _ (cinv.subset _ ha)).1
      exact absurd hlt (Nat.not_lt.mpr hforeign)

/-- One round of the collection loop. -/
theorem State.collect_succ {fuel : ℕ} {groups : List AggregatedAttestation} {post : State}
    (hpool : args.availableAttestations = some pool) (hknown : args.knownBlockRoots = some known)
    (hgroups : aggregateByData votes = .ok groups)
    (hpost : s.applyCandidate E args groups = .ok post) :
    s.collect E args (fuel + 1) votes =
      if pool.filter (args.collects E known post.latestJustified votes) = [] then .ok votes
      else s.collect E args fuel
        (votes ++ pool.filter (args.collects E known post.latestJustified votes)) := by
  rw [State.collect, hgroups, ok_bind, hpost, ok_bind, hpool, hknown]
  rfl

/-- If every candidate is accepted, the loop ends: each round adds a vote of the pool. -/
theorem State.Collects.exists_collect (hpool : args.availableAttestations = some pool)
    (hknown : args.knownBlockRoots = some known)
    (hcinv : ∀ votes, s.Collects E args votes → CollectInv E s args pool votes)
    (hall : ∀ votes, s.Collects E args votes → ∃ groups post,
      aggregateByData votes = .ok groups ∧ s.applyCandidate E args groups = .ok post)
    {fuel : ℕ} (h : s.Collects E args votes) (hfuel : pool.length < votes.length + fuel) :
    ∃ collected, s.collect E args fuel votes = .ok collected := by
  induction fuel generalizing votes with
  | zero =>
    have cinv := hcinv votes h
    have hlen := (List.subperm_of_subset cinv.nodup cinv.subset).length_le
    omega
  | succ fuel ih =>
    obtain ⟨groups, post, hgroups, hpost⟩ := hall votes h
    rw [State.collect_succ hpool hknown hgroups hpost]
    split_ifs with hnew
    · exact ⟨votes, rfl⟩
    · apply ih (h.more hgroups hpost hpool hknown hnew)
      have hpos := List.length_pos_iff.mpr hnew
      rw [List.length_append]
      omega

/-- If the loop ends, it comes through every candidate, and accepts it. -/
theorem State.Collects.accepted {fuel : ℕ} {collected : List Attestation}
    (hend : s.collect E args fuel [] = .ok collected) (h : s.Collects E args votes) :
    ∃ groups post, aggregateByData votes = .ok groups ∧
      s.applyCandidate E args groups = .ok post := by
  -- every candidate is where some number of rounds of the loop starts
  have hrun : ∃ fuel, s.collect E args fuel votes = .ok collected := by
    induction h with
    | start => exact ⟨fuel, hend⟩
    | more h hgroups hpost hpool hknown hnew ih =>
      obtain ⟨fuel', hrun⟩ := ih
      cases fuel' with
      | zero => exact absurd hrun (by simp [State.collect])
      | succ k =>
        rw [State.collect_succ hpool hknown hgroups hpost, if_neg hnew] at hrun
        exact ⟨k, hrun⟩
  -- and the round that starts there accepts it
  obtain ⟨fuel', hrun⟩ := hrun
  cases fuel' with
  | zero => exact absurd hrun (by simp [State.collect])
  | succ k =>
    obtain ⟨groups, hgroups, hrun⟩ := bind_eq_ok.mp hrun
    obtain ⟨post, hpost, -⟩ := bind_eq_ok.mp hrun
    exact ⟨groups, post, hgroups, hpost⟩

/-- On a state of a chain, the collection loop ends exactly when there is room in the history and
    the votes of no candidate fail. -/
theorem ChainInv.exists_collect_iff (hE : E.HashIdeal) (inv : ChainInv E s ledger)
    (hle : s.latestFinalized.slot ≤ s.latestJustified.slot) (fits : args.FitsOn E s)
    (hpool : args.availableAttestations = some pool) (hknown : args.knownBlockRoots = some known)
    (hids : (pool.map fun a => a.validatorId).Nodup) :
    (∃ collected, s.collect E args (pool.length + 1) [] = .ok collected) ↔
      args.slot ≤ historicalRootsLimit ∧
        ∀ votes, s.Collects E args votes → ¬ s.VotesFail E args votes := by
  have hcinv : ∀ votes, s.Collects E args votes → CollectInv E s args pool votes :=
    fun votes h => h.inv hE inv hle hpool hids.of_map
  constructor
  · rintro ⟨collected, hend⟩
    have hfine : ∀ votes, s.Collects E args votes →
        args.slot ≤ historicalRootsLimit ∧ ¬ s.VotesFail E args votes :=
      fun votes h => ((hcinv votes h).exists_candidate_iff hE inv fits hids).mp (h.accepted hend)
    exact ⟨(hfine [] .start).1, fun votes h => (hfine votes h).2⟩
  · rintro ⟨hroom, hnot⟩
    refine State.Collects.exists_collect hpool hknown hcinv (fun votes h => ?_) .start (by simp)
    exact ((hcinv votes h).exists_candidate_iff hE inv fits hids).mpr ⟨hroom, hnot votes h⟩

end Loop

end ConsensusClient
