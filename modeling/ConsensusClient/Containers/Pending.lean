import ConsensusClient.Containers.Tally

/-!
# Pending Tallies

The representation of the pending tallies between two blocks: `justifications_roots` lists their
targets in increasing order and `justifications_validators` their votes, one block of bits after
the other. Every entry is a target of the chain after the finalized slot that has a vote and is
short of two thirds. The checks that `process_attestations` makes on this data, and the slices it
takes, therefore never fail.

## Main results

* `LoopInv.pendingTallies`: the tallies as they are written back after a block
* `ChainInv.avoids_processAttestations`: the checks and slices of the next block do not fail
* `pending_tallies_well_formed`: both for every chain from genesis
-/

namespace ConsensusClient

/-! ## The representation -/

/-- The pending tallies of a state are well formed. -/
structure State.PendingTallies (s : State) : Prop where
  /-- The roots are strictly increasing. -/
  sorted : s.justificationsRoots.Pairwise (· < ·)
  /-- The zero hash is not among them. -/
  ne_zero : ∀ root ∈ s.justificationsRoots, root ≠ 0
  /-- There is one bit for each root and each validator. -/
  length_eq : s.justificationsValidators.length =
    s.justificationsRoots.length * s.validators.length
  /-- A root is a block of the chain after the finalized slot that is not justified, and its
      tally has a vote and is short of two thirds. -/
  pending : ∀ i root, s.justificationsRoots[i]? = some root →
    (∃ t, s.latestFinalized.slot < t ∧ s.historicalBlockHashes[t]? = some root ∧
      s.justifiedSlots.isSlotJustified s.latestFinalized.slot t = .ok false) ∧
    ∃ tally, sliceBits s.justificationsValidators (i * s.validators.length)
        ((i + 1) * s.validators.length) = .ok tally ∧
      0 < tally.count true ∧ 3 * tally.count true < 2 * s.validators.length

section Representation

variable {s : State} {ledger : List AggregatedAttestation} {l : VoteLoop}

/-- The keys of a map in increasing order. -/
theorem VoteLoop.sortedRoots_pairwise (l : VoteLoop) : l.sortedRoots.Pairwise (· < ·) := by
  have hnodup : l.sortedRoots.Nodup :=
    (List.perm_insertionSort (· ≤ ·) l.justifications.keys).nodup_iff.mpr
      l.justifications.keys_nodup
  have hle := List.pairwise_insertionSort (· ≤ ·) l.justifications.keys
  exact hle.imp₂ (fun _ _ h hne => lt_of_le_of_ne h hne) hnodup

/-- A tally of the loop has a vote and is short of two thirds. -/
theorem LoopInv.tally_pending (inv : LoopInv s ledger l) {root : H256}
    (hroot : root ∈ l.justifications) :
    root ≠ 0 ∧ (∃ t, l.latestFinalized.slot < t ∧ s.historicalBlockHashes[t]? = some root ∧
      l.justifiedSlots.bitAt l.latestFinalized.slot t = some false) ∧
    ∃ tally, l.justifications.lookup root = some tally ∧ tally.length = s.validators.length ∧
      0 < tally.count true ∧ 3 * tally.count true < 2 * s.validators.length := by
  obtain ⟨hne, t, ht, hget, hbit⟩ := inv.key_pending root hroot
  obtain ⟨tally, hl⟩ := AList.mem_iff_exists_lookup.mp hroot
  obtain ⟨hbits, hvoters⟩ := inv.tally_bits t root tally ht hget hl
  refine ⟨hne, ⟨t, ht, hget, hbit⟩, tally, hl, hbits.length_eq, ?_, ?_⟩
  · rw [hbits.count_eq_card]
    exact Finset.card_pos.mpr hvoters
  · -- with two thirds its bit would be set
    by_contra hge
    have hq : Quorum s.validators.length (voters ledger ⟨root, t⟩) := by
      unfold Quorum
      rw [← hbits.count_eq_card]
      omega
    rw [← inv.bit_iff t root ht hget, hbit] at hq
    simp at hq

/-- The tallies are well formed after they are written back. -/
theorem LoopInv.pendingTallies (inv : LoopInv s ledger l) : (s.withVotes l).PendingTallies where
  sorted := l.sortedRoots_pairwise
  ne_zero root hroot := (inv.tally_pending (VoteLoop.mem_sortedRoots.mp hroot)).1
  length_eq := by
    refine length_flatMap_const fun root hroot => ?_
    obtain ⟨-, -, tally, hl, hlen, -⟩ := inv.tally_pending (VoteLoop.mem_sortedRoots.mp hroot)
    rw [hl]
    exact hlen
  pending := by
    intro i root hget
    have hsorted : l.sortedRoots[i]? = some root := hget
    have hmem := List.mem_of_getElem? hsorted
    obtain ⟨-, ⟨t, ht, hhist, hbit⟩, tally, hl, -, hpos, hlt⟩ :=
      inv.tally_pending (VoteLoop.mem_sortedRoots.mp hmem)
    refine ⟨⟨t, ht, hhist, JustifiedSlots.isSlotJustified_eq_ok.mpr hbit⟩, tally, ?_, hpos, hlt⟩
    -- the slice at position `i` is the tally written there
    obtain ⟨hi, hroot⟩ := List.getElem?_eq_some_iff.mp hsorted
    have hsplit : l.sortedRoots.take i ++ root :: l.sortedRoots.drop (i + 1) = l.sortedRoots := by
      rw [← hroot, List.cons_getElem_drop_succ, List.take_append_drop]
    have hlen : ∀ r ∈ l.sortedRoots.take i ++ root :: l.sortedRoots.drop (i + 1),
        ((l.justifications.lookup r).getD []).length = s.validators.length := by
      intro r hr
      rw [hsplit] at hr
      obtain ⟨-, -, tally', hl', hlen, -⟩ := inv.tally_pending (VoteLoop.mem_sortedRoots.mp hr)
      rw [hl']
      exact hlen
    have hslice := sliceBits_flatMap hlen
    rw [hsplit, List.length_take, Nat.min_eq_left hi.le, hl] at hslice
    exact hslice

end Representation

/-! ## The checks of the vote loop -/

/-- A failure of one of the checks on the tallies: the zero hash among the roots, a slice out of
    range, or a root that is not in the map from roots to slots. -/
def TallyFault (e : Fault) : Prop :=
  e = .err "zero hash is not allowed in justification roots" ∨
    e = .panic "range end index out of range for slice" ∨
    e = .err "Justification root missing from root_to_slot"

/-- The messages of these checks are told apart by their first letter. -/
theorem not_tallyFault_of_head {msg : String} {c : Char} (h : msg.toList.head? = some c)
    (hz : c ≠ 'z') (hj : c ≠ 'J') : ¬ TallyFault (.err msg) := by
  rintro (heq | heq | heq)
  · obtain rfl := Fault.err.inj heq
    exact hz (Option.some.inj h).symm
  · simp at heq
  · obtain rfl := Fault.err.inj heq
    exact hj (Option.some.inj h).symm

theorem not_tallyFault_outside (t : ℕ) :
    ¬ TallyFault (.err s!"Slot Slot({t}) is outside the tracked range") :=
  not_tallyFault_of_head (c := 'S') (by simp [toString]) (by decide) (by decide)

section Checks

variable {s : State} {ledger : List AggregatedAttestation} {l : VoteLoop}
  {a : AggregatedAttestation}

theorem JustifiedSlots.avoids_isSlotJustified (js : JustifiedSlots) (f t : ℕ) :
    (js.isSlotJustified f t).Avoids TallyFault := by
  unfold JustifiedSlots.isSlotJustified
  cases justifiedIndexAfter t f with
  | none => exact avoids_ok true
  | some i => exact avoids_okOr (not_tallyFault_outside t)

theorem avoids_isJustifiableAfter (slot finalized : ℕ) :
    (isJustifiableAfter slot finalized).Avoids TallyFault := by
  apply avoids_ite (fun _ => avoids_ok _)
  intro _
  exact avoids_error (by simp [TallyFault])

theorem State.avoids_voteCounts (s : State) (l : VoteLoop) (source target : Checkpoint) :
    (s.voteCounts l source target).Avoids TallyFault := by
  unfold State.voteCounts
  refine avoids_bind (JustifiedSlots.avoids_isSlotJustified _ _ _) fun _ _ => ?_
  refine avoids_ite (fun _ => avoids_ok false) fun _ => ?_
  refine avoids_bind (JustifiedSlots.avoids_isSlotJustified _ _ _) fun _ _ => ?_
  refine avoids_ite (fun _ => avoids_ok false) fun _ => ?_
  refine avoids_ite (fun _ => avoids_ok false) fun _ => ?_
  refine avoids_bind (avoids_okOr (by simp [TallyFault])) fun _ _ => ?_
  refine avoids_ite (fun _ => avoids_ok false) fun _ => ?_
  refine avoids_bind (avoids_okOr (by simp [TallyFault])) fun _ _ => ?_
  refine avoids_ite (fun _ => avoids_ok false) fun _ => ?_
  refine avoids_ite (fun _ => avoids_ok false) fun _ => ?_
  exact avoids_isJustifiableAfter _ _

theorem State.avoids_linkIsDirect (s : State) (source target : Checkpoint) :
    (s.linkIsDirect source target).Avoids TallyFault := by
  have hany : ∀ slots : List ℕ,
      (slots.anyM fun x => isJustifiableAfter x s.latestFinalized.slot).Avoids TallyFault := by
    intro slots
    induction slots with
    | nil => exact avoids_ok false
    | cons x slots ih =>
      rw [List.anyM_cons]
      refine avoids_bind (avoids_isJustifiableAfter _ _) fun b _ => ?_
      cases b with
      | true => exact avoids_ok true
      | false => exact ih
  exact avoids_bind (hany _) fun _ _ => avoids_ok _

/-- The roots of all tallies of the loop are in the map from roots to slots. -/
theorem LoopInv.keys_mem_rootToSlot (inv : LoopInv s ledger l)
    (hd : DistinctRoots s.historicalBlockHashes) :
    ∀ root ∈ l.justifications.keys, root ∈ s.rootToSlot := by
  intro root hroot
  obtain ⟨hne, t, ht, hget, -⟩ := inv.key_pending root hroot
  have hle := inv.finalized_le
  exact AList.mem_iff_exists_lookup.mpr ⟨t, State.lookup_rootToSlot hd hne (by omega) hget⟩

theorem LoopInv.avoids_finalize (inv : LoopInv s ledger l)
    (hd : DistinctRoots s.historicalBlockHashes) (source : Checkpoint) :
    (s.finalize l source).Avoids TallyFault := by
  unfold State.finalize
  apply avoids_ite
  · intro _
    refine avoids_bind ?_ fun window _ => ?_
    · apply avoids_ite (fun _ => avoids_ok _)
      intro _
      exact avoids_ite (fun _ => avoids_ok _) fun _ => avoids_error (by simp [TallyFault])
    · exact avoids_bind (avoids_ensure fun hc => absurd (inv.keys_mem_rootToSlot hd) hc)
        fun _ _ => avoids_ok _
  · intro _
    exact avoids_ok _

/-- No round fails a check on the tallies. -/
theorem LoopInv.avoids_processAttestation (inv : LoopInv s ledger l)
    (hd : DistinctRoots s.historicalBlockHashes) (a : AggregatedAttestation) :
    (s.processAttestation l a).Avoids TallyFault := by
  unfold State.processAttestation
  refine avoids_bind (s.avoids_voteCounts l _ _) fun counts hcounts => ?_
  refine avoids_ite (fun _ => avoids_ok l) fun hne => ?_
  rw [Bool.not_eq_false] at hne
  subst hne
  refine avoids_bind ?_ fun ids hids => ?_
  · exact avoids_ite (fun _ => avoids_error (by simp [TallyFault])) fun _ => avoids_ok _
  obtain ⟨rfl, hbits⟩ := toValidatorIndices_eq_ok.mp hids
  refine avoids_bind ?_ fun tally htally => ?_
  · refine avoids_foldlM fun pre v post t _ _ => ?_
    exact avoids_ite (fun _ => avoids_ok _) fun _ => avoids_error (by simp [TallyFault])
  have ht : s.Tallied l a tally := ⟨State.voteCounts_eq_true.mp hcounts, hbits, htally⟩
  -- without a quorum the round ends here
  refine avoids_ite (fun hq => ?_) fun _ => avoids_ok _
  unfold State.justify
  refine avoids_bind ?_ fun window hw => ?_
  · unfold JustifiedSlots.withJustified
    split
    · exact avoids_ok _
    · exact avoids_ite (fun _ => avoids_ok _) fun _ => avoids_error (not_tallyFault_outside _)
  refine avoids_bind (s.avoids_linkIsDirect _ _) fun direct _ => ?_
  refine avoids_ite (fun _ => ?_) fun _ => avoids_ok _
  exact (inv.justifiedBy hd ht hq hw).avoids_finalize hd _

end Checks

/-! ## Chains -/

section Chain

variable {E : Env} {g s : State} {ledger : List AggregatedAttestation}
  {blocks : List SignedBlockWithAttestation}

theorem State.avoids_processBlockHeader (s : State) (block : Block) :
    (s.processBlockHeader E block).Avoids TallyFault := by
  have hpush : ∀ (hashes : List H256) (root : H256),
      (pushLimited historicalRootsLimit hashes root).Avoids TallyFault := fun hashes root =>
    avoids_ite (fun _ => avoids_ok _) fun _ => avoids_error (by simp [TallyFault])
  unfold State.processBlockHeader
  refine avoids_bind (avoids_ensure fun _ => by simp [TallyFault]) fun _ _ => ?_
  refine avoids_bind (avoids_ensure fun _ => by simp [TallyFault]) fun _ _ => ?_
  refine avoids_bind ?_ fun _ _ => ?_
  · exact avoids_ite (fun _ => avoids_error (by simp [TallyFault])) fun _ => avoids_ok _
  refine avoids_bind (avoids_ensure fun _ => by simp [TallyFault]) fun _ _ => ?_
  refine avoids_bind (avoids_ensure fun _ => by simp [TallyFault]) fun _ _ => ?_
  refine avoids_bind (hpush _ _) fun _ _ => ?_
  exact avoids_bind (avoids_foldlM fun _ _ _ _ _ _ => hpush _ _) fun _ _ => avoids_ok _

/-- The votes of a block are processed without a failed check on the tallies. -/
theorem ChainInv.avoids_processAttestations (hE : E.HashIdeal) (inv : ChainInv E s ledger)
    {block : Block} (hslot : s.slot < block.slot) (attestations : List AggregatedAttestation) :
    ((s.beforeVotes E block).processAttestations attestations).Avoids TallyFault := by
  obtain ⟨l₀, h₀, linv⟩ := inv.loopInv_beforeVotes hE hslot
  have hd := (inv.chainRoots_beforeVotes block).distinctRoots hE
  unfold State.processAttestations
  -- the zero hash and the slices are checked before the first round
  rw [h₀, ok_bind]
  refine avoids_bind (avoids_foldlM fun pre a post l _ hpre => ?_) fun l _ => ?_
  · exact (linv.foldlM hd hpre).avoids_processAttestation hd a
  · exact avoids_bind (avoids_ensure fun _ => by simp [TallyFault]) fun _ _ => avoids_ok _

theorem ChainInv.avoids_stateTransition (hE : E.HashIdeal) (inv : ChainInv E s ledger)
    (sb : SignedBlockWithAttestation) (valid : Bool) :
    (s.stateTransition E sb valid).Avoids TallyFault := by
  unfold State.stateTransition
  refine avoids_bind (avoids_ensure fun _ => by simp [TallyFault]) fun _ _ => ?_
  refine avoids_bind ?_ fun s₁ h₁ => ?_
  · exact avoids_bind (avoids_ensure fun _ => by simp [TallyFault]) fun _ _ => avoids_ok _
  refine avoids_bind ?_ fun s₃ _ => ?_
  · refine avoids_bind (s₁.avoids_processBlockHeader _) fun s₂ h₂ => ?_
    refine avoids_bind (avoids_ensure fun _ => by simp [TallyFault]) fun _ _ => ?_
    obtain ⟨rfl, hslot, -⟩ := State.header_eq_ok hE inv.unsealed h₁ h₂
    exact inv.avoids_processAttestations hE hslot _
  · refine avoids_bind (avoids_ensure fun _ => ?_) fun _ _ => avoids_ok _
    exact not_tallyFault_of_head (c := 'i') (by simp [toString]) (by decide) (by decide)

/-- On every chain from genesis the pending tallies are well formed, and no next block makes the
    state transition fail a check on them. -/
theorem pending_tallies_well_formed (hE : E.HashIdeal)
    (hreach : ReachedFromGenesis E g blocks s) :
    s.PendingTallies ∧ ∀ sb valid, (s.stateTransition E sb valid).Avoids TallyFault := by
  refine ⟨?_, (hreach.chainInv hE).avoids_stateTransition hE⟩
  obtain ⟨time, validators, hn, hg⟩ := hreach.genesis
  have hrun := hreach.run
  rcases List.eq_nil_or_concat blocks with rfl | ⟨front, last, rfl⟩
  · -- a genesis state has no tallies
    obtain rfl := Except.ok.inj hrun
    obtain ⟨-, rfl⟩ := generateGenesisWithValidators_eq_ok hg
    exact {
      sorted := List.Pairwise.nil
      ne_zero := fun root hroot => absurd hroot (by simp)
      length_eq := by simp
      pending := fun i root hget => absurd hget (by simp) }
  · -- the tallies are those the last block has written back
    rw [List.concat_eq_append, State.runChain_append] at hrun
    obtain ⟨s₁, h₁, hrun⟩ := bind_eq_ok.mp hrun
    obtain ⟨s₂, h₂, hrun⟩ := State.runChain_cons hrun
    obtain rfl := Except.ok.inj hrun
    have inv₁ := (ChainInv.genesis hn hg).runChain hE h₁
    obtain ⟨l, l', step⟩ := State.stateTransition_step hE inv₁.unsealed h₂
    rw [step.result]
    exact (inv₁.loopInv_end hE h₂ step).pendingTallies

end Chain

/-! ## A tally short of two thirds -/

namespace ShortTally

open Sample

def validators : List Validator := [⟨7, 0⟩, ⟨8, 1⟩]

/-- One vote of two for the block at slot 1. -/
def votes2 : List AggregatedAttestation := [vote [true] ⟨1, 0⟩ ⟨2, 1⟩]

def genesis : State := state validators (header 2 0 0 0 1) ⟨0, 0⟩ ⟨0, 0⟩ [] []

def state1 : State := state validators (header 2 1 1 0 1) ⟨1, 0⟩ ⟨1, 0⟩ [1] []

def state2 : State :=
  { state validators (header 2 2 2 0 2) ⟨1, 0⟩ ⟨1, 0⟩ [1, 2] [false] with
    justificationsRoots := [2]
    justificationsValidators := [true, false] }

def env : Env := Env.tabulated {
  headers := [header 2 0 0 1 1, header 2 1 1 2 1]
  bodies := [⟨[]⟩, ⟨votes2⟩]
  datas := []
  states := [genesis, state1, state2] }

theorem reached_state2 :
    ReachedFromGenesis env genesis [block 2 1 1 2 [], block 2 2 2 3 votes2] state2 where
  genesis := ⟨0, validators, by simp [validators], rfl⟩
  run := by decide +kernel

end ShortTally

/-- One vote of two for the block at slot 1 is pending after the block at slot 2. -/
theorem short_tally_is_pending :
    ShortTally.state2.justificationsRoots = [2] ∧ ShortTally.state2.PendingTallies :=
  ⟨rfl, (pending_tallies_well_formed (Env.tabulated_hashIdeal _) ShortTally.reached_state2).1⟩

end ConsensusClient
