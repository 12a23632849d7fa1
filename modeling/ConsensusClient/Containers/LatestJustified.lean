import ConsensusClient.Containers.JustifiedSet

/-!
# The Latest Justified Checkpoint

A round that completes two thirds makes its target the latest justified checkpoint, whatever the
slot of the one before. Late votes for a lower target, in the same block or in a later one,
therefore move the checkpoint back. Such a round is the only way: on a chain without one, the
latest justified slot never decreases and is the highest justified slot.

## Main results

* `State.BackwardRound.moves_back`: a late completion lowers the latest justified slot
* `latest_justified_is_highest`: nothing else does
* `latest_justified_moves_back`: a chain of four blocks on which it happens
-/

namespace ConsensusClient

/-! ## Rounds of a chain -/

/-- The round of `a` in the vote loop of some block of the chain from `p`: its turn comes on the
    state `v` with the variables `l`. -/
inductive VoteRound (E : Env) : State → List SignedBlockWithAttestation → State → VoteLoop →
    AggregatedAttestation → Prop
  | here {p v : State} {sb : SignedBlockWithAttestation} {rest : List SignedBlockWithAttestation}
      {l₀ l : VoteLoop} {pre post : List AggregatedAttestation} {a : AggregatedAttestation}
      (hv : p.votingState E sb.block = .ok v) (h₀ : v.voteLoop = .ok l₀)
      (hsplit : sb.block.body.attestations = pre ++ a :: post)
      (hpre : pre.foldlM v.processAttestation l₀ = .ok l) : VoteRound E p (sb :: rest) v l a
  | later {p p' v : State} {sb : SignedBlockWithAttestation}
      {rest : List SignedBlockWithAttestation} {l : VoteLoop} {a : AggregatedAttestation}
      (hstep : p.stateTransition E sb true = .ok p') (hrest : VoteRound E p' rest v l a) :
      VoteRound E p (sb :: rest) v l a

/-- The round of `a` completes two thirds for a target below the latest justified slot. -/
def State.BackwardRound (s : State) (l : VoteLoop) (a : AggregatedAttestation) : Prop :=
  ∃ tally, s.Tallied l a tally ∧ 2 * s.validators.length ≤ 3 * tally.count true ∧
    a.data.target.slot < l.latestJustified.slot

/-- Targets are justified in the order of their slots along the chain. -/
def JustifiesForward (E : Env) (p : State) (blocks : List SignedBlockWithAttestation) : Prop :=
  ∀ v l a, VoteRound E p blocks v l a → ¬ v.BackwardRound l a

/-! ## One round -/

section Round

variable {s : State} {justified : List ℕ} {l l' : VoteLoop} {a : AggregatedAttestation}

/-- The latest justified slot is not below the finalized slot nor any slot justified so far. -/
structure VoteLoop.Highest (l : VoteLoop) (justified : List ℕ) : Prop where
  finalized_le : l.latestFinalized.slot ≤ l.latestJustified.slot
  slot_le : ∀ t ∈ justified, t ≤ l.latestJustified.slot

/-- A round that justifies moves the latest justified checkpoint to its target. -/
theorem State.latestJustified_round (h : s.processAttestation l a = .ok l') :
    (l'.latestJustified = l.latestJustified ∧ l'.latestFinalized = l.latestFinalized ∧
      s.newlyJustified l a = []) ∨
    ∃ tally, s.Tallied l a tally ∧ 2 * s.validators.length ≤ 3 * tally.count true ∧
      l'.latestJustified = a.data.target ∧ s.newlyJustified l a = [a.data.target.slot] ∧
      (l'.latestFinalized = l.latestFinalized ∨ l'.latestFinalized = a.data.source) := by
  cases State.processAttestation_round h with
  | skipped hc => exact Or.inl ⟨rfl, rfl, State.newlyJustified_of_false hc⟩
  | tallied tally ht hq =>
    refine Or.inl ⟨rfl, rfl, ?_⟩
    rw [State.newlyJustified_of_tallied ht, if_neg hq]
  | justified tally ht hq window hw hdir =>
    refine Or.inr ⟨tally, ht, hq, rfl, ?_, Or.inl rfl⟩
    rw [State.newlyJustified_of_tallied ht, if_pos hq]
  | refinalized tally ht hq window hw hdir hle =>
    refine Or.inr ⟨tally, ht, hq, rfl, ?_, Or.inr rfl⟩
    rw [State.newlyJustified_of_tallied ht, if_pos hq]
  | finalized tally ht hq window shifted hw hdir hlt hs hroots =>
    refine Or.inr ⟨tally, ht, hq, rfl, ?_, Or.inr rfl⟩
    rw [State.newlyJustified_of_tallied ht, if_pos hq]

/-- A backward round moves the latest justified slot back. -/
theorem State.BackwardRound.moves_back (hback : s.BackwardRound l a)
    (h : s.processAttestation l a = .ok l') :
    l'.latestJustified.slot < l.latestJustified.slot := by
  obtain ⟨tally, ht, hq, hlt⟩ := hback
  rcases State.latestJustified_round h with ⟨-, -, hnone⟩ | ⟨-, -, -, htarget, -⟩
  · rw [State.newlyJustified_of_tallied ht, if_pos hq] at hnone
    simp at hnone
  · rw [htarget]
    exact hlt

/-- Any other round keeps it the highest. -/
theorem VoteLoop.Highest.processAttestation (hhigh : l.Highest justified)
    (hforward : ¬ s.BackwardRound l a) (h : s.processAttestation l a = .ok l') :
    l'.Highest (justified ++ s.newlyJustified l a) ∧
      l.latestJustified.slot ≤ l'.latestJustified.slot := by
  rcases State.latestJustified_round h with
    ⟨hjust, hfin, hnone⟩ | ⟨tally, ht, hq, hjust, hslot, hfin⟩
  · rw [hnone, List.append_nil, hjust]
    exact ⟨⟨by rw [hfin, hjust]; exact hhigh.finalized_le, by rw [hjust]; exact hhigh.slot_le⟩,
      le_refl _⟩
  · -- the round justifies its target, which is not below what was justified before
    have hle : l.latestJustified.slot ≤ a.data.target.slot := by
      by_contra hlt
      exact hforward ⟨tally, ht, hq, Nat.lt_of_not_le hlt⟩
    have hsource := ht.counts.source_lt_target
    have hfinalized := hhigh.finalized_le
    rw [hslot, hjust]
    refine ⟨⟨?_, ?_⟩, hle⟩
    · rw [hjust]
      rcases hfin with hfin | hfin
      · rw [hfin]
        omega
      · rw [hfin]
        omega
    · intro t ht'
      rw [hjust]
      rcases List.mem_append.mp ht' with ht' | ht'
      · exact (hhigh.slot_le t ht').trans hle
      · rw [List.mem_singleton.mp ht']

/-- A run of the vote loop without a backward round keeps it the highest. -/
theorem VoteLoop.Highest.foldlM {attestations : List AggregatedAttestation}
    (hhigh : l.Highest justified)
    (hforward : ∀ pre a post l₁, attestations = pre ++ a :: post →
      pre.foldlM s.processAttestation l = .ok l₁ → ¬ s.BackwardRound l₁ a)
    (h : attestations.foldlM s.processAttestation l = .ok l') :
    l'.Highest (justified ++ s.loopJustified l attestations) ∧
      l.latestJustified.slot ≤ l'.latestJustified.slot := by
  induction attestations generalizing justified l with
  | nil =>
    obtain rfl := Except.ok.inj h
    simpa [State.loopJustified] using hhigh
  | cons a rest ih =>
    rw [List.foldlM_cons] at h
    obtain ⟨l₁, h₁, h⟩ := bind_eq_ok.mp h
    obtain ⟨hhigh₁, hle₁⟩ := hhigh.processAttestation (hforward [] a rest l rfl rfl) h₁
    -- a backward round of the rest would be one of the whole list
    have hforward₁ : ∀ pre b post l₂, rest = pre ++ b :: post →
        pre.foldlM s.processAttestation l₁ = .ok l₂ → ¬ s.BackwardRound l₂ b := by
      intro pre b post l₂ hsplit hpre
      apply hforward (a :: pre) b post l₂ (by rw [hsplit]; rfl)
      rw [List.foldlM_cons, h₁, ok_bind]
      exact hpre
    obtain ⟨hhigh', hle⟩ := ih hhigh₁ hforward₁ h
    rw [State.loopJustified_cons h₁, ← List.append_assoc]
    exact ⟨hhigh', hle₁.trans hle⟩

end Round

/-! ## Chains -/

section Chain

variable {E : Env} {g s s' : State} {justified : List ℕ}
  {blocks : List SignedBlockWithAttestation} {sb : SignedBlockWithAttestation}

/-- The latest justified slot of a state is not below any slot justified on its chain. -/
structure State.Highest (s : State) (justified : List ℕ) : Prop where
  finalized_le : s.latestFinalized.slot ≤ s.latestJustified.slot
  slot_le : ∀ t ∈ justified, t ≤ s.latestJustified.slot

/-- No slot above the latest justified one counts as justified. -/
def State.HighestJustified (s : State) : Prop :=
  ∀ t, s.justifiedSlots.isSlotJustified s.latestFinalized.slot t = .ok true →
    t ≤ s.latestJustified.slot

theorem JustifiesForward.head {rest : List SignedBlockWithAttestation} {v : State} {l₀ : VoteLoop}
    (hforward : JustifiesForward E s (sb :: rest)) (hv : s.votingState E sb.block = .ok v)
    (h₀ : v.voteLoop = .ok l₀) (pre : List AggregatedAttestation) (a : AggregatedAttestation)
    (post : List AggregatedAttestation) (l : VoteLoop)
    (hsplit : sb.block.body.attestations = pre ++ a :: post)
    (hpre : pre.foldlM v.processAttestation l₀ = .ok l) : ¬ v.BackwardRound l a :=
  hforward v l a (VoteRound.here hv h₀ hsplit hpre)

theorem JustifiesForward.tail {rest : List SignedBlockWithAttestation}
    (hforward : JustifiesForward E s (sb :: rest)) (h : s.stateTransition E sb true = .ok s') :
    JustifiesForward E s' rest :=
  fun v l a hround => hforward v l a (VoteRound.later h hround)

/-- A block without a backward round keeps the latest justified slot the highest. -/
theorem State.Highest.stateTransition {rest : List SignedBlockWithAttestation}
    (hhigh : s.Highest justified) (inv : JustifiedInv s justified)
    (hforward : JustifiesForward E s (sb :: rest)) (h : s.stateTransition E sb true = .ok s') :
    s'.Highest (justified ++ s.blockJustified E sb.block) ∧
      s.latestJustified.slot ≤ s'.latestJustified.slot := by
  obtain ⟨v, l, l', hv, hl, hrun, rfl, hjust⟩ := State.stateTransition_votes h
  have hvotes := State.votingState_eq_ok hv
  have hfin := inv.finalized_votes hvotes
  have hslot : v.latestJustified.slot = s.latestJustified.slot := by
    rw [hvotes.justified_slot]
    split_ifs with h0
    · exact (inv.fresh h0).2.symm
    · rfl
  -- the loop starts with the checkpoints of the parent, up to the root of the genesis block
  have hstart : l.latestJustified = v.latestJustified ∧ l.latestFinalized = v.latestFinalized := by
    obtain ⟨-, m, -, rfl⟩ := State.voteLoop_eq_ok.mp hl
    exact ⟨rfl, rfl⟩
  have hhigh₀ : l.Highest justified := by
    constructor
    · rw [hstart.1, hstart.2, hfin, hslot]
      exact hhigh.finalized_le
    · rw [hstart.1, hslot]
      exact hhigh.slot_le
  obtain ⟨hhigh', hle⟩ := hhigh₀.foldlM (hforward.head hv hl) hrun
  rw [hstart.1, hslot] at hle
  rw [hjust]
  exact ⟨⟨hhigh'.finalized_le, hhigh'.slot_le⟩, hle⟩

theorem State.Highest.runChain {rest : List SignedBlockWithAttestation}
    (hhigh : s.Highest justified) (inv : JustifiedInv s justified)
    (hforward : JustifiesForward E s (blocks ++ rest)) (h : s.runChain E blocks = .ok s') :
    s'.Highest (justified ++ s.chainJustified E blocks) ∧ JustifiesForward E s' rest := by
  induction blocks generalizing s justified with
  | nil =>
    obtain rfl := Except.ok.inj h
    simpa [State.chainJustified] using ⟨hhigh, hforward⟩
  | cons sb blocks ih =>
    obtain ⟨s₁, h₁, h⟩ := State.runChain_cons h
    rw [State.chainJustified_cons h₁, ← List.append_assoc]
    exact ih (hhigh.stateTransition inv hforward h₁).1 (inv.stateTransition h₁)
      (hforward.tail h₁) h

/-- On a chain whose targets are justified in order, no block lowers the latest justified slot,
    and it is the highest justified slot. -/
theorem latest_justified_is_highest {time : ℕ} {validators : List Validator}
    (hg : generateGenesisWithValidators E time validators = .ok g)
    (hrun : g.runChain E blocks = .ok s) (hs : s.stateTransition E sb true = .ok s')
    (hforward : JustifiesForward E g (blocks ++ [sb])) :
    s.latestJustified.slot ≤ s'.latestJustified.slot ∧ s'.HighestJustified := by
  have hinv₀ := JustifiedInv.genesis hg
  have hhigh₀ : g.Highest [] := by
    have hslot : g.latestBlockHeader.slot = 0 :=
      congrArg BlockHeader.slot (genesis_sealedHeader hg)
    exact ⟨by rw [(hinv₀.fresh hslot).1]; omega, fun t ht => absurd ht (by simp)⟩
  have inv := hinv₀.runChain hrun
  obtain ⟨hhigh, hlast⟩ := hhigh₀.runChain hinv₀ hforward hrun
  obtain ⟨hhigh', hle⟩ := hhigh.stateTransition inv hlast hs
  have inv' := inv.stateTransition hs
  refine ⟨hle, fun t ht => ?_⟩
  rw [JustifiedSlots.isSlotJustified_eq_ok] at ht
  -- a set bit is at most the finalized slot, or in the window and then a justified slot
  rcases Nat.lt_or_ge s'.latestFinalized.slot t with hlo | hlo
  · have hlen := inv'.tracks.length_eq
    have hhi : t < max s'.latestBlockHeader.slot 1 := by
      by_contra hge
      rw [JustifiedSlots.bitAt_eq_none.mpr (by omega)] at ht
      simp at ht
    exact hhigh'.slot_le t ((inv'.tracks.bit_iff t hlo hhi).mp ht)
  · exact hlo.trans hhigh'.finalized_le

end Chain

/-! ## Late votes for a lower slot -/

namespace LateVotes

open Sample

def validators : List Validator := [⟨7, 0⟩]

/-- The vote of the block at slot 3, for slot 2. -/
def votes3 : List AggregatedAttestation := [vote [true] ⟨1, 0⟩ ⟨3, 2⟩]

/-- The vote of the block at slot 4, for slot 1. -/
def votes4 : List AggregatedAttestation := [vote [true] ⟨1, 0⟩ ⟨2, 1⟩]

def genesis : State := state validators (header 1 0 0 0 1) ⟨0, 0⟩ ⟨0, 0⟩ [] []

def state1 : State := state validators (header 1 1 1 0 1) ⟨1, 0⟩ ⟨1, 0⟩ [1] []

def state2 : State := state validators (header 1 2 2 0 1) ⟨1, 0⟩ ⟨1, 0⟩ [1, 2] [false]

def state3 : State := state validators (header 1 3 3 0 2) ⟨3, 2⟩ ⟨1, 0⟩ [1, 2, 3] [false, true]

def state4 : State :=
  state validators (header 1 4 4 0 3) ⟨2, 1⟩ ⟨1, 0⟩ [1, 2, 3, 4] [true, true, false]

def env : Env := Env.tabulated {
  headers := [header 1 0 0 1 1, header 1 1 1 2 1, header 1 2 2 3 1, header 1 3 3 4 2]
  bodies := [⟨[]⟩, ⟨votes3⟩, ⟨votes4⟩]
  datas := []
  states := [genesis, state1, state2, state3, state4] }

/-- The blocks at slots 1, 2 and 3. -/
def blocks : List SignedBlockWithAttestation :=
  [block 1 1 1 2 [], block 1 2 2 3 [], block 1 3 3 4 votes3]

/-- The block at slot 4. -/
def block4 : SignedBlockWithAttestation := block 1 4 4 5 votes4

end LateVotes

/-- The block at slot 4 brings the missing vote for slot 1, and moves the latest justified slot
    from 2 back to 1, below the set bit of slot 2. -/
theorem latest_justified_moves_back :
    generateGenesisWithValidators LateVotes.env 0 LateVotes.validators = .ok LateVotes.genesis ∧
      LateVotes.genesis.runChain LateVotes.env LateVotes.blocks = .ok LateVotes.state3 ∧
      LateVotes.state3.stateTransition LateVotes.env LateVotes.block4 true =
        .ok LateVotes.state4 ∧
      ¬ LateVotes.state3.latestJustified.slot ≤ LateVotes.state4.latestJustified.slot ∧
      ¬ LateVotes.state4.HighestJustified := by
  refine ⟨rfl, by decide +kernel, by decide +kernel, by decide, fun h => ?_⟩
  exact absurd (h 2 rfl) (by decide)

/-- Up to the block at slot 3 the only vote of the chain is for slot 2. -/
theorem LateVotes.justifiesForward : JustifiesForward env genesis blocks := by
  intro v l a hround
  cases hround with
  | here hv h₀ hsplit hpre => exact absurd hsplit (by simp [Sample.block])
  | later h₁ hround =>
    obtain rfl := Except.ok.inj (h₁.symm.trans
      (show genesis.stateTransition env (Sample.block 1 1 1 2 []) true = .ok state1 by
        decide +kernel))
    cases hround with
    | here hv h₀ hsplit hpre => exact absurd hsplit (by simp [Sample.block])
    | later h₂ hround =>
      obtain rfl := Except.ok.inj (h₂.symm.trans
        (show state1.stateTransition env (Sample.block 1 2 2 3 []) true = .ok state2 by
          decide +kernel))
      cases hround with
      | here hv h₀ hsplit hpre =>
        -- the round of the vote starts with the genesis block justified
        rename_i l₀ pre post
        obtain ⟨rfl, -, -⟩ : pre = [] ∧ a = _ ∧ post = [] := by
          simpa [Sample.block, votes3, List.append_eq_cons_iff, List.cons_eq_append_iff, eq_comm]
            using hsplit
        rintro ⟨tally, ht, hq, hlt⟩
        have hvotes := State.votingState_eq_ok hv
        have hslot : l.latestJustified.slot = 0 := by
          rw [← Except.ok.inj hpre]
          obtain ⟨-, m, -, rfl⟩ := State.voteLoop_eq_ok.mp h₀
          exact hvotes.justified_slot
        omega
      | later h₃ hround => cases hround

/-- The vote for slot 2 comes in order. -/
theorem late_votes_in_order_before :
    LateVotes.state2.latestJustified.slot ≤ LateVotes.state3.latestJustified.slot ∧
      LateVotes.state3.HighestJustified :=
  latest_justified_is_highest
    (show generateGenesisWithValidators LateVotes.env 0 LateVotes.validators =
      .ok LateVotes.genesis from rfl)
    (show LateVotes.genesis.runChain LateVotes.env
      [Sample.block 1 1 1 2 [], Sample.block 1 2 2 3 []] = .ok LateVotes.state2 by decide +kernel)
    (show LateVotes.state2.stateTransition LateVotes.env
      (Sample.block 1 3 3 4 LateVotes.votes3) true = .ok LateVotes.state3 by decide +kernel)
    LateVotes.justifiesForward

end ConsensusClient
