import ConsensusClient.Containers.Finality

/-!
# Justification as a Tally

The window of bits and the flattened tallies of a reachable state are a function of the votes
that counted on its chain: a slot is justified exactly when two thirds of the validators voted
for the block at that slot, and a pending target stores exactly its voters. Nothing is lost when
the tallies are written out after one block and cut up again at the next.

## Main results

* `ReachedFromGenesis.settled`: the variables with which the next block would start
* `justification_is_two_thirds_tally`: bits and stored tallies as functions of the counted votes
-/

namespace ConsensusClient

variable {E : Env} {g s : State} {blocks : List SignedBlockWithAttestation} {t : ℕ}

/-- The validators with a counted vote on the chain for the block at slot `t`. -/
def State.votersAt (E : Env) (g : State) (blocks : List SignedBlockWithAttestation) (s : State)
    (t : ℕ) : Finset ℕ :=
  voters (g.chainVotes E blocks) ⟨s.historicalBlockHashes.getD t 0, t⟩

/-- The justification bit of a slot after the finalized one. -/
def State.justifiedBit (s : State) (t : ℕ) : Option Bool :=
  s.justifiedSlots[t - (s.latestFinalized.slot + 1)]?

/-- The variables with which the votes of the next block would start. -/
theorem ReachedFromGenesis.settled (hE : E.HashIdeal) (hreach : ReachedFromGenesis E g blocks s)
    (hblock : s.latestBlockHeader.slot ≠ 0) :
    ∃ m, s.unflatten = .ok m ∧ LoopInv s (g.chainVotes E blocks)
      ⟨s.latestJustified, s.latestFinalized, s.justifiedSlots, m⟩ := by
  obtain ⟨l, hl, linv⟩ := (hreach.chainInv hE).settled hblock
  obtain ⟨-, m, hm, rfl⟩ := State.voteLoop_eq_ok.mp hl
  exact ⟨m, hm, linv⟩

/-- A slot of the window is justified exactly by two thirds of the validators, and short of
    that its stored tally has exactly its voters. -/
theorem justification_is_two_thirds_tally (hE : E.HashIdeal)
    (hreach : ReachedFromGenesis E g blocks s) (hlo : s.latestFinalized.slot < t)
    (hhi : t < s.latestBlockHeader.slot) :
    (s.justifiedBit t = some true ↔
      2 * s.validators.length ≤ 3 * (State.votersAt E g blocks s t).card) ∧
    (s.justifiedBit t ≠ some true → (State.votersAt E g blocks s t).Nonempty →
      ∃ bits, s.StoredTally (s.historicalBlockHashes.getD t 0) bits ∧
        BitsOf s.validators.length bits (State.votersAt E g blocks s t)) := by
  have inv := hreach.chainInv hE
  obtain ⟨m, hm, linv⟩ := hreach.settled hE (by omega)
  have hin : t < s.historicalBlockHashes.length := by rw [inv.history_length]; exact hhi
  have hget : s.historicalBlockHashes[t]? = some (s.historicalBlockHashes.getD t 0) := by
    rw [List.getD_eq_getElem?_getD, List.getElem?_eq_getElem hin]
    rfl
  have hbit : s.justifiedSlots.bitAt s.latestFinalized.slot t = s.justifiedBit t :=
    JustifiedSlots.bitAt_of_lt hlo
  constructor
  · rw [← hbit]
    exact linv.bit_iff t _ hlo hget
  · intro hunset hne
    -- the slot lies in the window, so its bit is stored and is cleared
    have hfalse : s.justifiedSlots.bitAt s.latestFinalized.slot t = some false := by
      have hwin := linv.window_length
      obtain ⟨b, hb⟩ : ∃ b, s.justifiedSlots.bitAt s.latestFinalized.slot t = some b :=
        JustifiedSlots.exists_bitAt (by simp only at hwin; omega)
      cases b with
      | false => exact hb
      | true => exact absurd (hbit ▸ hb) hunset
    cases hl : m.lookup (s.historicalBlockHashes.getD t 0) with
    | none =>
      -- a pending target without a tally has no voters
      have hempty := linv.tally_none t _ hlo hget hfalse hl
      exact absurd hempty hne.ne_empty
    | some bits =>
      refine ⟨bits, State.storedTally_of_lookup hm hl, ?_⟩
      exact (linv.tally_bits t _ bits hlo hget hl).1

/-- On the chain with one validator, slot 3 is justified by its vote. -/
theorem slot_three_justified_by_tally :
    SoloChain.state4.justifiedBit 3 = some true ∧
      2 * SoloChain.state4.validators.length ≤
        3 * (State.votersAt SoloChain.env SoloChain.genesis
          [SoloChain.block 2 1 2 [], SoloChain.block 3 2 3 [],
            SoloChain.block 4 3 4 SoloChain.links] SoloChain.state4 3).card :=
  ⟨rfl, (justification_is_two_thirds_tally (Env.tabulated_hashIdeal _)
    ⟨⟨0, [{ pubkey := 7, index := 0 }], by simp, rfl⟩, by decide +kernel⟩
    (by decide) (by decide)).1.mp rfl⟩

end ConsensusClient
