import ConsensusClient.Containers.LatestJustified
import ConsensusClient.ForkChoice.Rules
import ConsensusClient.ForkChoice.Target

/-!
# Own Votes and the Attestation Rules

The vote of `produce_attestation_data` has the latest justified checkpoint as its source, which
moves with every block, and the end of the walk back from the head as its target, which follows
the safe target. In a store reached from genesis the blocks and slots of such a vote always
match; what can fail is that its target is not before its source. `create_attestations` makes
this check itself, `sign_block` does not.

## Main results

* `Store.Sound.validVote_iff`: of the rules only the order of source and target is left
* `own_vote_valid_iff`: when the vote of `produce_attestation_data` passes the checks of a peer
* `own_vote_fails_own_checks`: a justified block after the safe target makes it fail
-/

namespace ConsensusClient

/-- On the chain of the head there is a block in reach of the two walks that is not before the
    latest justified slot, not before the finalized slot and justifiable after it. -/
def Store.HasTargetAfterSource (store : Store) : Prop :=
  ∃ k root block safe, store.ancestorAt k store.head = some root ∧
    store.blocks.lookup root = some block ∧ store.blocks.lookup store.safeTarget = some safe ∧
    isJustifiableAfter block.slot store.latestFinalized.slot = .ok true ∧
    (justificationLookbackSlots ≤ k ∨ block.slot ≤ safe.slot) ∧
    store.latestJustified.slot ≤ block.slot

section OwnVotes

variable {E : Env} {g : State} {store : Store} {time slot : ℕ} {validators : List Validator}
  {data : AttestationData}

/-- The parts of an own vote. -/
theorem Store.produceAttestationData_eq_ok (h : store.produceAttestationData slot = .ok data) :
    data.slot = slot ∧ data.head.root = store.head ∧ data.source = store.latestJustified ∧
      store.getAttestationTarget = .ok data.target := by
  obtain ⟨head, -, h⟩ := bind_eq_ok.mp h
  obtain ⟨target, htarget, h⟩ := bind_eq_ok.mp h
  obtain rfl := Except.ok.inj h
  exact ⟨rfl, rfl, rfl, htarget⟩

/-- The rules come down to the order of source and target. -/
theorem Store.Sound.validVote_iff {offered : SignedBlockWithAttestation → Prop} (hE : E.HashIdeal)
    (hg : generateGenesisWithValidators E time validators = .ok g)
    (sound : store.Sound E g offered) (hslot : slot ≤ store.time / intervalsPerSlot + 1)
    (h : store.produceAttestationData slot = .ok data) :
    store.ValidVote data ↔ data.source.slot ≤ data.target.slot := by
  obtain ⟨rfl, hhead, hsource, htarget⟩ := Store.produceAttestationData_eq_ok h
  obtain ⟨-, block, -, -, hblock, hbslot, -⟩ := sound.getAttestationTarget_eq_ok hE hg htarget
  constructor
  · intro hvalid
    exact hvalid.source_le_target
  · intro hle
    exact {
      source_stored := hsource ▸ sound.justified
      target_stored := ⟨block, hblock, hbslot⟩
      head_stored := hhead ▸ sound.head_mem
      source_le_target := hle
      not_future := hslot }

/-- In a store reached from genesis, an own vote passes the checks for votes exactly if a target
    that is not before the latest justified slot is in reach. -/
theorem own_vote_valid_iff (hE : E.HashIdeal)
    (hg : generateGenesisWithValidators E time validators = .ok g)
    {anchor : SignedBlockWithAttestation} (hanchor : anchor.block = genesisBlock E g)
    {config : Config} {ops : List StoreOp}
    (hreach : (getForkchoiceStore E g anchor config).run E ops = .ok store)
    (hslot : slot ≤ store.time / intervalsPerSlot + 1)
    (hdata : store.produceAttestationData slot = .ok data) :
    store.validateAttestationData data = .ok () ↔ store.HasTargetAfterSource := by
  have sound : store.Sound E g fun _ => True :=
    (Store.Sound.genesis hg hanchor config).run hg hE hreach
  rw [Store.validateAttestationData_eq_ok, sound.validVote_iff hE hg hslot hdata]
  obtain ⟨-, -, hsource, htarget⟩ := Store.produceAttestationData_eq_ok hdata
  obtain ⟨k, block, safe, hanc, hblock, hbslot, hsafe, hjust, hreach, hlatest⟩ :=
    sound.getAttestationTarget_eq_ok hE hg htarget
  rw [hsource]
  constructor
  · intro hle
    exact ⟨k, data.target.root, block, safe, hanc, hblock, hsafe, hjust, hreach, hbslot ▸ hle⟩
  · -- the target is the latest block in reach
    rintro ⟨j, root, b, safe', hj, hb, hsafe', hjust', hreach', hle⟩
    obtain rfl := Option.some.inj (hsafe.symm.trans hsafe')
    exact hle.trans (hlatest j root b hj hb hjust' hreach')

end OwnVotes

/-! ## Votes that arrive late -/

namespace LateVotes

/-- The genesis block. -/
def anchor : SignedBlockWithAttestation := Sample.block 1 0 0 1 []

def init : Store := getForkchoiceStore env genesis anchor { genesisTime := 0 }

/-- The clock is at slot 3 when the blocks come. -/
def deliveries (blocks : List SignedBlockWithAttestation) : List StoreOp :=
  .tick 12 false :: blocks.map .block

/-- The store after the deliveries, or the first one where a call does not return. -/
def storeAfter (blocks : List SignedBlockWithAttestation) : Store :=
  match init.run env (deliveries blocks) with
  | .ok store => store
  | .error _ => init

theorem reached {blocks : List SignedBlockWithAttestation}
    (h : (init.run env (deliveries blocks)).toOption.isSome = true) :
    init.run env (deliveries blocks) = .ok (storeAfter blocks) := by
  unfold storeAfter
  cases hrun : init.run env (deliveries blocks) with
  | ok store => rfl
  | error e =>
    rw [hrun] at h
    exact absurd h (by simp [Except.toOption])

/-- The own vote of slot 4, with the justified checkpoint as its source. -/
def ownVote (head source : Checkpoint) : AttestationData where
  slot := 4
  head := head
  target := ⟨1, 0⟩
  source := source

end LateVotes

/-- After the blocks at slots 1 and 2, source and target of the own vote are the genesis block. -/
theorem own_vote_before_justification :
    (LateVotes.storeAfter (LateVotes.blocks.take 2)).produceAttestationData 4 =
        .ok (LateVotes.ownVote ⟨3, 2⟩ ⟨1, 0⟩) ∧
      (LateVotes.storeAfter (LateVotes.blocks.take 2)).validateAttestationData
        (LateVotes.ownVote ⟨3, 2⟩ ⟨1, 0⟩) = .ok () := by
  have hdata : (LateVotes.storeAfter (LateVotes.blocks.take 2)).produceAttestationData 4 =
      .ok (LateVotes.ownVote ⟨3, 2⟩ ⟨1, 0⟩) := by decide +kernel
  refine ⟨hdata, (own_vote_valid_iff (Env.tabulated_hashIdeal _)
    (show generateGenesisWithValidators LateVotes.env 0 LateVotes.validators =
      .ok LateVotes.genesis from rfl) (show LateVotes.anchor.block = _ from rfl)
    (LateVotes.reached (by decide +kernel)) (by decide +kernel) hdata).mpr ?_⟩
  exact ⟨2, 1, LateVotes.anchor.block, LateVotes.anchor.block, by decide +kernel,
    by decide +kernel, by decide +kernel, by decide +kernel, Or.inr le_rfl, by decide +kernel⟩

/-- The block at slot 3 justifies slot 2 while the safe target is still the genesis block: the own
    vote has source slot 2 and target slot 0, and fails the checks. -/
theorem own_vote_fails_own_checks :
    LateVotes.init.run LateVotes.env (LateVotes.deliveries LateVotes.blocks) =
        .ok (LateVotes.storeAfter LateVotes.blocks) ∧
      4 ≤ (LateVotes.storeAfter LateVotes.blocks).time / intervalsPerSlot + 1 ∧
      (LateVotes.storeAfter LateVotes.blocks).produceAttestationData 4 =
        .ok (LateVotes.ownVote ⟨4, 3⟩ ⟨3, 2⟩) ∧
      (LateVotes.storeAfter LateVotes.blocks).validateAttestationData
        (LateVotes.ownVote ⟨4, 3⟩ ⟨3, 2⟩) =
          .error (.err "Source checkpoint slot 2 must not exceed target slot 0") :=
  ⟨LateVotes.reached (by decide +kernel), by decide +kernel, by decide +kernel, by decide +kernel⟩

end ConsensusClient
