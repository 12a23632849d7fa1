import ConsensusClient.Containers.Finality
import ConsensusClient.ForkChoice.Run

/-!
# The Latest-Message Rule

The known vote of a validator should be the latest of its votes, whichever way they came. The
on-chain branch of `on_attestation_internal` compares a vote with the known one before it
replaces it; the gossip branch compares it with the new one only, and
`accept_new_attestations` overwrites the known one without a comparison. The rule therefore
holds as long as no vote that waits for acceptance is older than the known vote of its validator
while none is waiting yet, and fails on the first such vote that is accepted.

## Main results

* `latest_message_rule`: the rule in every run without a stale vote
* `stale_vote_replaces_known`: a run of two votes of one validator that breaks it
-/

namespace ConsensusClient

section Rule

variable {E : Env} {init store : Store} {ops : List StoreOp}

/-- The vote maps after the first events of a run. -/
def Store.bookAfter (init : Store) (events : List (VoteEvent ℕ AttestationData)) :
    VoteBook ℕ AttestationData :=
  events.foldl bookStep init.book

/-- The vote of validator `v` in the known map is the latest of the votes `v` cast in these
    events. -/
def KnownIsLatest (b : VoteBook ℕ AttestationData) (events : List (VoteEvent ℕ AttestationData))
    (v : ℕ) : Prop :=
  (∀ d, Entered events v d → ∃ k, b.known.lookup v = some k ∧ d.slot ≤ k.slot) ∧
    ∀ k, b.known.lookup v = some k → Entered events v k

/-- In a run in which no waiting vote is stale, the known votes are the latest ones after every
    acceptance, and their slots never decrease. -/
structure LatestMessageRule (init : Store) (events : List (VoteEvent ℕ AttestationData))
    (store : Store) : Prop where
  /-- The vote maps of the store are those after all the events. -/
  final : store.book = init.bookAfter events
  /-- After each `accept_new_attestations` the known votes are the latest ones. -/
  accepted : ∀ pre post, events = pre ++ .accept :: post →
    ∀ v, KnownIsLatest (init.bookAfter (pre ++ [.accept])) pre v
  /-- No known vote is replaced by an earlier one. -/
  mono : ∀ pre e post, events = pre ++ e :: post → ∀ v k,
    (init.bookAfter pre).known.lookup v = some k →
    ∃ k', (init.bookAfter (pre ++ [e])).known.lookup v = some k' ∧ k.slot ≤ k'.slot

/-- The latest-message rule holds in every run without a stale vote. -/
theorem latest_message_rule (hreach : ReachedFromAnchor E init ops store)
    (hstale : NeverStale AttestationData.slot init.book (init.runEvents E ops)) :
    LatestMessageRule init (init.runEvents E ops) store := by
  obtain ⟨state, block, config, rfl⟩ := hreach.anchor
  have hempty : (getForkchoiceStore E state block config).book = ⟨∅, ∅⟩ := rfl
  -- the invariant of the book holds after every prefix of the events
  have hcovers : ∀ pre post, (getForkchoiceStore E state block config).runEvents E ops =
      pre ++ post →
      ((getForkchoiceStore E state block config).bookAfter pre).Covers AttestationData.slot
        pre := by
    intro pre post heq
    rw [heq, hempty] at hstale
    have hrun := VoteBook.Covers.empty.run hstale.of_append
    rw [Store.bookAfter, hempty]
    simpa using hrun
  exact {
    final := Store.run_book hreach.run
    accepted := by
      -- an accepted message is the latest one, since no later one was skipped
      intro pre post heq v
      have hcov := hcovers pre _ heq
      have hbook : (getForkchoiceStore E state block config).bookAfter (pre ++ [.accept]) =
          bookStep ((getForkchoiceStore E state block config).bookAfter pre) .accept := by
        simp [Store.bookAfter]
      rw [hbook]
      constructor
      · intro d hd
        obtain ⟨k, hk, -, hmax⟩ := hcov.known_latest hd
        exact ⟨k, hk, hmax d hd⟩
      · intro k hk
        rcases entered_snoc.mp (hcov.accepted.known_entered v k hk) with h | ⟨agreed, he⟩
        · exact h
        · cases he
    mono := by
      intro pre e post heq v k hk
      have hbook : (getForkchoiceStore E state block config).bookAfter (pre ++ [e]) =
          bookStep ((getForkchoiceStore E state block config).bookAfter pre) e := by
        simp [Store.bookAfter]
      rw [hbook]
      exact (hcovers pre _ heq).known_mono e hk }

end Rule

/-! ## Votes on the genesis block -/

namespace GenesisVotes

/-- The genesis block of the chain with one validator. -/
def anchor : SignedBlockWithAttestation := SoloChain.block 0 0 1 []

def init : Store :=
  getForkchoiceStore SoloChain.env SoloChain.genesis anchor { genesisTime := 0 }

/-- A vote for the genesis block. -/
def vote (slot : ℕ) : AttestationData where
  slot := slot
  head := ⟨1, 0⟩
  target := ⟨1, 0⟩
  source := ⟨1, 0⟩

def signed (slot : ℕ) : SignedAttestation where
  validatorId := 0
  message := vote slot
  signature := 0

/-- A vote of slot 2 arrives and is accepted. -/
def early : List StoreOp := [.tick 4 false, .attestation (signed 2) false, .tick 7 false]

/-- Then the vote of slot 1 arrives, and is accepted as well. -/
def late : List StoreOp := early ++ [.attestation (signed 1) false, .tick 11 false]

/-- The store after a sequence of calls, or the first one where a call does not return. -/
def storeAfter (ops : List StoreOp) : Store :=
  match init.run SoloChain.env ops with
  | .ok store => store
  | .error _ => init

theorem reached {ops : List StoreOp}
    (h : (init.run SoloChain.env ops).toOption.isSome = true) :
    ReachedFromAnchor SoloChain.env init ops (storeAfter ops) where
  anchor := ⟨SoloChain.genesis, anchor, { genesisTime := 0 }, rfl⟩
  run := by
    unfold storeAfter
    cases hrun : init.run SoloChain.env ops with
    | ok store => rfl
    | error e =>
      rw [hrun] at h
      exact absurd h (by simp [Except.toOption])

theorem early_events :
    init.runEvents SoloChain.env early = [.accept, .vote 0 (vote 2) false, .accept] := by
  decide +kernel

/-- The events of the late run but the last one. -/
def lateVotes : List (VoteEvent ℕ AttestationData) :=
  [.accept, .vote 0 (vote 2) false, .accept, .vote 0 (vote 1) false]

theorem late_events : init.runEvents SoloChain.env late = lateVotes ++ [.accept] := by
  decide +kernel

theorem early_neverStale :
    NeverStale AttestationData.slot init.book (init.runEvents SoloChain.env early) := by
  rw [early_events]
  refine .cons (fun h => h) (.cons ?_ (.cons (fun h => h) .nil))
  rintro ⟨-, k, hk, -⟩
  exact absurd (show (none : Option AttestationData) = some k from hk) (by simp)

end GenesisVotes

/-- After the vote of slot 2 is accepted, it is the known one. -/
theorem early_votes_follow_rule :
    LatestMessageRule GenesisVotes.init
      (GenesisVotes.init.runEvents SoloChain.env GenesisVotes.early)
      (GenesisVotes.storeAfter GenesisVotes.early) :=
  latest_message_rule (GenesisVotes.reached (by decide +kernel)) GenesisVotes.early_neverStale

/-- The vote of slot 1 replaces the known vote of slot 2 when it is accepted. -/
theorem stale_vote_replaces_known :
    ReachedFromAnchor SoloChain.env GenesisVotes.init GenesisVotes.late
        (GenesisVotes.storeAfter GenesisVotes.late) ∧
      ¬ LatestMessageRule GenesisVotes.init
        (GenesisVotes.init.runEvents SoloChain.env GenesisVotes.late)
        (GenesisVotes.storeAfter GenesisVotes.late) := by
  refine ⟨GenesisVotes.reached (by decide +kernel), fun rule => ?_⟩
  obtain ⟨hmax, -⟩ := rule.accepted GenesisVotes.lateVotes [] GenesisVotes.late_events 0
  obtain ⟨k, hk, hle⟩ := hmax (GenesisVotes.vote 2) ⟨false, by decide⟩
  have hknown : (GenesisVotes.init.bookAfter
      (GenesisVotes.lateVotes ++ [.accept])).known.lookup 0 = some (GenesisVotes.vote 1) := by
    decide +kernel
  obtain rfl := Option.some.inj (hk.symm.trans hknown)
  exact absurd hle (by decide)

end ConsensusClient
