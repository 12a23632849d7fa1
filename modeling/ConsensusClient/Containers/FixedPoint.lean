import Mathlib.Logic.Relation
import ConsensusClient.Containers.Proofs

/-!
# The Fixed Point of the Collection Loop

`build_block` adds the votes of the pool that the post-state of its candidate makes eligible, until
there are none. The justified checkpoint may move in either direction between two candidates, so it
bounds nothing; but every round that goes on takes votes of the pool that were not collected
before, and their number falls. The loop ends for every state and every pool, and where it ends
without an error no vote of the pool is left out that the last candidate makes eligible.

## Main results

* `BuildArgs.left_lt`: a round that goes on leaves fewer votes of the pool
* `State.collect_ends`: enough rounds end the loop, and more change nothing
* `collection_reaches_fixed_point`: what holds of the collected votes when it ends
-/

namespace ConsensusClient

/-! ## Candidates come to an end -/

section Ends

variable {E : Env} {s : State}

theorem ends_aggregateByData (attestations : List Attestation) :
    (aggregateByData attestations).Ends := by
  refine ends_mapM (fun g => ends_bind ?_ fun bits => ends_ok _) _
  exact ends_ite (ends_crash _) (ends_ite (ends_ok _) (ends_crash _))

theorem ends_isJustifiableAfter (slot finalized : ℕ) : (isJustifiableAfter slot finalized).Ends :=
  ends_ite (ends_ok _) (ends_crash _)

theorem JustifiedSlots.ends_isSlotJustified (js : JustifiedSlots) (f t : ℕ) :
    (JustifiedSlots.isSlotJustified js f t).Ends := by
  unfold JustifiedSlots.isSlotJustified
  split
  · exact ends_ok true
  · exact ends_okOr _ _

theorem State.ends_voteCounts (s : State) (l : VoteLoop) (source target : Checkpoint) :
    (s.voteCounts l source target).Ends := by
  unfold State.voteCounts
  -- one question after the other, in the order of the source
  refine ends_bind (JustifiedSlots.ends_isSlotJustified _ _ _) fun _ => ?_
  refine ends_ite (ends_ok _) (ends_bind (JustifiedSlots.ends_isSlotJustified _ _ _) fun _ => ?_)
  refine ends_ite (ends_ok _) (ends_ite (ends_ok _) (ends_bind (ends_okOr _ _) fun _ => ?_))
  refine ends_ite (ends_ok _) (ends_bind (ends_okOr _ _) fun _ => ?_)
  exact ends_ite (ends_ok _) (ends_ite (ends_ok _) (ends_isJustifiableAfter _ _))

theorem State.ends_finalize (s : State) (l : VoteLoop) (source : Checkpoint) :
    (s.finalize l source).Ends := by
  unfold State.finalize
  refine ends_ite (ends_bind ?_ fun _ => ends_bind (ends_ensure _ _) fun _ => ends_ok _) (ends_ok _)
  exact ends_ite (ends_ok _) (ends_ite (ends_ok _) (ends_crash _))

theorem State.ends_justify (s : State) (l : VoteLoop) (source target : Checkpoint) :
    (s.justify l source target).Ends := by
  unfold State.justify
  refine ends_bind ?_ fun window => ends_bind ?_ fun direct => ?_
  · -- the bit of the target
    unfold JustifiedSlots.withJustified
    split
    · exact ends_ok _
    · exact ends_ite (ends_ok _) (ends_bail _)
  · -- the search for a justifiable slot in between
    exact ends_bind (ends_anyM (fun _ => ends_isJustifiableAfter _ _) _) fun _ => ends_ok _
  · exact ends_ite (s.ends_finalize _ _) (ends_ok _)

theorem State.ends_processAttestation (s : State) (l : VoteLoop) (a : AggregatedAttestation) :
    (s.processAttestation l a).Ends := by
  unfold State.processAttestation
  refine ends_bind (s.ends_voteCounts l _ _) fun _ => ends_ite (ends_ok _) ?_
  refine ends_bind (ends_ite (ends_crash _) (ends_ok _)) fun ids => ?_
  refine ends_bind (returns_castVotes _ ids).ends fun tally => ?_
  exact ends_ite (s.ends_justify _ _ _) (ends_ok _)

theorem State.ends_processAttestations (s : State) (attestations : List AggregatedAttestation) :
    (s.processAttestations attestations).Ends := by
  refine ends_bind ?_ fun l => ends_bind (ends_foldlM s.ends_processAttestation _ l) fun _ => ?_
  · refine ends_bind (ends_ensure _ _) fun _ => ends_bind ?_ fun _ => ends_ok _
    -- the stored tallies are read root by root
    refine ends_foldlM (fun m p => ends_bind ?_ fun _ => ends_ok _) _ _
    exact ends_ite (ends_ok _) (ends_crash _)
  · exact ends_bind (ends_ensure _ _) fun _ => ends_ok _

theorem State.ends_processBlockHeader (s : State) (block : Block) :
    (s.processBlockHeader E block).Ends := by
  unfold State.processBlockHeader
  -- the checks of slot, proposer and parent, and then the history up to the new block
  refine ends_bind (ends_ensure _ _) fun _ => ends_bind (ends_ensure _ _) fun _ => ?_
  refine ends_bind (ends_ite (ends_crash _) (ends_ok _)) fun _ => ?_
  refine ends_bind (ends_ensure _ _) fun _ => ends_bind (ends_ensure _ _) fun _ => ?_
  refine ends_bind (returns_pushLimited _ _ _).ends fun _ => ?_
  exact ends_bind (returns_pushAll _ _ _).ends fun _ => ends_ok _

/-- Processing a candidate comes to an end. -/
theorem State.ends_applyCandidate (s : State) (args : BuildArgs)
    (attestations : List AggregatedAttestation) : (s.applyCandidate E args attestations).Ends := by
  refine ends_bind (returns_pushAll _ _ _).ends fun pushed => ends_bind ?_ fun advanced => ?_
  · exact ends_bind (ends_ensure _ _) fun _ => ends_ok _
  · refine ends_bind (advanced.ends_processBlockHeader _) fun headed => ?_
    exact ends_bind (ends_ensure _ _) fun _ => headed.ends_processAttestations _

end Ends

/-! ## Rounds -/

/-- The pool of votes, empty where no source of votes is given. -/
def BuildArgs.pool (args : BuildArgs) : List Attestation := args.availableAttestations.getD []

/-- The head is a known block, the source is the justified checkpoint, and there is a signature or a
    proof of the vote. -/
def BuildArgs.Eligible (E : Env) (args : BuildArgs) (justified : Checkpoint) (a : Attestation) :
    Prop :=
  a.data.head.root ∈ args.knownBlockRoots.getD [] ∧ a.data.source = justified ∧
    ((∃ sigs, args.gossipSignatures = some sigs ∧
        (⟨a.validatorId, E.hashData a.data⟩ : SignatureKey) ∈ sigs) ∨
      ∃ payloads, args.aggregatedPayloads = some payloads ∧
        (⟨a.validatorId, E.hashData a.data⟩ : SignatureKey) ∈ payloads)

/-- The votes that a round adds. -/
def BuildArgs.newVotes (E : Env) (args : BuildArgs) (justified : Checkpoint)
    (votes : List Attestation) : List Attestation :=
  args.pool.filter (args.collects E (args.knownBlockRoots.getD []) justified votes)

/-- The post-state of the candidate with these votes. -/
def State.candidatePost (E : Env) (s : State) (args : BuildArgs) (votes : List Attestation) :
    Res State := do
  let groups ← aggregateByData votes
  s.applyCandidate E args groups

/-- A round of the collection loop after which it goes on. -/
def State.CollectStep (E : Env) (s : State) (args : BuildArgs) (votes votes' : List Attestation) :
    Prop :=
  ∃ post, s.candidatePost E args votes = .ok post ∧
    args.newVotes E post.latestJustified votes ≠ [] ∧
    votes' = votes ++ args.newVotes E post.latestJustified votes

section Rounds

variable {E : Env} {s : State} {args : BuildArgs} {votes : List Attestation}
  {justified : Checkpoint}

theorem BuildArgs.mem_newVotes {a : Attestation} :
    a ∈ args.newVotes E justified votes ↔
      a ∈ args.pool ∧ args.Eligible E justified a ∧ a ∉ votes := by
  simp only [BuildArgs.newVotes, List.mem_filter, BuildArgs.collects, BuildArgs.Eligible,
    Bool.and_eq_true, Bool.or_eq_true, decide_eq_true_eq, Bool.not_eq_true', Option.any_eq_true,
    decide_eq_false_iff_not]
  constructor
  · rintro ⟨hpool, ⟨⟨hhead, hsource⟩, hnew⟩, hproof⟩
    exact ⟨hpool, ⟨hhead, hsource, hproof⟩, hnew⟩
  · rintro ⟨hpool, ⟨hhead, hsource, hproof⟩, hnew⟩
    exact ⟨hpool, ⟨⟨hhead, hsource⟩, hnew⟩, hproof⟩

/-- One round: the candidate is processed, and the loop ends where it makes no vote eligible. -/
theorem State.collect_round (fuel : ℕ) (votes : List Attestation) :
    s.collect E args (fuel + 1) votes = s.candidatePost E args votes >>= fun post =>
      if args.newVotes E post.latestJustified votes = [] then .ok votes
      else s.collect E args fuel (votes ++ args.newVotes E post.latestJustified votes) := by
  -- without a pool, or without known blocks, no vote is added
  have hnone : ∀ justified, args.availableAttestations = none ∨ args.knownBlockRoots = none →
      args.newVotes E justified votes = [] := by
    intro justified h
    rw [List.eq_nil_iff_forall_not_mem]
    intro a ha
    obtain ⟨hpool, helig, -⟩ := BuildArgs.mem_newVotes.mp ha
    rcases h with h | h
    · simp [BuildArgs.pool, h] at hpool
    · simp [BuildArgs.Eligible, h] at helig
  rw [State.collect, State.candidatePost, bind_assoc]
  refine bind_congr fun groups => bind_congr fun post => ?_
  cases hpool : args.availableAttestations with
  | none => rw [if_pos (hnone _ (Or.inl hpool))]; rfl
  | some pool =>
    cases hknown : args.knownBlockRoots with
    | none => rw [if_pos (hnone _ (Or.inr hknown))]; rfl
    | some known => simp only [BuildArgs.newVotes, BuildArgs.pool, hpool, hknown, Option.getD_some,
        pure_eq_ok]

/-- The votes of the pool that are not collected yet. -/
def BuildArgs.left (args : BuildArgs) (votes : List Attestation) : List Attestation :=
  args.pool.filter fun a => decide (a ∉ votes)

/-- A round that goes on leaves fewer votes. -/
theorem BuildArgs.left_lt (h : args.newVotes E justified votes ≠ []) :
    (args.left (votes ++ args.newVotes E justified votes)).length < (args.left votes).length := by
  obtain ⟨a, ha⟩ := List.exists_mem_of_ne_nil _ h
  obtain ⟨hpool, -, hnew⟩ := BuildArgs.mem_newVotes.mp ha
  -- what is left after the round is what was left before it, less the new votes
  have hsplit : args.left (votes ++ args.newVotes E justified votes) =
      (args.left votes).filter fun b => decide (b ∉ args.newVotes E justified votes) := by
    simp [BuildArgs.left, List.filter_filter, Bool.and_comm]
  rw [hsplit]
  apply List.length_filter_lt_length_iff_exists.mpr
  refine ⟨a, ?_, by simpa using ha⟩
  simpa [BuildArgs.left] using ⟨hpool, hnew⟩

/-- With more rounds than votes of the pool that are left, the loop ends, and further rounds do not
    change its outcome. -/
theorem State.collect_ends {fuel : ℕ} (h : (args.left votes).length < fuel) :
    (s.collect E args fuel votes).Ends ∧
      ∀ more, s.collect E args (fuel + more) votes = s.collect E args fuel votes := by
  induction fuel generalizing votes with
  | zero => exact absurd h (Nat.not_lt_zero _)
  | succ fuel ih =>
    -- a round that goes on has fewer votes left, so the bound holds for the rest
    have hrest : ∀ post : State, args.newVotes E post.latestJustified votes ≠ [] →
        (s.collect E args fuel (votes ++ args.newVotes E post.latestJustified votes)).Ends ∧
          ∀ more, s.collect E args (fuel + more)
            (votes ++ args.newVotes E post.latestJustified votes) =
              s.collect E args fuel (votes ++ args.newVotes E post.latestJustified votes) := by
      intro post hnew
      exact ih (by have := BuildArgs.left_lt hnew; omega)
    constructor
    · rw [State.collect_round]
      refine ends_bind ?_ fun post => ?_
      · exact ends_bind (ends_aggregateByData votes) fun groups => s.ends_applyCandidate args groups
      · split_ifs with hnew
        · exact ends_ok votes
        · exact (hrest post hnew).1
    · intro more
      rw [show fuel + 1 + more = fuel + more + 1 by omega, State.collect_round, State.collect_round]
      refine bind_congr fun post => ?_
      split_ifs with hnew
      · rfl
      · exact (hrest post hnew).2 more

/-! ## What is collected -/

/-- A loop that ends without an error has gone through rounds up to a candidate that makes no
    further vote eligible. -/
theorem State.collect_rounds {fuel : ℕ} {collected : List Attestation}
    (h : s.collect E args fuel votes = .ok collected) :
    Relation.ReflTransGen (s.CollectStep E args) votes collected ∧
      ∃ post, s.candidatePost E args collected = .ok post ∧
        args.newVotes E post.latestJustified collected = [] := by
  induction fuel generalizing votes with
  | zero => exact absurd h (by simp [State.collect])
  | succ fuel ih =>
    rw [State.collect_round] at h
    obtain ⟨post, hpost, h⟩ := bind_eq_ok.mp h
    split_ifs at h with hnew
    · -- the last candidate
      obtain rfl := Except.ok.inj h
      exact ⟨.refl, post, hpost, hnew⟩
    · obtain ⟨hrounds, hlast⟩ := ih h
      exact ⟨.head ⟨post, hpost, hnew, rfl⟩ hrounds, hlast⟩

/-- The votes added in the rounds were eligible after a candidate without them. -/
theorem State.CollectStep.added {collected : List Attestation}
    (h : Relation.ReflTransGen (s.CollectStep E args) votes collected) :
    ∃ rest, collected = votes ++ rest ∧ ∀ a ∈ rest, a ∈ args.pool ∧
      ∃ earlier post, Relation.ReflTransGen (s.CollectStep E args) votes earlier ∧
        Relation.TransGen (s.CollectStep E args) earlier collected ∧ a ∉ earlier ∧
        s.candidatePost E args earlier = .ok post ∧ args.Eligible E post.latestJustified a := by
  induction h with
  | refl => exact ⟨[], by simp, by simp⟩
  | tail hrounds hstep ih =>
    obtain ⟨rest, rfl, hrest⟩ := ih
    have hlast := hstep
    obtain ⟨post, hpost, hnew, rfl⟩ := hstep
    refine ⟨_, List.append_assoc _ _ _, ?_⟩
    intro a ha
    rcases List.mem_append.mp ha with ha | ha
    · obtain ⟨hpool, earlier, post', hfrom, hto, hafter⟩ := hrest a ha
      exact ⟨hpool, earlier, post', hfrom, hto.tail hlast, hafter⟩
    · -- the vote was added in the last round
      obtain ⟨hpool, helig, hfresh⟩ := BuildArgs.mem_newVotes.mp ha
      exact ⟨hpool, _, post, hrounds, .single hlast, hfresh, hpost, helig⟩

/-- The collection loop of `build_block` ends for every pool, also with duplicates. If it ends
    without an error, it has kept the initial votes, every other vote it holds is a vote of the pool
    that an earlier candidate made eligible, and the last candidate makes no further vote of the
    pool eligible. -/
theorem collection_reaches_fixed_point (E : Env) (s : State) (args : BuildArgs)
    (initial : Option (List Attestation)) :
    let fuel := (args.availableAttestations.getD []).length + 1
    s.collect E args fuel (initial.getD []) ≠ .error .diverge ∧
      (∀ more, s.collect E args (fuel + more) (initial.getD []) =
        s.collect E args fuel (initial.getD [])) ∧
      ∀ collected, s.collect E args fuel (initial.getD []) = .ok collected →
        (∃ rest, collected = initial.getD [] ++ rest ∧ ∀ a ∈ rest, a ∈ args.pool ∧
          ∃ earlier post,
            Relation.ReflTransGen (s.CollectStep E args) (initial.getD []) earlier ∧
            Relation.TransGen (s.CollectStep E args) earlier collected ∧ a ∉ earlier ∧
            s.candidatePost E args earlier = .ok post ∧
            args.Eligible E post.latestJustified a) ∧
        ∃ post, s.candidatePost E args collected = .ok post ∧
          ∀ a ∈ args.pool, args.Eligible E post.latestJustified a → a ∈ collected := by
  intro fuel
  have hleft : (args.left (initial.getD [])).length < fuel :=
    Nat.lt_succ_of_le (List.length_filter_le _ _)
  obtain ⟨hends, hmore⟩ := State.collect_ends (E := E) (s := s) hleft
  refine ⟨hends, hmore, ?_⟩
  intro collected hcollected
  obtain ⟨hrounds, post, hpost, hnone⟩ := State.collect_rounds hcollected
  refine ⟨State.CollectStep.added hrounds, post, hpost, ?_⟩
  intro a hpool helig
  -- a vote that is left out would have been added in a further round
  by_contra hout
  have hnew := BuildArgs.mem_newVotes.mpr ⟨hpool, helig, hout⟩
  rw [hnone] at hnew
  simp at hnew

end Rounds

/-- A pool that lists the vote of validator 0 twice: the loop takes both entries in its first round
    and ends after the second. -/
theorem vote_listed_twice_is_collected :
    let args := ShortTally.buildArgs [⟨0, ShortTally.bodyVote⟩, ⟨0, ShortTally.bodyVote⟩]
      ShortTally.gossip ∅
    let collected : List Attestation := [⟨0, ShortTally.bodyVote⟩, ⟨0, ShortTally.bodyVote⟩]
    ShortTally.state1.collect ShortTally.env args 3 [] = .ok collected ∧
      ∃ post, ShortTally.state1.candidatePost ShortTally.env args collected = .ok post ∧
        ∀ a ∈ args.pool, args.Eligible ShortTally.env post.latestJustified a → a ∈ collected := by
  intro args collected
  have hcollected : ShortTally.state1.collect ShortTally.env args 3 [] = .ok collected := by
    decide +kernel
  have hfixed := collection_reaches_fixed_point ShortTally.env ShortTally.state1 args none
  exact ⟨hcollected, (hfixed.2.2 collected hcollected).2⟩

end ConsensusClient
