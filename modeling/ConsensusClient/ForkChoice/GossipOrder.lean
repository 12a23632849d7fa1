import ConsensusClient.ForkChoice.Sound

/-!
# The Order of Gossip Votes

Gossip votes enter the new vote map one after the other, each of them checked against the blocks
and the clock of the store, which no vote changes. The same votes therefore pass in every order,
and the map keeps the latest vote of a validator: nodes that receive the same votes in different
orders end up with the same map.

## Main results

* `Store.run_gossip`: what a list of votes from gossip does to a store
* `gossip_order_irrelevant`: every order of the votes returns, with the same maps and checks
-/

namespace ConsensusClient

/-- The votes come from gossip, in this order. -/
def gossiped (votes : List SignedAttestation) : List StoreOp :=
  votes.map fun sa => .attestation sa false

/-- The votes of a list that pass the checks, with their validators. -/
def Store.validVotes (store : Store) (votes : List SignedAttestation) :
    List (ℕ × AttestationData) :=
  (votes.filter fun sa => decide (store.validateAttestationData sa.message = .ok ())).map
    fun sa => (sa.validatorId, sa.message)

section Gossip

variable {E : Env} {store : Store} {votes : List SignedAttestation}

theorem Store.mem_validVotes {v : ℕ} {data : AttestationData} :
    (v, data) ∈ store.validVotes votes ↔
      (∃ sa ∈ votes, sa.validatorId = v ∧ sa.message = data) ∧
        store.validateAttestationData data = .ok () := by
  simp only [Store.validVotes, List.mem_map, List.mem_filter, decide_eq_true_eq, Prod.mk.injEq]
  constructor
  · rintro ⟨sa, ⟨hmem, hvalid⟩, rfl, rfl⟩
    exact ⟨⟨sa, hmem, rfl, rfl⟩, hvalid⟩
  · rintro ⟨⟨sa, hmem, rfl, rfl⟩, hvalid⟩
    exact ⟨sa, ⟨hmem, hvalid⟩, rfl, rfl⟩

/-- One vote from gossip: a valid one is entered, any other is ignored. -/
theorem Store.apply_gossip (store : Store) (sa : SignedAttestation) :
    ∃ signatures, store.apply E (.attestation sa false) = .ok { store with
      latestNewAttestations :=
        (store.validVotes [sa]).foldl (enter AttestationData.slot) store.latestNewAttestations
      gossipSignatures := signatures } := by
  rcases store.returns_validateAttestationData sa.message with ⟨u, hvalid⟩ | ⟨msg, hinvalid⟩
  · -- a valid vote is entered, and its signature is kept
    refine ⟨store.gossipSignatures.insert ⟨sa.validatorId, E.hashData sa.message⟩ sa.signature, ?_⟩
    have hvotes : store.validVotes [sa] = [(sa.validatorId, sa.message)] := by
      simp [Store.validVotes, hvalid]
    simp only [Store.apply, Store.onAttestation, attempt, hvalid, hvotes,
      Store.onAttestationInternal_eq]
    rfl
  · refine ⟨store.gossipSignatures, ?_⟩
    have hvotes : store.validVotes [sa] = [] := by
      simp [Store.validVotes, hinvalid]
    simp only [Store.apply, Store.onAttestation, attempt, hinvalid, hvotes]
    rfl

/-- A list of votes from gossip. -/
theorem Store.run_gossip (E : Env) (store : Store) (votes : List SignedAttestation) :
    ∃ signatures, store.run E (gossiped votes) = .ok { store with
      latestNewAttestations :=
        (store.validVotes votes).foldl (enter AttestationData.slot) store.latestNewAttestations
      gossipSignatures := signatures } := by
  induction votes generalizing store with
  | nil => exact ⟨store.gossipSignatures, rfl⟩
  | cons sa votes ih =>
    obtain ⟨signatures, hstep⟩ := store.apply_gossip (E := E) sa
    obtain ⟨signatures', hrest⟩ := ih { store with
      latestNewAttestations :=
        (store.validVotes [sa]).foldl (enter AttestationData.slot) store.latestNewAttestations
      gossipSignatures := signatures }
    -- the checks read the blocks and the clock only, so the rest passes as it would have
    have hvotes : store.validVotes (sa :: votes) =
        store.validVotes [sa] ++ store.validVotes votes := by
      rw [Store.validVotes, Store.validVotes, Store.validVotes, ← List.map_append,
        ← List.filter_append, List.singleton_append]
    refine ⟨signatures', ?_⟩
    rw [hvotes, List.foldl_append, Store.run, gossiped, List.map_cons, List.foldlM_cons, hstep,
      ok_bind]
    exact hrest

theorem Store.validVotes_distinct
    (hdistinct : (votes.map fun sa => (sa.validatorId, sa.message.slot)).Nodup) :
    ((store.validVotes votes).map fun p => (p.1, p.2.slot)).Nodup := by
  rw [Store.validVotes, List.map_map]
  exact (List.filter_sublist.map _).nodup hdistinct

/-- Votes from gossip of which no validator has two at one slot, in any order: the new vote map
    ends up with the latest valid vote of each validator, and besides it only the stored signatures
    change. -/
theorem gossip_order_irrelevant {votes' : List SignedAttestation}
    (hdistinct : (votes.map fun sa => (sa.validatorId, sa.message.slot)).Nodup)
    (hperm : votes'.Perm votes) :
    ∃ s s', store.run E (gossiped votes) = .ok s ∧ store.run E (gossiped votes') = .ok s' ∧
      (∀ v, s'.latestNewAttestations.lookup v = s.latestNewAttestations.lookup v) ∧
      (∀ v data, s.latestNewAttestations.lookup v = some data ↔
        IsLatest AttestationData.slot store.latestNewAttestations (store.validVotes votes) v data) ∧
      s = { store with
        latestNewAttestations := s.latestNewAttestations
        gossipSignatures := s.gossipSignatures } ∧
      s' = { store with
        latestNewAttestations := s'.latestNewAttestations
        gossipSignatures := s'.gossipSignatures } := by
  have hdistinct' : (votes'.map fun sa => (sa.validatorId, sa.message.slot)).Nodup :=
    (hperm.map _).nodup_iff.mpr hdistinct
  -- the votes that pass are the same, and the map keeps the latest of them
  have hsame : ∀ p, p ∈ store.validVotes votes' ↔ p ∈ store.validVotes votes := by
    rintro ⟨v, data⟩
    rw [Store.mem_validVotes, Store.mem_validVotes]
    simp only [hperm.mem_iff]
  obtain ⟨signatures, hrun⟩ := store.run_gossip E votes
  obtain ⟨signatures', hrun'⟩ := store.run_gossip E votes'
  refine ⟨_, _, hrun, hrun', ?_, ?_, rfl, rfl⟩
  · intro v
    apply Option.ext
    intro data
    rw [lookup_foldl_enter (Store.validVotes_distinct hdistinct'),
      lookup_foldl_enter (Store.validVotes_distinct hdistinct)]
    exact isLatest_congr hsame
  · intro v data
    exact lookup_foldl_enter (Store.validVotes_distinct hdistinct)

end Gossip

/-- A validator votes for the genesis block at slots 1 and 2; the vote for slot 2 stays, also when
    it comes first. -/
theorem two_gossip_votes_in_both_orders :
    let store := GenesisVotes.storeAfter [.tick 8 false]
    let votes := [GenesisVotes.signed 1, GenesisVotes.signed 2]
    store.validVotes votes = [(0, GenesisVotes.vote 1), (0, GenesisVotes.vote 2)] ∧
      ∃ s s', store.run SoloChain.env (gossiped votes) = .ok s ∧
        store.run SoloChain.env (gossiped votes.reverse) = .ok s' ∧
        s'.latestNewAttestations.lookup 0 = s.latestNewAttestations.lookup 0 ∧
        s.latestNewAttestations.lookup 0 = some (GenesisVotes.vote 2) := by
  intro store votes
  have hvalid : store.validVotes votes = [(0, GenesisVotes.vote 1), (0, GenesisVotes.vote 2)] := by
    decide +kernel
  have hempty : store.latestNewAttestations.lookup 0 = none := by decide +kernel
  have hdistinct : (votes.map fun sa => (sa.validatorId, sa.message.slot)).Nodup := by decide
  obtain ⟨s, s', hrun, hrun', hsame, hlatest, -⟩ :=
    @gossip_order_irrelevant SoloChain.env store votes votes.reverse hdistinct votes.reverse_perm
  -- the later of the two valid votes is the latest one
  refine ⟨hvalid, s, s', hrun, hrun', hsame 0, (hlatest 0 _).mpr ⟨?_, ?_, ?_⟩⟩
  · rw [hvalid]
    exact Or.inr (by simp)
  · intro data hdata
    rw [IsCandidate, hempty, hvalid] at hdata
    have hcases : data = GenesisVotes.vote 1 ∨ data = GenesisVotes.vote 2 := by simpa using hdata
    rcases hcases with rfl | rfl
    · decide
    · exact le_rfl
  · intro old hold
    rw [hempty] at hold
    simp at hold

end ConsensusClient
