import ConsensusClient.Containers.Proofs

/-!
# The Greedy Cover is Complete

A round of the greedy cover looks at the proofs of one remaining validator, whichever the set
happens to give first, and takes the one with the largest overlap. If every proof covers the
validator it is stored for, then so does the one that is taken: each round covers at least the
validator it looks at, none of the early exits is reached before all are covered, and the choices
of the set do not matter.

## Main results

* `coverRemaining_take`: the proof that a round takes covers the validator it looked at
* `coverRemaining_complete`: the cover ends only when all remaining validators are covered
* `greedy_cover_complete`: no vote with a signature or a proof is left out, whatever the sets pick
-/

namespace ConsensusClient

/-! ## Where proofs come from -/

/-- Each proof of the cache covers the validator it is stored for, and its participants fit into
    their bitlist. -/
def ProofsCoverKeys (payloads : Option (HashMap SignatureKey (List AggregatedSignatureProof))) :
    Prop :=
  ∀ map key proofs proof, payloads = some map → map.lookup key = some proofs → proof ∈ proofs →
    key.validatorId ∈ AggregationBits.setIndices proof.participants ∧
      proof.participants.length ≤ validatorRegistryLimit

/-- The proof is aggregated from the gossip signatures of exactly the participants. -/
def State.FromGossip (E : Env) (s : State)
    (gossipSignatures : Option (HashMap SignatureKey Signature)) (p : ProvedAttestation) : Prop :=
  p.2.participants = p.1.aggregationBits ∧
    ∃ sigs, List.Forall₂ (fun v sig => ∃ map, gossipSignatures = some map ∧
        map.lookup ⟨v, E.hashData p.1.data⟩ = some sig)
      (AggregationBits.setIndices p.1.aggregationBits) sigs ∧
    AggregatedSignature.aggregate E
      (registeredKeys s.validators (AggregationBits.setIndices p.1.aggregationBits)) sigs
      (E.hashData p.1.data) (epochOf p.1.data.slot) = .ok p.2.proofData

/-- The proof is stored for one of the validators and the data, and its own participants are the
    set bits. -/
def FromCache (E : Env) (payloads : Option (HashMap SignatureKey (List AggregatedSignatureProof)))
    (p : ProvedAttestation) : Prop :=
  AggregationBits.setIndices p.1.aggregationBits = AggregationBits.setIndices p.2.participants ∧
    ∃ map v proofs, payloads = some map ∧ map.lookup ⟨v, E.hashData p.1.data⟩ = some proofs ∧
      p.2 ∈ proofs

/-! ## The cover -/

section Cover

variable {E : Env} {order : SetOrder}
  {payloads : Option (HashMap SignatureKey (List AggregatedSignatureProof))}
  {map : HashMap SignatureKey (List AggregatedSignatureProof)} {data : AttestationData}
  {remaining : Finset ℕ}

/-- The set gives one of its elements, if there are any. -/
theorem SetOrder.exists_head (order : SetOrder) (hne : remaining ≠ ∅) :
    ∃ v ∈ remaining, (order remaining).val.head? = some v := by
  have hset := (order remaining).property.2
  cases hlist : (order remaining).val with
  | nil =>
    rw [hlist] at hset
    exact absurd hset.symm hne
  | cons v rest =>
    refine ⟨v, ?_, rfl⟩
    rw [← hset, hlist]
    simp

theorem coverRemaining_empty (fuel : ℕ) :
    coverRemaining E order payloads data (fuel + 1) ∅ = .ok [] := by
  have hset := (order ∅).property.2
  have hlist : (order ∅).val = [] := by
    simpa using hset
  unfold coverRemaining
  cases payloads with
  | none => rfl
  | some map => simp [hlist]

theorem maxByKey_isSome {α : Type} {key : α → ℕ} {xs : List α} (h : xs ≠ []) :
    ∃ x, maxByKey key xs = some x := by
  cases xs with
  | nil => exact absurd rfl h
  | cons x xs => exact ⟨_, rfl⟩

/-- The participants of a proof of the cache are read and written back without a panic. -/
theorem ProofsCoverKeys.participants (hcover : ProofsCoverKeys (some map)) {key : SignatureKey}
    {proofs : List AggregatedSignatureProof} (hproofs : map.lookup key = some proofs)
    {proof : AggregatedSignatureProof} (hproof : proof ∈ proofs) :
    proof.getParticipantIndices = .ok (AggregationBits.setIndices proof.participants) ∧
      ∃ bits, AggregationBits.fromValidatorIndices
        (AggregationBits.setIndices proof.participants) = .ok bits := by
  obtain ⟨hkey, hlen⟩ := hcover map key proofs proof rfl hproofs hproof
  have hne : AggregationBits.setIndices proof.participants ≠ [] := List.ne_nil_of_mem hkey
  refine ⟨toValidatorIndices_eq_ok.mpr ⟨rfl, hne⟩, _, fromValidatorIndices_eq_ok.mpr ⟨hne, ?_, rfl⟩⟩
  intro v hv
  exact (List.getElem?_eq_some_iff.mp (mem_setIndices.mp hv)).1.trans_le hlen

/-- One round with a validator for whom there are proofs: the proof that is taken covers him. -/
theorem coverRemaining_take (hcover : ProofsCoverKeys (some map)) {v : ℕ}
    (hv : v ∈ remaining) (hhead : (order remaining).val.head? = some v)
    {proofs : List AggregatedSignatureProof}
    (hproofs : map.lookup ⟨v, E.hashData data⟩ = some proofs) (hne : proofs ≠ []) :
    ∃ best ∈ proofs, ∃ bits, v ∈ AggregationBits.setIndices best.participants ∧
      AggregationBits.fromValidatorIndices (AggregationBits.setIndices best.participants) =
        .ok bits ∧
      ∀ fuel, coverRemaining E order (some map) data (fuel + 1) remaining =
        coverRemaining E order (some map) data fuel
          (remaining \ (remaining ∩ (AggregationBits.setIndices best.participants).toFinset)) >>=
          fun rest => .ok ((⟨bits, data⟩, best) :: rest) := by
  have hcoverage : ∀ proof ∈ proofs, coverage remaining proof = .ok
      (proof, remaining ∩ (AggregationBits.setIndices proof.participants).toFinset) := by
    intro proof hproof
    rw [coverage, (hcover.participants hproofs hproof).1, ok_bind, pure_eq_ok]
  obtain ⟨covered, hcovered⟩ := exists_mapM_iff.mpr fun proof hproof => ⟨_, hcoverage proof hproof⟩
  have hlist := mapM_coverage_eq_ok hcovered
  have hcovered_ne : covered ≠ [] := by
    rw [← hlist]
    simpa using hne
  obtain ⟨best, hbest⟩ : ∃ best, maxByKey (fun c => c.2.card) covered = some best :=
    maxByKey_isSome hcovered_ne
  have hmem := mem_of_maxByKey hbest
  rw [← hlist] at hmem
  obtain ⟨proof, hproof, rfl⟩ := List.mem_map.mp hmem
  obtain ⟨hids, bits, hbits⟩ := hcover.participants hproofs hproof
  have hpart := (hcover map _ proofs proof rfl hproofs hproof).1
  -- the validator looked at is among those covered
  have hnonempty : remaining ∩ (AggregationBits.setIndices proof.participants).toFinset ≠ ∅ := by
    intro hempty
    have hin : v ∈ remaining ∩ (AggregationBits.setIndices proof.participants).toFinset := by
      simpa using ⟨hv, hpart⟩
    rw [hempty] at hin
    simp at hin
  refine ⟨proof, hproof, bits, hpart, hbits, fun fuel => ?_⟩
  rw [coverRemaining]
  simp only [hhead, hproofs, if_neg hne, hcovered, hbest, okOr, ok_bind, if_neg hnonempty, hids,
    hbits, pure_eq_ok]

/-- If there are proofs for all remaining validators, the cover ends and covers each of them. -/
theorem coverRemaining_complete (hcover : ProofsCoverKeys payloads) {fuel : ℕ}
    (hproofs : ∀ v ∈ remaining, ∃ map proofs, payloads = some map ∧
      map.lookup ⟨v, E.hashData data⟩ = some proofs ∧ proofs ≠ [])
    (hfuel : remaining.card < fuel) :
    ∃ out, coverRemaining E order payloads data fuel remaining = .ok out ∧
      ∀ v ∈ remaining, ∃ p ∈ out, v ∈ AggregationBits.setIndices p.1.aggregationBits := by
  induction fuel generalizing remaining with
  | zero => exact absurd hfuel (Nat.not_lt_zero _)
  | succ fuel ih =>
    by_cases hempty : remaining = ∅
    · subst hempty
      exact ⟨[], coverRemaining_empty fuel, by simp⟩
    · obtain ⟨v, hv, hhead⟩ := order.exists_head hempty
      obtain ⟨map, proofs, rfl, hlookup, hne⟩ := hproofs v hv
      obtain ⟨best, hbest, bits, hpart, hbits, hround⟩ :=
        coverRemaining_take hcover hv hhead hlookup hne
      -- the validator looked at is not left over, so fewer are
      have hless : (remaining \ (remaining ∩
          (AggregationBits.setIndices best.participants).toFinset)).card < remaining.card := by
        apply Finset.card_lt_card
        refine Finset.ssubset_iff_subset_ne.mpr ⟨Finset.sdiff_subset, fun heq => ?_⟩
        rw [← heq] at hv
        simp [hpart] at hv
      have hleft : ∀ u ∈ remaining \ (remaining ∩
          (AggregationBits.setIndices best.participants).toFinset), ∃ map' proofs,
            some map = some map' ∧ map'.lookup ⟨u, E.hashData data⟩ = some proofs ∧ proofs ≠ [] :=
        fun u hu => hproofs u (Finset.mem_sdiff.mp hu).1
      obtain ⟨rest, hrest, hall⟩ := ih hleft (hless.trans_le (Nat.le_of_lt_succ hfuel))
      refine ⟨(⟨bits, data⟩, best) :: rest, by rw [hround, hrest, ok_bind], ?_⟩
      intro u hu
      by_cases hin : u ∈ AggregationBits.setIndices best.participants
      · exact ⟨_, List.mem_cons_self, (mem_setIndices_fromValidatorIndices hbits).mpr hin⟩
      · obtain ⟨p, hp, hup⟩ := hall u (by simp [hu, hin])
        exact ⟨p, List.mem_cons_of_mem _ hp, hup⟩

end Cover

/-! ## Groups -/

section Groups

variable {E : Env} {order : SetOrder} {s : State}
  {gossipSignatures : Option (HashMap SignatureKey Signature)}
  {payloads : Option (HashMap SignatureKey (List AggregatedSignatureProof))}
  {group : AggregatedAttestation}

/-- The signatures of registered validators are collected without an error. -/
theorem State.exists_gossipPhase {dataRoot : H256} {ids : List ℕ}
    (hids : ∀ v ∈ ids, v < s.validators.length) :
    ∃ phase, s.gossipPhase gossipSignatures dataRoot ids = .ok phase := by
  unfold State.gossipPhase
  cases gossipSignatures with
  | none => exact ⟨_, rfl⟩
  | some sigs =>
    refine exists_foldlM_iff.mpr fun pre v post phase hsplit _ => ?_
    have hget := List.getElem?_eq_getElem (hids v (by simp [hsplit]))
    unfold State.collectGossip
    cases sigs.lookup ⟨v, dataRoot⟩ with
    | none => exact ⟨_, rfl⟩
    | some sig =>
      simp only [hget, Option.map_some, okOr, ok_bind]
      exact ⟨_, rfl⟩

/-- Aggregation succeeds for every set of validators of the group with a signature each. -/
def State.Aggregates (E : Env) (s : State)
    (gossipSignatures : Option (HashMap SignatureKey Signature)) (data : AttestationData)
    (voters : List ℕ) : Prop :=
  ∀ ids sigs, ids ≠ [] → ids ⊆ voters →
    List.Forall₂ (fun v sig => ∃ map, gossipSignatures = some map ∧
      map.lookup ⟨v, E.hashData data⟩ = some sig) ids sigs →
    ∃ proof, AggregatedSignature.aggregate E (registeredKeys s.validators ids) sigs
      (E.hashData data) (epochOf data.slot) = .ok proof

/-- The aggregate of the gossip signatures of a group. -/
theorem State.exists_gossipProof {data : AttestationData} {ids : List ℕ} {phase : GossipPhase}
    (hsorted : ids.SortedLT) (hlimit : ∀ v ∈ ids, v < validatorRegistryLimit)
    (hagg : s.Aggregates E gossipSignatures data ids)
    (hphase : GossipOf s gossipSignatures (E.hashData data) ids phase) :
    ∃ out, gossipProof E data phase = .ok out ∧
      (∀ p ∈ out, p.1.data = data ∧ s.FromGossip E gossipSignatures p) ∧
      ∀ v ∈ phase.ids, ∃ p ∈ out, v ∈ AggregationBits.setIndices p.1.aggregationBits := by
  unfold gossipProof
  split_ifs with hids
  · exact ⟨[], rfl, by simp, by simp [hids]⟩
  · have hsub : phase.ids ⊆ ids := by
      rw [hphase.ids]
      exact List.filter_subset_self _
    obtain ⟨bits, hbits⟩ : ∃ bits, AggregationBits.fromValidatorIndices phase.ids = .ok bits :=
      ⟨_, fromValidatorIndices_eq_ok.mpr ⟨hids, fun v hv => hlimit v (hsub hv), rfl⟩⟩
    obtain ⟨proof, hproof⟩ := hagg phase.ids phase.sigs hids hsub hphase.sigs
    rw [← hphase.keys] at hproof
    -- the ids are in increasing order, so the bits give them back as they are
    have hback : AggregationBits.setIndices bits = phase.ids := by
      refine setIndices_fromValidatorIndices ?_ hbits
      rw [hphase.ids]
      exact (hsorted.pairwise.filter _).sortedLT
    refine ⟨[(⟨bits, data⟩, ⟨bits, proof⟩)], ?_, ?_, ?_⟩
    · simp only [hbits, ok_bind, AggregatedSignatureProof.aggregate, hproof, pure_eq_ok]
    · intro p hp
      obtain rfl := List.mem_singleton.mp hp
      refine ⟨rfl, rfl, phase.sigs, ?_, ?_⟩
      · rw [hback]
        exact hphase.sigs
      · rw [hback, ← hphase.keys]
        exact hproof
    · intro v hv
      exact ⟨_, List.mem_singleton_self _, by rw [hback]; exact hv⟩

/-- A group whose voters all have a signature or a proof is proved, and each of them is covered. -/
theorem State.exists_proveGroup
    (hvoters : AggregationBits.setIndices group.aggregationBits ≠ [])
    (hids : ∀ v ∈ AggregationBits.setIndices group.aggregationBits,
      v < validatorRegistryLimit ∧ v < s.validators.length)
    (hproofs : ∀ v ∈ AggregationBits.setIndices group.aggregationBits,
      hasGossip gossipSignatures (E.hashData group.data) v = true ∨
        ∃ map proofs, payloads = some map ∧
          map.lookup ⟨v, E.hashData group.data⟩ = some proofs ∧ proofs ≠ [])
    (hcover : ProofsCoverKeys payloads)
    (hagg : s.Aggregates E gossipSignatures group.data
      (AggregationBits.setIndices group.aggregationBits)) :
    ∃ out, s.proveGroup E order gossipSignatures payloads group = .ok out ∧
      (∀ p ∈ out, p.1.data = group.data ∧
        (s.FromGossip E gossipSignatures p ∨ FromCache E payloads p)) ∧
      ∀ v ∈ AggregationBits.setIndices group.aggregationBits,
        ∃ p ∈ out, v ∈ AggregationBits.setIndices p.1.aggregationBits := by
  obtain ⟨phase, hrun⟩ := State.exists_gossipPhase (s := s) fun v hv => (hids v hv).2
  have hphase := State.gossipPhase_eq_ok hrun
  obtain ⟨gossip, hgossip, hfrom, hsigned⟩ := State.exists_gossipProof (sortedLT_setIndices _)
    (fun v hv => (hids v hv).1) hagg hphase
  -- whoever has no signature has a proof
  have hleft : ∀ v ∈ phase.remaining, ∃ map proofs, payloads = some map ∧
      map.lookup ⟨v, E.hashData group.data⟩ = some proofs ∧ proofs ≠ [] := by
    intro v hv
    rw [hphase.remaining] at hv
    obtain ⟨hmem, hno⟩ := List.mem_filter.mp (List.mem_toFinset.mp hv)
    rcases hproofs v hmem with hyes | hproof
    · simp [hyes] at hno
    · exact hproof
  -- so the second phase covers everybody whom the first one leaves
  obtain ⟨cover, hcoverrun, hall⟩ := coverRemaining_complete hcover hleft (Nat.lt_succ_self _)
  refine ⟨gossip ++ cover, ?_, ?_, ?_⟩
  · rw [State.proveGroup, toValidatorIndices_eq_ok.mpr ⟨rfl, hvoters⟩, ok_bind, hrun, ok_bind,
      hgossip, ok_bind, hcoverrun, ok_bind, pure_eq_ok]
  · intro p hp
    rcases List.mem_append.mp hp with hp | hp
    · exact ⟨(hfrom p hp).1, Or.inl (hfrom p hp).2⟩
    · obtain ⟨hdata, hbits, -, hstored⟩ := (coverRemaining_covers hcoverrun).forall p hp
      refine ⟨hdata, Or.inr ⟨hbits, ?_⟩⟩
      rw [hdata]
      exact hstored
  · intro v hv
    by_cases hyes : hasGossip gossipSignatures (E.hashData group.data) v = true
    · obtain ⟨p, hp, hvp⟩ := hsigned v (by rw [hphase.ids]; exact List.mem_filter.mpr ⟨hv, hyes⟩)
      exact ⟨p, List.mem_append_left _ hp, hvp⟩
    · obtain ⟨p, hp, hvp⟩ := hall v (by
        rw [hphase.remaining, List.mem_toFinset]
        exact List.mem_filter.mpr ⟨hv, by simpa using hyes⟩)
      exact ⟨p, List.mem_append_right _ hp, hvp⟩

/-- The greedy cover is complete: if every voter has a gossip signature or stored proofs, each
    stored proof covers the validator it is stored for, and aggregation succeeds, then every vote of
    the list is in an attestation that is returned with a proof from gossip or from the cache,
    whatever the sets of remaining validators pick. -/
theorem greedy_cover_complete {attestations : List Attestation}
    (hids : ∀ a ∈ attestations,
      a.validatorId < validatorRegistryLimit ∧ a.validatorId < s.validators.length)
    (hproofs : ∀ a ∈ attestations,
      hasGossip gossipSignatures (E.hashData a.data) a.validatorId = true ∨
        ∃ map proofs, payloads = some map ∧
          map.lookup ⟨a.validatorId, E.hashData a.data⟩ = some proofs ∧ proofs ≠ [])
    (hcover : ProofsCoverKeys payloads)
    (hagg : ∀ data, s.Aggregates E gossipSignatures data (votersFor attestations data))
    (orders : AttestationData → SetOrder) :
    ∃ atts proofs, s.computeAggregatedSignatures E orders attestations gossipSignatures payloads =
        .ok (atts, proofs) ∧
      atts.length = proofs.length ∧
      ∀ a ∈ attestations, ∃ (i : ℕ) (agg : AggregatedAttestation)
        (proof : AggregatedSignatureProof), atts[i]? = some agg ∧ proofs[i]? = some proof ∧
          agg.data = a.data ∧ a.validatorId ∈ AggregationBits.setIndices agg.aggregationBits ∧
          (s.FromGossip E gossipSignatures (agg, proof) ∨ FromCache E payloads (agg, proof)) := by
  obtain ⟨groups, hgroups⟩ := exists_aggregateByData_iff.mpr fun a ha => (hids a ha).1
  obtain ⟨-, hdata, hvoters⟩ := aggregateByData_eq_ok hgroups
  have hvote : ∀ g ∈ groups, ∀ v ∈ AggregationBits.setIndices g.aggregationBits,
      (⟨v, g.data⟩ : Attestation) ∈ attestations :=
    fun g hg v hv => mem_votersFor.mp ((hvoters g hg v).mp hv)
  -- every group is proved, in the order of its own set
  have hgroup : ∀ g ∈ groups, ∃ out,
      s.proveGroup E (orders g.data) gossipSignatures payloads g = .ok out ∧
      (∀ p ∈ out, p.1.data = g.data ∧
        (s.FromGossip E gossipSignatures p ∨ FromCache E payloads p)) ∧
      ∀ v ∈ AggregationBits.setIndices g.aggregationBits,
        ∃ p ∈ out, v ∈ AggregationBits.setIndices p.1.aggregationBits := by
    intro g hg
    obtain ⟨a, ha, heq⟩ := (hdata g.data).mp ⟨g, hg, rfl⟩
    have hne : AggregationBits.setIndices g.aggregationBits ≠ [] := by
      refine List.ne_nil_of_mem ((hvoters g hg a.validatorId).mpr ?_)
      rw [← heq]
      exact mem_votersFor.mpr ha
    refine State.exists_proveGroup hne (fun v hv => hids _ (hvote g hg v hv))
      (fun v hv => hproofs _ (hvote g hg v hv)) hcover ?_
    intro ids sigs hids hsub
    exact hagg g.data ids sigs hids fun v hv => (hvoters g hg v).mp (hsub hv)
  obtain ⟨results, hresults⟩ := exists_mapM_iff.mpr fun g hg =>
    (hgroup g hg).imp fun out hout => hout.1
  refine ⟨results.flatten.map Prod.fst, results.flatten.map Prod.snd, ?_,
    by rw [List.length_map, List.length_map], ?_⟩
  · rw [State.computeAggregatedSignatures, hgroups, ok_bind, hresults, ok_bind,
      List.unzip_eq_map, pure_eq_ok]
  · intro a ha
    -- the vote is in a group, and the group has a proof for it
    obtain ⟨g, hg, heq⟩ := (hdata a.data).mpr ⟨a, ha, rfl⟩
    have hv : a.validatorId ∈ AggregationBits.setIndices g.aggregationBits := by
      rw [hvoters g hg, heq]
      exact mem_votersFor.mpr ha
    obtain ⟨out, hout, hfrom, hall⟩ := hgroup g hg
    obtain ⟨p, hp, hvp⟩ := hall _ hv
    have hmem : p ∈ results.flatten :=
      List.mem_flatten.mpr ⟨out, (mem_mapM_iff hresults).mpr ⟨g, hg, hout⟩, hp⟩
    obtain ⟨i, hi⟩ := List.mem_iff_getElem?.mp hmem
    refine ⟨i, p.1, p.2, ?_, ?_, (hfrom p hp).1.trans heq, hvp, (hfrom p hp).2⟩
    · rw [List.getElem?_map, hi, Option.map_some]
    · rw [List.getElem?_map, hi, Option.map_some]

end Groups

/-- The tabulated environment aggregates as many signatures as there are keys. -/
theorem Env.exists_tabulated_aggregate (t : HashTables) {keys : List PublicKey}
    {sigs : List Signature} (hlen : keys.length = sigs.length) (message : H256) (epoch : ℕ) :
    ∃ proof, AggregatedSignature.aggregate (Env.tabulated t) keys sigs message epoch =
      .ok proof := by
  have hkeys : keys.mapM (PublicKey.asLean (Env.tabulated t)) = .ok keys :=
    mapM_asLean_eq_ok.mpr ⟨fun _ _ => rfl, rfl⟩
  have hsigs : sigs.mapM (Signature.asLean (Env.tabulated t)) = .ok sigs := by
    rw [mapM_eq_ok, List.forall₂_same]
    exact fun _ _ => Signature.asLean_eq_ok.mpr ⟨rfl, rfl⟩
  rw [AggregatedSignature.aggregate, hkeys, ok_bind, hsigs, ok_bind, ensure_of hlen, ok_bind]
  exact ⟨_, rfl⟩

namespace ShortTally

theorem aggregates (data : AttestationData) :
    state1.Aggregates env (some gossip) data (votersFor bothVotes data) := by
  intro ids sigs _ hsub hsigs
  have hreg : ∀ v ∈ ids, v < state1.validators.length := by
    intro v hv
    exact (by decide : ∀ a ∈ bothVotes, a.validatorId < state1.validators.length) _
      (mem_votersFor.mp (hsub hv))
  have hkeys := (mapM_eq_ok.mp (mapM_registered hreg)).length_eq
  exact Env.exists_tabulated_aggregate _ (hkeys.symm.trans hsigs.length_eq) _ _

theorem payloads_cover : ProofsCoverKeys (some payloads) := by
  intro map key proofs proof hmap hlookup hproof
  obtain rfl := Option.some.inj hmap
  rw [payloads, AList.lookup_insert_eq] at hlookup
  split_ifs at hlookup with hkey
  · obtain rfl := hkey
    obtain rfl := Option.some.inj hlookup
    obtain rfl := List.mem_singleton.mp hproof
    decide
  · exact absurd hlookup (by simp)

end ShortTally

/-- A gossip signature of validator 0 and a stored proof for validator 1 cover the votes of both. -/
theorem both_votes_covered :
    ∃ atts proofs, ShortTally.state1.computeAggregatedSignatures ShortTally.env
        (fun _ => SetOrder.increasing) ShortTally.bothVotes (some ShortTally.gossip)
        (some ShortTally.payloads) = .ok (atts, proofs) ∧
      ∀ a ∈ ShortTally.bothVotes, ∃ (i : ℕ) (agg : AggregatedAttestation)
        (proof : AggregatedSignatureProof), atts[i]? = some agg ∧ proofs[i]? = some proof ∧
          agg.data = a.data ∧ a.validatorId ∈ AggregationBits.setIndices agg.aggregationBits := by
  have hids : ∀ a ∈ ShortTally.bothVotes, a.validatorId < validatorRegistryLimit ∧
      a.validatorId < ShortTally.state1.validators.length := by decide
  have hproofs : ∀ a ∈ ShortTally.bothVotes,
      hasGossip (some ShortTally.gossip) (ShortTally.env.hashData a.data) a.validatorId = true ∨
        ∃ map proofs, some ShortTally.payloads = some map ∧
          map.lookup ⟨a.validatorId, ShortTally.env.hashData a.data⟩ = some proofs ∧
            proofs ≠ [] := by
    -- validator 0 has a gossip signature, validator 1 a stored proof
    intro a ha
    rcases List.mem_cons.mp ha with rfl | ha
    · exact Or.inl (by decide +kernel)
    · obtain rfl := List.mem_singleton.mp ha
      exact Or.inr ⟨_, [ShortTally.otherProof], rfl, by decide +kernel, by simp⟩
  obtain ⟨atts, proofs, hrun, -, hall⟩ := greedy_cover_complete hids hproofs
    ShortTally.payloads_cover ShortTally.aggregates fun _ => SetOrder.increasing
  refine ⟨atts, proofs, hrun, fun a ha => ?_⟩
  obtain ⟨i, agg, proof, hagg, hproof, hdata, hbit, -⟩ := hall a ha
  exact ⟨i, agg, proof, hagg, hproof, hdata, hbit⟩

end ConsensusClient
