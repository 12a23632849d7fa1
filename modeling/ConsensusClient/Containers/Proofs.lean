import ConsensusClient.Containers.Aggregation
import ConsensusClient.Containers.BuildBlock
import ConsensusClient.Containers.Verification

/-!
# Proofs of a Built Block

What `compute_aggregated_signatures` returns: for every group of votes at most one aggregate of
gossip signatures, followed by the proofs that the greedy cover takes from earlier blocks. The
two phases are described by relations on the caches, from which follow the shape of a built block
and the exact condition under which a vote ends up in it twice.

## Main results

* `coverRemaining_covers`, `State.proveGroup_eq_ok`: the two phases as relations on the caches
* `built_block_agrees`: the state transition of a built block agrees with its builder
* `computed_data_distinct_iff`: when no vote is proved twice
* `vote_proved_twice`: a signature and a stored proof for one data give two attestations
-/

namespace ConsensusClient

/-! ## Signatures from gossip -/

/-- There is a gossip signature of `v` for the root. -/
def hasGossip (gossipSignatures : Option (HashMap SignatureKey Signature)) (dataRoot : H256)
    (v : ℕ) : Bool :=
  gossipSignatures.any fun sigs => decide ((⟨v, dataRoot⟩ : SignatureKey) ∈ sigs)

/-- What the first phase collects for the validators `group`. -/
structure GossipOf (s : State) (gossipSignatures : Option (HashMap SignatureKey Signature))
    (dataRoot : H256) (group : List ℕ) (phase : GossipPhase) : Prop where
  ids : phase.ids = group.filter fun v => hasGossip gossipSignatures dataRoot v
  remaining : phase.remaining =
    (group.filter fun v => !hasGossip gossipSignatures dataRoot v).toFinset
  keys : phase.keys = registeredKeys s.validators phase.ids
  registered : ∀ v ∈ phase.ids, v < s.validators.length
  sigs : List.Forall₂ (fun v sig => ∃ sigs, gossipSignatures = some sigs ∧
    sigs.lookup ⟨v, dataRoot⟩ = some sig) phase.ids phase.sigs

section Gossip

variable {E : Env} {s : State} {gossipSignatures : Option (HashMap SignatureKey Signature)}
  {sigs : HashMap SignatureKey Signature} {dataRoot : H256} {ids : List ℕ} {v : ℕ}
  {phase phase' : GossipPhase}

/-- One round of the first phase. -/
theorem GossipOf.collectGossip (h : GossipOf s (some sigs) dataRoot ids phase)
    (hv : s.collectGossip sigs dataRoot phase v = .ok phase') :
    GossipOf s (some sigs) dataRoot (ids ++ [v]) phase' := by
  unfold State.collectGossip at hv
  cases hlookup : sigs.lookup ⟨v, dataRoot⟩ with
  | some sig =>
    have hgossip : hasGossip (some sigs) dataRoot v = true := by
      simpa [hasGossip] using AList.lookup_isSome.mp (by simp [hlookup])
    rw [hlookup] at hv
    obtain ⟨key, hkey, hv⟩ := bind_eq_ok.mp hv
    obtain rfl := Except.ok.inj hv
    have hkey := okOr_eq_ok.mp hkey
    obtain ⟨validator, hget, rfl⟩ := Option.map_eq_some_iff.mp hkey
    -- the signature is collected with the key from the registry
    refine ⟨?_, ?_, ?_, ?_, ?_⟩
    · simp [h.ids, hgossip]
    · simp [h.remaining, hgossip]
    · simp [h.keys, registeredKeys, hget]
    · intro u hu
      rcases List.mem_append.mp hu with hu | hu
      · exact h.registered u hu
      · obtain rfl := List.mem_singleton.mp hu
        exact (List.getElem?_eq_some_iff.mp hget).1
    · exact List.rel_append h.sigs (List.Forall₂.cons ⟨sigs, rfl, hlookup⟩ List.Forall₂.nil)
  | none =>
    have hgossip : hasGossip (some sigs) dataRoot v = false := by
      simpa [hasGossip] using AList.lookup_eq_none.mp hlookup
    rw [hlookup] at hv
    obtain rfl := Except.ok.inj hv
    -- the validator is left for the cached proofs
    refine ⟨?_, ?_, h.keys, h.registered, h.sigs⟩
    · simp [h.ids, hgossip]
    · ext u
      simp [h.remaining, hgossip]

theorem GossipOf.foldlM {done : List ℕ} (h : GossipOf s (some sigs) dataRoot done phase)
    (hrun : ids.foldlM (s.collectGossip sigs dataRoot) phase = .ok phase') :
    GossipOf s (some sigs) dataRoot (done ++ ids) phase' := by
  induction ids generalizing done phase with
  | nil =>
    obtain rfl := Except.ok.inj hrun
    simpa using h
  | cons v ids ih =>
    rw [List.foldlM_cons] at hrun
    obtain ⟨phase₁, h₁, hrun⟩ := bind_eq_ok.mp hrun
    rw [show done ++ v :: ids = (done ++ [v]) ++ ids by simp]
    exact ih (h.collectGossip h₁) hrun

/-- The first phase. -/
theorem State.gossipPhase_eq_ok (h : s.gossipPhase gossipSignatures dataRoot ids = .ok phase) :
    GossipOf s gossipSignatures dataRoot ids phase := by
  unfold State.gossipPhase at h
  cases gossipSignatures with
  | some sigs =>
    have hnil : GossipOf s (some sigs) dataRoot [] ⟨[], [], [], ∅⟩ :=
      ⟨rfl, rfl, rfl, by simp, List.Forall₂.nil⟩
    simpa using hnil.foldlM h
  | none =>
    obtain rfl := Except.ok.inj h
    exact ⟨by simp [hasGossip], by simp [hasGossip], rfl, by simp, List.Forall₂.nil⟩

/-- The aggregate of the signatures collected, if there are any. -/
theorem gossipProof_eq_ok {data : AttestationData} {out : List ProvedAttestation}
    (h : gossipProof E data phase = .ok out) :
    phase.ids = [] ∧ out = [] ∨
      ∃ bits proof, phase.ids ≠ [] ∧ AggregationBits.fromValidatorIndices phase.ids = .ok bits ∧
        AggregatedSignature.aggregate E phase.keys phase.sigs (E.hashData data)
          (epochOf data.slot) = .ok proof ∧ out = [(⟨bits, data⟩, ⟨bits, proof⟩)] := by
  unfold gossipProof at h
  split_ifs at h with hids
  · exact Or.inl ⟨hids, (Except.ok.inj h).symm⟩
  · obtain ⟨bits, hbits, h⟩ := bind_eq_ok.mp h
    obtain ⟨proof, hproof, h⟩ := bind_eq_ok.mp h
    obtain ⟨proofData, hdata, hproof⟩ := bind_eq_ok.mp hproof
    obtain rfl := Except.ok.inj hproof
    exact Or.inr ⟨bits, proofData, hids, hbits, hdata, (Except.ok.inj h).symm⟩

end Gossip

/-! ## The greedy cover -/

/-- The proof that a round of the greedy cover takes, with the remaining validators it covers. -/
def pickProof (E : Env) (order : SetOrder)
    (payloads : Option (HashMap SignatureKey (List AggregatedSignatureProof)))
    (data : AttestationData) (remaining : Finset ℕ) :
    Option (AggregatedSignatureProof × Finset ℕ) := do
  let map ← payloads
  let targetId ← (order remaining).val.head?
  let candidates ← map.lookup ⟨targetId, E.hashData data⟩
  let best ← maxByKey (fun c => c.2.card) (candidates.map fun p =>
    (p, remaining ∩ (AggregationBits.setIndices p.participants).toFinset))
  if best.2 = ∅ then none else some best

/-- The runs of the greedy cover. -/
inductive Covers (E : Env) (order : SetOrder)
    (payloads : Option (HashMap SignatureKey (List AggregatedSignatureProof)))
    (data : AttestationData) : Finset ℕ → List ProvedAttestation → Prop
  /-- No proof covers anybody new. -/
  | stop {remaining : Finset ℕ} (h : pickProof E order payloads data remaining = none) :
      Covers E order payloads data remaining []
  /-- The proof is taken, with its own participants as the bits of the attestation. -/
  | take {remaining : Finset ℕ} {best : AggregatedSignatureProof × Finset ℕ}
      {bits : AggregationBits} {out : List ProvedAttestation}
      (h : pickProof E order payloads data remaining = some best)
      (hbits : AggregationBits.fromValidatorIndices
        (AggregationBits.setIndices best.1.participants) = .ok bits)
      (rest : Covers E order payloads data (remaining \ best.2) out) :
      Covers E order payloads data remaining ((⟨bits, data⟩, best.1) :: out)

section Cover

variable {E : Env} {order : SetOrder}
  {payloads : Option (HashMap SignatureKey (List AggregatedSignatureProof))}
  {data : AttestationData} {remaining : Finset ℕ} {out : List ProvedAttestation}

theorem mem_of_maxByKey {α : Type} {key : α → ℕ} {xs : List α} {x : α}
    (h : maxByKey key xs = some x) : x ∈ xs := by
  cases xs with
  | nil => exact absurd h (by simp [maxByKey])
  | cons y ys =>
    -- every round keeps the best element so far or takes the present one
    have hfold : ∀ (ys : List α) (b : α),
        ys.foldl (fun best y => if key y < key best then best else y) b ∈ b :: ys := by
      intro ys
      induction ys with
      | nil => simp
      | cons z zs ih =>
        intro b
        rw [List.foldl_cons]
        have hmem := ih (if key z < key b then b else z)
        rcases List.mem_cons.mp hmem with heq | hmem
        · rw [heq]
          split_ifs <;> simp
        · simp [hmem]
    obtain rfl := Option.some.inj h
    exact hfold ys y

theorem coverage_eq_ok {proof : AggregatedSignatureProof}
    {c : AggregatedSignatureProof × Finset ℕ} (h : coverage remaining proof = .ok c) :
    c = (proof, remaining ∩ (AggregationBits.setIndices proof.participants).toFinset) := by
  obtain ⟨ids, hids, h⟩ := bind_eq_ok.mp h
  obtain ⟨rfl, -⟩ := toValidatorIndices_eq_ok.mp hids
  exact (Except.ok.inj h).symm

/-- Each candidate is computed with the remaining validators it covers. -/
theorem mapM_coverage_eq_ok {candidates : List AggregatedSignatureProof}
    {covered : List (AggregatedSignatureProof × Finset ℕ)}
    (h : candidates.mapM (coverage remaining) = .ok covered) :
    candidates.map (fun p =>
      (p, remaining ∩ (AggregationBits.setIndices p.participants).toFinset)) = covered := by
  rw [← List.forall₂_eq_eq_eq, List.forall₂_map_left_iff]
  exact (mapM_eq_ok.mp h).imp fun p c hc => (coverage_eq_ok hc).symm

/-- One round of the greedy cover stops, or takes a proof and goes on. -/
theorem coverRemaining_succ {fuel : ℕ}
    (h : coverRemaining E order payloads data (fuel + 1) remaining = .ok out) :
    pickProof E order payloads data remaining = none ∧ out = [] ∨
      ∃ best bits rest, pickProof E order payloads data remaining = some best ∧
        AggregationBits.fromValidatorIndices
          (AggregationBits.setIndices best.1.participants) = .ok bits ∧
        coverRemaining E order payloads data fuel (remaining \ best.2) = .ok rest ∧
        out = (⟨bits, data⟩, best.1) :: rest := by
  unfold coverRemaining at h
  -- the loop is left where there is no cache, no validator, no proof of him or nothing covered
  cases payloads with
  | none => exact Or.inl ⟨rfl, (Except.ok.inj h).symm⟩
  | some map =>
    simp only at h
    cases htarget : (order remaining).val.head? with
    | none =>
      rw [htarget] at h
      exact Or.inl ⟨by simp [pickProof, htarget], (Except.ok.inj h).symm⟩
    | some targetId =>
      rw [htarget] at h
      cases hlookup : map.lookup ⟨targetId, E.hashData data⟩ with
      | none =>
        simp only [hlookup] at h
        exact Or.inl ⟨by simp [pickProof, htarget, hlookup], (Except.ok.inj h).symm⟩
      | some candidates =>
        simp only [hlookup] at h
        split_ifs at h with hempty
        · exact Or.inl ⟨by simp [pickProof, htarget, hlookup, hempty, maxByKey],
            (Except.ok.inj h).symm⟩
        · obtain ⟨covered, hcovered, h⟩ := bind_eq_ok.mp h
          obtain rfl := mapM_coverage_eq_ok hcovered
          obtain ⟨best, hbest, h⟩ := bind_eq_ok.mp h
          have hbest := okOr_eq_ok.mp hbest
          split_ifs at h with hnone
          · exact Or.inl ⟨by simp [pickProof, htarget, hlookup, hbest, hnone],
              (Except.ok.inj h).symm⟩
          · -- the proof is taken, and the loop goes on without those it covers
            obtain ⟨ids, hids, h⟩ := bind_eq_ok.mp h
            obtain ⟨rfl, -⟩ := toValidatorIndices_eq_ok.mp hids
            obtain ⟨bits, hbits, h⟩ := bind_eq_ok.mp h
            obtain ⟨rest, hrest, h⟩ := bind_eq_ok.mp h
            exact Or.inr ⟨best, bits, rest, by simp [pickProof, htarget, hlookup, hbest, hnone],
              hbits, hrest, (Except.ok.inj h).symm⟩

/-- The second phase is a run of the greedy cover. -/
theorem coverRemaining_covers {fuel : ℕ}
    (h : coverRemaining E order payloads data fuel remaining = .ok out) :
    Covers E order payloads data remaining out := by
  induction fuel generalizing remaining out with
  | zero => exact absurd h (by simp [coverRemaining])
  | succ fuel ih =>
    rcases coverRemaining_succ h with ⟨hpick, rfl⟩ | ⟨best, bits, rest, hpick, hbits, hrest, rfl⟩
    · exact .stop hpick
    · exact .take hpick hbits (ih hrest)

/-- A proof that is taken is stored for one of the remaining validators. -/
theorem stored_of_pickProof {best : AggregatedSignatureProof × Finset ℕ}
    (h : pickProof E order payloads data remaining = some best) :
    ∃ map v candidates, payloads = some map ∧ map.lookup ⟨v, E.hashData data⟩ = some candidates ∧
      best.1 ∈ candidates := by
  unfold pickProof at h
  simp only [Option.bind_eq_bind, Option.bind_eq_some_iff] at h
  obtain ⟨map, rfl, targetId, -, candidates, hlookup, best', hbest, h⟩ := h
  split_ifs at h
  obtain rfl := Option.some.inj h
  obtain ⟨p, hp, rfl⟩ := List.mem_map.mp (mem_of_maxByKey hbest)
  exact ⟨map, targetId, candidates, rfl, hlookup, hp⟩

/-- Every attestation of the cover has the data of the group, and the participants of its proof as
    its set bits. -/
theorem Covers.forall (h : Covers E order payloads data remaining out) :
    ∀ p ∈ out, p.1.data = data ∧
      AggregationBits.setIndices p.1.aggregationBits =
        AggregationBits.setIndices p.2.participants ∧
      AggregationBits.setIndices p.2.participants ≠ [] ∧
      ∃ map v candidates, payloads = some map ∧
        map.lookup ⟨v, E.hashData data⟩ = some candidates ∧ p.2 ∈ candidates := by
  induction h with
  | stop => simp
  | take hpick hbits rest ih =>
    rw [List.forall_mem_cons]
    refine ⟨⟨rfl, ?_, ?_, stored_of_pickProof hpick⟩, ih⟩
    · exact setIndices_fromValidatorIndices (sortedLT_setIndices _) hbits
    · exact (fromValidatorIndices_eq_ok.mp hbits).1

/-- The cover is empty exactly when its first round takes no proof. -/
theorem Covers.eq_nil_iff (h : Covers E order payloads data remaining out) :
    out = [] ↔ pickProof E order payloads data remaining = none := by
  cases h with
  | stop hpick => simp [hpick]
  | take hpick => simp [hpick]

end Cover

/-! ## All groups -/

section Groups

variable {E : Env} {order : SetOrder} {orders : AttestationData → SetOrder} {s : State}
  {gossipSignatures : Option (HashMap SignatureKey Signature)}
  {payloads : Option (HashMap SignatureKey (List AggregatedSignatureProof))}
  {group : AggregatedAttestation} {attestations : List Attestation}

/-- For one group there is the aggregate from gossip, and then the cover. -/
theorem State.proveGroup_eq_ok {out : List ProvedAttestation}
    (h : s.proveGroup E order gossipSignatures payloads group = .ok out) :
    ∃ phase gossip covered, GossipOf s gossipSignatures (E.hashData group.data)
        (AggregationBits.setIndices group.aggregationBits) phase ∧
      gossipProof E group.data phase = .ok gossip ∧
      Covers E order payloads group.data phase.remaining covered ∧ out = gossip ++ covered := by
  obtain ⟨ids, hids, h⟩ := bind_eq_ok.mp h
  obtain ⟨rfl, -⟩ := toValidatorIndices_eq_ok.mp hids
  obtain ⟨phase, hphase, h⟩ := bind_eq_ok.mp h
  obtain ⟨gossip, hgossip, h⟩ := bind_eq_ok.mp h
  obtain ⟨covered, hcovered, h⟩ := bind_eq_ok.mp h
  exact ⟨phase, gossip, covered, State.gossipPhase_eq_ok hphase, hgossip,
    coverRemaining_covers hcovered, (Except.ok.inj h).symm⟩

/-- The attestations and proofs are those of the groups, one group after the other. -/
theorem State.computeAggregatedSignatures_eq_ok
    {result : List AggregatedAttestation × List AggregatedSignatureProof}
    (h : s.computeAggregatedSignatures E orders attestations gossipSignatures payloads =
      .ok result) :
    ∃ groups results, aggregateByData attestations = .ok groups ∧
      List.Forall₂ (fun group out =>
        s.proveGroup E (orders group.data) gossipSignatures payloads group = .ok out)
        groups results ∧ result = results.flatten.unzip := by
  obtain ⟨groups, hgroups, h⟩ := bind_eq_ok.mp h
  obtain ⟨results, hresults, h⟩ := bind_eq_ok.mp h
  exact ⟨groups, results, hgroups, mapM_eq_ok.mp hresults, (Except.ok.inj h).symm⟩

/-- What is proved for a group is proved for its data, with the participants of the proof as set
    bits. -/
theorem State.proveGroup_forall {out : List ProvedAttestation}
    (h : s.proveGroup E order gossipSignatures payloads group = .ok out) :
    ∀ p ∈ out, p.1.data = group.data ∧
      AggregationBits.setIndices p.1.aggregationBits =
        AggregationBits.setIndices p.2.participants ∧
      AggregationBits.setIndices p.2.participants ≠ [] := by
  obtain ⟨phase, gossip, covered, -, hgossip, hcovered, rfl⟩ := State.proveGroup_eq_ok h
  intro p hp
  rcases List.mem_append.mp hp with hp | hp
  · rcases gossipProof_eq_ok hgossip with ⟨-, rfl⟩ | ⟨bits, proof, hne, hbits, -, rfl⟩
    · exact absurd hp (by simp)
    · obtain rfl := List.mem_singleton.mp hp
      refine ⟨rfl, rfl, ?_⟩
      -- the bits are those of the validators with a signature
      obtain ⟨v, hv⟩ := List.exists_mem_of_ne_nil _ hne
      exact List.ne_nil_of_mem ((mem_setIndices_fromValidatorIndices hbits).mpr hv)
  · obtain ⟨hdata, hbits, hne, -⟩ := hcovered.forall p hp
    exact ⟨hdata, hbits, hne⟩

end Groups

/-! ## The built block -/

namespace ShortTally

/-- The arguments of `build_block` for the block at slot 2. -/
def buildArgs (pool : List Attestation) (gossip : HashMap SignatureKey Signature)
    (payloads : HashMap SignatureKey (List AggregatedSignatureProof)) : BuildArgs where
  slot := 2
  proposerIndex := 0
  parentRoot := 2
  availableAttestations := some pool
  knownBlockRoots := some [2]
  gossipSignatures := some gossip
  aggregatedPayloads := some payloads

/-- The gossip signature of validator 0. -/
def gossip : HashMap SignatureKey Signature :=
  AList.insert ⟨0, env.hashData bodyVote⟩ (toySignature 7 1 (env.hashData bodyVote)) ∅

/-- A proof for the vote of validator 1. -/
def otherProof : AggregatedSignatureProof where
  participants := [false, true]
  proofData := Nat.pair (toySignature 8 1 (env.hashData bodyVote)) 0

/-- The proof as an earlier block has left it. -/
def payloads : HashMap SignatureKey (List AggregatedSignatureProof) :=
  AList.insert ⟨1, env.hashData bodyVote⟩ [otherProof] ∅

/-- The block with the vote of validator 0. -/
def built : BuiltBlock where
  block := (Sample.block 2 2 2 3 votes2).block
  post := state2
  attestations := votes2
  proofs := [bodyProof]

theorem buildBlock_eq :
    state1.buildBlock env (fun _ => .increasing) (buildArgs [⟨0, bodyVote⟩] gossip ∅) none =
      .ok built := by
  decide +kernel

end ShortTally

section Built

variable {E : Env} {orders : AttestationData → SetOrder} {s : State} {args : BuildArgs}
  {initial : Option (List Attestation)} {built : BuiltBlock}

/-- An accepted candidate has passed the check of its proposer and the duplicate check. -/
theorem State.applyCandidate_checks {atts : List AggregatedAttestation} {post : State}
    (h : s.applyCandidate E args atts = .ok post) :
    s.validators.length ≠ 0 ∧ args.slot % s.validators.length = args.proposerIndex ∧
      hasDuplicateData E atts = false := by
  obtain ⟨advanced, headed, hadvanced, hheaded, hdup, -⟩ := State.applyCandidate_eq_ok h
  obtain ⟨-, header, -, rfl⟩ := State.processSlots_frame hadvanced
  obtain ⟨-, -, -, hn, hproposer, -⟩ := State.processBlockHeader_eq_ok hheaded
  exact ⟨hn, hproposer, hdup⟩

/-- Proofs and attestations of a computed pair of lists belong together. -/
theorem State.computeAggregatedSignatures_forall₂ {attestations : List Attestation}
    {gossipSignatures : Option (HashMap SignatureKey Signature)}
    {payloads : Option (HashMap SignatureKey (List AggregatedSignatureProof))}
    {atts : List AggregatedAttestation} {proofs : List AggregatedSignatureProof}
    (h : s.computeAggregatedSignatures E orders attestations gossipSignatures payloads =
      .ok (atts, proofs)) {R : AggregatedAttestation → AggregatedSignatureProof → Prop}
    (hR : ∀ (order : SetOrder) group out,
      s.proveGroup E order gossipSignatures payloads group = .ok out →
      ∀ p ∈ out, R p.1 p.2) : List.Forall₂ R atts proofs := by
  obtain ⟨groups, results, -, hresults, heq⟩ := State.computeAggregatedSignatures_eq_ok h
  rw [List.unzip_eq_map, Prod.mk.injEq] at heq
  rw [heq.1, heq.2, List.forall₂_map_left_iff, List.forall₂_map_right_iff, List.forall₂_same]
  intro p hp
  obtain ⟨out, hout, hp⟩ := List.mem_flatten.mp hp
  -- the list was computed for one of the groups
  obtain ⟨i, hi, rfl⟩ := List.getElem_of_mem hout
  obtain ⟨hlen, hget⟩ := List.forall₂_iff_get.mp hresults
  exact hR _ _ _ (hget i (hlen ▸ hi) hi) p hp

/-- The state transition of every signed block with a built block agrees with its builder: it
    accepts the block and computes the same post-state. The attestations of the block are the ones
    returned, no data occurs twice, and each has the proof of its own participants. -/
theorem built_block_agrees (h : s.buildBlock E orders args initial = .ok built) :
    (∀ sb : SignedBlockWithAttestation, sb.block = built.block →
      s.stateTransition E sb true = .ok built.post) ∧
    built.block.body.attestations = built.attestations ∧
    (built.attestations.map fun a => a.data).Nodup ∧
    built.attestations.length = built.proofs.length ∧
    ∀ (i : ℕ) (a : AggregatedAttestation) (proof : AggregatedSignatureProof),
      built.attestations[i]? = some a → built.proofs[i]? = some proof →
      ∃ ids, AggregationBits.toValidatorIndices a.aggregationBits = .ok ids ∧
        proof.getParticipantIndices = .ok ids := by
  obtain ⟨collected, -, hproofs, hpost, hblock⟩ := State.buildBlock_eq_ok h
  have hbody : built.block.body.attestations = built.attestations := by rw [hblock]; rfl
  have hpairs : List.Forall₂ (fun a proof => AggregationBits.setIndices a.aggregationBits =
      AggregationBits.setIndices proof.participants ∧
        AggregationBits.setIndices proof.participants ≠ []) built.attestations built.proofs :=
    State.computeAggregatedSignatures_forall₂ hproofs
      fun _ group out hout p hp => (State.proveGroup_forall hout p hp).2
  refine ⟨fun sb hsb => State.buildBlock_transition h hsb, hbody, ?_, hpairs.length_eq, ?_⟩
  · -- the duplicate check compares hashes, and equal data has equal hashes
    obtain ⟨-, -, hdup⟩ := State.applyCandidate_checks hpost
    refine List.Nodup.of_map E.hashData ?_
    rw [List.map_map]
    exact (hasDuplicateRoot_eq_false.mp hdup).1
  · intro i a proof ha hproof
    obtain ⟨hi, rfl⟩ := List.getElem?_eq_some_iff.mp ha
    obtain ⟨hi', rfl⟩ := List.getElem?_eq_some_iff.mp hproof
    obtain ⟨hbits, hne⟩ := (List.forall₂_iff_get.mp hpairs).2 i hi hi'
    exact ⟨_, toValidatorIndices_eq_ok.mpr ⟨hbits.symm, hne⟩,
      toValidatorIndices_eq_ok.mpr ⟨rfl, hne⟩⟩

end Built

/-- The block that the builder makes of the vote of validator 0 is the one at slot 2. -/
theorem built_block_of_slot_two :
    (∀ sb : SignedBlockWithAttestation, sb.block = ShortTally.built.block →
      ShortTally.state1.stateTransition ShortTally.env sb true = .ok ShortTally.state2) ∧
    ShortTally.built.block.body.attestations = ShortTally.votes2 ∧
    (ShortTally.votes2.map fun a => a.data).Nodup ∧
    ShortTally.votes2.length = [ShortTally.bodyProof].length ∧
    ∀ (i : ℕ) (a : AggregatedAttestation) (proof : AggregatedSignatureProof),
      ShortTally.votes2[i]? = some a → [ShortTally.bodyProof][i]? = some proof →
      ∃ ids, AggregationBits.toValidatorIndices a.aggregationBits = .ok ids ∧
        proof.getParticipantIndices = .ok ids :=
  built_block_agrees ShortTally.buildBlock_eq

/-! ## One proof for each vote -/

/-- One proof is all that the caches give for a vote of `voters`. Where nobody has a gossip
    signature, a second round of the greedy cover takes no proof; otherwise the first does not. -/
def OneProof (E : Env) (order : SetOrder)
    (gossipSignatures : Option (HashMap SignatureKey Signature))
    (payloads : Option (HashMap SignatureKey (List AggregatedSignatureProof)))
    (data : AttestationData) (voters : Finset ℕ) : Prop :=
  if ∀ v ∈ voters, hasGossip gossipSignatures (E.hashData data) v = false then
    ∀ best, pickProof E order payloads data voters = some best →
      pickProof E order payloads data (voters \ best.2) = none
  else
    pickProof E order payloads data
      (voters.filter fun v => hasGossip gossipSignatures (E.hashData data) v = false) = none

section OneProof

variable {E : Env} {order : SetOrder} {orders : AttestationData → SetOrder} {s : State}
  {gossipSignatures : Option (HashMap SignatureKey Signature)}
  {payloads : Option (HashMap SignatureKey (List AggregatedSignatureProof))}
  {attestations : List Attestation}

/-- The greedy cover takes at most one proof. -/
theorem Covers.length_le_one_iff {data : AttestationData} {remaining : Finset ℕ}
    {out : List ProvedAttestation} (h : Covers E order payloads data remaining out) :
    out.length ≤ 1 ↔ ∀ best, pickProof E order payloads data remaining = some best →
      pickProof E order payloads data (remaining \ best.2) = none := by
  cases h with
  | stop hpick => simp [hpick]
  | take hpick hbits rest =>
    simp only [hpick, List.length_cons, Option.some.injEq, forall_eq']
    rw [← rest.eq_nil_iff]
    simp

/-- The proofs of a group are at most one under the condition on the caches. -/
theorem State.proveGroup_length_le_one_iff {group : AggregatedAttestation}
    {out : List ProvedAttestation}
    (h : s.proveGroup E order gossipSignatures payloads group = .ok out) :
    out.length ≤ 1 ↔ OneProof E order gossipSignatures payloads group.data
      (AggregationBits.setIndices group.aggregationBits).toFinset := by
  obtain ⟨phase, gossip, covered, hphase, hgossip, hcovered, rfl⟩ := State.proveGroup_eq_ok h
  have hremaining : phase.remaining =
      (AggregationBits.setIndices group.aggregationBits).toFinset.filter
        fun v => hasGossip gossipSignatures (E.hashData group.data) v = false := by
    rw [hphase.remaining]
    ext v
    simp
  have hnone : phase.ids = [] ↔
      ∀ v ∈ (AggregationBits.setIndices group.aggregationBits).toFinset,
        hasGossip gossipSignatures (E.hashData group.data) v = false := by
    rw [hphase.ids]
    simp
  unfold OneProof
  rcases gossipProof_eq_ok hgossip with ⟨hids, rfl⟩ | ⟨bits, proof, hids, -, -, rfl⟩
  · -- no aggregate: the cover is all there is
    have hall := hnone.mp hids
    rw [if_pos hall, List.nil_append, hcovered.length_le_one_iff, hremaining,
      Finset.filter_true_of_mem hall]
  · -- the aggregate is the only one exactly when the cover is empty
    rw [if_neg (fun hall => hids (hnone.mpr hall)), ← hremaining, ← hcovered.eq_nil_iff]
    simp

/-- A list that runs through groups with different data repeats no data exactly when it has at
    most one element of each group. -/
theorem nodup_flatten_iff {groups : List AggregatedAttestation}
    {results : List (List ProvedAttestation)} (hnodup : (groups.map fun g => g.data).Nodup)
    (hall : List.Forall₂ (fun g out => ∀ p ∈ out, p.1.data = g.data) groups results) :
    (results.flatten.map fun p => p.1.data).Nodup ↔ ∀ out ∈ results, out.length ≤ 1 := by
  induction hall with
  | nil => simp
  | @cons g out groups results hout hrest ih =>
    rw [List.map_cons, List.nodup_cons] at hnodup
    have hrep : (out.map fun p => p.1.data) = List.replicate out.length g.data := by
      rw [List.eq_replicate_iff, List.forall_mem_map]
      exact ⟨List.length_map _, hout⟩
    -- the data of the other groups is that of their lists
    have hother : ∀ d ∈ (results.flatten.map fun p => p.1.data),
        d ∈ groups.map fun g => g.data := by
      intro d hd
      obtain ⟨p, hp, rfl⟩ := List.mem_map.mp hd
      obtain ⟨l, hl, hp⟩ := List.mem_flatten.mp hp
      obtain ⟨i, hi, rfl⟩ := List.getElem_of_mem hl
      obtain ⟨hlen, hget⟩ := List.forall₂_iff_get.mp hrest
      rw [hget i (hlen ▸ hi) hi p hp]
      exact List.mem_map_of_mem (List.getElem_mem _)
    rw [List.flatten_cons, List.map_append, List.nodup_append, ih hnodup.2, hrep,
      List.nodup_replicate, List.forall_mem_cons]
    constructor
    · rintro ⟨h₁, h₂, -⟩
      exact ⟨h₁, h₂⟩
    · rintro ⟨h₁, h₂⟩
      refine ⟨h₁, h₂, ?_⟩
      intro d hd e he heq
      obtain rfl := List.eq_of_mem_replicate hd
      exact hnodup.1 (hother _ (heq ▸ he))

/-- The attestations that `compute_aggregated_signatures` returns have pairwise distinct data, and
    pass the duplicate check of `process_block`, exactly when the caches give one proof for each
    vote. -/
theorem computed_data_distinct_iff {atts : List AggregatedAttestation}
    {proofs : List AggregatedSignatureProof} (hinj : Function.Injective E.hashData)
    (h : s.computeAggregatedSignatures E orders attestations gossipSignatures payloads =
      .ok (atts, proofs)) :
    ((atts.map fun a => a.data).Nodup ↔ ∀ a ∈ attestations,
      OneProof E (orders a.data) gossipSignatures payloads a.data
        (votersFor attestations a.data).toFinset) ∧
    (hasDuplicateData E atts = false ↔ ∀ a ∈ attestations,
      OneProof E (orders a.data) gossipSignatures payloads a.data
        (votersFor attestations a.data).toFinset) := by
  obtain ⟨groups, results, hgroups, hresults, heq⟩ := State.computeAggregatedSignatures_eq_ok h
  obtain ⟨hnodup, hmem, hvoters⟩ := aggregateByData_eq_ok hgroups
  rw [List.unzip_eq_map, Prod.mk.injEq] at heq
  have hvoters : ∀ g ∈ groups, (AggregationBits.setIndices g.aggregationBits).toFinset =
      (votersFor attestations g.data).toFinset := by
    intro g hg
    ext v
    simpa using hvoters g hg v
  have hdistinct : (atts.map fun a => a.data).Nodup ↔ ∀ a ∈ attestations,
      OneProof E (orders a.data) gossipSignatures payloads a.data
        (votersFor attestations a.data).toFinset := by
    rw [heq.1, List.map_map]
    -- the groups have different data, so a repetition is two proofs of one group
    refine (nodup_flatten_iff hnodup (hresults.imp fun g out hout p hp =>
      (State.proveGroup_forall hout p hp).1)).trans ?_
    -- the groups and their results stand in the same order
    obtain ⟨hlen, hget⟩ := List.forall₂_iff_get.mp hresults
    constructor
    · intro hone a ha
      obtain ⟨g, hg, hdata⟩ := (hmem a.data).mpr ⟨a, ha, rfl⟩
      obtain ⟨i, hi, rfl⟩ := List.getElem_of_mem hg
      rw [← hdata, ← hvoters _ hg]
      exact (State.proveGroup_length_le_one_iff (hget i hi (hlen ▸ hi))).mp
        (hone _ (List.getElem_mem _))
    · intro hone out hout
      obtain ⟨i, hi, rfl⟩ := List.getElem_of_mem hout
      have hg : groups.get ⟨i, hlen ▸ hi⟩ ∈ groups := List.get_mem _ _
      obtain ⟨a, ha, hdata⟩ := (hmem _).mp ⟨_, hg, rfl⟩
      apply (State.proveGroup_length_le_one_iff (hget i (hlen ▸ hi) hi)).mpr
      rw [hvoters _ hg, ← hdata]
      exact hone a ha
  exact ⟨hdistinct, (hasDuplicateData_eq_false hinj).trans hdistinct⟩

end OneProof

namespace ShortTally

/-- The vote of both validators. -/
def bothVotes : List Attestation := [⟨0, bodyVote⟩, ⟨1, bodyVote⟩]

/-- A proof for the votes of both validators. -/
def bothProof : AggregatedSignatureProof where
  participants := [true, true]
  proofData := Nat.pair (toySignature 7 1 (env.hashData bodyVote))
    (Nat.pair (toySignature 8 1 (env.hashData bodyVote)) 0)

/-- Two proofs are stored for the vote of validator 0. -/
def sharedPayloads : HashMap SignatureKey (List AggregatedSignatureProof) :=
  AList.insert ⟨0, env.hashData bodyVote⟩ [bodyProof, bothProof] ∅

/-- The greedy cover takes the proof that covers both validators. -/
theorem compute_eq :
    state1.computeAggregatedSignatures env (fun _ => .increasing) bothVotes (some ∅)
      (some sharedPayloads) = .ok ([⟨[true, true], bodyVote⟩], [bothProof]) := by
  decide +kernel

end ShortTally

/-- Without a gossip signature, the votes of both validators get one proof from the cache. -/
theorem vote_of_slot_two_proved_once :
    hasDuplicateData ShortTally.env [⟨[true, true], ShortTally.bodyVote⟩] = false ∧
      ∀ a ∈ ShortTally.bothVotes, OneProof ShortTally.env SetOrder.increasing (some ∅)
        (some ShortTally.sharedPayloads) a.data
        (votersFor ShortTally.bothVotes a.data).toFinset := by
  have hiff := computed_data_distinct_iff (Env.tabulated_hashIdeal _).data_injective
    ShortTally.compute_eq
  have hone := hiff.1.mp (by simp)
  exact ⟨hiff.2.mpr hone, hone⟩

/-- A gossip signature of validator 0 and a stored proof for validator 1 give two attestations
    with the same data, and building the block fails. -/
theorem vote_proved_twice :
    (ShortTally.state1.computeAggregatedSignatures ShortTally.env
        (fun _ => .increasing) ShortTally.bothVotes (some ShortTally.gossip)
        (some ShortTally.payloads)).map (fun r => r.1.map fun a => a.data) =
          .ok [ShortTally.bodyVote, ShortTally.bodyVote] ∧
      ShortTally.state1.buildBlock ShortTally.env (fun _ => .increasing)
        (ShortTally.buildArgs ShortTally.bothVotes ShortTally.gossip ShortTally.payloads) none =
          .error (.err "block contains duplicate attestation data") := by
  decide +kernel

end ConsensusClient
