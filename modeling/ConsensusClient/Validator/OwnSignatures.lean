import ConsensusClient.Containers.Proofs
import ConsensusClient.ForkChoice.ProofCache
import ConsensusClient.Validator.Service

/-!
# The Signatures of an Own Block

A builder and a verifier compute keys, messages, epochs and participants on their own. This
module shows that they agree: if the caches hold valid signatures and proofs, a block that is
built on a state and signed by its proposer passes verification against this state.

## Main results

* `State.proveGroup_verifies`: everything that is proved for a group of votes verifies
* `own_block_verifies`: so does the block, once its proposer has signed it
-/

namespace ConsensusClient

/-! ## What the signatures rely on -/

/-- Aggregating valid signatures gives a proof that is accepted for the same keys. -/
def Env.AggregatesValid (E : Env) : Prop :=
  ∀ keys sigs message epoch proof,
    List.Forall₂ (fun key sig => Signature.verify E sig key epoch message = .ok ()) keys sigs →
    AggregatedSignature.aggregate E keys sigs message epoch = .ok proof →
    AggregatedSignature.verify E proof keys message epoch = .ok ()

/-- What is signed with `secret` is accepted under `pubkey`. -/
def Env.KeyPair (E : Env) (secret : SecretKey) (pubkey : PublicKey) : Prop :=
  ∀ message epoch sig, SecretKey.sign E secret message epoch = .ok sig →
    Signature.verify E sig pubkey epoch message = .ok ()

/-- The gossip signatures are valid for the registered validators they are stored for, at the
    slots of their votes, and every stored proof is a proof of its own participants. -/
structure BuildArgs.CachesValid (E : Env) (validators : List Validator) (args : BuildArgs) :
    Prop where
  gossip : ∀ sigs, args.gossipSignatures = some sigs → ∀ v (data : AttestationData) sig,
    sigs.lookup ⟨v, E.hashData data⟩ = some sig → ∀ validator, validators[v]? = some validator →
    Signature.verify E sig validator.pubkey (epochOf data.slot) (E.hashData data) = .ok ()
  proofs : ∀ map, args.aggregatedPayloads = some map → ∀ v (data : AttestationData) candidates,
    map.lookup ⟨v, E.hashData data⟩ = some candidates → ∀ proof ∈ candidates,
    ProofVerifies E validators ⟨proof.participants, data⟩ proof

/-! ## The proofs of the block -/

section Proofs

variable {E : Env} {s : State} {args : BuildArgs}

/-- The signatures collected from gossip are valid for the keys collected with them. -/
theorem BuildArgs.CachesValid.collected (hvalid : args.CachesValid E s.validators)
    {data : AttestationData} {ids : List ℕ} {sigs : List Signature}
    (hreg : ∀ v ∈ ids, v < s.validators.length)
    (hsigs : List.Forall₂ (fun v sig => ∃ map, args.gossipSignatures = some map ∧
      map.lookup ⟨v, E.hashData data⟩ = some sig) ids sigs) :
    List.Forall₂ (fun key sig =>
      Signature.verify E sig key (epochOf data.slot) (E.hashData data) = .ok ())
      (registeredKeys s.validators ids) sigs := by
  induction hsigs with
  | nil => exact List.Forall₂.nil
  | @cons v sig ids sigs hsig _ ih =>
    rw [List.forall_mem_cons] at hreg
    obtain ⟨map, hmap, hlookup⟩ := hsig
    have hget := List.getElem?_eq_getElem hreg.1
    rw [show registeredKeys s.validators (v :: ids) =
      (s.validators.get ⟨v, hreg.1⟩).pubkey :: registeredKeys s.validators ids by
        simp [registeredKeys, hreg.1]]
    exact List.Forall₂.cons (hvalid.gossip map hmap v data sig hlookup _ hget) (ih hreg.2)

/-- Everything that is proved for a group of votes verifies. -/
theorem State.proveGroup_verifies (hagg : E.AggregatesValid)
    (hvalid : args.CachesValid E s.validators) {order : SetOrder} {group : AggregatedAttestation}
    {out : List ProvedAttestation}
    (h : s.proveGroup E order args.gossipSignatures args.aggregatedPayloads group = .ok out) :
    ∀ p ∈ out, ProofVerifies E s.validators p.1 p.2 := by
  obtain ⟨phase, gossip, covered, hphase, hgossip, hcovered, rfl⟩ := State.proveGroup_eq_ok h
  intro p hp
  rcases List.mem_append.mp hp with hp | hp
  · rcases gossipProof_eq_ok hgossip with ⟨-, rfl⟩ | ⟨bits, proof, hne, hbits, hproof, rfl⟩
    · exact absurd hp (by simp)
    · obtain rfl := List.mem_singleton.mp hp
      -- the signatures were collected in increasing order of the validators
      have hsorted : phase.ids.SortedLT := by
        rw [hphase.ids]
        exact (List.Pairwise.sublist List.filter_sublist
          (sortedLT_setIndices group.aggregationBits).pairwise).sortedLT
      have hids : AggregationBits.setIndices bits = phase.ids :=
        setIndices_fromValidatorIndices hsorted hbits
      refine ⟨hids ▸ hne, hids ▸ hphase.registered, ?_⟩
      rw [hphase.keys] at hproof
      show AggregatedSignature.verify E proof (registeredKeys s.validators
        (AggregationBits.setIndices bits)) _ _ = _
      rw [hids]
      exact hagg _ _ _ _ _ (hvalid.collected hphase.registered hphase.sigs) hproof
  · obtain ⟨hdata, hbits, -, map, v, candidates, hmap, hlookup, hmem⟩ := hcovered.forall p hp
    have hown := hvalid.proofs map hmap v group.data candidates hlookup p.2 hmem
    -- the bits of the attestation are the participants of the proof
    refine ⟨hbits ▸ hown.nonempty, hbits ▸ hown.registered, ?_⟩
    rw [hbits, hdata]
    exact hown.verified

end Proofs

/-! ## The signed block -/

section SignedBlock

variable {E : Env} {orders : AttestationData → SetOrder} {s : State} {args : BuildArgs}
  {initial : Option (List Attestation)} {built : BuiltBlock} {vs : ValidatorService} {store : Store}
  {signed : Signed SignedBlockWithAttestation} {sb : SignedBlockWithAttestation}

/-- A block that is built on a state and signed with the key of its proposer passes verification
    against this state. -/
theorem own_block_verifies (hagg : E.AggregatesValid) (hvalid : args.CachesValid E s.validators)
    (hkey : ∀ km secret validator, vs.keyManager = some km →
      km.keys.lookup args.proposerIndex = some secret →
      s.validators[args.proposerIndex]? = some validator → E.KeyPair secret validator.pubkey)
    (hbuilt : s.buildBlock E orders args initial = .ok built)
    (hsigned : vs.signBlock E store built.block args.proposerIndex built.proofs = .ok signed)
    (hsb : signed.result = .ok sb) : sb.verifySignatures E s = .ok () := by
  obtain ⟨km, data, sig, hkm, hdata, hsig, rfl⟩ := ValidatorService.signBlock_result hsigned hsb
  obtain ⟨collected, -, hproofs, hpost, hblock⟩ := State.buildBlock_eq_ok hbuilt
  rw [SignedBlockWithAttestation.verifySignatures_eq_ok]
  constructor
  · show List.Forall₂ _ built.block.body.attestations built.proofs
    rw [hblock]
    exact State.computeAggregatedSignatures_forall₂ hproofs
      fun _ group out hout => State.proveGroup_verifies hagg hvalid hout
  · -- the header check makes the proposer a registered validator
    have hproposer : args.proposerIndex < s.validators.length := by
      obtain ⟨hn, hproposer, -⟩ := State.applyCandidate_checks hpost
      rw [← hproposer]
      exact Nat.mod_lt _ (Nat.pos_of_ne_zero hn)
    obtain ⟨secret, hsecret, hsig⟩ := bind_eq_ok.mp hsig
    have hget := List.getElem?_eq_getElem hproposer
    refine ⟨_, hget, ?_⟩
    -- the vote is for the slot of the block, so both sides take the same epoch
    have hslot : data.slot = built.block.slot := Store.produceAttestationData_slot hdata
    show Signature.verify E sig _ (epochOf data.slot) (E.hashData data) = .ok ()
    rw [hslot]
    exact hkey km secret _ hkm (okOr_eq_ok.mp hsecret) hget _ _ _ hsig

end SignedBlock

/-! ## The block at slot 2 -/

/-- In the concrete environment a valid signature is the signature of the key. -/
theorem Env.tabulated_verify_eq_ok {t : HashTables} {sig : Signature} {key : PublicKey}
    {epoch : ℕ} {message : H256} :
    Signature.verify (Env.tabulated t) sig key epoch message = .ok () ↔
      sig = toySignature key epoch message := by
  simp [Signature.verify, PublicKey.asLean, Signature.asLean, Env.tabulated]

theorem Env.tabulated_aggregatesValid (t : HashTables) : (Env.tabulated t).AggregatesValid := by
  intro keys sigs message epoch proof hvalid hproof
  simp only [Env.tabulated_verify_eq_ok] at hvalid
  obtain rfl : sigs = keys.map fun key => toySignature key epoch message := by
    rw [← List.forall₂_eq_eq_eq, List.forall₂_map_right_iff]
    exact hvalid.flip
  obtain ⟨_, -, hproof⟩ := bind_eq_ok.mp hproof
  obtain ⟨sigs, hsigs, hproof⟩ := bind_eq_ok.mp hproof
  obtain ⟨_, -, hproof⟩ := bind_eq_ok.mp hproof
  -- signatures are decoded to themselves
  simp only [mapM_eq_ok, Signature.asLean_eq_ok, List.forall₂_and_left, List.forall₂_eq_eq_eq]
    at hsigs
  obtain ⟨-, rfl⟩ := hsigs
  obtain rfl := Option.some.inj (okOr_eq_ok.mp hproof)
  rw [AggregatedSignature.verify_eq_ok]
  simp [Env.tabulated]

theorem Env.tabulated_keyPair (t : HashTables) (key : ℕ) : (Env.tabulated t).KeyPair key key := by
  intro message epoch sig hsig
  rw [Env.tabulated_verify_eq_ok]
  exact (Option.some.inj (okOr_eq_ok.mp hsig)).symm

namespace TwoVotes

open ShortTally (validators genesis state1 bodyVote proposerVote buildArgs)

/-- The votes of both validators for the block at slot 1, made in different slots. -/
def votes : List AggregatedAttestation := [⟨[true], bodyVote⟩, ⟨[false, true], proposerVote⟩]

/-- Together they justify the block at slot 1. -/
def post : State :=
  Sample.state validators (Sample.header 2 2 2 0 2) ⟨2, 1⟩ ⟨1, 0⟩ [1, 2] [true]

def env : Env := Env.tabulated {
  headers := [Sample.header 2 0 0 1 1, Sample.header 2 1 1 2 1]
  bodies := [⟨[]⟩, ⟨votes⟩]
  datas := [bodyVote, proposerVote]
  states := [genesis, state1, post] }

/-- The gossip signature of validator 0. -/
def gossip : HashMap SignatureKey Signature := AList.insert ⟨0, 1⟩ (toySignature 7 1 1) ∅

/-- The proof for the vote of validator 1, as an earlier block has left it. -/
def storedProof : AggregatedSignatureProof where
  participants := [false, true]
  proofData := Nat.pair (toySignature 8 2 2) 0

def payloads : HashMap SignatureKey (List AggregatedSignatureProof) :=
  AList.insert ⟨1, 2⟩ [storedProof] ∅

def args : BuildArgs := buildArgs [⟨0, bodyVote⟩, ⟨1, proposerVote⟩] gossip payloads

/-- The block at slot 2: one of its proofs is aggregated, the other one is reused. -/
def built : BuiltBlock where
  block := (Sample.block 2 2 2 3 votes).block
  post := post
  attestations := votes
  proofs := [⟨[true], Nat.pair (toySignature 7 1 1) 0⟩, storedProof]

theorem buildBlock_eq : state1.buildBlock env (fun _ => .increasing) args none = .ok built := by
  decide +kernel

/-- The node runs the proposer of slot 2. -/
def service : ValidatorService where
  validatorIndices := [0]
  numValidators := 2
  keyManager := some ⟨AList.singleton 0 7⟩

/-- The vote of the proposer, in whose store there is the genesis block only. -/
def ownVote : AttestationData := ⟨2, ⟨1, 0⟩, ⟨1, 0⟩, ⟨1, 0⟩⟩

/-- The block as the proposer signs it. -/
def own : SignedBlockWithAttestation where
  message := { block := built.block, proposerAttestation := ⟨0, ownVote⟩ }
  signature := {
    attestationSignatures := built.proofs
    proposerSignature := toySignature 7 2 (env.hashData ownVote) }

theorem signBlock_eq : service.signBlock env ShortTally.init built.block 0 built.proofs =
    .ok ⟨[⟨0, 2, env.hashData ownVote⟩], .ok own⟩ := by
  decide +kernel

/-- The caches hold a signature of validator 0 and a proof for validator 1. -/
theorem cachesValid : args.CachesValid env validators where
  gossip := by
    intro sigs hsigs v data sig hlookup validator hget
    obtain rfl := Option.some.inj hsigs
    rw [gossip, AList.lookup_insert_eq] at hlookup
    split_ifs at hlookup with hkey
    · -- the only signature is that of validator 0
      obtain ⟨rfl, hroot⟩ := SignatureKey.mk.inj hkey
      obtain rfl := (Env.tabulated_hashIdeal _).data_injective
        (hroot.trans (show 1 = env.hashData bodyVote by decide +kernel))
      obtain rfl := Option.some.inj hlookup
      obtain rfl := Option.some.inj hget
      decide +kernel
    · exact absurd hlookup (by simp)
  proofs := by
    intro map hmap v data candidates hlookup proof hproof
    obtain rfl := Option.some.inj hmap
    rw [payloads, AList.lookup_insert_eq] at hlookup
    split_ifs at hlookup with hkey
    · -- the only proof is stored for validator 1, and verifies
      obtain ⟨rfl, hroot⟩ := SignatureKey.mk.inj hkey
      obtain rfl := (Env.tabulated_hashIdeal _).data_injective
        (hroot.trans (show 2 = env.hashData proposerVote by decide +kernel))
      obtain rfl := Option.some.inj hlookup
      obtain rfl := List.mem_singleton.mp hproof
      exact verifyAggregated_eq_ok.mp (by decide +kernel)
    · exact absurd hlookup (by simp)

end TwoVotes

/-- The block at slot 2, with a proof of a gossip signature and one of an earlier block, and signed
    by validator 0, verifies. -/
theorem own_block_of_slot_two_verifies :
    TwoVotes.own.verifySignatures TwoVotes.env ShortTally.state1 = .ok () := by
  refine own_block_verifies (Env.tabulated_aggregatesValid _) TwoVotes.cachesValid ?_
    TwoVotes.buildBlock_eq TwoVotes.signBlock_eq rfl
  intro km secret validator hkm hsecret hget
  obtain rfl := Option.some.inj hkm
  obtain rfl := Option.some.inj hget
  obtain rfl := Option.some.inj hsecret
  exact Env.tabulated_keyPair _ 7

end ConsensusClient
