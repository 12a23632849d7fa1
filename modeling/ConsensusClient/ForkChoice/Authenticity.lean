import Mathlib.Data.Finset.Card
import Mathlib.Data.Finset.Range
import ConsensusClient.ForkChoice.Rules

/-!
# Authenticity of Gossip Votes

The handlers of gossip attestations check the data of a vote against the store, and neither the
validator index nor the signature. So the entries they write are authentic exactly as far as the
messages are. This module traces every entry of the signature cache and every vote of the two
vote maps back to the message or to the block it came from.

## Main results

* `Store.signature_origin`, `Store.vote_origin`: where the entries come from, in every run
* `Store.admitted_is_written`: the handlers write whatever passes `validate_attestation_data`
* `gossip_votes_authentic`: the stores of a run are authentic exactly when all the gossip
  messages that it admits are
* `forged_vote_is_admitted`: a message without a signature of an unregistered validator enters
-/

namespace ConsensusClient

/-! ## Authentic votes -/

/-- The vote is of a registered validator, and the signature verifies under its key. -/
def SignedAttestation.Authentic (E : Env) (registry : List Validator) (sa : SignedAttestation) :
    Prop :=
  ∃ validator, registry[sa.validatorId]? = some validator ∧
    Signature.verify E sa.signature validator.pubkey (epochOf sa.message.slot)
      (E.hashData sa.message) = .ok ()

theorem SignedAttestation.Authentic.lt {E : Env} {registry : List Validator}
    {sa : SignedAttestation} (h : sa.Authentic E registry) : sa.validatorId < registry.length := by
  obtain ⟨validator, hget, -⟩ := h
  exact (List.getElem?_eq_some_iff.mp hget).1

/-- The entry of the signature cache that a gossip message writes. -/
def SignedAttestation.signatureEntry (E : Env) (sa : SignedAttestation) :
    SignatureKey × Signature :=
  (⟨sa.validatorId, E.hashData sa.message⟩, sa.signature)

/-- The vote that a gossip message enters. -/
def SignedAttestation.vote (sa : SignedAttestation) : ℕ × AttestationData :=
  (sa.validatorId, sa.message)

/-- The entry of the signature cache that a processed block writes for its proposer. -/
def SignedBlockWithAttestation.signatureEntry (E : Env) (sb : SignedBlockWithAttestation) :
    SignatureKey × Signature :=
  (⟨sb.message.proposerAttestation.validatorId, E.hashData sb.message.proposerAttestation.data⟩,
    sb.signature.proposerSignature)

/-! ## What the calls of a run take -/

/-- The gossip message that a call processes, if it is one. -/
def StoreOp.gossip : StoreOp → Option SignedAttestation
  | .attestation sa false => some sa
  | .gossipAttestation sa => some sa
  | _ => none

/-- The attestation that a call processes as one of a block. -/
def StoreOp.onChain : StoreOp → Option SignedAttestation
  | .attestation sa true => some sa
  | _ => none

/-- The message passes `validate_attestation_data`. -/
def Store.admits (store : Store) (sa : SignedAttestation) : Bool :=
  match store.validateAttestationData sa.message with
  | .ok _ => true
  | .error _ => false

/-- The gossip message that a call admits: the one that passes `validate_attestation_data`. -/
def Store.admittedBy (store : Store) (op : StoreOp) : List SignedAttestation :=
  op.gossip.toList.filter store.admits

/-- The votes that a call enters as those of blocks. -/
def Store.blockVotesBy (E : Env) (store : Store) (op : StoreOp) : List (ℕ × AttestationData) :=
  (op.onChain.toList.filter store.admits).map SignedAttestation.vote ++
    (store.processedBy E op).flatMap SignedBlockWithAttestation.votes

/-- The gossip messages admitted in a run. -/
def Store.admitted (E : Env) (store : Store) (ops : List StoreOp) : List SignedAttestation :=
  store.runLog E Store.admittedBy ops

/-- The blocks processed in a run. -/
def Store.processed (E : Env) (store : Store) (ops : List StoreOp) :
    List SignedBlockWithAttestation :=
  store.runLog E (fun s op => s.processedBy E op) ops

/-- The votes that blocks entered in a run. -/
def Store.blockVotes (E : Env) (store : Store) (ops : List StoreOp) :
    List (ℕ × AttestationData) :=
  store.runLog E (fun s op => s.blockVotesBy E op) ops

theorem Store.admits_iff {store : Store} {sa : SignedAttestation} :
    store.admits sa = true ↔ store.validateAttestationData sa.message = .ok () := by
  unfold Store.admits
  cases store.validateAttestationData sa.message with
  | ok u => simp
  | error e => simp

/-! ## The origin of votes -/

section Origin

variable {E : Env} {init store store' : Store} {ops : List StoreOp} {v : ℕ}
  {data : AttestationData}

/-- A call enters the vote of the message that it admits, or votes of blocks. -/
theorem Store.vote_origin_step {op : StoreOp} (h : Entered (store.eventsOf E op) v data) :
    (∃ sa ∈ store.admittedBy op, sa.vote = (v, data)) ∨
      (v, data) ∈ store.blockVotesBy E op := by
  -- an attestation that comes on its own is of either kind
  have hattestation : ∀ {sa : SignedAttestation} {isFromBlock : Bool},
      Entered (store.eventsOf E (.attestation sa isFromBlock)) v data →
        store.admits sa = true ∧ sa.vote = (v, data) := by
    rintro sa isFromBlock ⟨agreed, h⟩
    simp only [Store.eventsOf] at h
    split at h
    · rename_i hvalid
      obtain ⟨rfl, rfl, -⟩ := VoteEvent.vote.inj (List.mem_singleton.mp h)
      exact ⟨Store.admits_iff.mpr hvalid, rfl⟩
    · exact absurd h (by simp)
  cases op with
  | tick time hasProposal => exact absurd h not_entered_intervalEvents
  | attestation sa isFromBlock =>
    obtain ⟨hadmits, hvote⟩ := hattestation h
    cases isFromBlock with
    | false => exact Or.inl ⟨sa, by simp [Store.admittedBy, StoreOp.gossip, hadmits], hvote⟩
    | true =>
      exact Or.inr (by simp [Store.blockVotesBy, StoreOp.onChain, hadmits, hvote])
  | gossipAttestation sa =>
    have hsame : Entered (store.eventsOf E (.attestation sa false)) v data := h
    obtain ⟨hadmits, hvote⟩ := hattestation hsame
    exact Or.inl ⟨sa, by simp [Store.admittedBy, StoreOp.gossip, hadmits], hvote⟩
  | block sb =>
    obtain ⟨agreed, h⟩ := h
    obtain ⟨b, hb, hmem⟩ := List.mem_flatMap.mp h
    exact Or.inr (List.mem_append_right _
      (List.mem_flatMap.mpr ⟨b, hb, mem_votes_of_entered ⟨agreed, hmem⟩⟩))
  | produce slot validatorIndex orders =>
    -- production only accepts the votes that wait
    obtain ⟨agreed, h⟩ := h
    rcases List.mem_append.mp h with h | h
    · exact absurd ⟨agreed, h⟩ not_entered_intervalEvents
    · exact absurd h (by simp)

/-- Every vote of the two maps was there at first, or is that of an admitted gossip message, or
    was entered by a block. -/
theorem Store.vote_origin (h : init.run E ops = .ok store) (hheld : store.book.Holds v data) :
    init.book.Holds v data ∨ (∃ sa ∈ init.admitted E ops, sa.vote = (v, data)) ∨
      (v, data) ∈ init.blockVotes E ops := by
  rw [Store.run_book h] at hheld
  refine (VoteBook.holds_foldl hheld).imp_right ?_
  rintro ⟨agreed, hentered⟩
  obtain ⟨pre, op, post, s, s', heq, hpre, hop, hmem⟩ := Store.mem_runLog.mp hentered
  rcases Store.vote_origin_step ⟨agreed, hmem⟩ with ⟨sa, hsa, hvote⟩ | hvote
  · exact Or.inl ⟨sa, Store.mem_runLog.mpr ⟨pre, op, post, s, s', heq, hpre, hop, hsa⟩, hvote⟩
  · exact Or.inr (Store.mem_runLog.mpr ⟨pre, op, post, s, s', heq, hpre, hop, hvote⟩)

/-! ## The origin of signatures -/

variable {key : SignatureKey} {sig : Signature}

theorem Store.onTick_gossipSignatures {time : ℕ} {hasProposal : Bool}
    (h : store.onTick time hasProposal = .ok store') :
    store'.gossipSignatures = store.gossipSignatures :=
  Store.onTick_induction (P := fun s => s.gossipSignatures = store.gossipSignatures)
    (fun _ _ hs => hs) (fun _ _ hs => hs) (fun _ _ hs => hs) (fun _ hs => hs) rfl h

theorem Store.getProposalHead_gossipSignatures {slot : ℕ}
    (h : store.getProposalHead slot = .ok store') :
    store'.gossipSignatures = store.gossipSignatures := by
  obtain ⟨s₁, h₁, h⟩ := bind_eq_ok.mp h
  obtain ⟨head, -, rfl⟩ := Store.acceptNewAttestations_eq_ok h
  have hsigs := Store.onTick_gossipSignatures h₁
  exact hsigs

/-- A stored signature leaves the other entries alone. -/
theorem Store.lookup_storeSignature {d : AttestationData} {sig' : Signature}
    (h : (store.storeSignature E v d sig').gossipSignatures.lookup key = some sig) :
    store.gossipSignatures.lookup key = some sig ∨
      ((⟨v, E.hashData d⟩ : SignatureKey), sig') = (key, sig) := by
  have hlookup : (store.gossipSignatures.insert ⟨v, E.hashData d⟩ sig').lookup key = some sig := h
  rw [AList.lookup_insert_eq] at hlookup
  split_ifs at hlookup with hkey
  · exact Or.inr (by rw [hkey, Option.some.inj hlookup])
  · exact Or.inl hlookup

/-- An imported block writes the signature of its proposer. -/
theorem Imported.signature_origin {sb : SignedBlockWithAttestation} {root head : H256}
    {parent post : State} (himp : Imported E store sb root store' parent post head)
    (h : store'.gossipSignatures.lookup key = some sig) :
    store.gossipSignatures.lookup key = some sig ∨ sb.signatureEntry E = (key, sig) := by
  rw [himp.result, Store.castProposerVote_eq, Store.importBlock_eq] at h
  exact Store.lookup_storeSignature h

theorem Store.onBlock_signature_origin {sb : SignedBlockWithAttestation}
    {r : Except String (List SignedBlockWithAttestation)}
    (hcall : store.onBlock E sb = .ok ⟨store', r⟩)
    (h : store'.gossipSignatures.lookup key = some sig) :
    store.gossipSignatures.lookup key = some sig ∨
      ∃ b ∈ r.toOption.getD [], b.signatureEntry E = (key, sig) := by
  refine (Store.onBlock_induction (Q := fun _ => True)
    (P := fun s processed => s.gossipSignatures.lookup key = some sig →
      store.gossipSignatures.lookup key = some sig ∨
        ∃ b ∈ processed, b.signatureEntry E = (key, sig))
    (fun _ _ _ hs => hs) ?_ trivial Or.inl (fun _ _ => trivial) hcall).1 h
  intro s processed sb s' parent post head _ hs himp hlookup
  rcases himp.signature_origin hlookup with hold | hnew
  · refine (hs hold).imp_right ?_
    rintro ⟨b, hb, hentry⟩
    exact ⟨b, List.mem_append_left _ hb, hentry⟩
  · exact Or.inr ⟨sb, by simp, hnew⟩

/-- Both handlers of gossip messages end in `on_attestation`. -/
theorem Store.apply_of_gossip {op : StoreOp} {sa : SignedAttestation} (hop : op.gossip = some sa)
    (h : store.apply E op = .ok store') :
    ∃ after, store.onAttestation E sa false = .ok after ∧ after.state = store' := by
  cases Store.apply_step h with
  | attestation sa' isFromBlock after hcall =>
    cases isFromBlock with
    | true => exact absurd hop (by simp [StoreOp.gossip])
    | false =>
      obtain rfl := Option.some.inj hop
      exact ⟨after, hcall, rfl⟩
  | gossipAttestation sa' after hcall =>
    obtain rfl := Option.some.inj hop
    exact ⟨after, hcall, rfl⟩
  | _ => exact absurd hop (by simp [StoreOp.gossip])

/-- A call writes the signature of the message that it admits, or those of proposers. -/
theorem Store.signature_origin_step {op : StoreOp} (happly : store.apply E op = .ok store')
    (h : store'.gossipSignatures.lookup key = some sig) :
    store.gossipSignatures.lookup key = some sig ∨
      (∃ sa ∈ store.admittedBy op, sa.signatureEntry E = (key, sig)) ∨
      ∃ sb ∈ store.processedBy E op, sb.signatureEntry E = (key, sig) := by
  cases hop : op.gossip with
  | some sa =>
    obtain ⟨after, hafter, rfl⟩ := Store.apply_of_gossip hop happly
    rcases Store.onAttestation_eq_ok hafter with ⟨hok, hstate⟩ | ⟨-, hstate⟩
    · rw [hstate] at h
      refine (Store.lookup_storeSignature h).imp_right fun hentry => Or.inl ⟨sa, ?_, hentry⟩
      simp [Store.admittedBy, hop, Store.admits_iff.mpr hok]
    · rw [hstate] at h
      exact Or.inl h
  | none =>
    cases Store.apply_step happly with
    | tick time hasProposal s hcall => exact Or.inl (Store.onTick_gossipSignatures hcall ▸ h)
    | attestation sa isFromBlock after hcall =>
      cases isFromBlock with
      | false => exact absurd hop (by simp [StoreOp.gossip])
      | true =>
        -- a vote of a block is entered without a signature
        rcases Store.onAttestation_eq_ok hcall with ⟨-, hstate⟩ | ⟨-, hstate⟩
        · rw [hstate] at h
          exact Or.inl h
        · rw [hstate] at h
          exact Or.inl h
    | gossipAttestation sa after hcall => exact absurd hop (by simp [StoreOp.gossip])
    | block sb s r hcall =>
      rw [Store.processedBy_block hcall]
      exact (Store.onBlock_signature_origin hcall h).imp_right Or.inr
    | produced slot validatorIndex orders s₀ built hcall hbuilt =>
      have hlookup : s₀.gossipSignatures.lookup key = some sig := h
      exact Or.inl (Store.getProposalHead_gossipSignatures hcall ▸ hlookup)
    | unproduced slot validatorIndex orders s₀ hcall =>
      exact Or.inl (Store.getProposalHead_gossipSignatures hcall ▸ h)

/-- Every cached signature was there at first, or is that of an admitted gossip message, or is
    the proposer signature of a processed block. -/
theorem Store.signature_origin (h : init.run E ops = .ok store)
    (hlookup : store.gossipSignatures.lookup key = some sig) :
    init.gossipSignatures.lookup key = some sig ∨
      (∃ sa ∈ init.admitted E ops, sa.signatureEntry E = (key, sig)) ∨
      ∃ sb ∈ init.processed E ops, sb.signatureEntry E = (key, sig) := by
  refine Store.run_induction (P := fun s => s.gossipSignatures.lookup key = some sig →
    init.gossipSignatures.lookup key = some sig ∨
      (∃ sa ∈ init.admitted E ops, sa.signatureEntry E = (key, sig)) ∨
      ∃ sb ∈ init.processed E ops, sb.signatureEntry E = (key, sig)) ?_ Or.inl h hlookup
  intro pre op post s s' heq hpre hs hop hlookup
  rcases Store.signature_origin_step hop hlookup with hold | ⟨sa, hsa, hentry⟩ | ⟨sb, hsb, hentry⟩
  · exact hs hold
  · exact Or.inr (Or.inl
      ⟨sa, Store.mem_runLog.mpr ⟨pre, op, post, s, s', heq, hpre, hop, hsa⟩, hentry⟩)
  · exact Or.inr (Or.inr
      ⟨sb, Store.mem_runLog.mpr ⟨pre, op, post, s, s', heq, hpre, hop, hsb⟩, hentry⟩)

end Origin

/-! ## Authentic stores -/

/-- The validators for which a vote map holds a vote that came by gossip. -/
def Store.gossipVoters (store : Store) (admitted : List SignedAttestation) : Finset ℕ :=
  (store.latestKnownAttestations.keys ++ store.latestNewAttestations.keys).toFinset.filter
    fun v => ∃ sa ∈ admitted, sa.validatorId = v ∧
      (store.latestKnownAttestations.lookup v = some sa.message ∨
        store.latestNewAttestations.lookup v = some sa.message)

/-- What the gossip handlers wrote up to a store of a run is authentic. -/
structure GossipAuthentic (E : Env) (registry : List Validator) (init : Store)
    (ops : List StoreOp) (store : Store) : Prop where
  /-- All stored states have the same registry. -/
  registry_eq : store.HasRegistry registry
  /-- A cached signature is that of an admitted message, or else the proposer signature of a
      processed block. -/
  signature_origin : ∀ key sig, store.gossipSignatures.lookup key = some sig →
    (∃ sa ∈ init.admitted E ops, sa.signatureEntry E = (key, sig)) ∨
      ∃ sb ∈ init.processed E ops, sb.signatureEntry E = (key, sig)
  /-- A cached signature of an admitted message is of a registered validator and verifies. -/
  signature_authentic : ∀ key sig, store.gossipSignatures.lookup key = some sig →
    ∀ sa ∈ init.admitted E ops, sa.signatureEntry E = (key, sig) → sa.Authentic E registry
  /-- A vote of the two maps is that of an admitted message, or else one that a block entered. -/
  vote_origin : ∀ v data, store.book.Holds v data →
    (∃ sa ∈ init.admitted E ops, sa.vote = (v, data)) ∨ (v, data) ∈ init.blockVotes E ops
  /-- A vote of the two maps that came by gossip was signed by the validator it counts for. -/
  vote_authentic : ∀ v data, store.book.Holds v data →
    ∀ sa ∈ init.admitted E ops, sa.vote = (v, data) → sa.Authentic E registry
  /-- At most one vote for each registered validator came by gossip. -/
  voters_le : (store.gossipVoters (init.admitted E ops)).card ≤ registry.length

/-! ## Runs -/

section Runs

variable {E : Env} {store store' : Store} {ops pre post : List StoreOp}

/-- The handlers write every message they admit, whoever signed it. -/
theorem Store.admitted_is_written {op : StoreOp} {sa : SignedAttestation}
    (hsa : sa ∈ store.admittedBy op) (h : store.apply E op = .ok store') :
    store'.gossipSignatures.lookup ⟨sa.validatorId, E.hashData sa.message⟩ = some sa.signature ∧
      sa.validatorId ∈ store'.latestNewAttestations := by
  obtain ⟨hop, hadmits⟩ := List.mem_filter.mp hsa
  have hop : op.gossip = some sa := by simpa using hop
  have hvalid := Store.admits_iff.mp hadmits
  obtain ⟨after, hafter, rfl⟩ := Store.apply_of_gossip hop h
  rcases Store.onAttestation_eq_ok hafter with ⟨-, hstate⟩ | ⟨⟨msg, herr⟩, -⟩
  · rw [hstate]
    refine ⟨AList.lookup_insert _, AList.mem_iff_exists_lookup.mpr
      ⟨keepLater AttestationData.slot (store.latestNewAttestations.lookup sa.validatorId)
        sa.message, ?_⟩⟩
    exact (lookup_insert_later AttestationData.slot store.latestNewAttestations sa.validatorId
      sa.validatorId sa.message).trans (if_pos rfl)
  · -- the message passed the checks
    rw [herr] at hvalid
    exact absurd hvalid (by simp)

/-- Authentic messages have registered voters only. -/
theorem Store.gossipVoters_card_le {registry : List Validator} {admitted : List SignedAttestation}
    (hauth : ∀ sa ∈ admitted, sa.Authentic E registry) :
    (store.gossipVoters admitted).card ≤ registry.length := by
  have hsub : store.gossipVoters admitted ⊆ Finset.range registry.length := by
    intro v hv
    obtain ⟨-, sa, hsa, rfl, -⟩ := Finset.mem_filter.mp hv
    exact Finset.mem_range.mpr (hauth sa hsa).lt
  simpa using Finset.card_le_card hsub

/-- If all admitted messages are authentic, so is the store that a run reaches. -/
theorem GossipAuthentic.of_admitted {state : State} {block : SignedBlockWithAttestation}
    {config : Config} (h : (getForkchoiceStore E state block config).run E ops = .ok store)
    (hauth : ∀ sa ∈ (getForkchoiceStore E state block config).admitted E ops,
      sa.Authentic E state.validators) :
    GossipAuthentic E state.validators (getForkchoiceStore E state block config) ops store where
  registry_eq := (Store.HasRegistry.anchor E state block config).run h
  signature_origin := by
    intro key sig hlookup
    refine (Store.signature_origin h hlookup).resolve_left ?_
    simp [getForkchoiceStore]
  signature_authentic := fun _ _ _ sa hsa _ => hauth sa hsa
  vote_origin := by
    intro v data hheld
    refine (Store.vote_origin h hheld).resolve_left ?_
    simp [VoteBook.Holds, Store.book, getForkchoiceStore]
  vote_authentic := fun _ _ _ sa hsa _ => hauth sa hsa
  voters_le := Store.gossipVoters_card_le hauth

/-- All the stores of a run are authentic exactly when every gossip message that it admits is of
    a registered validator and carries its signature. -/
theorem gossip_votes_authentic {state : State} {block : SignedBlockWithAttestation}
    {config : Config} :
    (∀ pre post s, ops = pre ++ post →
      (getForkchoiceStore E state block config).run E pre = .ok s →
      GossipAuthentic E state.validators (getForkchoiceStore E state block config) pre s) ↔
    ∀ sa ∈ (getForkchoiceStore E state block config).admitted E ops,
      sa.Authentic E state.validators := by
  constructor
  · intro hall sa hsa
    -- right after the call that admits the message its signature is cached
    obtain ⟨pre, op, post, s, s', rfl, hpre, hop, hmem⟩ := Store.mem_runLog.mp hsa
    have hs' : (getForkchoiceStore E state block config).run E (pre ++ [op]) = .ok s' := by
      unfold Store.run at hpre ⊢
      rw [List.foldlM_append, hpre, ok_bind]
      exact Store.run_singleton.mpr hop
    have inv := hall (pre ++ [op]) post s' (by simp) hs'
    have hsa' : sa ∈ (getForkchoiceStore E state block config).admitted E (pre ++ [op]) :=
      Store.mem_runLog.mpr ⟨pre, op, [], s, s', rfl, hpre, hop, hmem⟩
    exact inv.signature_authentic _ _ (Store.admitted_is_written hmem hop).1 sa hsa' rfl
  · rintro hauth pre post s rfl hs
    exact GossipAuthentic.of_admitted hs fun sa hsa =>
      hauth sa (Store.mem_runLog_append hsa)

end Runs

/-! ## Two messages on the genesis block -/

namespace GenesisVotes

/-- A vote of the validator with the key 7, signed by it. -/
def authentic : SignedAttestation where
  validatorId := 0
  message := vote 1
  signature := toySignature 7 1 (SoloChain.env.hashData (vote 1))

/-- A vote of a validator that is not registered, without a signature. -/
def forged : SignedAttestation where
  validatorId := 5
  message := vote 1
  signature := 0

theorem authentic_admitted :
    init.admitted SoloChain.env [.attestation authentic false] = [authentic] := by
  decide +kernel

theorem forged_admitted : init.admitted SoloChain.env [.attestation forged false] = [forged] := by
  decide +kernel

end GenesisVotes

/-- The signed vote enters, and all stores of the run are authentic. -/
theorem signed_vote_stays_authentic : ∀ pre post s,
    [.attestation GenesisVotes.authentic false] = pre ++ post →
    GenesisVotes.init.run SoloChain.env pre = .ok s →
    GossipAuthentic SoloChain.env SoloChain.genesis.validators GenesisVotes.init pre s := by
  apply gossip_votes_authentic.mpr
  intro sa hsa
  obtain rfl := List.mem_singleton.mp (GenesisVotes.authentic_admitted ▸ hsa)
  exact ⟨{ pubkey := 7, index := 0 }, rfl, by decide +kernel⟩

/-- The forged vote enters as well: the store has a new vote and a signature of validator 5, in
    a registry with one validator. -/
theorem forged_vote_is_admitted :
    ReachedFromAnchor SoloChain.env GenesisVotes.init [.attestation GenesisVotes.forged false]
        (GenesisVotes.storeAfter [.attestation GenesisVotes.forged false]) ∧
      ¬ GossipAuthentic SoloChain.env SoloChain.genesis.validators GenesisVotes.init
        [.attestation GenesisVotes.forged false]
        (GenesisVotes.storeAfter [.attestation GenesisVotes.forged false]) := by
  refine ⟨GenesisVotes.reached (by decide +kernel), fun inv => ?_⟩
  have hvote : (GenesisVotes.storeAfter
      [.attestation GenesisVotes.forged false]).latestNewAttestations.lookup 5 =
      some (GenesisVotes.vote 1) := by decide +kernel
  have hauth := inv.vote_authentic 5 _ (Or.inr hvote) GenesisVotes.forged
    (by rw [GenesisVotes.forged_admitted]; exact List.mem_singleton_self _) rfl
  exact absurd hauth.lt (by decide)

end ConsensusClient
