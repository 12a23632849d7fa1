import ConsensusClient.ForkChoice.OwnVotes
import ConsensusClient.Node.Actions

/-!
# The Order of the Votes of a Node

Every signature of a node is one of a vote: of the attestation of a slot, or of the vote of a
proposer. Since the clock and the justified checkpoint of the store only move forward, so do the
slots and the sources of the votes, in the order in which the keys sign. A vote therefore never
surrounds an earlier one, even where the head changes its branch.

## Main results

* `Node.VotesInOrder.act`: every action keeps the signed votes in order
* `votes_never_surround_earlier`: the same for every run, over all pairs of signatures
-/

namespace ConsensusClient

/-- The call signs the vote, with the key of its slot. -/
def SignCall.Signs (E : Env) (c : SignCall) (d : AttestationData) : Prop :=
  c.message = E.hashData d ∧ c.epoch = epochOf d.slot

/-- Slot and source of `d'` do not go back behind those of `d`. -/
structure AttestationData.Precedes (d d' : AttestationData) : Prop where
  slot_le : d.slot ≤ d'.slot
  source : d.source.LeadsTo d'.source

/-- The later vote does not surround the earlier one. -/
theorem AttestationData.Precedes.not_surrounds {d d' : AttestationData} (h : d.Precedes d') :
    ¬ Surrounds d' d :=
  fun hsur => absurd hsur.1 (Nat.not_lt.mpr h.source.slot_le)

/-- The votes that the keys of a node signed, in the order of the calls. -/
structure Node.VotesInOrder (E : Env) (node : Node) : Prop where
  past : ∀ c ∈ node.signCalls, ∃ d, c.Signs E d ∧ d.slot ≤ node.slot ∧
    d.source.LeadsTo node.store.latestJustified
  ordered : node.signCalls.Pairwise fun c c' => ∃ d d', c.Signs E d ∧ c'.Signs E d' ∧ d.Precedes d'

section Steps

variable {E : Env} {vs : Option ValidatorService} {event : ChainEvent} {n n' : Node}

theorem Store.Reaches.checkpointsLe {s s' : Store} (h : s.Reaches E s') : s.CheckpointsLe s' := by
  obtain ⟨ops, hrun⟩ := h
  exact Store.run_checkpointsLe hrun

/-- Votes for the slot of the node, from the justified checkpoint of its new store, join the
    others. -/
theorem Node.VotesInOrder.append (h : n.VotesInOrder E) (hreach : n.store.Reaches E n'.store)
    {calls : List SignCall} (hcalls : n'.signCalls = n.signCalls ++ calls)
    (hnew : ∀ c ∈ calls, ∃ d, c.Signs E d ∧ d.slot = n.slot ∧
      d.source = n'.store.latestJustified) : n'.VotesInOrder E := by
  have hslot : n.slot ≤ n'.slot := Nat.div_le_div_right hreach.time_le
  have hjust := hreach.checkpointsLe.justified
  refine ⟨?_, ?_⟩
  · rw [hcalls]
    intro c hc
    rcases List.mem_append.mp hc with hold | hc
    · obtain ⟨d, hd, hle, hsource⟩ := h.past c hold
      exact ⟨d, hd, hle.trans hslot, hsource.trans hjust⟩
    · obtain ⟨d, hd, heq, hsource⟩ := hnew c hc
      exact ⟨d, hd, heq.le.trans hslot, Or.inl hsource.symm⟩
  · rw [hcalls, List.pairwise_append]
    refine ⟨h.ordered, ?_, fun c hold c' hc' => ?_⟩
    · -- the votes of one duty are alike
      refine List.pairwise_of_forall_mem_list fun c hc c' hc' => ?_
      obtain ⟨d, hd, heq, hsource⟩ := hnew c hc
      obtain ⟨d', hd', heq', hsource'⟩ := hnew c' hc'
      exact ⟨d, d', hd, hd', (heq.trans heq'.symm).le, Or.inl (hsource'.trans hsource.symm)⟩
    · obtain ⟨d, hd, hle, hsource⟩ := h.past c hold
      obtain ⟨d', hd', heq', hsource'⟩ := hnew c' hc'
      refine ⟨d, d', hd, hd', hle.trans heq'.ge, ?_⟩
      rw [hsource']
      exact hsource.trans hjust

/-- The calls of `create_attestations` sign votes for the slot, from the justified checkpoint. -/
theorem ValidatorService.createAttestations_signs {service : ValidatorService} {store : Store}
    {slot : ℕ} {r : List SignCall × List SignedAttestation}
    (h : service.createAttestations E store slot = .ok r) :
    ∀ c ∈ r.1, ∃ d, c.Signs E d ∧ d.slot = slot ∧ d.source = store.latestJustified := by
  intro c hc
  obtain ⟨d, hd, hepoch, hmessage⟩ := ValidatorService.createAttestations_calls h c hc
  obtain ⟨hslot, -, hsource, -⟩ := Store.produceAttestationData_eq_ok hd
  exact ⟨d, ⟨hmessage, hslot ▸ hepoch⟩, hslot, hsource⟩

/-- So does the call of a proposal, on the store that it leaves. -/
theorem Node.MayPropose.signs {orders : IterationOrders} {proposerIndex : ℕ} {proposal : Proposal}
    (h : n.MayPropose E vs orders proposerIndex proposal) :
    ∀ c ∈ proposal.signed.calls, ∃ d, c.Signs E d ∧ d.slot = n.slot ∧
      d.source = proposal.store.latestJustified := by
  obtain ⟨service, -, -, hproposal⟩ := h.owner
  obtain ⟨s₀, -, ⟨built, hbuilt, -, hsigned, -⟩ | ⟨hfail, -⟩⟩ :=
    ValidatorService.buildBlockProposal_cases hproposal
  · intro c hc
    obtain ⟨d, hd, rfl⟩ := (ValidatorService.signBlock_eq_ok hsigned).1 c hc
    obtain ⟨hslot, -, hsource, -⟩ := Store.produceAttestationData_eq_ok hd
    exact ⟨d, ⟨rfl, by rw [hslot]; rfl⟩, hslot.trans (Store.buildOnHead_slot hbuilt), hsource⟩
  · rw [hfail]
    simp

/-- Every action keeps the votes in order. -/
theorem Node.VotesInOrder.act (h : n.VotesInOrder E) (hact : Node.Act E vs event n n') :
    n'.VotesInOrder E := by
  have hreach := hact.reaches
  cases hact with
  | signed service calls attestations hvs hcall =>
    exact h.append hreach rfl (ValidatorService.createAttestations_signs hcall)
  | unsent orders proposerIndex proposal hmay => exact h.append hreach rfl hmay.signs
  | lost orders proposerIndex proposal e hmay => exact h.append hreach rfl hmay.signs
  | sent orders proposerIndex proposal sb later store hmay hsb hcall =>
    -- the tick after the proposal does not touch the checkpoints
    refine h.append hreach rfl ?_
    rw [(Store.onTick_sameTree hcall).latestJustified]
    exact hmay.signs
  | _ => exact h.append hreach (List.append_nil _).symm (by simp)

end Steps

/-- In every run of a node, each signature is one of a vote for its slot, and in the order of the
    signatures neither slot nor source moves back. A vote from the same source slot as an earlier
    one has the same source, and no vote surrounds an earlier one. -/
theorem votes_never_surround_earlier {E : Env} (hinj : Function.Injective E.hashData)
    {vs : Option ValidatorService} {state : State} {block : SignedBlockWithAttestation}
    {config : Config} {events : List ChainEvent} {node : Node}
    (hrun : node = (Node.start (getForkchoiceStore E state block config)).run E vs events) :
    (∀ c ∈ node.signCalls, ∃ d, c.message = E.hashData d ∧ c.epoch = epochOf d.slot) ∧
    node.signCalls.Pairwise fun c c' => ∀ d d', c.message = E.hashData d →
      c'.message = E.hashData d' → d.slot ≤ d'.slot ∧ d.source.slot ≤ d'.source.slot ∧
        (d.source.slot = d'.source.slot → d.source = d'.source) ∧ ¬ Surrounds d' d := by
  have hinv : node.VotesInOrder E := by
    rw [hrun]
    exact Node.run_of_act (fun event n n' hact hn => hn.act hact) events
      ⟨by simp [Node.start], by simp [Node.start]⟩
  refine ⟨fun c hc => ?_, hinv.ordered.imp ?_⟩
  · obtain ⟨d, hd, -⟩ := hinv.past c hc
    exact ⟨d, hd⟩
  · rintro c c' ⟨d₁, d₁', h₁, h₁', hprec⟩ d d' hd hd'
    -- a message is the vote of one hash only
    obtain rfl := hinj (h₁.1.symm.trans hd)
    obtain rfl := hinj (h₁'.1.symm.trans hd')
    refine ⟨hprec.slot_le, hprec.source.slot_le, fun heq => ?_, hprec.not_surrounds⟩
    rcases hprec.source with hsame | hlt
    · exact hsame.symm
    · exact absurd heq hlt.ne

/-- The two votes of slot 2 that a late block makes differ have the same source. -/
theorem slot_two_votes_in_order :
    ((Node.start PairChain.init).run PairChain.env (some PairChain.service)
        PairChain.interrupted).signCalls =
      [⟨0, 2, PairChain.env.hashData PairChain.data⟩,
        ⟨0, 2, PairChain.env.hashData PairChain.lateVote⟩] ∧
    ¬ Surrounds PairChain.lateVote PairChain.data := by
  have hcalls : ((Node.start PairChain.init).run PairChain.env (some PairChain.service)
      PairChain.interrupted).signCalls =
      [⟨0, 2, PairChain.env.hashData PairChain.data⟩,
        ⟨0, 2, PairChain.env.hashData PairChain.lateVote⟩] := by decide +kernel
  refine ⟨hcalls, ?_⟩
  have hordered := (votes_never_surround_earlier
    (Env.tabulated_hashIdeal _).data_injective
    (show (Node.start PairChain.init).run PairChain.env (some PairChain.service)
      PairChain.interrupted = _ from rfl)).2
  rw [hcalls, List.pairwise_pair] at hordered
  exact (hordered _ _ rfl rfl).2.2.2

end ConsensusClient
