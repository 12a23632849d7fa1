import ConsensusClient.Node.Network

/-!
# Convergence of the Network

Once every block that was sent has arrived everywhere, the nodes of the network store the same
blocks with the same states. A node that only receives blocks loses none of them. A node that also
proposes could store a block while others wait for it as their parent, without taking them out of
the queue; in the network nobody builds on a block before it is produced, so this does not happen.

## Main results

* `Node.Between.unawaited`: no block waits for the block of a proposal
* `chainNetwork_syncs`: a delivered block is stored or rejected, or its parent is missing
* `delivered_blocks_converge`: equal trees and states once everything has arrived
-/

namespace ConsensusClient

/-! ## Proposals that nothing waits for -/

section Unawaited

variable {E : Env} {g : State} {time : ℕ} {validators : List Validator} {known : Set H256}
  {vs : Option ValidatorService} {event : ChainEvent} {node n n' : Node}

/-- What is known, and stands in for a slot of the own validators, is an own block. -/
def Node.OwnsKnown (E : Env) (g : State) (vs : Option ValidatorService) (known : Set H256)
    (node : Node) : Prop :=
  ∀ block : Block, block.hashTreeRoot E ∈ known → block = genesisBlock E g ∨
    ∀ service, vs = some service →
      block.slot % g.validators.length ∈ service.validatorIndices →
      block.hashTreeRoot E ∈ node.produced

/-- The facts about a node of the network between two actions of a round. -/
structure Node.Between (E : Env) (g : State) (vs : Option ValidatorService) (known : Set H256)
    (node : Node) : Prop where
  tree : node.store.Tree E g fun _ => True
  proposes : node.Proposes E g.validators vs
  knows : node.Knows E known
  owns : node.OwnsKnown E g vs known

theorem Node.Between.act (hE : E.HashIdeal)
    (hevent : ∀ sb ∈ deliveredBy event, ∀ root ∈ [sb.block.hashTreeRoot E, sb.block.parentRoot],
      root ∈ known) (h : n.Between E g vs known) (hact : Node.Act E vs event n n') :
    n'.Between E g vs known where
  tree := by
    obtain ⟨ops, hrun⟩ := hact.reaches
    exact Store.run_grows (fun _ _ hblocks hstates hs => hs.frame hblocks hstates)
      (fun _ _ _ _ hparent htrans hs => hs.insertBlock hE trivial hparent htrans) h.tree hrun
  proposes := h.proposes.act hE hact
  knows := h.knows.act hevent hact
  owns := fun block hblock => (h.owns block hblock).imp_right fun hown service hvs hmem =>
    hact.produced_subset (hown service hvs hmem)

/-- A block is built for a slot after that of its parent. -/
theorem Store.Tree.buildOnHead_slot_pos
    (hg : generateGenesisWithValidators E time validators = .ok g) (hE : E.HashIdeal)
    {store : Store} (tree : store.Tree E g fun _ => True) {orders : IterationOrders}
    {slot validatorIndex : ℕ}
    {built : BuiltBlock} (hbuilt : store.buildOnHead E orders slot validatorIndex = .ok built) :
    0 < built.block.slot := by
  let sb : SignedBlockWithAttestation :=
    ⟨⟨built.block, ⟨0, ⟨0, ⟨0, 0⟩, ⟨0, 0⟩, ⟨0, 0⟩⟩⟩⟩, ⟨[], 0⟩⟩
  obtain ⟨-, headState, hstate, htrans⟩ := Store.buildOnHead_transition hbuilt sb rfl
  obtain ⟨block, -, -, hacc⟩ := tree.accepted_of_state hstate
  exact Nat.zero_lt_of_lt (hacc.slot_lt hg hE htrans)

/-- No block waits for the block of a proposal. -/
theorem Node.Between.unawaited
    (hg : generateGenesisWithValidators E time validators = .ok g) (hE : E.HashIdeal)
    (h : n.Between E g vs known) : n.ProposesUnawaited E vs fun _ => True := by
  intro orders proposerIndex proposal hmay root hroot _ hwaits
  obtain ⟨service, hvs, howner, hproposal⟩ := hmay.owner
  obtain ⟨s₀, hs₀, ⟨built, hbuilt, -, -, hcall⟩ | ⟨-, msg, hcall⟩⟩ :=
    ValidatorService.buildBlockProposal_cases hproposal
  · have htree : s₀.Tree E g fun _ => True :=
      h.tree.frame (Store.getProposalHead_sameTree hs₀).blocks
        (Store.getProposalHead_sameTree hs₀).states
    have hpos := htree.buildOnHead_slot_pos hg hE hbuilt
    have hslot := Store.buildOnHead_slot hbuilt
    obtain ⟨headState, hstate, -⟩ := Store.buildOnHead_validators hbuilt
    -- the proposer is the one whom the registry gives for the slot
    have hindex := Store.buildOnHead_proposer hbuilt hstate
    have hregistry := h.proposes.registry_eq.of_states_eq
      (Store.getProposalHead_sameTree hs₀).states
    rw [hregistry _ headState hstate] at hindex
    obtain rfl : root = built.block.hashTreeRoot E := by
      simpa [Store.producedRoot, hcall] using hroot
    -- a block that others build on is known, so it is an own block of this slot
    have hown : built.block.hashTreeRoot E ∈ n.produced := by
      refine (h.knows.waiting _ hwaits).elim (fun hknown => ?_) id
      rcases h.owns built.block hknown with hgenesis | hown
      · rw [hgenesis] at hpos
        exact absurd hpos (by simp [genesisBlock])
      · refine hown service hvs ?_
        rw [hslot, ← hindex]
        exact ValidatorService.mem_of_getProposerForSlot howner
    obtain ⟨-, block, -, hblock, -⟩ := h.proposes.owned _ hown
    obtain rfl := Block.hashTreeRoot_injective hE (h.tree.keyed _ block hblock)
    -- but then the slot is marked, and the node would not propose again
    exact hmay.not_proposed ((h.proposes.past _ hown _ hblock).2 hmay.running hslot)
  · exact absurd hroot (by simp [Store.producedRoot, hcall])

end Unawaited

/-! ## Every delivered block is decided -/

section Network

variable {E : Env} {g : State} {ι : Type} [DecidableEq ι]
  {service : ι → Option ValidatorService} {anchor : SignedBlockWithAttestation}
  {config : ι → Config} {log : List (ι × ChainEvent)} {net : ι → Node} {time : ℕ}
  {validators : List Validator}

/-- A block of the network for a slot of the own validators is an own block. -/
theorem chainNetwork_owns (hE : E.HashIdeal)
    (hdisjoint : ∀ i j vs vs', service i = some vs → service j = some vs' → i ≠ j →
      ∀ v ∈ vs.validatorIndices, v ∉ vs'.validatorIndices)
    (hnet : (chainNetwork E service).Run (startTogether E g anchor config) log net) (i : ι) :
    (net i).OwnsKnown E g (service i)
      ({genesisRoot E g} ∪ ⋃ j, {root | root ∈ (net j).produced}) := by
  rintro block (hgenesis | hmade)
  · exact Or.inl (Block.hashTreeRoot_injective hE (Set.mem_singleton_iff.mp hgenesis))
  · refine Or.inr fun vs hvs hmem => ?_
    obtain ⟨j, hj⟩ := Set.mem_iUnion.mp hmade
    obtain ⟨vs', block', hvs', hblock', hmem'⟩ := (chainNetwork_proposes hE hnet j).owned _ hj
    obtain rfl := Block.hashTreeRoot_injective hE
      ((chainNetwork_proposes hE hnet j).keyed _ block' hblock')
    have hsame : i = j := by
      by_contra hne
      exact hdisjoint i j vs vs' hvs hvs' hne _ hmem hmem'
    rw [hsame]
    exact hj

/-- In a run of the network, a delivered block is stored or rejected, or its parent is missing. -/
theorem chainNetwork_syncs (hE : E.HashIdeal)
    (hg : generateGenesisWithValidators E time validators = .ok g)
    (hanchor : anchor.block = genesisBlock E g)
    (hdisjoint : ∀ i j vs vs', service i = some vs → service j = some vs' → i ≠ j →
      ∀ v ∈ vs.validatorIndices, v ∉ vs'.validatorIndices)
    (hnet : (chainNetwork E service).Run (startTogether E g anchor config) log net) (i : ι) :
    (net i).fault = none → (net i).Syncs E g (fun _ => True)
      fun b => b ∈ (Parties.eventsAt log i).flatMap deliveredBy := by
  refine hnet.invariant (I := fun _ events node => node.fault = none →
    node.Syncs E g (fun _ => True) fun b => b ∈ events.flatMap deliveredBy) ?_ ?_ i
  · intro i _
    have hstart := Node.Syncs.start hg hanchor (config i) fun _ => True
    exact { hstart with covers := hstart.covers.mono fun b hb => absurd hb (by simp) }
  · intro log net i event hrun hbefore henabled hrunning
    -- before the step each node knows only what was produced
    have htraced := hrun.traced (chainNetwork_traces E service)
      (startTogether_held E hanchor config)
    have hbetween : (net i).Between E g (service i)
        ({genesisRoot E g} ∪ ⋃ j, {root | root ∈ (net j).produced}) := {
      tree := ((chainNetwork_node hrun i).anchored hg hE hanchor).sound.tree
      proposes := chainNetwork_proposes hE hrun i
      knows := Node.knows_iff.mpr ((htraced i).trans Set.subset_union_left)
      owns := chainNetwork_owns hE hdisjoint hrun i }
    -- and so is what the step delivers
    have htold := ChainEvent.delivered_known
      ((chainNetwork_traces E service).told htraced henabled)
    have hstep := (hbefore i (Node.running_of_step hrunning)).step hE
      (fun n n' hact hn => hn.act hE htold hact) (fun n hn => hn.unawaited hg hE) hbetween hrunning
    refine { hstep with covers := hstep.covers.mono fun b hb => ?_ }
    rw [List.flatMap_append, List.mem_append] at hb
    exact hb.imp_right fun hb => by simpa using hb

/-! ## Convergence -/

/-- A node that has sent or received every block of the network stores every block that another
    node stores. -/
theorem stored_everywhere (hE : E.HashIdeal)
    (hg : generateGenesisWithValidators E time validators = .ok g) {node other : Node}
    {made : Set H256} {watched : SignedBlockWithAttestation → Prop}
    (hsyncs : node.Syncs E g (fun _ => True) watched)
    (htree : other.store.Tree E g fun _ => True)
    (hfrom : ∀ root ∈ other.store.blocks, root ∈ {genesisRoot E g} ∪ made)
    (harrived : ∀ root ∈ made, root ∈ node.store.blocks ∨
      ∃ sb, watched sb ∧ sb.block.hashTreeRoot E = root)
    {root : H256} {block : Block} (hblock : other.store.blocks.lookup root = some block) :
    root ∈ node.store.blocks := by
  -- by induction on the slot: the parent of the block arrives first
  induction hslot : block.slot using Nat.strong_induction_on generalizing root block with
  | _ slot ih =>
    subst hslot
    have hroot : root ∈ other.store.blocks := AList.lookup_isSome.mp (by rw [hblock]; rfl)
    rcases eq_or_ne root (genesisRoot E g) with rfl | hne
    · exact AList.lookup_isSome.mp (by rw [hsyncs.tree.anchor_block]; rfl)
    rcases harrived root ((hfrom root hroot).resolve_left hne) with hstored | ⟨sb, hsb, rfl⟩
    · exact hstored
    obtain rfl := Block.hashTreeRoot_injective hE (htree.keyed _ block hblock)
    obtain ⟨pblock, pstate, sb', state, hpblock, -, hsb', -, -, htrans, hacc⟩ :=
      htree.exists_parent hE hblock hne
    have hlt : pblock.slot < sb.block.slot := by
      have hslot' := hacc.slot_lt hg hE htrans
      rwa [hsb'] at hslot'
    -- the parent has the same state here as there
    have hparent : sb.block.parentRoot ∈ node.store.blocks := ih pblock.slot hlt hpblock rfl
    obtain ⟨pblock', hpblock'⟩ := AList.mem_iff_exists_lookup.mp hparent
    obtain rfl := htree.keyed.lookup_eq hE hsyncs.tree.keyed hpblock hpblock'
    obtain ⟨pstate', hpstate', hacc'⟩ := hsyncs.tree.accepted _ _ hpblock'
    obtain rfl := hacc.state_unique hE hacc'
    rw [State.stateTransition_congr hsb'] at htrans
    have hdecided : node.store.Decided E sb :=
      (hsyncs.covers.decided_or_missing hsb trivial).resolve_right fun hmissing =>
        hmissing (AList.lookup_isSome.mp (by rw [hpstate']; rfl))
    rcases hdecided with hstored | hzero | ⟨parent, msg, hlookup, hreject⟩
    · exact hstored
    · exact absurd (hzero ▸ hparent) (hsyncs.tree.keyed.zero_not_mem hE)
    · obtain rfl := Option.some.inj (hpstate'.symm.trans hlookup)
      exact absurd (htrans.symm.trans hreject) (by simp)

/-- Once each block that was sent has been sent or received by every node, and each block that was
    produced has been sent, all nodes store the same blocks with the same states, whatever the
    order in which messages and ticks came. -/
theorem delivered_blocks_converge (hE : E.HashIdeal)
    (hg : generateGenesisWithValidators E time validators = .ok g)
    (hanchor : anchor.block = genesisBlock E g)
    (hdisjoint : ∀ i j vs vs', service i = some vs → service j = some vs' → i ≠ j →
      ∀ v ∈ vs.validatorIndices, v ∉ vs'.validatorIndices)
    (hnet : (chainNetwork E service).Run (startTogether E g anchor config) log net)
    (hrunning : ∀ i, (net i).fault = none)
    (hsent : ∀ i, ∀ root ∈ (net i).produced, ∃ sb,
      .gossipBlockWithAttestation sb ∈ (net i).outbound ∧ sb.block.hashTreeRoot E = root)
    (hdelivered : ∀ i j sb, .gossipBlockWithAttestation sb ∈ (net j).outbound →
      .gossipBlockWithAttestation sb ∈ (net i).outbound ∨
        sb ∈ (Parties.eventsAt log i).flatMap deliveredBy) :
    ∀ i j root, (net i).store.blocks.lookup root = (net j).store.blocks.lookup root ∧
      (net i).store.states.lookup root = (net j).store.states.lookup root := by
  have htree : ∀ i, (net i).store.Tree E g fun _ => True :=
    fun i => ((chainNetwork_node hnet i).anchored hg hE hanchor).sound.tree
  have htraced := hnet.traced (chainNetwork_traces E service) (startTogether_held E hanchor config)
  -- a block of one node was produced, hence sent, hence sent or received here
  have hstored : ∀ i j root, root ∈ (net j).store.blocks → root ∈ (net i).store.blocks := by
    intro i j root hroot
    obtain ⟨block, hblock⟩ := AList.mem_iff_exists_lookup.mp hroot
    refine stored_everywhere hE hg
      (chainNetwork_syncs hE hg hanchor hdisjoint hnet i (hrunning i)) (htree j)
      (fun root hroot => htraced j (Or.inl hroot)) (fun root hmade => ?_) hblock
    obtain ⟨k, hk⟩ := Set.mem_iUnion.mp hmade
    obtain ⟨sb, hsb, rfl⟩ := hsent k root hk
    rcases hdelivered i k sb hsb with hown | harrived
    · exact Or.inl (((chainNetwork_node hnet i).vouches hE hg hanchor).blocks sb hown)
    · exact Or.inr ⟨sb, harrived, rfl⟩
  intro i j root
  -- a root determines its block, and a block its state
  by_cases hroot : root ∈ (net i).store.blocks
  · obtain ⟨block, hblock⟩ := AList.mem_iff_exists_lookup.mp hroot
    obtain ⟨block', hblock'⟩ := AList.mem_iff_exists_lookup.mp (hstored j i root hroot)
    obtain rfl := (htree i).keyed.lookup_eq hE (htree j).keyed hblock hblock'
    obtain ⟨state, hstate, hacc⟩ := (htree i).accepted root block hblock
    obtain ⟨state', hstate', hacc'⟩ := (htree j).accepted root block hblock'
    obtain rfl := hacc.state_unique hE hacc'
    exact ⟨hblock.trans hblock'.symm, hstate.trans hstate'.symm⟩
  · have hroot' : root ∉ (net j).store.blocks := fun h => hroot (hstored i j root h)
    rw [AList.lookup_eq_none.mpr hroot, AList.lookup_eq_none.mpr hroot',
      AList.lookup_eq_none.mpr fun h => hroot ((htree i).block_of_state root h),
      AList.lookup_eq_none.mpr fun h => hroot' ((htree j).block_of_state root h)]
    exact ⟨rfl, rfl⟩

end Network

namespace PairChain

/-- Both nodes have sent both blocks. -/
theorem crossing_outbound (i : Bool) (sb : SignedBlockWithAttestation) :
    .gossipBlockWithAttestation sb ∈ (netAfter crossing i).outbound ↔
      sb = own ∨ sb = foreign foreignSignature := by
  have hout : (netAfter crossing true).outbound =
      [.gossipBlockWithAttestation own, .gossipBlockWithAttestation (foreign foreignSignature)] ∧
    (netAfter crossing false).outbound =
      [.gossipBlockWithAttestation (foreign foreignSignature),
        .gossipBlockWithAttestation own] := by
    decide +kernel
  cases i with
  | true => simp [hout.1]
  | false => simp [hout.2, or_comm]

theorem crossing_produced (i : Bool) : ∀ root ∈ (netAfter crossing i).produced, ∃ sb,
    .gossipBlockWithAttestation sb ∈ (netAfter crossing i).outbound ∧
      sb.block.hashTreeRoot env = root := by
  have hproduced : (netAfter crossing true).produced = [own.block.hashTreeRoot env] ∧
      (netAfter crossing false).produced =
        [(foreign foreignSignature).block.hashTreeRoot env] := by
    decide +kernel
  intro root hroot
  cases i with
  | true =>
    rw [hproduced.1] at hroot
    obtain rfl := List.mem_singleton.mp hroot
    exact ⟨own, (crossing_outbound true _).mpr (Or.inl rfl), rfl⟩
  | false =>
    rw [hproduced.2] at hroot
    obtain rfl := List.mem_singleton.mp hroot
    exact ⟨foreign foreignSignature, (crossing_outbound false _).mpr (Or.inr rfl), rfl⟩

end PairChain

/-- Each node proposes a block before that of the other one arrives; then both store the same. -/
theorem pair_of_nodes_converges :
    (PairChain.netAfter PairChain.crossing true).produced = [2] ∧
      (PairChain.netAfter PairChain.crossing false).produced = [3] ∧
      ∀ root, (PairChain.netAfter PairChain.crossing true).store.blocks.lookup root =
          (PairChain.netAfter PairChain.crossing false).store.blocks.lookup root ∧
        (PairChain.netAfter PairChain.crossing true).store.states.lookup root =
          (PairChain.netAfter PairChain.crossing false).store.states.lookup root := by
  refine ⟨by decide +kernel, by decide +kernel,
    delivered_blocks_converge (Env.tabulated_hashIdeal _) PairChain.genesis_eq
      PairChain.anchor_eq PairChain.services_disjoint PairChain.crossing_run ?_
      PairChain.crossing_produced ?_ true false⟩
  · decide +kernel
  · intro i j sb hsb
    exact Or.inl ((PairChain.crossing_outbound i sb).mpr
      ((PairChain.crossing_outbound j sb).mp hsb))

end ConsensusClient
