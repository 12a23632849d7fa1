import ConsensusClient.Lib.Parties
import ConsensusClient.Networking.Gossip
import ConsensusClient.Node.Messages

/-!
# A Network of Nodes

Nodes that run the chain task and exchange blocks and votes by gossip. Gossip is the only way by
which blocks spread, since the network service answers every request for blocks with an empty
list. A node proposes at most one block in a slot and knows only blocks that were proposed, so the
network has one block for each slot, in whichever order the messages arrive.

## Main results

* `Node.Proposes.act`: the blocks that a node produced, one for a slot and of its own proposers
* `Node.Knows.act`: the blocks that a node has heard of were produced by some node
* `chainNetwork_traces`: the two as a system of parties
* `network_has_one_block_per_slot`: what follows for the blocks of all nodes together
-/

namespace ConsensusClient

/-! ## Own blocks -/

/-- What is known about the blocks that the node produced: they are stored, for slots of its own
    validators, one for each slot and none in the future. -/
structure Node.Proposes (E : Env) (registry : List Validator) (vs : Option ValidatorService)
    (node : Node) : Prop where
  keyed : node.store.Keyed E
  registry_eq : node.store.HasRegistry registry
  owned : ∀ root ∈ node.produced, ∃ service block, vs = some service ∧
    node.store.blocks.lookup root = some block ∧
    block.slot % registry.length ∈ service.validatorIndices
  past : ∀ root ∈ node.produced, ∀ block, node.store.blocks.lookup root = some block →
    block.slot ≤ node.slot ∧
      (node.fault = none → block.slot = node.slot → node.lastProposalSlot = some node.slot)
  once : ∀ root ∈ node.produced, ∀ root' ∈ node.produced, ∀ block block',
    node.store.blocks.lookup root = some block → node.store.blocks.lookup root' = some block' →
    block.slot = block'.slot → root = root'

section Proposes

variable {E : Env} {registry : List Validator} {vs : Option ValidatorService}
  {event : ChainEvent} {n n' : Node}

theorem Node.slot_le_of_advances (h : n.store.Advances n'.store) : n.slot ≤ n'.slot :=
  Nat.div_le_div_right h.time_le

theorem ValidatorService.mem_of_getProposerForSlot {service : ValidatorService}
    {slot proposerIndex : ℕ} (h : service.getProposerForSlot slot = some proposerIndex) :
    proposerIndex ∈ service.validatorIndices := by
  unfold ValidatorService.getProposerForSlot at h
  split_ifs at h with hcount hmem
  obtain rfl := Option.some.inj h
  exact hmem

/-- Nothing is produced, and the store only grows. -/
theorem Node.Proposes.frame (h : n.Proposes E registry vs) (hkeyed : n'.store.Keyed E)
    (hregistry : n'.store.HasRegistry registry) (hadv : n.store.Advances n'.store)
    (hproduced : n'.produced = n.produced)
    (hlast : n'.lastProposalSlot = n.lastProposalSlot)
    (hfault : n'.fault = none → n.fault = none) : n'.Proposes E registry vs := by
  have hslot := Node.slot_le_of_advances hadv
  -- an own block is looked up as before
  have hback : ∀ root ∈ n.produced, ∀ block, n'.store.blocks.lookup root = some block →
      n.store.blocks.lookup root = some block := by
    intro root hroot block hblock
    obtain ⟨-, block', -, hblock', -⟩ := h.owned root hroot
    rw [hadv.blocks_lookup root block' hblock'] at hblock
    rw [hblock', hblock]
  refine ⟨hkeyed, hregistry, ?_, ?_, ?_⟩
  · intro root hroot
    rw [hproduced] at hroot
    obtain ⟨service, block, hvs, hblock, hmem⟩ := h.owned root hroot
    exact ⟨service, block, hvs, hadv.blocks_lookup root block hblock, hmem⟩
  · intro root hroot block hblock
    rw [hproduced] at hroot
    obtain ⟨hle, hcurrent⟩ := h.past root hroot block (hback root hroot block hblock)
    refine ⟨hle.trans hslot, fun hrunning heq => ?_⟩
    have hsame : n'.slot = n.slot := le_antisymm (heq ▸ hle) hslot
    rw [hlast, hsame]
    exact hcurrent (hfault hrunning) (heq.trans hsame)
  · intro root hroot root' hroot' block block' hblock hblock'
    rw [hproduced] at hroot hroot'
    exact h.once root hroot root' hroot' block block' (hback root hroot block hblock)
      (hback root' hroot' block' hblock')

/-- What a proposal adds: nothing, or a block of the proposer of the current slot. -/
theorem Node.MayPropose.producedRoot_cases (hregistry : n.store.HasRegistry registry)
    {orders : IterationOrders} {proposerIndex : ℕ} {proposal : Proposal}
    (h : n.MayPropose E vs orders proposerIndex proposal) :
    n.store.producedRoot E orders n.slot proposerIndex = [] ∨
      ∃ block, n.store.producedRoot E orders n.slot proposerIndex = [block.hashTreeRoot E] ∧
        block.slot = n.slot ∧ proposerIndex = n.slot % registry.length ∧
        proposal.store.blocks.lookup (block.hashTreeRoot E) = some block := by
  obtain ⟨service, -, -, hproposal⟩ := h.owner
  obtain ⟨s₀, hs₀, hcases⟩ := ValidatorService.buildBlockProposal_cases hproposal
  unfold Store.producedRoot
  rcases hcases with ⟨built, hbuilt, hstore, -, hcall⟩ | ⟨-, msg, hcall⟩
  · obtain ⟨headState, hstate, -⟩ := Store.buildOnHead_validators hbuilt
    have howner := Store.buildOnHead_proposer hbuilt hstate
    have hsame := hregistry.of_states_eq (Store.getProposalHead_sameTree hs₀).states
    rw [hsame _ headState hstate] at howner
    refine Or.inr ⟨built.block, by rw [hcall], Store.buildOnHead_slot hbuilt, howner, ?_⟩
    rw [hstore]
    exact AList.lookup_insert s₀.blocks
  · exact Or.inl (by rw [hcall])

/-- A proposal keeps the invariant, since the slot was marked before if it was used before. -/
theorem Node.Proposes.withProposal (hE : E.HashIdeal) (h : n.Proposes E registry vs)
    {orders : IterationOrders} {proposerIndex : ℕ} {proposal : Proposal}
    (hmay : n.MayPropose E vs orders proposerIndex proposal)
    (hkeyed : n'.store.Keyed E) (hregistry : n'.store.HasRegistry registry)
    (hadv : proposal.store.Advances n'.store)
    (hproduced : n'.produced = n.produced ++ n.store.producedRoot E orders n.slot proposerIndex)
    (hlast : n'.fault = none → n'.lastProposalSlot = some n.slot) :
    n'.Proposes E registry vs := by
  have hstart : n.store.Advances n'.store := by
    have hfirst := hmay.reaches.advances hE h.keyed
    exact ⟨hfirst.time_le.trans hadv.time_le,
      fun root block hb => hadv.blocks_lookup root block (hfirst.blocks_lookup root block hb)⟩
  have hslot := Node.slot_le_of_advances hstart
  -- an own block is an old one of an earlier slot, or the new one of the current slot
  have hcases : ∀ root ∈ n'.produced, ∃ block, n'.store.blocks.lookup root = some block ∧
      ((root ∈ n.produced ∧ block.slot < n.slot ∧ n.store.blocks.lookup root = some block) ∨
        n.store.producedRoot E orders n.slot proposerIndex = [root] ∧ block.slot = n.slot ∧
          proposerIndex = n.slot % registry.length) := by
    intro root hroot
    rw [hproduced, List.mem_append] at hroot
    rcases hroot with hold | hnew
    · obtain ⟨-, block, -, hblock, -⟩ := h.owned root hold
      obtain ⟨hle, hcurrent⟩ := h.past root hold block hblock
      refine ⟨block, hstart.blocks_lookup root block hblock, Or.inl ⟨hold, ?_, hblock⟩⟩
      exact lt_of_le_of_ne hle fun heq => hmay.not_proposed (hcurrent hmay.running heq)
    · rcases hmay.producedRoot_cases h.registry_eq with
        hnone | ⟨block, hroots, hcurrent, howner, hblock⟩
      · rw [hnone] at hnew
        exact absurd hnew (by simp)
      · rw [hroots] at hnew
        obtain rfl := List.mem_singleton.mp hnew
        exact ⟨block, hadv.blocks_lookup _ block hblock, Or.inr ⟨hroots, hcurrent, howner⟩⟩
  refine ⟨hkeyed, hregistry, ?_, ?_, ?_⟩
  · intro root hroot
    obtain ⟨block, hblock, ⟨hold, -, hbefore⟩ | ⟨-, hcurrent, hslot'⟩⟩ := hcases root hroot
    · obtain ⟨service, block', hvs, hblock', hmem⟩ := h.owned root hold
      obtain rfl := Option.some.inj (hbefore.symm.trans hblock')
      exact ⟨service, block, hvs, hblock, hmem⟩
    · -- the new block is of the validator that the service runs
      obtain ⟨service, hvs, howner, -⟩ := hmay.owner
      refine ⟨service, block, hvs, hblock, ?_⟩
      rw [hcurrent, ← hslot']
      exact ValidatorService.mem_of_getProposerForSlot howner
  · intro root hroot block hblock
    obtain ⟨block', hblock', hslots⟩ := hcases root hroot
    obtain rfl := Option.some.inj (hblock.symm.trans hblock')
    -- no own block is after the slot that is marked
    have hle : block.slot ≤ n.slot := by
      rcases hslots with ⟨-, hlt, -⟩ | ⟨-, heq⟩
      · exact hlt.le
      · exact heq.1.le
    refine ⟨hle.trans hslot, fun hrunning heq => ?_⟩
    rw [hlast hrunning, le_antisymm hslot (heq ▸ hle)]
  · intro root hroot root' hroot' block block' hblock hblock' heq
    -- an old and a new block are at different slots
    obtain ⟨b, hb, hslots⟩ := hcases root hroot
    obtain ⟨b', hb', hslots'⟩ := hcases root' hroot'
    obtain rfl := Option.some.inj (hblock.symm.trans hb)
    obtain rfl := Option.some.inj (hblock'.symm.trans hb')
    rcases hslots with ⟨hold, hlt, hbefore⟩ | ⟨hnew, hcurrent, -⟩
    · rcases hslots' with ⟨hold', -, hbefore'⟩ | ⟨-, hcurrent', -⟩
      · exact h.once root hold root' hold' block block' hbefore hbefore' heq
      · omega
    · rcases hslots' with ⟨-, hlt', -⟩ | ⟨hnew', -⟩
      · omega
      · exact List.singleton_injective (hnew.symm.trans hnew')

/-- Every action keeps the invariant of the own blocks. -/
theorem Node.Proposes.act (hE : E.HashIdeal) (h : n.Proposes E registry vs)
    (hact : Node.Act E vs event n n') : n'.Proposes E registry vs := by
  obtain ⟨ops, hrun⟩ := hact.reaches
  have hkeyed := h.keyed.run hrun
  have hregistry := h.registry_eq.run hrun
  have hadv := hact.reaches.advances hE h.keyed
  have hrunning := hact.running
  -- only proposals produce blocks
  cases hact with
  | unsent orders proposerIndex proposal hmay =>
    exact h.withProposal hE hmay hkeyed hregistry ⟨le_rfl, fun _ _ hb => hb⟩ rfl fun _ => rfl
  | lost orders proposerIndex proposal e hmay =>
    exact h.withProposal hE hmay hkeyed hregistry ⟨le_rfl, fun _ _ hb => hb⟩ rfl fun hnone =>
      absurd hnone (by simp)
  | sent orders proposerIndex proposal sb later store hmay hsb hcall =>
    refine h.withProposal hE hmay hkeyed hregistry
      ⟨Store.onTick_time_le hcall, fun root block hb => ?_⟩ rfl fun _ => rfl
    rw [(Store.onTick_sameTree hcall).blocks]
    exact hb
  | _ => exact h.frame hkeyed hregistry hadv rfl rfl hrunning

end Proposes

/-! ## Where blocks come from -/

/-- The roots that the node has to do with are known or its own: the blocks that it stores, that
    wait and that it has sent, and the parents of the latter two. -/
structure Node.Knows (E : Env) (known : Set H256) (node : Node) : Prop where
  blocks : ∀ root ∈ node.store.blocks, root ∈ known ∨ root ∈ node.produced
  states : ∀ root ∈ node.store.states, root ∈ known ∨ root ∈ node.produced
  queued : ∀ sb ∈ node.store.queued,
    sb.block.hashTreeRoot E ∈ known ∨ sb.block.hashTreeRoot E ∈ node.produced
  waiting : ∀ root ∈ node.store.blocksQueue, root ∈ known ∨ root ∈ node.produced
  sent : ∀ sb, .gossipBlockWithAttestation sb ∈ node.outbound →
    ∀ root ∈ [sb.block.hashTreeRoot E, sb.block.parentRoot],
      root ∈ known ∨ root ∈ node.produced

section Knows

variable {E : Env} {known : Set H256} {vs : Option ValidatorService} {event : ChainEvent}
  {n n' : Node}

/-- What is added is produced, and the queue does not grow. -/
theorem Node.Knows.frame (h : n.Knows E known) (hproduced : n.produced ⊆ n'.produced)
    (hblocks : ∀ root ∈ n'.store.blocks, root ∈ n.store.blocks ∨ root ∈ n'.produced)
    (hstates : ∀ root ∈ n'.store.states, root ∈ n.store.states ∨ root ∈ n'.produced)
    (hqueue : n'.store.blocksQueue = n.store.blocksQueue)
    (hsent : ∀ sb, .gossipBlockWithAttestation sb ∈ n'.outbound →
      .gossipBlockWithAttestation sb ∈ n.outbound ∨
        sb.block.hashTreeRoot E ∈ n'.produced ∧ sb.block.parentRoot ∈ n.store.states) :
    n'.Knows E known := by
  -- what was known before still is
  have hkept : ∀ root, root ∈ known ∨ root ∈ n.produced → root ∈ known ∨ root ∈ n'.produced :=
    fun root hroot => hroot.imp_right fun hp => hproduced hp
  refine ⟨fun root hroot => ?_, fun root hroot => ?_, fun sb hsb => ?_, fun root hroot => ?_,
    fun sb hsb => ?_⟩
  · exact (hblocks root hroot).elim (fun hold => hkept root (h.blocks root hold)) Or.inr
  · exact (hstates root hroot).elim (fun hold => hkept root (h.states root hold)) Or.inr
  · rw [Store.queued_congr hqueue] at hsb
    exact hkept _ (h.queued sb hsb)
  · rw [hqueue] at hroot
    exact hkept root (h.waiting root hroot)
  · rcases hsent sb hsb with hold | ⟨hroot, hparent⟩
    · exact fun root hroot => hkept root (h.sent sb hold root hroot)
    · simp only [List.forall_mem_cons, List.not_mem_nil, false_imp_iff, implies_true, and_true]
      exact ⟨Or.inr hroot, hkept _ (h.states _ hparent)⟩

/-- An action that leaves the tree alone and sends no block. -/
theorem Node.Knows.sameTree (h : n.Knows E known) (hsame : SameTree n.store n'.store)
    (hproduced : n'.produced = n.produced)
    (hsent : ∀ sb, .gossipBlockWithAttestation sb ∈ n'.outbound →
      .gossipBlockWithAttestation sb ∈ n.outbound) : n'.Knows E known := by
  refine h.frame (by rw [hproduced]; exact List.Subset.refl _) (fun root hroot => ?_)
    (fun root hroot => ?_) hsame.blocksQueue fun sb hsb => Or.inl (hsent sb hsb)
  · rw [hsame.blocks] at hroot
    exact Or.inl hroot
  · rw [hsame.states] at hroot
    exact Or.inl hroot

/-- A proposal stores and signs the block it produces, on a block that is stored. -/
structure Node.Adds (E : Env) (orders : IterationOrders) (node : Node) (proposerIndex : ℕ)
    (proposal : Proposal) : Prop where
  queue : proposal.store.blocksQueue = node.store.blocksQueue
  blocks : ∀ root ∈ proposal.store.blocks, root ∈ node.store.blocks ∨
    root ∈ node.store.producedRoot E orders node.slot proposerIndex
  states : ∀ root ∈ proposal.store.states, root ∈ node.store.states ∨
    root ∈ node.store.producedRoot E orders node.slot proposerIndex
  signed : ∀ sb, proposal.signed.result = .ok sb →
    sb.block.hashTreeRoot E ∈ node.store.producedRoot E orders node.slot proposerIndex ∧
      sb.block.parentRoot ∈ node.store.states

theorem Node.MayPropose.adds {orders : IterationOrders} {proposerIndex : ℕ} {proposal : Proposal}
    (h : n.MayPropose E vs orders proposerIndex proposal) :
    n.Adds E orders proposerIndex proposal := by
  obtain ⟨service, -, -, hproposal⟩ := h.owner
  obtain ⟨s₀, hs₀, hcases⟩ := ValidatorService.buildBlockProposal_cases hproposal
  have hsame := Store.getProposalHead_sameTree hs₀
  -- a block is built and stored, or the production fails
  rcases hcases with ⟨built, hbuilt, hstore, hsigned, hcall⟩ | ⟨rfl, msg, hcall⟩
  · have hnew : built.block.hashTreeRoot E ∈
        n.store.producedRoot E orders n.slot proposerIndex := by
      simp [Store.producedRoot, hcall]
    refine ⟨by rw [hstore]; exact hsame.blocksQueue, fun root hroot => ?_, fun root hroot => ?_,
      fun sb hsb => ?_⟩
    · rw [hstore] at hroot
      rcases (AList.mem_insert s₀.blocks).mp hroot with rfl | hold
      · exact Or.inr hnew
      · exact Or.inl (hsame.blocks ▸ hold)
    · rw [hstore] at hroot
      rcases (AList.mem_insert s₀.states).mp hroot with rfl | hold
      · exact Or.inr hnew
      · exact Or.inl (hsame.states ▸ hold)
    · have hblock := (ValidatorService.signBlock_eq_ok hsigned).2 sb hsb
      obtain ⟨hparent, headState, hstate, -⟩ := Store.buildOnHead_transition hbuilt sb hblock
      rw [hblock]
      refine ⟨hnew, ?_⟩
      rw [hparent, ← hsame.states]
      exact AList.lookup_isSome.mp (by rw [hstate]; rfl)
  · exact ⟨hsame.blocksQueue, fun root hroot => Or.inl (hsame.blocks ▸ hroot),
      fun root hroot => Or.inl (hsame.states ▸ hroot), fun sb hsb => absurd hsb (by simp)⟩

/-- A proposal leaves everything known, if the block that it sends is the one it signed. -/
theorem Node.Knows.withProposal (h : n.Knows E known) {orders : IterationOrders}
    {proposerIndex : ℕ} {proposal : Proposal}
    (hmay : n.MayPropose E vs orders proposerIndex proposal)
    (hsame : SameTree proposal.store n'.store)
    (hproduced : n'.produced = n.produced ++ n.store.producedRoot E orders n.slot proposerIndex)
    (hsent : ∀ sb, .gossipBlockWithAttestation sb ∈ n'.outbound →
      .gossipBlockWithAttestation sb ∈ n.outbound ∨ proposal.signed.result = .ok sb) :
    n'.Knows E known := by
  have hadds := hmay.adds
  refine h.frame ?_ (fun root hroot => ?_) (fun root hroot => ?_)
    (hsame.blocksQueue.trans hadds.queue) fun sb hsb => ?_
  · rw [hproduced]
    exact List.subset_append_left _ _
  · rw [hsame.blocks] at hroot
    rw [hproduced]
    exact (hadds.blocks root hroot).imp_right (List.mem_append_right _)
  · rw [hsame.states] at hroot
    rw [hproduced]
    exact (hadds.states root hroot).imp_right (List.mem_append_right _)
  · refine (hsent sb hsb).imp_right fun hsigned => ?_
    obtain ⟨hroot, hparent⟩ := hadds.signed sb hsigned
    rw [hproduced]
    exact ⟨List.mem_append_right _ hroot, hparent⟩

/-- The queue waits for the parents it waited for before, and for that of the delivered block. -/
theorem Store.mem_blocksQueue_onBlock {store : Store} {sb : SignedBlockWithAttestation}
    {after : After Store (List SignedBlockWithAttestation)} (hcall : store.onBlock E sb = .ok after)
    {root : H256} (hroot : root ∈ after.state.blocksQueue) :
    root ∈ store.blocksQueue ∨ root = sb.block.parentRoot := by
  refine meets_true.mp (Store.onBlock_meets (I := fun s _ _ =>
    ∀ root ∈ s.blocksQueue, root ∈ store.blocksQueue ∨ root = sb.block.parentRoot) ?_ ?_ ?_
    (fun _ _ h => Or.inl h) ?_ fun _ _ _ h => Or.inl h) after hcall root hroot
  · intro s roots b rest hs
    refine meets_true.mpr fun after hafter root hroot => hs root ?_
    rwa [Store.processBlockInternal_queue hafter] at hroot
  · exact fun s root roots hs _ => hs
  · exact fun s root roots blocks hs _ r hr => hs r (AList.mem_erase.mp hr).2
  · intro _ _ _ root hroot
    exact ((AList.mem_insert store.blocksQueue).mp hroot).symm

/-- A block that was delivered is known, and so are those that it sets free. -/
theorem Node.Knows.received (h : n.Knows E known) {sb : SignedBlockWithAttestation}
    {shouldGossip : Bool} {after : After Store (List SignedBlockWithAttestation)}
    (hsb : ∀ root ∈ [sb.block.hashTreeRoot E, sb.block.parentRoot], root ∈ known)
    (hcall : n.store.onBlock E sb = .ok after) :
    (n.received sb shouldGossip after).Knows E known := by
  obtain ⟨store', r⟩ := after
  -- the imported blocks come from the message or from the queue
  have hboth : ((∀ root ∈ store'.blocks, root ∈ known ∨ root ∈ n.produced) ∧
      ∀ root ∈ store'.states, root ∈ known ∨ root ∈ n.produced) ∧
      ∀ b ∈ store'.queued, b.block.hashTreeRoot E ∈ known ∨
        b.block.hashTreeRoot E ∈ n.produced := by
    refine Store.onBlock_induction
      (Q := fun b => b.block.hashTreeRoot E ∈ known ∨ b.block.hashTreeRoot E ∈ n.produced)
      (P := fun s _ => (∀ root ∈ s.blocks, root ∈ known ∨ root ∈ n.produced) ∧
        ∀ root ∈ s.states, root ∈ known ∨ root ∈ n.produced)
      (fun s _ queue hs => hs) ?_ (Or.inl (hsb _ (by simp))) ⟨h.blocks, h.states⟩ h.queued hcall
    intro s _ b s' parent post head hb hs himp
    obtain ⟨hblocks, hstates⟩ := himp.blocks_eq
    rw [hblocks, hstates]
    simp only [AList.mem_insert, forall_eq_or_imp]
    exact ⟨⟨hb, hs.1⟩, hb, hs.2⟩
  refine ⟨hboth.1.1, hboth.1.2, hboth.2, fun root hroot => ?_, fun sb' hsb' => ?_⟩
  · -- the queue waits for the parent of the delivered block at most
    rcases Store.mem_blocksQueue_onBlock hcall hroot with hold | rfl
    · exact h.waiting root hold
    · exact Or.inl (hsb _ (by simp))
  · rcases List.mem_append.mp hsb' with hold | hnew
    · exact h.sent sb' hold
    · obtain ⟨rfl, -⟩ := block_mem_reactionTo hnew
      exact fun root hroot => Or.inl (hsb root hroot)

/-- Every action keeps the blocks of the node known, if the delivered one is. -/
theorem Node.Knows.act
    (hevent : ∀ sb ∈ deliveredBy event, ∀ root ∈ [sb.block.hashTreeRoot E, sb.block.parentRoot],
      root ∈ known) (h : n.Knows E known) (hact : Node.Act E vs event n n') :
    n'.Knows E known := by
  -- ticks and votes leave the tree alone; proposals and deliveries do not
  cases hact with
  | ticked time store hcall => exact h.sameTree (Store.onTick_sameTree hcall) rfl fun _ hsb => hsb
  | heard sa shouldGossip after hcall =>
    refine h.sameTree (Store.onAttestation_frame hcall).1 rfl fun sb hsb => ?_
    rcases List.mem_append.mp hsb with hold | hnew
    · exact hold
    · split_ifs at hnew
      · exact absurd (List.mem_singleton.mp hnew) (by simp)
      · exact absurd hnew (by simp)
  | unsent orders proposerIndex proposal hmay =>
    exact h.withProposal hmay (SameTree.refl _) rfl fun sb hsb => Or.inl hsb
  | lost orders proposerIndex proposal e hmay =>
    exact h.withProposal hmay (SameTree.refl _) rfl fun sb hsb => Or.inl hsb
  | sent orders proposerIndex proposal sb later store hmay hsb hcall =>
    refine h.withProposal hmay (Store.onTick_sameTree hcall) rfl fun sb' hsb' => ?_
    refine (List.mem_append.mp hsb').imp_right fun hnew => ?_
    obtain rfl := OutboundP2pRequest.gossipBlockWithAttestation.inj (List.mem_singleton.mp hnew)
    exact hsb
  | delivered sb shouldGossip now after hdelivered hcall =>
    subst hdelivered
    exact h.received (hevent sb (List.mem_singleton.mpr rfl)) hcall
  | _ => exact h.sameTree (SameTree.refl _) rfl fun _ hsb => hsb

theorem Node.Act.produced_subset (h : Node.Act E vs event n n') : n.produced ⊆ n'.produced := by
  cases h with
  | unsent orders proposerIndex proposal hmay => exact List.subset_append_left _ _
  | lost orders proposerIndex proposal e hmay => exact List.subset_append_left _ _
  | sent orders proposerIndex proposal sb later store hmay hsb hcall =>
    exact List.subset_append_left _ _
  | _ => exact List.Subset.refl _

end Knows

/-! ## The network -/

/-- The message of the network that an event delivers. -/
def ChainEvent.gossip : ChainEvent → Option GossipsubMessage
  | .tick _ _ _ => none
  | .message (.processBlock sb _) _ => some (.block sb)
  | .message (.processAttestation sa _) _ => some (.attestation sa)

/-- Nodes that run the chain task, each with its validators, and pass messages by gossip. -/
def chainNetwork {ι : Type} (E : Env) (service : ι → Option ValidatorService) :
    Parties ι Node ChainEvent GossipsubMessage where
  step := fun i node event => node.step E (service i) event
  delivers := ChainEvent.gossip
  sent := fun node => {message | message.request ∈ node.outbound}

/-- All nodes start with one genesis block. -/
def startTogether {ι : Type} (E : Env) (g : State) (anchor : SignedBlockWithAttestation)
    (config : ι → Config) : ι → Node :=
  fun i => Node.start (getForkchoiceStore E g anchor (config i))

/-- The roots that a node has to do with: of the blocks that it stores, that wait there and that
    it has sent, and of the parents of the latter two. -/
def Node.held (E : Env) (node : Node) : Set H256 :=
  {root | root ∈ node.store.blocks ∨ root ∈ node.store.states ∨
    (∃ sb ∈ node.store.queued, sb.block.hashTreeRoot E = root) ∨ root ∈ node.store.blocksQueue ∨
    ∃ sb, .gossipBlockWithAttestation sb ∈ node.outbound ∧
      root ∈ [sb.block.hashTreeRoot E, sb.block.parentRoot]}

/-- The roots of the block in a message and of its parent. -/
def GossipsubMessage.roots (E : Env) : GossipsubMessage → Set H256
  | .block sb => {root | root ∈ [sb.block.hashTreeRoot E, sb.block.parentRoot]}
  | .attestation _ => ∅

section Network

variable {E : Env} {g : State} {ι : Type} {service : ι → Option ValidatorService} {node : Node}

theorem Node.knows_iff {known : Set H256} :
    node.Knows E known ↔ node.held E ⊆ known ∪ {root | root ∈ node.produced} := by
  constructor
  · rintro h root (hroot | hroot | ⟨sb, hsb, rfl⟩ | hroot | ⟨sb, hsb, hroot⟩)
    · exact h.blocks root hroot
    · exact h.states root hroot
    · exact h.queued sb hsb
    · exact h.waiting root hroot
    · exact h.sent sb hsb root hroot
  · intro h
    exact {
      blocks := fun root hroot => h (Or.inl hroot)
      states := fun root hroot => h (Or.inr (Or.inl hroot))
      queued := fun sb hsb => h (Or.inr (Or.inr (Or.inl ⟨sb, hsb, rfl⟩)))
      waiting := fun root hroot => h (Or.inr (Or.inr (Or.inr (Or.inl hroot))))
      sent := fun sb hsb root hroot => h (Or.inr (Or.inr (Or.inr (Or.inr ⟨sb, hsb, hroot⟩)))) }

/-- What an event delivers is known if the message that it comes from is. -/
theorem ChainEvent.delivered_known {event : ChainEvent} {known : Set H256}
    (htold : ∀ message ∈ event.gossip, message.roots E ⊆ known) :
    ∀ sb ∈ deliveredBy event, ∀ root ∈ [sb.block.hashTreeRoot E, sb.block.parentRoot],
      root ∈ known := by
  intro sb hsb root hroot
  cases event with
  | tick now later orders => exact absurd hsb (by simp [deliveredBy])
  | message message now =>
    cases message with
    | processAttestation sa shouldGossip => exact absurd hsb (by simp [deliveredBy])
    | processBlock sb' shouldGossip =>
      obtain rfl := List.mem_singleton.mp hsb
      exact htold (.block sb) rfl hroot

/-- The blocks that a node holds come from other nodes, or it has produced them. -/
theorem chainNetwork_traces (E : Env) (service : ι → Option ValidatorService) :
    (chainNetwork E service).Traces (Node.held E) (fun node => {root | root ∈ node.produced})
      (GossipsubMessage.roots E) where
  made_mono := by
    intro i node event root hroot
    exact Node.Act.step (P := fun n => root ∈ n.produced)
      (fun n n' hact hn => hact.produced_subset hn) hroot
  held_step := by
    intro i node event known hheld htold
    have hknows : node.Knows E known := Node.knows_iff.mpr (hheld.trans Set.subset_union_left)
    exact Node.knows_iff.mp (Node.Act.step
      (fun n n' hact hn => hn.act (ChainEvent.delivered_known htold) hact) hknows)
  sent_held := by
    intro node message hsent root hroot
    cases message with
    | attestation sa => exact absurd hroot (by simp [GossipsubMessage.roots])
    | block sb => exact Or.inr (Or.inr (Or.inr (Or.inr ⟨sb, hsent, hroot⟩)))

variable [DecidableEq ι] {anchor : SignedBlockWithAttestation} {config : ι → Config}
  {log : List (ι × ChainEvent)} {net : ι → Node}

/-- Each node of the network has run the chain task. -/
theorem chainNetwork_node
    (h : (chainNetwork E service).Run (startTogether E g anchor config) log net) (i : ι) :
    (net i).Reached E g anchor :=
  ⟨config i, service i, Parties.eventsAt log i, h.local_eq i⟩

theorem chainNetwork_proposes (hE : E.HashIdeal)
    (h : (chainNetwork E service).Run (startTogether E g anchor config) log net) (i : ι) :
    (net i).Proposes E g.validators (service i) := by
  rw [← h.local_eq i]
  refine Node.run_of_act (fun event n n' hact hn => hn.act hE hact) _ ?_
  refine ⟨?_, Store.HasRegistry.anchor E g anchor (config i),
    by simp [startTogether, Node.start], by simp [startTogether, Node.start],
    by simp [startTogether, Node.start]⟩
  have hstart : ReachedFromAnchor E (getForkchoiceStore E g anchor (config i)) []
      (getForkchoiceStore E g anchor (config i)) := ⟨⟨g, anchor, config i, rfl⟩, rfl⟩
  exact hstart.keyed

omit [DecidableEq ι] in
/-- At the start there is the genesis block only. -/
theorem startTogether_held (E : Env) (hanchor : anchor.block = genesisBlock E g)
    (config : ι → Config) (i : ι) :
    (startTogether E g anchor config i).held E ⊆ {genesisRoot E g} := by
  have hsingle : ∀ root, root = anchor.block.hashTreeRoot E →
      root ∈ ({genesisRoot E g} : Set H256) := by
    rintro root rfl
    rw [hanchor]
    rfl
  rintro root (hroot | hroot | ⟨sb, hsb, -⟩ | hroot | ⟨sb, hsb, -⟩)
  · exact hsingle root (List.mem_singleton.mp hroot)
  · exact hsingle root (List.mem_singleton.mp hroot)
  · exact absurd hsb (by simp [startTogether, Node.start, Store.queued, getForkchoiceStore])
  · exact absurd hroot (by simp [startTogether, Node.start, getForkchoiceStore])
  · exact absurd hsb (by simp [startTogether, Node.start])

/-- In every run of the network, whatever is delivered when and how often: each stored block but
    the genesis block was produced by a node that runs the proposer of its slot, and if no two
    nodes run the same validator then there is one block for each slot, at all nodes together. -/
theorem network_has_one_block_per_slot {time : ℕ} {validators : List Validator}
    (hE : E.HashIdeal) (hg : generateGenesisWithValidators E time validators = .ok g)
    (hanchor : anchor.block = genesisBlock E g)
    (hnet : (chainNetwork E service).Run (startTogether E g anchor config) log net) :
    (∀ i root block, (net i).store.blocks.lookup root = some block →
      block = genesisBlock E g ∨ ∃ j vs, service j = some vs ∧ root ∈ (net j).produced ∧
        block.slot % validators.length ∈ vs.validatorIndices) ∧
    ((∀ i j vs vs', service i = some vs → service j = some vs' → i ≠ j →
      ∀ v ∈ vs.validatorIndices, v ∉ vs'.validatorIndices) →
    ∀ i j root root' block block', (net i).store.blocks.lookup root = some block →
      (net j).store.blocks.lookup root' = some block' → block.slot = block'.slot →
      root = root' ∧ block = block') := by
  have hregistry : g.validators = validators := by
    obtain ⟨-, rfl⟩ := generateGenesisWithValidators_eq_ok hg
    rfl
  have hkeyed := fun i => (chainNetwork_proposes hE hnet i).keyed
  have htree : ∀ i, (net i).store.Tree E g fun _ => True :=
    fun i => ((chainNetwork_node hnet i).anchored hg hE hanchor).sound.tree
  -- a stored block is the genesis block or was produced, by the owner of its slot
  have hfrom : ∀ i root block, (net i).store.blocks.lookup root = some block →
      root = genesisRoot E g ∨ ∃ j vs, service j = some vs ∧ root ∈ (net j).produced ∧
        (net j).store.blocks.lookup root = some block ∧
        block.slot % validators.length ∈ vs.validatorIndices := by
    intro i root block hblock
    have htraced := hnet.traced (chainNetwork_traces E service)
      (startTogether_held E hanchor config) i (show root ∈ (net i).held E from
        Or.inl (AList.lookup_isSome.mp (by rw [hblock]; rfl)))
    refine htraced.imp Set.mem_singleton_iff.mp fun hmade => ?_
    obtain ⟨j, hj⟩ := Set.mem_iUnion.mp hmade
    obtain ⟨vs, block', hvs, hblock', hmem⟩ := (chainNetwork_proposes hE hnet j).owned root hj
    obtain rfl := (hkeyed i).lookup_eq hE (hkeyed j) hblock hblock'
    rw [hregistry] at hmem
    exact ⟨j, vs, hvs, hj, hblock', hmem⟩
  -- a block at slot 0 is the genesis block
  have hzero : ∀ i root block, (net i).store.blocks.lookup root = some block →
      (root = genesisRoot E g ↔ block.slot = 0) := by
    intro i root block hblock
    constructor
    · rintro rfl
      rw [Block.hashTreeRoot_injective hE ((htree i).keyed _ _ hblock)]
      rfl
    · intro h0
      exact congrArg Checkpoint.root
        ((htree i).eq_genesisCheckpoint hg hE (c := ⟨root, 0⟩) ⟨block, hblock, h0⟩ rfl)
  refine ⟨fun i root block hblock => ?_, ?_⟩
  · refine (hfrom i root block hblock).imp (fun hroot => ?_)
      fun ⟨j, vs, hvs, hj, hown, hmem⟩ => ⟨j, vs, hvs, hj, hmem⟩
    exact Block.hashTreeRoot_injective hE (((htree i).keyed _ _ hblock).trans hroot)
  · intro hdisjoint i j root root' block block' hblock hblock' hslot
    have hroots : root = root' := by
      rcases hfrom i root block hblock with hgen | ⟨k, vs, hvs, hk, hown, hmem⟩
      · have h0 : block'.slot = 0 := hslot.symm.trans ((hzero i root block hblock).mp hgen)
        rw [hgen, (hzero j root' block' hblock').mpr h0]
      rcases hfrom j root' block' hblock' with hgen' | ⟨k', vs', hvs', hk', hown', hmem'⟩
      · have h0 : block.slot = 0 := hslot.trans ((hzero j root' block' hblock').mp hgen')
        rw [hgen', (hzero i root block hblock).mpr h0]
      -- the slot has one owner, and the owner one block for the slot
      have hsame : k = k' := by
        by_contra hne
        exact hdisjoint k k' vs vs' hvs hvs' hne _ hmem (hslot ▸ hmem')
      subst hsame
      exact (chainNetwork_proposes hE hnet k).once root hk root' hk' block block' hown hown' hslot
    subst hroots
    exact ⟨rfl, (hkeyed i).lookup_eq hE (hkeyed j) hblock hblock'⟩

end Network

namespace PairChain

/-- The node of the second validator. -/
def otherService : ValidatorService where
  validatorIndices := [1]
  numValidators := 2
  keyManager := some ⟨AList.singleton 1 8⟩

/-- Each node runs one validator. -/
def services : Bool → Option ValidatorService
  | true => some service
  | false => some otherService

def together : Bool → Node :=
  startTogether env genesis (Sample.block 2 0 0 1 []) fun _ => { genesisTime := 0 }

def netAfter (log : List (Bool × ChainEvent)) : Bool → Node :=
  (chainNetwork env services).after together log

/-- Each node proposes in its slot, before the block of the other one arrives. -/
def crossing : List (Bool × ChainEvent) :=
  [(false, .tick 4 4 .lastFirst), (true, .tick 8 8 .lastFirst),
    (true, .message (.processBlock (foreign foreignSignature) true) 8),
    (false, .message (.processBlock own true) 8)]

theorem enabled_tick (log : List (Bool × ChainEvent)) (now later : ℕ)
    (orders : IterationOrders) :
    (chainNetwork env services).Enabled (netAfter log) (.tick now later orders) := by
  simp [Parties.Enabled, chainNetwork, ChainEvent.gossip]

/-- A block that some node has sent can arrive. -/
theorem enabled_block {log : List (Bool × ChainEvent)} (i : Bool)
    (sb : SignedBlockWithAttestation) (now : ℕ)
    (hsent : .gossipBlockWithAttestation sb ∈ (netAfter log i).outbound) :
    (chainNetwork env services).Enabled (netAfter log) (.message (.processBlock sb true) now) := by
  rintro message ⟨⟩
  exact ⟨i, hsent⟩

theorem crossing_run : (chainNetwork env services).Run together crossing (netAfter crossing) := by
  have hstart : (chainNetwork env services).Run together [] (netAfter []) := .start
  have hfirst := hstart.act_after false _ (enabled_tick _ 4 4 .lastFirst)
  have hsecond := hfirst.act_after true _ (enabled_tick _ 8 8 .lastFirst)
  have hforeign := hsecond.act_after true _
    (enabled_block false (foreign foreignSignature) 8 (by decide +kernel))
  exact hforeign.act_after false _ (enabled_block true own 8 (by decide +kernel))

theorem services_disjoint : ∀ i j vs vs', services i = some vs → services j = some vs' →
    i ≠ j → ∀ v ∈ vs.validatorIndices, v ∉ vs'.validatorIndices := by
  intro i j vs vs' hvs hvs' hne
  cases i <;> cases j
  · exact absurd rfl hne
  · obtain rfl := Option.some.inj hvs
    obtain rfl := Option.some.inj hvs'
    decide
  · obtain rfl := Option.some.inj hvs
    obtain rfl := Option.some.inj hvs'
    decide
  · exact absurd rfl hne

end PairChain

/-- Both nodes have proposed, and at both there is one block for each slot. -/
theorem pair_has_one_block_per_slot :
    (∀ i root block, (PairChain.netAfter PairChain.crossing i).store.blocks.lookup root =
        some block → block = genesisBlock PairChain.env PairChain.genesis ∨
      ∃ j vs, PairChain.services j = some vs ∧
        root ∈ (PairChain.netAfter PairChain.crossing j).produced ∧
        block.slot % 2 ∈ vs.validatorIndices) ∧
    ∀ root block, (PairChain.netAfter PairChain.crossing false).store.blocks.lookup root =
      some block → block.slot = 2 → root = 2 ∧ block = PairChain.own.block := by
  obtain ⟨hproduced, hone⟩ := network_has_one_block_per_slot (Env.tabulated_hashIdeal _)
    PairChain.genesis_eq PairChain.anchor_eq PairChain.crossing_run
  refine ⟨hproduced, fun root block hblock hslot => ?_⟩
  exact hone PairChain.services_disjoint false true root 2 block PairChain.own.block hblock
    (by decide +kernel) hslot

end ConsensusClient
