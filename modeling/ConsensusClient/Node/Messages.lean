import ConsensusClient.ForkChoice.Arrival
import ConsensusClient.ForkChoice.Redelivery
import ConsensusClient.Node.Actions
import ConsensusClient.Node.Propagation

/-!
# What a Node Sends

A node passes on blocks and attestations that its own store has taken, and nothing else. Of the
blocks delivered to it, none is lost: each is decided, or it waits in the queue and its parent was
requested.

## Main results

* `Node.Act.sends`: the messages that an action adds are about what the store has taken
* `only_taken_messages_sent`: the same for every run
* `Store.Covers.onBlock`: a delivery keeps track of the blocks that wait
* `delivered_blocks_decided_or_requested`: what became of the delivered blocks
-/

namespace ConsensusClient

deriving instance DecidableEq for OutboundP2pRequest

/-! ## Gossip -/

section Gossip

variable {E : Env} {g : State} {vs : Option ValidatorService} {event : ChainEvent} {n n' : Node}
  {time : ℕ} {validators : List Validator}

/-- The store has taken every block and every vote that was sent. -/
structure Node.Vouches (E : Env) (g : State) (node : Node) : Prop where
  anchored : node.store.Anchored E g
  blocks : ∀ sb, .gossipBlockWithAttestation sb ∈ node.outbound →
    sb.block.hashTreeRoot E ∈ node.store.blocks
  votes : ∀ sa, .gossipAttestation sa ∈ node.outbound → node.store.ValidVote sa.message

/-- A vote that the handler takes is valid afterwards. -/
theorem Store.validVote_of_heard {store : Store} {sa : SignedAttestation} {after : After Store Unit}
    (hcall : store.onAttestation E sa false = .ok after) (hok : after.result.isOk = true) :
    after.state.ValidVote sa.message := by
  obtain ⟨hsame, htime, -⟩ := Store.onAttestation_frame hcall
  have hvalid : store.ValidVote sa.message := by
    rcases attempt_eq_ok.mp hcall with ⟨u, hcheck, -⟩ | ⟨msg, -, rfl⟩
    · exact Store.validateAttestationData_eq_ok.mp hcheck
    · exact absurd hok (by simp [Except.isOk, Except.toBool])
  exact hvalid.mono ⟨htime.ge, fun root block hb => by rw [hsame.blocks]; exact hb⟩

/-- A block for which `on_block` returns `Ok` is stored. -/
theorem Store.Keyed.mem_of_onBlock_ok (hE : E.HashIdeal) {store store' : Store}
    (hkeyed : store.Keyed E) {sb : SignedBlockWithAttestation}
    {processed : List SignedBlockWithAttestation}
    (hcall : store.onBlock E sb = .ok ⟨store', .ok processed⟩) :
    sb.block.hashTreeRoot E ∈ store'.blocks := by
  cases Store.onBlock_delivery hcall with
  | known hknown => exact hknown
  | imported s₁ parent post head f hnew himp hflush => exact hkeyed.mem_of_processed hE hcall

/-- A delivered block is passed on only if `on_block` returns `Ok` for it. -/
theorem block_mem_reactionTo {sb sb' : SignedBlockWithAttestation} {shouldGossip : Bool}
    {r : Except String (List SignedBlockWithAttestation)}
    (h : .gossipBlockWithAttestation sb' ∈ reactionTo sb shouldGossip r) :
    sb' = sb ∧ ∃ processed, r = .ok processed := by
  cases r with
  | ok processed =>
    cases shouldGossip with
    | false => exact absurd h (by simp [reactionTo])
    | true => exact ⟨by simpa [reactionTo] using h, processed, rfl⟩
  | error msg =>
    unfold reactionTo at h
    simp only at h
    split_ifs at h
    · exact absurd (List.mem_singleton.mp h) (by simp)
    · exact absurd h (by simp)

theorem vote_notMem_reactionTo {sb : SignedBlockWithAttestation} {sa : SignedAttestation}
    {shouldGossip : Bool} {r : Except String (List SignedBlockWithAttestation)} :
    .gossipAttestation sa ∉ reactionTo sb shouldGossip r := by
  cases r with
  | ok processed => cases shouldGossip <;> simp [reactionTo]
  | error msg =>
    unfold reactionTo
    simp only
    split_ifs <;> simp

/-- The messages an action adds are about blocks and votes that the store has then. -/
theorem Node.Act.sends (hE : E.HashIdeal) (hkeyed : n.store.Keyed E)
    (h : Node.Act E vs event n n') :
    ∃ new, n'.outbound = n.outbound ++ new ∧
      (∀ sb, .gossipBlockWithAttestation sb ∈ new → sb.block.hashTreeRoot E ∈ n'.store.blocks) ∧
      ∀ sa, .gossipAttestation sa ∈ new → n'.store.ValidVote sa.message := by
  cases h with
  -- a vote is passed on if it was taken
  | heard sa shouldGossip after hcall =>
    refine ⟨_, rfl, fun sb hsb => ?_, fun sa' hsa => ?_⟩
    · split_ifs at hsb
      · exact absurd (List.mem_singleton.mp hsb) (by simp)
      · exact absurd hsb (by simp)
    · split_ifs at hsa with hok
      · obtain rfl := OutboundP2pRequest.gossipAttestation.inj (List.mem_singleton.mp hsa)
        exact Store.validVote_of_heard hcall (Bool.and_eq_true_iff.mp hok).1
      · exact absurd hsa (by simp)
  -- an own block is stored before it is sent
  | sent orders proposerIndex proposal sb later store hmay hsb hcall =>
    refine ⟨_, rfl, fun sb' hsb' => ?_, by simp⟩
    obtain rfl := OutboundP2pRequest.gossipBlockWithAttestation.inj (List.mem_singleton.mp hsb')
    obtain ⟨service, -, -, hproposal⟩ := hmay.owner
    have hmem := ValidatorService.buildBlockProposal_mem hproposal hsb
    rw [← (Store.onTick_sameTree hcall).blocks] at hmem
    exact hmem
  -- a delivered block is passed on if `on_block` returned `Ok`
  | delivered sb shouldGossip now after hevent hcall =>
    obtain ⟨store', r⟩ := after
    refine ⟨_, rfl, fun sb' hsb' => ?_, fun sa hsa => absurd hsa vote_notMem_reactionTo⟩
    obtain ⟨rfl, processed, hr⟩ := block_mem_reactionTo hsb'
    obtain rfl : r = .ok processed := hr
    exact hkeyed.mem_of_onBlock_ok hE hcall
  | _ => exact ⟨[], (List.append_nil _).symm, by simp, by simp⟩

/-- Every action keeps what was sent backed by the store. -/
theorem Node.Vouches.act (hE : E.HashIdeal)
    (hg : generateGenesisWithValidators E time validators = .ok g) (h : n.Vouches E g)
    (hact : Node.Act E vs event n n') : n'.Vouches E g := by
  have hkeyed := h.anchored.sound.tree.keyed
  have hadv := hact.reaches.advances hE hkeyed
  obtain ⟨new, hout, hblocks, hvotes⟩ := hact.sends hE hkeyed
  refine ⟨h.anchored.reaches hg hE hact.reaches, fun sb hsb => ?_, fun sa hsa => ?_⟩
  · rw [hout] at hsb
    rcases List.mem_append.mp hsb with hold | hnew
    · obtain ⟨block, hblock⟩ :=
        Option.isSome_iff_exists.mp (AList.lookup_isSome.mpr (h.blocks sb hold))
      exact AList.lookup_isSome.mp (by rw [hadv.blocks_lookup _ _ hblock]; rfl)
    · exact hblocks sb hnew
  · rw [hout] at hsa
    rcases List.mem_append.mp hsa with hold | hnew
    · exact (h.votes sa hold).mono hadv
    · exact hvotes sa hnew

theorem Node.Reached.vouches (hE : E.HashIdeal)
    (hg : generateGenesisWithValidators E time validators = .ok g)
    {anchor : SignedBlockWithAttestation} (hanchor : anchor.block = genesisBlock E g)
    {node : Node} (h : node.Reached E g anchor) : node.Vouches E g := by
  obtain ⟨config, vs, events, rfl⟩ := h
  refine Node.run_of_act (fun event n n' hact hn => hn.act hE hg hact) events ?_
  exact ⟨Store.Anchored.genesis hg hanchor config, fun sb h => absurd h (by simp [Node.start]),
    fun sa h => absurd h (by simp [Node.start])⟩

/-- In every run, each block that the node sent is stored there with its post-state, and each
    attestation that it sent passes its own checks, then and ever after. -/
theorem only_taken_messages_sent (hE : E.HashIdeal)
    (hg : generateGenesisWithValidators E time validators = .ok g)
    {anchor : SignedBlockWithAttestation} (hanchor : anchor.block = genesisBlock E g)
    {node : Node} (hnode : node.Reached E g anchor) :
    (∀ sb, .gossipBlockWithAttestation sb ∈ node.outbound →
      node.store.blocks.lookup (sb.block.hashTreeRoot E) = some sb.block ∧
      (sb.block = genesisBlock E g ∨ ∃ parent post,
        node.store.states.lookup sb.block.parentRoot = some parent ∧
        parent.stateTransition E sb true = .ok post ∧
        node.store.states.lookup (sb.block.hashTreeRoot E) = some post)) ∧
    ∀ sa, .gossipAttestation sa ∈ node.outbound →
      node.store.validateAttestationData sa.message = .ok () := by
  have hvouches := hnode.vouches hE hg hanchor
  refine ⟨fun sb hsb => ?_, fun sa hsa => ?_⟩
  · have tree := hvouches.anchored.sound.tree
    have hlookup := tree.lookup_of_mem hE (hvouches.blocks sb hsb)
    refine ⟨hlookup, ?_⟩
    by_cases hroot : sb.block.hashTreeRoot E = genesisRoot E g
    · exact Or.inl (Block.hashTreeRoot_injective hE hroot)
    · obtain ⟨-, parent, sb', post, -, hparent, hsb', -, hpost, htrans, -⟩ :=
        tree.exists_parent hE hlookup hroot
      rw [State.stateTransition_congr hsb'] at htrans
      exact Or.inr ⟨parent, post, hparent, htrans, hpost⟩
  · exact Store.validateAttestationData_eq_ok.mpr (hvouches.votes sa hsa)

end Gossip

/-- The node that proposes at slot 2 sends its block, which it has stored. -/
theorem proposed_block_was_taken :
    .gossipBlockWithAttestation PairChain.own ∈ ((Node.start PairChain.init).run PairChain.env
        (some PairChain.service) PairChain.duties).outbound ∧
      ((Node.start PairChain.init).run PairChain.env (some PairChain.service)
        PairChain.duties).store.blocks.lookup 2 = some PairChain.own.block := by
  have hsent : .gossipBlockWithAttestation PairChain.own ∈ ((Node.start PairChain.init).run
      PairChain.env (some PairChain.service) PairChain.duties).outbound := by decide +kernel
  have hreached : ((Node.start PairChain.init).run PairChain.env (some PairChain.service)
      PairChain.duties).Reached PairChain.env PairChain.genesis (Sample.block 2 0 0 1 []) :=
    ⟨{ genesisTime := 0 }, some PairChain.service, PairChain.duties, rfl⟩
  have hE : PairChain.env.HashIdeal := Env.tabulated_hashIdeal _
  have hroot : PairChain.own.block.hashTreeRoot PairChain.env = 2 := by decide +kernel
  obtain ⟨hstored, -⟩ := (only_taken_messages_sent hE PairChain.genesis_eq PairChain.anchor_eq
    hreached).1 PairChain.own hsent
  rw [hroot] at hstored
  exact ⟨hsent, hstored⟩

/-! ## Blocks that wait -/

section Waiting

variable {E : Env} {g : State} {store : Store} {sb : SignedBlockWithAttestation}
  {after : After Store (List SignedBlockWithAttestation)}

/-- A block whose parent is missing waits, and the error says so. -/
theorem Store.onBlock_waits (hnew : sb.block.hashTreeRoot E ∉ store.blocks)
    (hmissing : sb.block.parentRoot ∉ store.states) (h0 : sb.block.parentRoot ≠ 0) :
    ∃ msg, store.onBlock E sb = .ok ⟨store.enqueue sb, .error msg⟩ ∧
      queuedText.toList <+: msg.toList := by
  have hcall : store.onBlock E sb =
      .ok ⟨store.enqueue sb, .error s!"Err: (Fork-choice::Handlers::OnBlock) Block queued: parent {firstBytes sb.block.parentRoot} not yet available (pending: {(store.enqueue sb).queued.length} blocks)"⟩ := by
    unfold Store.onBlock
    simp only
    rw [if_neg hnew, if_pos ⟨hmissing, h0⟩]
    rfl
  refine ⟨_, hcall, ?_⟩
  simp only [String.toList_append, List.append_assoc]
  refine List.IsPrefix.trans ?_ (List.prefix_append _ _)
  decide

/-- The only block that can join the queue is the delivered one, and then its parent is
    requested. -/
theorem Store.mem_queued_onBlock (shouldGossip : Bool) (hcall : store.onBlock E sb = .ok after)
    {b : SignedBlockWithAttestation} (hb : b ∈ after.state.queued) :
    b ∈ store.queued ∨
      .requestBlocksByRoot [b.block.parentRoot] ∈ reactionTo sb shouldGossip after.result := by
  by_cases hwaits : sb.block.hashTreeRoot E ∉ store.blocks ∧
      sb.block.parentRoot ∉ store.states ∧ sb.block.parentRoot ≠ 0
  · obtain ⟨hnew, hmissing, h0⟩ := hwaits
    obtain ⟨msg, hcall', htext⟩ := Store.onBlock_waits hnew hmissing h0
    obtain rfl := Except.ok.inj (hcall.symm.trans hcall')
    rcases Store.mem_queued_enqueue hb with hold | rfl
    · exact Or.inl hold
    · refine Or.inr ?_
      unfold reactionTo
      simp only
      rw [if_pos ⟨htext, h0⟩]
      exact List.mem_singleton.mpr rfl
  · -- otherwise blocks only leave the queue
    refine Or.inl (meets_true.mp (Store.onBlock_meets
      (I := fun s _ _ => ∀ b ∈ s.queued, b ∈ store.queued) ?_ ?_ ?_ (fun _ _ hb => hb)
      (fun hnew hmissing h0 => absurd ⟨hnew, hmissing, h0⟩ hwaits) fun _ _ _ hb => hb)
      after hcall b hb)
    · intro s roots c rest hs
      refine meets_true.mpr fun after hafter b hb => hs b ?_
      rwa [Store.queued_congr (Store.processBlockInternal_queue hafter)] at hb
    · exact fun s root roots hs _ => hs
    · exact fun s root roots blocks hs _ b hb => hs b (Store.queued_erase hb)

/-- A delivery keeps track of the watched blocks, and of the delivered one. -/
theorem Store.Covers.onBlock (hE : E.HashIdeal) (tree : store.Tree E g fun _ => True)
    {parents : H256 → Prop} {watched : SignedBlockWithAttestation → Prop}
    (h : store.Covers E parents watched [] []) (hcall : store.onBlock E sb = .ok after) :
    after.state.Covers E parents (fun b => watched b ∨ b = sb) [] [] := by
  have hboth := meets_true.mp (Store.onBlock_meets
    (I := fun s roots rest => s.Tree E g (fun _ => True) ∧
      s.Covers E parents (fun b => watched b ∨ b = sb) roots rest) ?_ ?_ ?_
    (fun hknown => ⟨tree, h.delivered_known hknown⟩)
    (fun _ hmissing _ => ⟨tree.frame rfl rfl, h.delivered_waiting hmissing⟩)
    fun _ hparent => ⟨tree, h.delivered_now hparent⟩) after hcall
  · exact hboth.2
  · intro s roots c rest hs
    exact meets_true.mpr fun after hafter =>
      ⟨(hs.1.processed hE trivial hafter).1, hs.2.processed hE hs.1 trivial hafter⟩
  · exact fun s root roots hs hnone => ⟨hs.1, hs.2.skipped hnone⟩
  · exact fun s root roots blocks hs hlookup => ⟨hs.1.frame rfl rfl, hs.2.taken hlookup⟩

/-- What is covered stays covered when blocks are added for which nothing waits, and the queue is
    left alone. -/
theorem Store.Covers.grow {store' : Store} {parents : H256 → Prop}
    {watched : SignedBlockWithAttestation → Prop} (hext : store'.Extends store)
    (hqueue : store'.blocksQueue = store.blocksQueue)
    (hnew : ∀ root, parents root → root ∈ store.blocksQueue → root ∈ store'.states →
      root ∈ store.states) (h : store.Covers E parents watched [] []) :
    store'.Covers E parents watched [] [] where
  queue_keyed := by
    rw [hqueue]
    exact h.queue_keyed
  roots_stored := by simp
  rest_parent := by simp
  pending := by
    rw [hqueue]
    exact fun root hparent hin hstored =>
      h.pending root hparent hin (hnew root hparent hin hstored)
  covered := by
    intro b hb
    rw [hqueue]
    exact (h.covered b hb).imp_left fun hdec => hdec.mono hext

theorem SameTree.extends {store' : Store} (h : SameTree store store') : store'.Extends store where
  blocks_mem := fun _ hroot => h.blocks ▸ hroot
  states_lookup := fun _ _ hstate => h.states ▸ hstate

/-- Every watched block is decided or waits, no stored one of the `parents` is waited for, and the
    parents of the waiting blocks were requested. -/
structure Node.Syncs (E : Env) (g : State) (parents : H256 → Prop)
    (watched : SignedBlockWithAttestation → Prop) (node : Node) : Prop where
  tree : node.store.Tree E g fun _ => True
  covers : node.store.Covers E parents watched [] []
  requested : ∀ b ∈ node.store.queued,
    .requestBlocksByRoot [b.block.parentRoot] ∈ node.outbound

/-- The block that a proposal adds is not one of the `parents` that blocks wait for. -/
def Node.ProposesUnawaited (E : Env) (vs : Option ValidatorService) (parents : H256 → Prop)
    (node : Node) : Prop :=
  ∀ orders proposerIndex proposal, node.MayPropose E vs orders proposerIndex proposal →
    ∀ root ∈ node.store.producedRoot E orders node.slot proposerIndex, parents root →
      root ∉ node.store.blocksQueue

namespace Node.Syncs

variable {parents : H256 → Prop} {watched : SignedBlockWithAttestation → Prop}
  {vs : Option ValidatorService} {event : ChainEvent} {n n' : Node}

/-- The blocks only grow, the queue is left alone, and messages are added. -/
theorem grow (h : n.Syncs E g parents watched) (htree : n'.store.Tree E g fun _ => True)
    (hext : n'.store.Extends n.store) (hqueue : n'.store.blocksQueue = n.store.blocksQueue)
    (hnew : ∀ root, parents root → root ∈ n.store.blocksQueue → root ∈ n'.store.states →
      root ∈ n.store.states) (hout : n.outbound <+: n'.outbound) :
    n'.Syncs E g parents watched where
  tree := htree
  covers := h.covers.grow hext hqueue hnew
  requested := fun b hb => hout.subset (h.requested b (Store.queued_congr hqueue ▸ hb))

theorem sameTree (h : n.Syncs E g parents watched) (hsame : SameTree n.store n'.store)
    (hout : n.outbound <+: n'.outbound) : n'.Syncs E g parents watched :=
  h.grow (h.tree.frame hsame.blocks hsame.states) hsame.extends hsame.blocksQueue
    (fun _ _ _ hroot => hsame.states ▸ hroot) hout

theorem received (hE : E.HashIdeal) (h : n.Syncs E g parents watched) (shouldGossip : Bool)
    (hcall : n.store.onBlock E sb = .ok after) :
    (n.received sb shouldGossip after).Syncs E g parents fun b => watched b ∨ b = sb where
  tree := (h.tree.onBlock hE hcall).1
  covers := h.covers.onBlock hE h.tree hcall
  requested := by
    intro b hb
    show _ ∈ n.outbound ++ reactionTo sb shouldGossip after.result
    rcases Store.mem_queued_onBlock shouldGossip hcall hb with hold | hnew
    · exact List.mem_append_left _ (h.requested b hold)
    · exact List.mem_append_right _ hnew

/-- A proposal adds a block and leaves the queue alone. -/
theorem withProposal (hE : E.HashIdeal) (h : n.Syncs E g parents watched)
    (hfree : n.ProposesUnawaited E vs parents) {orders : IterationOrders} {proposerIndex : ℕ}
    {proposal : Proposal}
    (hmay : n.MayPropose E vs orders proposerIndex proposal) :
    (n.withProposal E orders proposerIndex proposal).Syncs E g parents watched := by
  have hunawaited := hfree orders proposerIndex proposal hmay
  obtain ⟨service, -, -, hproposal⟩ := hmay.owner
  obtain ⟨s₀, hs₀, hcases⟩ := ValidatorService.buildBlockProposal_cases hproposal
  have hsame := Store.getProposalHead_sameTree hs₀
  have h₀ : Node.Syncs E g parents watched { n with store := s₀ } :=
    h.sameTree hsame (List.prefix_refl _)
  rcases hcases with ⟨built, hbuilt, hstore, -, hcall⟩ | ⟨hfail, -⟩
  · have hgrown := Store.produced_grows (E := E)
      (P := fun s => s.Tree E g (fun _ => True) ∧ s.Extends s₀ ∧
        s.blocksQueue = s₀.blocksQueue)
      (fun s sb parent post hparent htrans hs =>
        ⟨hs.1.insertBlock hE trivial hparent htrans,
          (hs.1.extends_insertBlock hE trivial hparent htrans).trans hs.2.1, hs.2.2⟩)
      ⟨h₀.tree, Store.Extends.refl s₀, rfl⟩ hbuilt
    rw [← hstore] at hgrown
    refine h₀.grow hgrown.1 hgrown.2.1 hgrown.2.2 (fun root hparent hin hroot => ?_)
      (List.prefix_refl _)
    have hinsert : root ∈ s₀.states.insert (built.block.hashTreeRoot E) built.post := by
      have hstored : root ∈ proposal.store.states := hroot
      rw [hstore] at hstored
      exact hstored
    rcases (AList.mem_insert s₀.states).mp hinsert with rfl | hold
    · -- nothing waits for the new block
      refine absurd (hsame.blocksQueue ▸ hin) (hunawaited _ ?_ hparent)
      simp [Store.producedRoot, hcall]
    · exact hold
  · have hstore : proposal.store = s₀ := by rw [hfail]
    exact h₀.sameTree (hstore ▸ SameTree.refl s₀) (List.prefix_refl _)

theorem act (hE : E.HashIdeal) (h : n.Syncs E g parents watched)
    (hfree : n.ProposesUnawaited E vs parents) (hact : Node.Act E vs event n n') :
    n'.Syncs E g parents watched := by
  cases hact with
  | ticked time store hcall =>
    exact h.sameTree (Store.onTick_sameTree hcall) (List.prefix_refl _)
  | heard sa shouldGossip after hcall =>
    exact h.sameTree (Store.onAttestation_frame hcall).1 (List.prefix_append _ _)
  | unsent orders proposerIndex proposal hmay =>
    exact (h.withProposal hE hfree hmay).sameTree (SameTree.refl _) (List.prefix_refl _)
  | lost orders proposerIndex proposal e hmay =>
    exact (h.withProposal hE hfree hmay).sameTree (SameTree.refl _) (List.prefix_refl _)
  | sent orders proposerIndex proposal sb later store hmay hsb hcall =>
    exact (h.withProposal hE hfree hmay).sameTree (Store.onTick_sameTree hcall)
      (List.prefix_append _ _)
  | delivered sb shouldGossip now after hevent hcall =>
    have hreceived := h.received hE shouldGossip hcall
    exact { hreceived with covers := hreceived.covers.mono fun b hb => Or.inl hb }
  | _ => exact h.sameTree (SameTree.refl _) (List.prefix_refl _)

end Node.Syncs

/-- The blocks that an event delivers. -/
def deliveredBy : ChainEvent → List SignedBlockWithAttestation
  | .message (.processBlock sb _) _ => [sb]
  | _ => []

/-- A round that does not end in a panic keeps track of the block it was given. -/
theorem Node.Syncs.step (hE : E.HashIdeal) {parents : H256 → Prop}
    {watched : SignedBlockWithAttestation → Prop} {vs : Option ValidatorService} {node : Node}
    {event : ChainEvent} {P : Node → Prop}
    (hact : ∀ n n', Node.Act E vs event n n' → P n → P n')
    (hfree : ∀ n, P n → n.ProposesUnawaited E vs parents) (hnode : P node)
    (h : node.Syncs E g parents watched) (hrunning : (node.step E vs event).fault = none) :
    (node.step E vs event).Syncs E g parents fun b => watched b ∨ b ∈ deliveredBy event := by
  have hkept : (node.step E vs event).Syncs E g parents watched :=
    (Node.Act.step (P := fun n => n.Syncs E g parents watched ∧ P n)
      (fun n n' hn hboth => ⟨hboth.1.act hE (hfree n hboth.2) hn, hact n n' hn hboth.2⟩)
      ⟨h, hnode⟩).1
  -- the other events deliver no block
  have hnone : deliveredBy event = [] →
      (node.step E vs event).Syncs E g parents fun b => watched b ∨ b ∈ deliveredBy event := by
    intro hnil
    refine { hkept with covers := hkept.covers.mono fun b hb => ?_ }
    rw [hnil] at hb
    exact hb.resolve_right (by simp)
  cases event with
  | tick now later orders => exact hnone rfl
  | message message now =>
    cases message with
    | processAttestation sa shouldGossip => exact hnone rfl
    | processBlock sb shouldGossip =>
      clear hnone hkept
      unfold Node.step at hrunning ⊢
      cases hfault : node.fault with
      | some e =>
        rw [hfault] at hrunning
        exact absurd (hfault.symm.trans hrunning) (by simp)
      | none =>
        rw [hfault] at hrunning
        simp only [Node.processBlock_eq] at hrunning ⊢
        revert hrunning
        refine Node.call_induction (P := fun n => n.fault = none → n.Syncs E g parents _)
          (fun e he => absurd he (by simp)) fun store hstore => ?_
        -- the tick first, then the delivery
        have hticked : Node.Syncs E g parents watched { node with store } :=
          h.sameTree (Store.onTick_sameTree hstore) (List.prefix_refl _)
        refine Node.call_induction (P := fun n => n.fault = none → n.Syncs E g parents _)
          (fun e he => absurd he (by simp)) fun after hafter _ => ?_
        have hreceived := hticked.received hE shouldGossip hafter
        refine { hreceived with covers := hreceived.covers.mono fun b hb => ?_ }
        exact hb.imp_right List.mem_singleton.mp

/-- A task that still runs at the end was running before. -/
theorem Node.running_of_step {vs : Option ValidatorService} {node : Node} {event : ChainEvent}
    (h : (node.step E vs event).fault = none) : node.fault = none := by
  unfold Node.step at h
  cases hfault : node.fault with
  | none => rfl
  | some e =>
    rw [hfault] at h
    exact absurd (hfault.symm.trans h) (by simp)

theorem Node.running_of_run {vs : Option ValidatorService} {node : Node}
    {events : List ChainEvent} (h : (node.run E vs events).fault = none) : node.fault = none := by
  induction events generalizing node with
  | nil => exact h
  | cons event rest ih => exact Node.running_of_step (ih h)

theorem Node.Syncs.run (hE : E.HashIdeal) {watched : SignedBlockWithAttestation → Prop}
    {vs : Option ValidatorService} {node : Node} (h : node.Syncs E g (fun _ => False) watched)
    (events : List ChainEvent) (hrunning : (node.run E vs events).fault = none) :
    (node.run E vs events).Syncs E g (fun _ => False) fun b =>
      watched b ∨ b ∈ events.flatMap deliveredBy := by
  induction events generalizing node watched with
  | nil => exact { h with covers := h.covers.mono fun b hb => hb.resolve_right (by simp) }
  | cons event rest ih =>
    have hfirst : (node.step E vs event).fault = none := Node.running_of_run hrunning
    have hstep := h.step (P := fun _ => True) hE (fun _ _ _ _ => trivial)
      (fun _ _ _ _ _ _ _ _ hfalse => absurd hfalse id) trivial hfirst
    have hrest := ih hstep hrunning
    refine { hrest with covers := hrest.covers.mono fun b hb => ?_ }
    rw [List.flatMap_cons, List.mem_append] at hb
    exact or_assoc.mpr hb

theorem Node.Syncs.start {time : ℕ} {validators : List Validator}
    (hg : generateGenesisWithValidators E time validators = .ok g)
    {anchor : SignedBlockWithAttestation} (hanchor : anchor.block = genesisBlock E g)
    (config : Config) (parents : H256 → Prop) :
    (Node.start (getForkchoiceStore E g anchor config)).Syncs E g parents fun _ => False := by
  have hinv : ArrivalInv E g [] (fun _ => False) (getForkchoiceStore E g anchor config) [] [] :=
    ArrivalInv.genesis hg hanchor config
  exact {
    tree := (Store.Anchored.genesis hg hanchor config).sound.tree
    covers := { hinv.covers with
      pending := fun root _ hin => absurd hin (by simp [Node.start, getForkchoiceStore]) }
    requested := fun b hb => absurd (hinv.waiting b (Or.inl hb)) (by simp) }

/-- No delivered block is lost: in a run without a panic, each of them is stored, or rejected by
    the state of its parent, or it waits in the queue and its parent was requested. -/
theorem delivered_blocks_decided_or_requested {time : ℕ} {validators : List Validator}
    (hE : E.HashIdeal) (hg : generateGenesisWithValidators E time validators = .ok g)
    {anchor : SignedBlockWithAttestation} (hanchor : anchor.block = genesisBlock E g)
    (config : Config) (vs : Option ValidatorService) (events : List ChainEvent) {node : Node}
    (hrun : (Node.start (getForkchoiceStore E g anchor config)).run E vs events = node)
    (hrunning : node.fault = none) :
    ∀ sb ∈ events.flatMap deliveredBy, node.store.Decided E sb ∨
      sb ∈ node.store.queued ∧
        .requestBlocksByRoot [sb.block.parentRoot] ∈ node.outbound := by
  have hstart := Node.Syncs.start hg hanchor config fun _ => False
  subst hrun
  have hend := hstart.run hE events hrunning
  intro sb hsb
  rcases hend.covers.covered sb (Or.inr hsb) with hdec | ⟨blocks, hlookup, hmem⟩ | hrest
  · exact Or.inl hdec
  · have hqueued := Store.mem_queued.mpr ⟨_, blocks, hlookup, hmem⟩
    exact Or.inr ⟨hqueued, hend.requested sb hqueued⟩
  · exact absurd hrest (by simp)

end Waiting

/-- The block at slot 4 arrives alone: it waits, and its parent is requested. -/
theorem parent_of_late_block_requested :
    .requestBlocksByRoot [3] ∈
      (SoloChain.listener [SoloChain.blockMessage SoloChain.block4]).outbound := by
  rcases delivered_blocks_decided_or_requested (Env.tabulated_hashIdeal _)
    (show generateGenesisWithValidators SoloChain.env 0 [{ pubkey := 7, index := 0 }] =
      .ok SoloChain.genesis from rfl) (show GenesisVotes.anchor.block = _ from rfl)
    { genesisTime := 0 } none [SoloChain.blockMessage SoloChain.block4]
    (show _ = SoloChain.listener _ from rfl) (by decide +kernel)
    SoloChain.block4 (by simp [SoloChain.blockMessage, deliveredBy]) with hdec | ⟨-, hrequest⟩
  · -- the block is not stored, and neither is its parent
    rcases hdec with hstored | hzero | ⟨parent, msg, hparent, -⟩
    · exact absurd hstored (by decide +kernel)
    · exact absurd hzero (by decide)
    · have hmissing : (SoloChain.listener
          [SoloChain.blockMessage SoloChain.block4]).store.states.lookup
          SoloChain.block4.block.parentRoot = none := by
        decide +kernel
      rw [hmissing] at hparent
      exact absurd hparent (by simp)
  · exact hrequest

end ConsensusClient
