import ConsensusClient.ForkChoice.OwnVotes
import ConsensusClient.Node.Agreement
import ConsensusClient.Validator.OwnBlocks

/-!
# What Other Nodes Do with Own Votes and Blocks

A node votes for its head, from the justified checkpoint to a target on the chain of the head, and
it proposes blocks on its head. Another node with the same genesis block takes the vote if it has
the head block and its clock is not too far behind, and it takes the block if it has the parent:
the ancestors of a stored block and the states of both are the same everywhere.

## Main results

* `Store.Anchored.validVote_elsewhere_iff`: when a vote of one node passes the checks of another
* `own_votes_taken_exactly`: what a node does with the votes of another one
* `Store.Anchored.onBlock_takes`: a block whose stored parent accepts it is stored
* `proposal_taken_elsewhere`: what a node does with the block of another one
-/

namespace ConsensusClient

/-! ## Votes -/

section Votes

variable {E : Env} {g : State} {store s₁ s₂ : Store} {slot : ℕ} {data : AttestationData}

/-- The votes of `create_attestations` are all the vote of the slot. -/
theorem ValidatorService.createAttestations_message {vs : ValidatorService}
    {r : List SignCall × List SignedAttestation}
    (h : vs.createAttestations E store slot = .ok r) :
    ∀ sa ∈ r.2, store.attestationFor slot = .ok (some sa.message) := by
  obtain ⟨vote, hvote, h⟩ := bind_eq_ok.mp h
  cases vote with
  | none =>
    obtain rfl := Except.ok.inj h
    simp
  | some data =>
    obtain ⟨results, hresults, h⟩ := bind_eq_ok.mp h
    obtain rfl := Except.ok.inj h
    intro sa hsa
    obtain ⟨result, hresult, hsa⟩ := List.mem_flatMap.mp hsa
    obtain ⟨idx, -, hidx⟩ := (mem_mapM_iff hresults).mp hresult
    -- whichever way the validator signs, it signs the one vote of the slot
    have hmessage : sa.message = data := by
      unfold ValidatorService.attest at hidx
      split at hidx
      · obtain rfl := Except.ok.inj hidx
        rw [List.mem_singleton.mp hsa]
      · simp only at hidx
        split at hidx
        · obtain rfl := Except.ok.inj hidx
          rw [List.mem_singleton.mp hsa]
        · obtain rfl := Except.ok.inj hidx
          exact absurd hsa (by simp)
        · exact absurd hidx (by simp)
    rw [hmessage]
    exact hvote

/-- `create_attestations` makes no vote whose target lies before its source. -/
theorem Store.attestationFor_le (h : store.attestationFor slot = .ok (some data)) :
    data.source.slot ≤ data.target.slot := by
  obtain ⟨-, -, hsource, htarget⟩ :=
    Store.produceAttestationData_eq_ok (Store.attestationFor_eq_some h)
  obtain ⟨target, htarget', h⟩ := bind_eq_ok.mp h
  obtain rfl := Except.ok.inj (htarget.symm.trans htarget')
  split_ifs at h with hlt
  · exact absurd (Except.ok.inj h) (by simp)
  · rw [hsource]
    exact Nat.le_of_not_lt hlt

variable {time : ℕ} {validators : List Validator}
  (hg : generateGenesisWithValidators E time validators = .ok g)

include hg in
/-- A checkpoint above a block is stored wherever the block is. -/
theorem Store.Anchored.hasCheckpoint_elsewhere (hE : E.HashIdeal) (a₁ : s₁.Anchored E g)
    (a₂ : s₂.Anchored E g) {root : H256} {c : Checkpoint} (hroot : root ∈ s₂.blocks)
    (hc : s₁.HasCheckpoint c) (hdesc : s₁.Descends root c.root) : s₂.HasCheckpoint c := by
  have tree₁ := a₁.sound.tree
  have tree₂ := a₂.sound.tree
  obtain ⟨block, hblock, hslot⟩ := hc
  have hne : c.root ≠ 0 := by
    intro h0
    exact tree₁.keyed.zero_not_mem hE (h0 ▸ AList.lookup_isSome.mp (by rw [hblock]; rfl))
  have hmem := tree₂.ancestor_mem hg hE hroot hne
    (tree₁.descends_transfer hg hE tree₂ hroot hne hdesc)
  obtain ⟨block', hblock'⟩ := Option.isSome_iff_exists.mp (AList.lookup_isSome.mpr hmem)
  obtain rfl := tree₁.keyed.lookup_eq hE tree₂.keyed hblock hblock'
  exact ⟨block, hblock', hslot⟩

include hg in
/-- A vote of one node passes the checks of another one exactly if that has the head block and its
    clock is at most one slot behind. -/
theorem Store.Anchored.validVote_elsewhere_iff (hE : E.HashIdeal) (a₁ : s₁.Anchored E g)
    (a₂ : s₂.Anchored E g) (hvote : s₁.attestationFor slot = .ok (some data)) :
    s₂.ValidVote data ↔
      data.head.root ∈ s₂.blocks ∧ slot ≤ s₂.time / intervalsPerSlot + 1 := by
  obtain ⟨hslot, hhead, hsource, htarget⟩ :=
    Store.produceAttestationData_eq_ok (Store.attestationFor_eq_some hvote)
  constructor
  · intro hvalid
    exact ⟨hvalid.head_stored, hslot ▸ hvalid.not_future⟩
  · rintro ⟨hmem, htime⟩
    rw [hhead] at hmem
    -- source and target are ancestors of the head, and stored wherever it is
    obtain ⟨k, block, -, hanc, hblock, hbslot, -⟩ :=
      a₁.sound.getAttestationTarget_eq_ok hE hg htarget
    exact {
      source_stored := by
        rw [hsource]
        exact a₁.hasCheckpoint_elsewhere hg hE a₂ hmem a₁.sound.justified a₁.head_descends
      target_stored := a₁.hasCheckpoint_elsewhere hg hE a₂ hmem ⟨block, hblock, hbslot⟩
        (Store.descends_of_ancestorAt hanc)
      head_stored := hhead ▸ hmem
      source_le_target := Store.attestationFor_le hvote
      not_future := hslot.symm ▸ htime }

end Votes

section Nodes

variable {E : Env} {g : State} {time slot : ℕ} {validators : List Validator}

/-- A gossip vote is entered unless there is a new vote of its validator that is not older. -/
theorem Store.lookup_gossipVote (store : Store) (v : ℕ) (data : AttestationData) :
    (store.onAttestationInternal v data false).latestNewAttestations.lookup v =
      some (keepLater AttestationData.slot (store.latestNewAttestations.lookup v) data) := by
  rw [Store.onAttestationInternal_eq]
  exact (lookup_insert_later AttestationData.slot store.latestNewAttestations v v data).trans
    (if_pos rfl)

/-- The checks decide what the handler does with a gossip vote. -/
theorem Node.processAttestation_eq (node : Node) (sa : SignedAttestation) (shouldGossip : Bool) :
    (node.store.ValidVote sa.message →
      node.processAttestation E sa shouldGossip id =
        { node with
          store := (node.store.storeSignature E sa.validatorId sa.message
            sa.signature).onAttestationInternal sa.validatorId sa.message false
          outbound := node.outbound ++
            if shouldGossip then [.gossipAttestation sa] else [] }) ∧
    (¬ node.store.ValidVote sa.message →
      node.processAttestation E sa shouldGossip id = node) := by
  unfold Node.processAttestation Store.onAttestation
  constructor
  · intro hvalid
    rw [Store.validateAttestationData_eq_ok.mpr hvalid]
    cases shouldGossip with
    | false => simp [attempt, done, Node.call]
    | true => simp [attempt, done, Node.call, Node.send]
  · intro hinvalid
    -- the checks return an error, which the handler only logs
    cases hcheck : node.store.validateAttestationData sa.message with
    | ok u => exact absurd (Store.validateAttestationData_eq_ok.mp hcheck) hinvalid
    | error e =>
      have hreturns := node.store.returns_validateAttestationData sa.message
      rw [hcheck] at hreturns
      cases e with
      | err msg => simp [attempt, Node.call]
      | panic msg => exact absurd hreturns (by simp [Res.Returns])
      | diverge => exact absurd hreturns (by simp [Res.Returns])

/-- The votes that one node creates are taken by another one, with their signatures, and passed
    on, exactly if that has their head block and its clock is at most one slot behind. Otherwise
    nothing changes there. A vote that is taken is entered, unless there is a new vote of the
    validator for the same slot or a later one, which then stays. -/
theorem own_votes_taken_exactly (hE : E.HashIdeal)
    (hg : generateGenesisWithValidators E time validators = .ok g)
    {anchor : SignedBlockWithAttestation} (hanchor : anchor.block = genesisBlock E g)
    {n₁ n₂ n : Node} (hn₁ : n₁.Reached E g anchor) (hn₂ : n₂.Reached E g anchor)
    (hrunning : n₂.fault = none) {vs : ValidatorService} {calls : List SignCall}
    {votes : List SignedAttestation}
    (hvotes : vs.createAttestations E n₁.store slot = .ok (calls, votes))
    {sa : SignedAttestation} (hsa : sa ∈ votes) (vs₂ : Option ValidatorService)
    (shouldGossip : Bool) (now : ℕ)
    (hn : n₂.step E vs₂ (.message (.processAttestation sa shouldGossip) now) = n) :
    (sa.message.head.root ∈ n₂.store.blocks ∧ slot ≤ n₂.store.time / intervalsPerSlot + 1 →
      ((∀ d, n₂.store.latestNewAttestations.lookup sa.validatorId = some d → d.slot < slot) →
        n.store.latestNewAttestations.lookup sa.validatorId = some sa.message) ∧
      (∀ d, n₂.store.latestNewAttestations.lookup sa.validatorId = some d → slot ≤ d.slot →
        n.store.latestNewAttestations.lookup sa.validatorId = some d) ∧
      n.store.gossipSignatures.lookup ⟨sa.validatorId, E.hashData sa.message⟩ =
        some sa.signature ∧
      n.outbound = n₂.outbound ++ if shouldGossip then [.gossipAttestation sa] else []) ∧
    (¬ (sa.message.head.root ∈ n₂.store.blocks ∧
      slot ≤ n₂.store.time / intervalsPerSlot + 1) → n = n₂) := by
  have h₁ := hn₁.anchored hg hE hanchor
  have h₂ := hn₂.anchored hg hE hanchor
  have hvote := ValidatorService.createAttestations_message hvotes sa hsa
  -- the two conditions are what the checks of the other node come down to
  have hvalid := h₁.validVote_elsewhere_iff hg hE h₂ hvote
  have hstep : n₂.step E vs₂ (.message (.processAttestation sa shouldGossip) now) =
      n₂.processAttestation E sa shouldGossip id := by
    unfold Node.step
    rw [hrunning]
  rw [hstep] at hn
  obtain ⟨htaken, hignored⟩ := n₂.processAttestation_eq (E := E) sa shouldGossip
  constructor
  · intro hcond
    rw [htaken (hvalid.mpr hcond)] at hn
    subst hn
    have hentry := Store.lookup_gossipVote
      (n₂.store.storeSignature E sa.validatorId sa.message sa.signature) sa.validatorId sa.message
    have hslot := Store.produceAttestationData_slot (Store.attestationFor_eq_some hvote)
    refine ⟨fun hlt => hentry.trans ?_, fun d hd hle => hentry.trans ?_, ?_, rfl⟩
    · -- no new vote of the validator stands in the way
      cases hold : n₂.store.latestNewAttestations.lookup sa.validatorId with
      | none => exact congrArg _ (by rw [Store.storeSignature, hold]; rfl)
      | some d =>
        have hd := hlt d hold
        rw [← hslot] at hd
        exact congrArg _ (by rw [Store.storeSignature, hold]; exact keepLater_of_lt hd)
    · -- an entry for the same slot or a later one stays
      rw [← hslot] at hle
      exact congrArg _ (by rw [Store.storeSignature, hd]; exact keepLater_of_le hle)
    show (Store.onAttestationInternal _ _ _ false).gossipSignatures.lookup _ = _
    rw [Store.onAttestationInternal_eq]
    exact AList.lookup_insert _
  · intro hcond
    rw [← hn]
    exact hignored fun h => hcond (hvalid.mp h)

end Nodes

namespace PairChain

theorem genesis_eq : generateGenesisWithValidators env 0 validators = .ok genesis := rfl

theorem anchor_eq : (Sample.block 2 0 0 1 []).block = genesisBlock env genesis := rfl

/-- A node that listens, with its clock at the second interval of slot 2. -/
def listener : Node := (Node.start init).run env none [.tick 9 9 .lastFirst]

/-- The vote of the first validator at slot 2, as the other node created it. -/
def signedVote : SignedAttestation where
  validatorId := 0
  message := data
  signature := toySignature 7 2 1

/-- The listener when the vote has come. -/
def voted : Node :=
  listener.step env none (.message (.processAttestation signedVote true) 9)

theorem start_reached : (Node.start init).Reached env genesis (Sample.block 2 0 0 1 []) :=
  ⟨{ genesisTime := 0 }, none, [], rfl⟩

theorem listener_reached : listener.Reached env genesis (Sample.block 2 0 0 1 []) :=
  ⟨{ genesisTime := 0 }, none, [.tick 9 9 .lastFirst], rfl⟩

end PairChain

/-- The vote is taken at slot 2, and ignored by a node whose clock is still at slot 0. -/
theorem vote_taken_at_slot_two :
    PairChain.voted.store.latestNewAttestations.lookup 0 = some PairChain.data ∧
    PairChain.voted.store.gossipSignatures.lookup ⟨0, 1⟩ = some (toySignature 7 2 1) ∧
    (Node.start PairChain.init).step PairChain.env none
      (.message (.processAttestation PairChain.signedVote true) 0) =
        Node.start PairChain.init := by
  have hvotes : PairChain.service.createAttestations PairChain.env PairChain.init 2 =
      .ok ([⟨0, 2, 1⟩], [PairChain.signedVote]) := by decide +kernel
  have htaken := (own_votes_taken_exactly (Env.tabulated_hashIdeal _) PairChain.genesis_eq
    PairChain.anchor_eq PairChain.start_reached PairChain.listener_reached (by decide +kernel)
    hvotes (List.mem_singleton.mpr rfl) none true 9 rfl).1 (by decide +kernel)
  have hignored := (own_votes_taken_exactly (Env.tabulated_hashIdeal _) PairChain.genesis_eq
    PairChain.anchor_eq PairChain.start_reached PairChain.start_reached rfl hvotes
    (List.mem_singleton.mpr rfl) none true 0 rfl).2 (by decide +kernel)
  exact ⟨htaken.1 (by decide +kernel), htaken.2.2.1, hignored⟩

/-! ## Blocks -/

section Blocks

variable {E : Env} {g : State} {offered offered' : SignedBlockWithAttestation → Prop}
  {s₁ s₂ store : Store} {time slot validatorIndex : ℕ} {validators : List Validator}
  {sb : SignedBlockWithAttestation} {parent post : State}

/-- A block that its parent accepts makes no other state panic, since no other block has the root
    of the parent. -/
theorem Accepted.settles (hE : E.HashIdeal) {block : Block}
    (h : Accepted E g offered block parent) (hroot : sb.block.parentRoot = block.hashTreeRoot E)
    (htrans : parent.stateTransition E sb true = .ok post) : Settles E g offered' sb := by
  intro block' state hacc hroot'
  obtain rfl := Block.hashTreeRoot_injective hE (hroot.symm.trans hroot')
  rw [← h.state_unique hE hacc, htrans]
  exact Or.inl ⟨post, rfl⟩

/-- A stored block has the state that its parent gives it. -/
theorem Store.Tree.state_eq (hE : E.HashIdeal) (tree : store.Tree E g fun _ => True)
    {block : Block} (hacc : Accepted E g (fun _ => True) block parent)
    (hroot : sb.block.parentRoot = block.hashTreeRoot E)
    (htrans : parent.stateTransition E sb true = .ok post)
    (hmem : sb.block.hashTreeRoot E ∈ store.blocks) :
    store.blocks.lookup (sb.block.hashTreeRoot E) = some sb.block ∧
      store.states.lookup (sb.block.hashTreeRoot E) = some post := by
  have hblock := tree.lookup_of_mem hE hmem
  obtain ⟨state, hstate, hacc'⟩ := tree.accepted _ _ hblock
  have hchild : Accepted E g (fun _ => True) sb.block post :=
    .child sb trivial hacc hroot htrans
  exact ⟨hblock, by rw [hstate, hacc'.state_unique hE hchild]⟩

/-- The state of a block is the same in every store that has the block. -/
theorem Store.Anchored.parent_elsewhere (hE : E.HashIdeal) (a₁ : s₁.Anchored E g)
    (a₂ : s₂.Anchored E g) {root : H256} (hstate : s₁.states.lookup root = some parent)
    (hmem : root ∈ s₂.blocks) :
    s₂.states.lookup root = some parent ∧
      ∃ block, root = block.hashTreeRoot E ∧ Accepted E g (fun _ => True) block parent := by
  obtain ⟨block, -, hkey, hacc⟩ := a₁.sound.tree.accepted_of_state hstate
  obtain ⟨state, hstate₂⟩ := Option.isSome_iff_exists.mp
    (AList.lookup_isSome.mpr (a₂.sound.tree.mem_iff.mp hmem))
  obtain ⟨block₂, -, hkey₂, hacc₂⟩ := a₂.sound.tree.accepted_of_state hstate₂
  obtain rfl := Block.hashTreeRoot_injective hE (hkey.trans hkey₂.symm)
  refine ⟨by rw [hstate₂, hacc.state_unique hE hacc₂], block, hkey.symm, ?_⟩
  exact hacc.mono fun _ _ => trivial

/-- The blocks that `on_block` reports as processed are stored. -/
theorem Store.Keyed.mem_of_processed (hE : E.HashIdeal) (hkeyed : store.Keyed E)
    {store' : Store} {processed : List SignedBlockWithAttestation}
    (h : store.onBlock E sb = .ok ⟨store', .ok (sb :: processed)⟩) :
    sb.block.hashTreeRoot E ∈ store'.blocks := by
  have hblocks := Store.onBlock_blocks h
  have hsplit : store.withBlocks E (sb :: processed) =
      (store.withBlocks E [sb]).withBlocks E processed := by
    rw [Store.withBlocks_append]
    rfl
  have hlookup : (store.withBlocks E [sb]).blocks.lookup (sb.block.hashTreeRoot E) =
      some sb.block := AList.lookup_insert _
  have hadv := ((hkeyed.withBlocks hE [sb]).1.withBlocks hE processed).2
  have hfinal := hadv.blocks_lookup _ _ hlookup
  rw [← hsplit] at hfinal
  rw [hblocks]
  exact AList.lookup_isSome.mp (by
    show ((store.withBlocks E (sb :: processed)).blocks.lookup _).isSome = true
    rw [hfinal]
    rfl)

variable (hg : generateGenesisWithValidators E time validators = .ok g)

include hg in
/-- A block whose stored parent accepts it is stored with its state when `on_block` returns, which
    it does unless a block that waits for it makes the state transition panic. -/
theorem Store.Anchored.onBlock_takes (hE : E.HashIdeal) (h : store.Anchored E g) {block : Block}
    (hacc : Accepted E g (fun _ => True) block parent)
    (hroot : sb.block.parentRoot = block.hashTreeRoot E)
    (hparent : store.states.lookup sb.block.parentRoot = some parent)
    (htrans : parent.stateTransition E sb true = .ok post)
    (hqueue : ∀ b, store.WaitsFor E (sb.block.hashTreeRoot E) b →
      Settles E g (fun _ => True) b) :
    ∃ store' processed, store.onBlock E sb = .ok ⟨store', .ok processed⟩ ∧
      store'.blocks.lookup (sb.block.hashTreeRoot E) = some sb.block ∧
      store'.states.lookup (sb.block.hashTreeRoot E) = some post := by
  -- neither this block nor those it sets free make `on_block` panic
  have hwaiting : ∀ b, b = sb ∨ store.WaitsFor E (sb.block.hashTreeRoot E) b →
      True ∧ Settles E g (fun _ => True) b := by
    rintro b (rfl | hb)
    · exact ⟨trivial, hacc.settles hE hroot htrans⟩
    · exact ⟨trivial, hqueue b hb⟩
  obtain ⟨after, hafter, hsound⟩ := h.sound.onBlock hg hE hwaiting
  have hkeyed := h.sound.tree.keyed
  -- known or imported; it can be neither queued nor rejected
  cases Store.onBlock_delivery hafter with
  | known hknown =>
    exact ⟨store, [], hafter, hsound.tree.state_eq hE hacc hroot htrans hknown⟩
  | queued hnew hmissing msg =>
    exact absurd (AList.lookup_isSome.mp (by rw [hparent]; rfl)) hmissing
  | rejected hnew hreject msg => exact absurd htrans (hreject parent post hparent)
  | imported s₁ parent' post' head f hnew himp hflush =>
    have hmem := hkeyed.mem_of_processed hE hafter
    exact ⟨f.store, sb :: f.processed, hafter,
      hsound.tree.state_eq hE hacc hroot htrans hmem⟩

/-- A block that one node proposes is taken by every other node that has its parent: it is stored
    there with the state that the proposer has for it, and passed on. The task goes on unless a
    block that waits for it, directly or over others, makes the state transition panic. -/
theorem proposal_taken_elsewhere (hE : E.HashIdeal)
    (hg : generateGenesisWithValidators E time validators = .ok g)
    {anchor : SignedBlockWithAttestation} (hanchor : anchor.block = genesisBlock E g)
    {n₁ n₂ n : Node} (hn₁ : n₁.Reached E g anchor) (hn₂ : n₂.Reached E g anchor)
    (hrunning : n₂.fault = none) {vs : ValidatorService} {orders : IterationOrders}
    {proposerIndex : ℕ} {proposal : Proposal}
    (hproposal : vs.buildBlockProposal E orders n₁.store slot proposerIndex = .ok proposal)
    (hsb : proposal.signed.result = .ok sb) (hparent : sb.block.parentRoot ∈ n₂.store.blocks)
    (hqueue : ∀ b, n₂.store.WaitsFor E (sb.block.hashTreeRoot E) b →
      Settles E g (fun _ => True) b)
    (vs₂ : Option ValidatorService) (shouldGossip : Bool) (now : ℕ)
    (hn : n₂.step E vs₂ (.message (.processBlock sb shouldGossip) now) = n) :
    n.fault = none ∧ n.store.blocks.lookup (sb.block.hashTreeRoot E) = some sb.block ∧
      (∃ post, proposal.store.states.lookup (sb.block.hashTreeRoot E) = some post ∧
        n.store.states.lookup (sb.block.hashTreeRoot E) = some post) ∧
      n.outbound =
        n₂.outbound ++ if shouldGossip then [.gossipBlockWithAttestation sb] else [] := by
  have h₁ := hn₁.anchored hg hE hanchor
  have h₂ := hn₂.anchored hg hE hanchor
  -- the proposal stands on the proposal head of the first node
  obtain ⟨s₀, hs₀, hcases⟩ := ValidatorService.buildBlockProposal_cases hproposal
  have h₀ := h₁.getProposalHead hg hE hs₀
  rcases hcases with ⟨built, hbuilt, hstore, hsign, -⟩ | ⟨hfail, -⟩
  swap
  · rw [hfail] at hsb
    exact absurd hsb (by simp)
  have hblock : sb.block = built.block := (ValidatorService.signBlock_eq_ok hsign).2 sb hsb
  obtain ⟨hhead, headState, hheadState, htrans⟩ := Store.buildOnHead_transition hbuilt sb hblock
  -- the second node has the same parent state, also when its clock has moved on
  obtain ⟨s₃, htick, -⟩ := h₂.sound.onTick hg hE now false
  have h₃ := h₂.onTick hg hE htick
  have hsame := Store.onTick_sameTree htick
  have hqueue₃ : ∀ root b, s₃.blocksQueue.Lists root b → n₂.store.blocksQueue.Lists root b := by
    rw [hsame.blocksQueue]
    exact fun _ _ h => h
  rw [hblock, hhead, ← hsame.blocks] at hparent
  obtain ⟨hparent₃, block, hroot, hacc⟩ := h₀.parent_elsewhere hE h₃ hheadState hparent
  rw [← hhead, ← hblock] at hparent₃ hroot
  obtain ⟨store', processed, hcall, hlookup, hstate⟩ :=
    h₃.onBlock_takes hg hE hacc hroot hparent₃ htrans fun b hb => hqueue b (hb.mono hqueue₃)
  have hstep : n₂.step E vs₂ (.message (.processBlock sb shouldGossip) now) =
      n₂.processBlock E sb shouldGossip now := by
    unfold Node.step
    rw [hrunning]
  rw [hstep, Node.processBlock, htick] at hn
  simp only [Node.call, hcall] at hn
  subst hn
  have hpost : proposal.store.states.lookup (sb.block.hashTreeRoot E) = some built.post := by
    rw [hstore, hblock]
    exact AList.lookup_insert _
  cases shouldGossip with
  | false => exact ⟨hrunning, hlookup, ⟨built.post, hpost, hstate⟩, by simp [Node.withBlocks]⟩
  | true =>
    exact ⟨hrunning, hlookup, ⟨built.post, hpost, hstate⟩, by simp [Node.send, Node.withBlocks]⟩

end Blocks

/-- The block that one node proposes at slot 2 is stored and passed on by the other one. -/
theorem proposal_taken_at_slot_two :
    (PairChain.listener.step PairChain.env none
      (.message (.processBlock PairChain.own true) 9)).store.blocks.lookup 2 =
        some PairChain.own.block ∧
    (PairChain.listener.step PairChain.env none
      (.message (.processBlock PairChain.own true) 9)).outbound =
        PairChain.listener.outbound ++ [.gossipBlockWithAttestation PairChain.own] := by
  have hempty : PairChain.listener.store.queued = [] := by decide +kernel
  have hnone : ∀ b, ¬ PairChain.listener.store.WaitsFor PairChain.env
      (PairChain.own.block.hashTreeRoot PairChain.env) b := by
    intro b hb
    exact absurd (hempty ▸ hb.mem_queued) (by simp)
  obtain ⟨-, hlookup, -, hout⟩ := proposal_taken_elsewhere (Env.tabulated_hashIdeal _)
    PairChain.genesis_eq PairChain.anchor_eq PairChain.start_reached PairChain.listener_reached
    (by decide +kernel) PairChain.proposal_eq rfl (by decide +kernel)
    (fun b hb => absurd hb (hnone b)) none true 9 rfl
  exact ⟨hlookup, hout⟩

end ConsensusClient
