import ConsensusClient.Node.Messages

/-!
# Checkpoints and Own Blocks

`process_block_internal` raises the checkpoints of the store to those of the post-state, while
`produce_block_with_signatures` stores a block and its post-state and leaves the checkpoints alone.
The chain task then passes the own block to `on_block`, which knows the block already and does
nothing, then and whenever the block comes back. So the checkpoints of the store are the highest
ones among the states of the blocks that were imported, and an own block that justifies or
finalizes a slot is ahead of them.

## Main results

* `Node.Follows`: the checkpoints of the store and those of its states
* `getLatestJustified_of_mem`: `get_latest_justified` finds the highest of them
* `checkpoints_lag_behind_own_blocks_only`: where the store is behind its states
-/

namespace ConsensusClient

/-! ## The states of the store -/

section States

variable {E : Env} {g : State} {store store' : Store} {time : ℕ} {validators : List Validator}

/-- The maximum by a key is that of the comparison of the keys. -/
theorem maxByKey_eq_maxBy {α : Type} (key : α → ℕ) (xs : List α) :
    maxByKey key xs = maxBy (fun a b => compare (key a) (key b)) xs := by
  cases xs with
  | nil => rfl
  | cons x xs => simp [maxByKey, maxBy, compare_gt_iff_gt]

/-- `get_latest_justified` finds the highest justified checkpoint of the states. -/
theorem getLatestJustified_of_mem {states : HashMap H256 State} {root : H256} {state : State}
    (h : states.lookup root = some state) :
    ∃ root' state', states.lookup root' = some state' ∧
      getLatestJustified states = some state'.latestJustified ∧
      ∀ root'' state'', states.lookup root'' = some state'' →
        state''.latestJustified.slot ≤ state'.latestJustified.slot := by
  have hmem : ∀ root state, states.lookup root = some state →
      state.latestJustified ∈ states.entries.map fun e => e.2.latestJustified := by
    intro root state hstate
    exact List.mem_map.mpr ⟨⟨root, state⟩, AList.mem_lookup_iff.mp hstate, rfl⟩
  cases hc : maxByKey (fun c => c.slot) (states.entries.map fun e => e.2.latestJustified) with
  | none =>
    rw [maxByKey_eq_maxBy, maxBy_eq_none] at hc
    exact absurd (hmem root state h) (by simp [hc])
  | some c =>
    obtain ⟨hcmem, hmax⟩ := maxBy_eq_some (fun c : Checkpoint => c.slot)
      (fun a b => compare_gt_iff_gt) (maxByKey_eq_maxBy _ _ ▸ hc)
    obtain ⟨e, he, rfl⟩ := List.mem_map.mp hcmem
    exact ⟨e.1, e.2, AList.mem_lookup_iff.mpr he, hc,
      fun root'' state'' hstate'' => hmax _ (hmem root'' state'' hstate'')⟩

/-- No block moves the finalized slot of its chain back. -/
theorem ReachedFromGenesis.finalized_le {blocks : List SignedBlockWithAttestation} {s s' : State}
    {sb : SignedBlockWithAttestation} (hE : E.HashIdeal) (h : ReachedFromGenesis E g blocks s)
    (htrans : s.stateTransition E sb true = .ok s') :
    s.latestFinalized.slot ≤ s'.latestFinalized.slot := by
  have inv := h.chainInv hE
  obtain ⟨l, l', step⟩ := State.stateTransition_step hE inv.unsealed htrans
  have hfin : s'.latestFinalized = l'.latestFinalized := by rw [step.result]; rfl
  rw [hfin, ← inv.finalized_beforeVotes sb.block]
  exact (inv.loopInv_end hE htrans step).finalized_le

/-- The finalized slot of a stored state is not before that of an ancestor. -/
theorem Store.Tree.finalized_le {offered : SignedBlockWithAttestation → Prop} (hE : E.HashIdeal)
    (hg : generateGenesisWithValidators E time validators = .ok g) (tree : store.Tree E g offered)
    {a b : H256} (h : store.Descends a b) {state state' : State}
    (ha : store.states.lookup a = some state') (hb : store.states.lookup b = some state) :
    state.latestFinalized.slot ≤ state'.latestFinalized.slot := by
  -- induction on the path, from the ancestor down
  induction h using Relation.ReflTransGen.head_induction_on generalizing state' with
  | refl =>
    obtain rfl := Option.some.inj (ha.symm.trans hb)
    exact le_rfl
  | @head a p hp hpb ih =>
    obtain ⟨block, hblock, hparent⟩ := Option.map_eq_some_iff.mp hp
    by_cases hgen : a = genesisRoot E g
    · -- the parent of the genesis block is not stored, so the ancestor is not either
      have hnone : store.parentOf p = none := by
        have hp' := (tree.wellFormed hg hE).anchor_parent block (hgen ▸ hblock)
        rw [hparent, ← AList.lookup_eq_none] at hp'
        simp [Store.parentOf, hp']
      obtain rfl := (ancestor_of_no_parent hnone).mp hpb
      have hstored := tree.block_of_state p (AList.lookup_isSome.mp (by rw [hb]; rfl))
      obtain ⟨pblock, hpblock⟩ := AList.mem_iff_exists_lookup.mp hstored
      exact absurd hnone (by simp [Store.parentOf, hpblock])
    · obtain ⟨pblock, pstate, sb, state'', -, hpstate, -, -, hstate'', htrans, hacc⟩ :=
        tree.exists_parent hE hblock hgen
      obtain rfl := Option.some.inj (ha.symm.trans hstate'')
      obtain ⟨blocks, hreach, -⟩ := hacc.reached hg htrans
      rw [hparent] at hpstate
      exact (ih hpstate).trans (hreach.finalized_le hE htrans)

end States

/-! ## What the checkpoints follow -/

/-- The checkpoints of the store are not before those of its states, but for the states of own
    blocks. -/
def Node.Follows (node : Node) : Prop :=
  ∀ root state, node.store.states.lookup root = some state → root ∈ node.produced ∨
    state.latestJustified.slot ≤ node.store.latestJustified.slot ∧
      state.latestFinalized.slot ≤ node.store.latestFinalized.slot

section Follows

variable {E : Env} {g : State} {vs : Option ValidatorService} {event : ChainEvent} {n n' : Node}

/-- What is added to the states belongs to own blocks, and no checkpoint moves. -/
theorem Node.Follows.frame (h : n.Follows) (hproduced : n.produced ⊆ n'.produced)
    (hjustified : n'.store.latestJustified = n.store.latestJustified)
    (hfinalized : n'.store.latestFinalized = n.store.latestFinalized)
    (hstates : ∀ root state, n'.store.states.lookup root = some state →
      n.store.states.lookup root = some state ∨ root ∈ n'.produced) : n'.Follows := by
  intro root state hstate
  rw [hjustified, hfinalized]
  rcases hstates root state hstate with hold | hnew
  · exact (h root state hold).imp_left fun hp => hproduced hp
  · exact Or.inl hnew

theorem Node.Follows.sameTree (h : n.Follows) (hsame : SameTree n.store n'.store)
    (hproduced : n'.produced = n.produced) : n'.Follows := by
  refine h.frame (by rw [hproduced]; exact List.Subset.refl _) hsame.latestJustified
    hsame.latestFinalized fun root state hstate => ?_
  rw [hsame.states] at hstate
  exact Or.inl hstate

/-- A proposal adds the state of its own block at most, and keeps the checkpoints. -/
theorem Node.Follows.withProposal (h : n.Follows) {orders : IterationOrders} {proposerIndex : ℕ}
    {proposal : Proposal}
    (hmay : n.MayPropose E vs orders proposerIndex proposal)
    (hsame : SameTree proposal.store n'.store)
    (hproduced : n'.produced = n.produced ++ n.store.producedRoot E orders n.slot proposerIndex) :
    n'.Follows := by
  obtain ⟨service, -, -, hproposal⟩ := hmay.owner
  obtain ⟨s₀, hs₀, hcases⟩ := ValidatorService.buildBlockProposal_cases hproposal
  have hhead := Store.getProposalHead_sameTree hs₀
  have hbefore : n.produced ⊆ n'.produced := by
    rw [hproduced]
    exact List.subset_append_left _ _
  rcases hcases with ⟨built, -, hstore, -, hcall⟩ | ⟨rfl, -⟩
  · rw [hstore] at hsame
    refine h.frame hbefore (hsame.latestJustified.trans hhead.latestJustified)
      (hsame.latestFinalized.trans hhead.latestFinalized) fun root state hstate => ?_
    rw [hsame.states] at hstate
    -- the state of the own block is the only new one
    by_cases hroot : root = built.block.hashTreeRoot E
    · right
      simp [hproduced, Store.producedRoot, hcall, hroot]
    · left
      rw [← hhead.states, ← AList.lookup_insert_ne hroot]
      exact hstate
  · refine h.frame hbefore (hsame.latestJustified.trans hhead.latestJustified)
      (hsame.latestFinalized.trans hhead.latestFinalized) fun root state hstate => ?_
    rw [hsame.states] at hstate
    exact Or.inl (hhead.states ▸ hstate)

/-- An imported block raises the checkpoints to those of its post-state. -/
theorem Imported.checkpoints_le {store store' : Store} {sb : SignedBlockWithAttestation}
    {root head : H256} {parent post : State}
    (h : Imported E store sb root store' parent post head) :
    post.latestJustified.slot ≤ store'.latestJustified.slot ∧
      post.latestFinalized.slot ≤ store'.latestFinalized.slot := by
  have hle : ∀ a b : Checkpoint, b.slot ≤ (if a.slot < b.slot then b else a).slot := by
    intro a b
    split_ifs with hlt
    · exact le_rfl
    · exact not_lt.mp hlt
  rw [h.result, Store.castProposerVote_eq, Store.importBlock_eq]
  exact ⟨hle _ _, hle _ _⟩

theorem Node.Follows.withBlocks (h : n.Follows) {sb : SignedBlockWithAttestation}
    {after : After Store (List SignedBlockWithAttestation)}
    (hcall : n.store.onBlock E sb = .ok after) : (n.withBlocks after).Follows := by
  obtain ⟨store', r⟩ := after
  refine (Store.onBlock_induction (Q := fun _ => True)
    (P := fun s _ => Node.Follows { n with store := s }) (fun s _ queue hs => hs) ?_ trivial h
    (fun _ _ => trivial) hcall).1
  intro s _ b s' parent post head _ hs himp root state hstate
  have hmono := himp.checkpointsLe
  rw [show ({ n with store := s' } : Node).store.states = s.states.insert _ post from
    himp.blocks_eq.2] at hstate
  by_cases hroot : root = b.block.hashTreeRoot E
  · subst hroot
    rw [AList.lookup_insert] at hstate
    obtain rfl := Option.some.inj hstate
    exact Or.inr himp.checkpoints_le
  · rw [AList.lookup_insert_ne hroot] at hstate
    refine (hs root state hstate).imp_right fun hle => ?_
    exact ⟨hle.1.trans hmono.justified.slot_le, hle.2.trans hmono.finalized.slot_le⟩

theorem Node.Follows.act (h : n.Follows) (hact : Node.Act E vs event n n') : n'.Follows := by
  cases hact with
  | ticked time store hcall => exact h.sameTree (Store.onTick_sameTree hcall) rfl
  | heard sa shouldGossip after hcall =>
    exact h.sameTree (Store.onAttestation_frame hcall).1 rfl
  | unsent orders proposerIndex proposal hmay => exact h.withProposal hmay (SameTree.refl _) rfl
  | lost orders proposerIndex proposal e hmay => exact h.withProposal hmay (SameTree.refl _) rfl
  | sent orders proposerIndex proposal sb later store hmay hsb hcall =>
    exact h.withProposal hmay (Store.onTick_sameTree hcall) rfl
  | delivered sb shouldGossip now after hevent hcall => exact h.withBlocks hcall
  | _ => exact h.sameTree (SameTree.refl _) rfl

/-- The only state at the start is that of the genesis block. -/
theorem Node.Follows.start {time : ℕ} {validators : List Validator}
    (hg : generateGenesisWithValidators E time validators = .ok g)
    (anchor : SignedBlockWithAttestation) (config : Config) :
    (Node.start (getForkchoiceStore E g anchor config)).Follows := by
  intro root state hstate
  right
  obtain ⟨hj, hf⟩ := genesis_checkpoints hg
  obtain rfl : state = g := by
    rw [show (Node.start (getForkchoiceStore E g anchor config)).store.states =
      AList.singleton (anchor.block.hashTreeRoot E) g from rfl, AList.lookup_singleton_eq] at hstate
    split_ifs at hstate
    exact (Option.some.inj hstate).symm
  rw [hj, hf]
  exact ⟨Nat.zero_le _, Nat.zero_le _⟩

end Follows

/-- In every run of the chain task from genesis, the justified checkpoint of the store is not
    behind that of a stored state, unless the state is that of an own block: `get_latest_justified`
    gives a higher checkpoint only from an own block. A stored state that has finalized more than
    the store is that of an own block too, and so are all states that descend from it. -/
theorem checkpoints_lag_behind_own_blocks_only {E : Env} {g : State} {time : ℕ}
    {validators : List Validator} (hE : E.HashIdeal)
    (hg : generateGenesisWithValidators E time validators = .ok g)
    {anchor : SignedBlockWithAttestation} (hanchor : anchor.block = genesisBlock E g)
    {config : Config} {vs : Option ValidatorService} {events : List ChainEvent} {node : Node}
    (hrun : node = (Node.start (getForkchoiceStore E g anchor config)).run E vs events) :
    (∀ root state, node.store.states.lookup root = some state → root ∉ node.produced →
      state.latestJustified.slot ≤ node.store.latestJustified.slot ∧
        state.latestFinalized.slot ≤ node.store.latestFinalized.slot) ∧
    (∃ c, getLatestJustified node.store.states = some c ∧
      node.store.latestJustified.slot ≤ c.slot ∧
      (node.store.latestJustified.slot < c.slot → ∃ root ∈ node.produced, ∃ state,
        node.store.states.lookup root = some state ∧ state.latestJustified = c)) ∧
    ∀ root state, node.store.states.lookup root = some state →
      node.store.latestFinalized.slot < state.latestFinalized.slot →
      ∀ root' ∈ node.store.blocks, node.store.Descends root' root → root' ∈ node.produced := by
  have hfollows : node.Follows := by
    rw [hrun]
    exact Node.run_of_act (fun event n n' hact hn => hn.act hact) events
      (Node.Follows.start hg anchor config)
  have hanchored : node.store.Anchored E g :=
    Node.Reached.anchored hg hE hanchor ⟨config, vs, events, hrun.symm⟩
  refine ⟨fun root state hstate hroot => (hfollows root state hstate).resolve_left hroot, ?_, ?_⟩
  · obtain ⟨root, state, hstate, hlatest, hmax⟩ :=
      getLatestJustified_of_mem hanchored.sound.tree.anchor_state
    refine ⟨state.latestJustified, hlatest, ?_, fun hlt => ?_⟩
    · -- the checkpoint of the store was taken from a state, or is the genesis block
      rcases hanchored.justified with hgenesis | ⟨root', state', -, hstate', hfield⟩
      · rw [hgenesis]
        exact Nat.zero_le _
      · rw [← hfield]
        exact hmax root' state' hstate'
    · refine ⟨root, (hfollows root state hstate).resolve_right fun hle => ?_, state, hstate, rfl⟩
      exact absurd hlt (not_lt.mpr hle.1)
  · intro root state hstate hlt root' hroot' hdesc
    obtain ⟨block', hblock'⟩ := AList.mem_iff_exists_lookup.mp hroot'
    obtain ⟨state', hstate', -⟩ := hanchored.sound.tree.accepted root' block' hblock'
    have hle := hanchored.sound.tree.finalized_le hE hg hdesc hstate' hstate
    refine (hfollows root' state' hstate').resolve_right fun hbehind => ?_
    exact absurd (hlt.trans_le hle) (not_lt.mpr hbehind.2)

/-! ## An own block that justifies slot 1 -/

namespace SoloProposer

open Sample

def validators : List Validator := [⟨7, 0⟩]

def genesis : State := state validators (header 1 0 0 0 1) ⟨0, 0⟩ ⟨0, 0⟩ [] []

/-- The vote for the own block at slot 1. -/
def vote : AttestationData where
  slot := 1
  head := ⟨2, 1⟩
  target := ⟨2, 1⟩
  source := ⟨1, 0⟩

/-- The body of the own block at slot 2, with the vote. -/
def body : BlockBody := ⟨[⟨[true], vote⟩]⟩

/-- The proposer's votes in the own blocks. -/
def proposerVotes : List AttestationData :=
  [⟨1, ⟨1, 0⟩, ⟨1, 0⟩, ⟨1, 0⟩⟩, ⟨2, ⟨2, 1⟩, ⟨1, 0⟩, ⟨1, 0⟩⟩]

def post1 : State := state validators (header 1 1 1 0 1) ⟨1, 0⟩ ⟨1, 0⟩ [1] []

/-- The state after the block at slot 2, which justifies slot 1. -/
def post2 : State := state validators (header 1 2 2 0 2) ⟨2, 1⟩ ⟨1, 0⟩ [1, 2] [true]

def env : Env := Env.tabulated {
  headers := [header 1 0 0 1 1, header 1 1 1 2 1, header 1 2 2 3 2]
  bodies := [⟨[]⟩, body]
  datas := vote :: proposerVotes
  states := [genesis, post1, post2] }

/-- The node runs the only validator. -/
def service : ValidatorService where
  validatorIndices := [0]
  numValidators := 1
  keyManager := some ⟨AList.singleton 0 7⟩

/-- The node proposes at slots 1 and 2, and receives the vote between them. -/
def events : List ChainEvent :=
  [.tick 4 4 .lastFirst, .message (.processAttestation ⟨0, vote, toySignature 7 1 1⟩ true) 5,
    .tick 8 8 .lastFirst]

theorem genesis_eq : generateGenesisWithValidators env 0 validators = .ok genesis := rfl

def node : Node :=
  (Node.start (getForkchoiceStore env genesis (block 1 0 0 1 []) { genesisTime := 0 })).run env
    (some service) events

end SoloProposer

/-- The own block of slot 2 has justified slot 1, and the store has not. -/
theorem own_block_is_ahead :
    SoloProposer.node.store.latestJustified = ⟨1, 0⟩ ∧
      getLatestJustified SoloProposer.node.store.states = some ⟨2, 1⟩ ∧
      ∃ root ∈ SoloProposer.node.produced, ∃ state,
        SoloProposer.node.store.states.lookup root = some state ∧
          state.latestJustified = ⟨2, 1⟩ := by
  have hbehind : SoloProposer.node.store.latestJustified = ⟨1, 0⟩ := by decide +kernel
  have hahead : getLatestJustified SoloProposer.node.store.states = some ⟨2, 1⟩ := by
    decide +kernel
  obtain ⟨-, ⟨c, hc, -, hown⟩, -⟩ := checkpoints_lag_behind_own_blocks_only
    (Env.tabulated_hashIdeal _) SoloProposer.genesis_eq rfl (rfl : SoloProposer.node = _)
  obtain rfl := Option.some.inj (hahead.symm.trans hc)
  exact ⟨hbehind, hahead, hown (by rw [hbehind]; decide)⟩

end ConsensusClient
