import ConsensusClient.ForkChoice.Checkpoints
import ConsensusClient.Node.ChainTask

/-!
# Agreement of Nodes

Two nodes that start from one genesis block see different blocks and votes, in different orders,
and propose blocks of their own. Unless a third of the validators have votes for two conflicting
targets in blocks that the nodes store, the heads of both lie below the lower one of their
finalized checkpoints.

## Main results

* `Store.Tree.descends_transfer`: ancestors are the same in every tree that has the block
* `third_conflicts`: two conflicting checkpoints share a third of the validators
* `Store.Certified.descends`: otherwise the higher one descends from the lower one
* `heads_share_finalized_checkpoint`: what follows for the heads of two nodes
-/

namespace ConsensusClient

/-! ## One block in two stores -/

section TwoStores

variable {E : Env} {g : State} {offered offered' : SignedBlockWithAttestation → Prop}
  {s₁ s₂ store : Store} {a b : H256}

/-- Roots that are stored in both trees have the same block there. -/
theorem Store.Keyed.lookup_eq (hE : E.HashIdeal) (h₁ : s₁.Keyed E) (h₂ : s₂.Keyed E)
    {x y : Block} (hx : s₁.blocks.lookup a = some x) (hy : s₂.blocks.lookup a = some y) :
    x = y :=
  Block.hashTreeRoot_injective hE ((h₁ a x hx).trans (h₂ a y hy).symm)

/-- Nothing lies above the zero root, which the genesis block names as its parent. -/
theorem Store.Keyed.descends_zero (hE : E.HashIdeal) (hkeyed : store.Keyed E)
    (h : store.Descends 0 b) : b = 0 := by
  have hnone : store.parentOf 0 = none := by
    rw [Store.parentOf, AList.lookup_eq_none.mpr (hkeyed.zero_not_mem hE)]
    rfl
  exact ((ancestor_of_no_parent hnone).mp h).symm

variable {time : ℕ} {validators : List Validator}
  (hg : generateGenesisWithValidators E time validators = .ok g)

include hg in
/-- An ancestor of a stored block is stored, but for the zero root. -/
theorem Store.Tree.ancestor_mem (hE : E.HashIdeal) (tree : store.Tree E g offered)
    (ha : a ∈ store.blocks) (hb : b ≠ 0) (h : store.Descends a b) : b ∈ store.blocks := by
  induction h using Relation.ReflTransGen.head_induction_on with
  | refl => exact ha
  | @head x y hxy hyb ih =>
    obtain ⟨block, hblock, hparent⟩ := Store.parentOf_eq_some.mp hxy
    by_cases hgenesis : x = genesisRoot E g
    · -- the walk cannot go on from the parent of the genesis block
      obtain rfl : y = 0 := by
        rw [hgenesis, tree.anchor_block] at hblock
        rw [← hparent, ← Option.some.inj hblock]
        rfl
      exact absurd (tree.keyed.descends_zero hE hyb) hb
    · obtain ⟨pblock, hpblock, -⟩ := tree.parent_lt hg hE hblock hgenesis
      rw [hparent] at hpblock
      exact ih (AList.lookup_isSome.mp (by rw [hpblock]; rfl))

include hg in
/-- The ancestors of a block are the same in every tree that has it. -/
theorem Store.Tree.descends_transfer (hE : E.HashIdeal) (tree₁ : s₁.Tree E g offered)
    (tree₂ : s₂.Tree E g offered') (ha : a ∈ s₂.blocks) (hb : b ≠ 0) (h : s₁.Descends a b) :
    s₂.Descends a b := by
  induction h using Relation.ReflTransGen.head_induction_on with
  | refl => exact Relation.ReflTransGen.refl
  | @head x y hxy hyb ih =>
    obtain ⟨block, hblock, hparent⟩ := Store.parentOf_eq_some.mp hxy
    obtain ⟨block', hblock'⟩ := Option.isSome_iff_exists.mp (AList.lookup_isSome.mpr ha)
    obtain rfl := tree₁.keyed.lookup_eq hE tree₂.keyed hblock hblock'
    have hstep : s₂.Descends x y :=
      Relation.ReflTransGen.single (Store.parentOf_eq_some.mpr ⟨block, hblock', hparent⟩)
    refine hstep.trans (ih ?_)
    by_cases hy : y = 0
    · subst hy
      exact absurd (tree₁.keyed.descends_zero hE hyb) hb
    · exact tree₂.ancestor_mem hg hE ha hy hstep

include hg in
/-- Every stored block descends from the genesis block. -/
theorem Store.Tree.descends_genesis (hE : E.HashIdeal) (tree : store.Tree E g offered)
    (ha : a ∈ store.blocks) : store.Descends a (genesisRoot E g) := by
  obtain ⟨block, hblock⟩ := Option.isSome_iff_exists.mp (AList.lookup_isSome.mpr ha)
  obtain ⟨state, -, hacc⟩ := tree.accepted a block hblock
  rw [← tree.keyed a block hblock]
  by_cases hne : block = genesisBlock E g
  · rw [hne]
    exact Relation.ReflTransGen.refl
  · obtain ⟨blocks, hrun, -, hblocks⟩ := hacc.exists_chain
    have hreach := ReachedFromGenesis.of_runChain hg (hblocks hne) hrun
    exact (tree.descends_of_onChain hg hE hacc (Block.hashTreeRoot_ne_zero hE _)
      (hreach.genesis_onChain hE (hblocks hne))).1

include hg in
/-- A stored block at slot 0 is the genesis block. -/
theorem Store.Tree.eq_genesisCheckpoint (hE : E.HashIdeal) (tree : store.Tree E g offered)
    {c : Checkpoint} (hc : store.HasCheckpoint c) (h0 : c.slot = 0) :
    c = genesisCheckpoint E g := by
  obtain ⟨block, hblock, hslot⟩ := hc
  refine Checkpoint.ext ?_ h0
  by_contra hne
  obtain ⟨pblock, -, hlt⟩ := tree.parent_lt hg hE hblock hne
  omega

/-- An ancestor at the same slot or later is the block itself. -/
theorem Store.WellFormed.eq_of_slot_le {anchor : H256} (wf : store.WellFormed anchor) {x y : Block}
    (h : store.Descends a b) (hx : store.blocks.lookup a = some x)
    (hy : store.blocks.lookup b = some y) (hle : x.slot ≤ y.slot) : a = b := by
  have hb : b ∈ store.blocks := AList.lookup_isSome.mp (by rw [hy]; rfl)
  refine ((wf.descends_iff hx hb).mp h).resolve_right ?_
  rintro ⟨hne, hup⟩
  obtain ⟨parent, hparent, hlt⟩ := wf.parent_mem a x hx hne
  have hslot := wf.slot_le hup hparent hy
  omega

end TwoStores

/-! ## Conflicting votes -/

/-- Neither of the blocks, one stored in each store, is the other or one of its ancestors. -/
def Conflicting (s₁ s₂ : Store) (a b : H256) : Prop := ¬ s₁.Descends a b ∧ ¬ s₂.Descends b a

open Classical in
/-- The validators, out of `n`, with votes for conflicting targets in blocks of the two stores. -/
noncomputable def conflictVoters (n : ℕ) (s₁ s₂ : Store) : Finset ℕ :=
  (Finset.range n).filter fun v => ∃ x ∈ s₁.includedVotes, ∃ y ∈ s₂.includedVotes,
    x.1 = v ∧ y.1 = v ∧ Conflicting s₁ s₂ x.2.target.root y.2.target.root

theorem mem_conflictVoters {n v : ℕ} {s₁ s₂ : Store} :
    v ∈ conflictVoters n s₁ s₂ ↔ v < n ∧ ∃ x ∈ s₁.includedVotes, ∃ y ∈ s₂.includedVotes,
      x.1 = v ∧ y.1 = v ∧ Conflicting s₁ s₂ x.2.target.root y.2.target.root := by
  simp only [conflictVoters, Finset.mem_filter, Finset.mem_range]

/-- A stored checkpoint that is the genesis block or has the votes of two thirds. -/
structure Store.Certified (E : Env) (g : State) (n : ℕ) (store : Store) (c : Checkpoint) :
    Prop where
  stored : store.HasCheckpoint c
  quorum : c = genesisCheckpoint E g ∨ Quorum n (store.targetVoters n c)

section Agreement

variable {E : Env} {g : State} {s₁ s₂ store : Store} {time : ℕ} {validators : List Validator}

/-- Two conflicting checkpoints with two thirds of the votes each share a third of them. -/
theorem third_conflicts {n : ℕ} {c₁ c₂ : Checkpoint} (h₁ : Quorum n (s₁.targetVoters n c₁))
    (h₂ : Quorum n (s₂.targetVoters n c₂)) (hconf : Conflicting s₁ s₂ c₁.root c₂.root) :
    n ≤ 3 * (conflictVoters n s₁ s₂).card := by
  have hthird := h₁.inter h₂ (Finset.filter_subset _ _) (Finset.filter_subset _ _)
  have hsub : s₁.targetVoters n c₁ ∩ s₂.targetVoters n c₂ ⊆ conflictVoters n s₁ s₂ := by
    intro v hv
    obtain ⟨hv₁, hv₂⟩ := Finset.mem_inter.mp hv
    obtain ⟨hlt, x, hx, hxv, rfl⟩ := Finset.mem_filter.mp hv₁
    obtain ⟨-, y, hy, hyv, rfl⟩ := Finset.mem_filter.mp hv₂
    exact mem_conflictVoters.mpr
      ⟨Finset.mem_range.mp hlt, x, hx, y, hy, hxv, hyv, hconf⟩
  have hcard := Finset.card_le_card hsub
  omega

variable (hg : generateGenesisWithValidators E time validators = .ok g)

include hg in
/-- Of two certified checkpoints, the higher one descends from the lower one, unless a third of
    the validators voted for conflicting targets. -/
theorem Store.Certified.descends (hE : E.HashIdeal) {n : ℕ} {c₁ c₂ : Checkpoint}
    (a₁ : s₁.Anchored E g) (a₂ : s₂.Anchored E g) (h₁ : s₁.Certified E g n c₁)
    (h₂ : s₂.Certified E g n c₂) (hsafe : 3 * (conflictVoters n s₁ s₂).card < n)
    (hle : c₁.slot ≤ c₂.slot) : s₂.Descends c₂.root c₁.root := by
  have tree₁ := a₁.sound.tree
  have tree₂ := a₂.sound.tree
  -- a checkpoint at the genesis slot lies above everything
  have hbelow : c₁ = genesisCheckpoint E g → s₂.Descends c₂.root c₁.root := by
    rintro rfl
    exact tree₂.descends_genesis hg hE h₂.stored.mem
  rcases h₁.quorum with h₁g | hq₁
  · exact hbelow h₁g
  rcases h₂.quorum with h₂g | hq₂
  · refine hbelow (tree₁.eq_genesisCheckpoint hg hE h₁.stored (Nat.le_zero.mp ?_))
    rw [h₂g] at hle
    exact hle
  by_contra hnot
  have hnot₁ : ¬ s₁.Descends c₁.root c₂.root := by
    intro hdesc
    obtain ⟨x, hx, hxslot⟩ := h₁.stored
    obtain ⟨y, hy, hyslot⟩ := h₂.stored
    have hne : c₂.root ≠ 0 := fun h0 => tree₂.keyed.zero_not_mem hE (h0 ▸ h₂.stored.mem)
    -- the higher checkpoint would be an ancestor of the lower one
    have hmem := tree₁.ancestor_mem hg hE h₁.stored.mem hne hdesc
    obtain ⟨y', hy'⟩ := Option.isSome_iff_exists.mp (AList.lookup_isSome.mpr hmem)
    obtain rfl := tree₁.keyed.lookup_eq hE tree₂.keyed hy' hy
    have heq := (tree₁.wellFormed hg hE).eq_of_slot_le hdesc hx hy' (by omega)
    rw [heq] at hnot
    exact hnot Relation.ReflTransGen.refl
  have hthird := third_conflicts hq₁ hq₂ ⟨hnot₁, hnot⟩
  omega

include hg in
theorem Store.Anchored.certified_justified (hE : E.HashIdeal) (h : store.Anchored E g) :
    store.Certified E g validators.length store.latestJustified :=
  ⟨h.sound.justified, h.justified_quorum hg hE⟩

include hg in
theorem Store.Anchored.certified_finalized (hE : E.HashIdeal) (h : store.Anchored E g) :
    store.Certified E g validators.length store.latestFinalized :=
  ⟨h.sound.finalized, h.finalized_quorum hg hE⟩

include hg in
/-- The head lies below the finalized checkpoint, unless a third of the validators voted for
    conflicting targets. -/
theorem Store.Anchored.head_below_finalized (hE : E.HashIdeal) (h : store.Anchored E g)
    (hsafe : 3 * (conflictVoters validators.length store store).card < validators.length) :
    store.Descends store.head store.latestFinalized.root :=
  h.head_descends.trans ((h.certified_finalized hg hE).descends hg hE h h
    (h.certified_justified hg hE) hsafe h.finalized_le)

/-- A node in some run of the task from this genesis block. -/
def Node.Reached (E : Env) (g : State) (anchor : SignedBlockWithAttestation) (node : Node) : Prop :=
  ∃ config vs events,
    (Node.start (getForkchoiceStore E g anchor config)).run E vs events = node

include hg in
theorem Node.Reached.anchored (hE : E.HashIdeal) {anchor : SignedBlockWithAttestation}
    (hanchor : anchor.block = genesisBlock E g) {node : Node} (h : node.Reached E g anchor) :
    node.store.Anchored E g := by
  obtain ⟨config, vs, events, rfl⟩ := h
  obtain ⟨ops, hreach⟩ := Node.run_reachedFromAnchor E vs g anchor config events
  exact (Store.Anchored.genesis hg hanchor config).run hg hE hreach.run

/-- Two nodes with one genesis block agree on the lower one of their finalized checkpoints,
    whatever each of them received and proposed: unless a third of the validators have votes for
    conflicting targets in blocks that they store, the heads of both lie below it. -/
theorem heads_share_finalized_checkpoint (hE : E.HashIdeal)
    (hg : generateGenesisWithValidators E time validators = .ok g)
    {anchor : SignedBlockWithAttestation} (hanchor : anchor.block = genesisBlock E g)
    {n₁ n₂ : Node} (hn₁ : n₁.Reached E g anchor) (hn₂ : n₂.Reached E g anchor)
    (hsafe : ∀ n n', n = n₁ ∨ n = n₂ → n' = n₁ ∨ n' = n₂ →
      3 * (conflictVoters validators.length n.store n'.store).card < validators.length)
    (hle : n₁.store.latestFinalized.slot ≤ n₂.store.latestFinalized.slot) :
    n₁.store.Descends n₁.store.head n₁.store.latestFinalized.root ∧
      n₂.store.Descends n₂.store.head n₁.store.latestFinalized.root := by
  have h₁ := hn₁.anchored hg hE hanchor
  have h₂ := hn₂.anchored hg hE hanchor
  have hown₁ := h₁.head_below_finalized hg hE (hsafe n₁ n₁ (Or.inl rfl) (Or.inl rfl))
  have hown₂ := h₂.head_below_finalized hg hE (hsafe n₂ n₂ (Or.inr rfl) (Or.inr rfl))
  refine ⟨hown₁, hown₂.trans ?_⟩
  exact (h₁.certified_finalized hg hE).descends hg hE h₁ h₂ (h₂.certified_finalized hg hE)
    (hsafe n₁ n₂ (Or.inl rfl) (Or.inr rfl)) hle

end Agreement

/-! ## Two nodes on the chain with one validator -/

namespace SoloChain

def blockMessage (sb : SignedBlockWithAttestation) : ChainEvent :=
  .message (.processBlock sb false) 17

/-- The blocks of the chain in order. -/
def ordered : List ChainEvent :=
  [blockMessage (block 2 1 2 []), blockMessage (block 3 2 3 []), blockMessage (block 4 3 4 links)]

/-- The last block first, so that it waits for the others. -/
def reversed : List ChainEvent :=
  [blockMessage (block 4 3 4 links), blockMessage (block 3 2 3 []), blockMessage (block 2 1 2 [])]

/-- A node that only listens. -/
def listener (events : List ChainEvent) : Node :=
  (Node.start (getForkchoiceStore env genesis GenesisVotes.anchor { genesisTime := 0 })).run env
    none events

theorem listener_reached (events : List ChainEvent) :
    (listener events).Reached env genesis GenesisVotes.anchor :=
  ⟨{ genesisTime := 0 }, none, events, rfl⟩

theorem listener_eq (events : List ChainEvent) (h : events = ordered ∨ events = reversed) :
    (∀ x ∈ (listener events).store.includedVotes, x.2.target.root = 2 ∨ x.2.target.root = 3) ∧
      (listener events).store.parentOf 3 = some 2 ∧
      (listener events).store.latestFinalized = ⟨2, 2⟩ := by
  rcases h with rfl | rfl
  · decide +kernel
  · decide +kernel

/-- All votes of the chain are for blocks of the chain. -/
theorem conflictVoters_eq_empty {n n' : Node}
    (hn : n = listener ordered ∨ n = listener reversed)
    (hn' : n' = listener ordered ∨ n' = listener reversed) :
    conflictVoters 1 n.store n'.store = ∅ := by
  have hvotes : ∀ n, n = listener ordered ∨ n = listener reversed →
      (∀ x ∈ n.store.includedVotes, x.2.target.root = 2 ∨ x.2.target.root = 3) ∧
        n.store.Descends 3 2 := by
    intro n hn
    rcases hn with hn | hn
    · obtain ⟨htargets, hparent, -⟩ := listener_eq ordered (Or.inl rfl)
      rw [hn]
      exact ⟨htargets, Relation.ReflTransGen.single hparent⟩
    · obtain ⟨htargets, hparent, -⟩ := listener_eq reversed (Or.inr rfl)
      rw [hn]
      exact ⟨htargets, Relation.ReflTransGen.single hparent⟩
  -- in either order the votes are for blocks 2 and 3, and 3 descends from 2
  obtain ⟨htargets, hup⟩ := hvotes n hn
  obtain ⟨htargets', hup'⟩ := hvotes n' hn'
  refine Finset.eq_empty_of_forall_notMem fun v hv => ?_
  obtain ⟨-, x, hx, y, hy, -, -, hno, hno'⟩ := mem_conflictVoters.mp hv
  rcases htargets x hx with hx | hx <;> rcases htargets' y hy with hy | hy <;>
    rw [hx, hy] at hno hno'
  · exact hno Relation.ReflTransGen.refl
  · exact hno' hup'
  · exact hno hup
  · exact hno Relation.ReflTransGen.refl

end SoloChain

/-- Both nodes have finalized the block at slot 2, and their heads lie below it. -/
theorem solo_nodes_share_finalized_checkpoint :
    (SoloChain.listener SoloChain.ordered).store.latestFinalized = ⟨2, 2⟩ ∧
      (SoloChain.listener SoloChain.reversed).store.Descends
        (SoloChain.listener SoloChain.reversed).store.head 2 := by
  obtain ⟨-, -, hfin⟩ := SoloChain.listener_eq SoloChain.ordered (Or.inl rfl)
  obtain ⟨-, -, hfin'⟩ := SoloChain.listener_eq SoloChain.reversed (Or.inr rfl)
  refine ⟨hfin, ?_⟩
  have hshared := (heads_share_finalized_checkpoint (Env.tabulated_hashIdeal _)
    (show generateGenesisWithValidators SoloChain.env 0 [{ pubkey := 7, index := 0 }] =
      .ok SoloChain.genesis from rfl) (show GenesisVotes.anchor.block = _ from rfl)
    (SoloChain.listener_reached SoloChain.ordered)
    (SoloChain.listener_reached SoloChain.reversed)
    (fun n n' hn hn' => by
      rw [List.length_singleton, SoloChain.conflictVoters_eq_empty hn hn']
      decide) (by rw [hfin, hfin'])).2
  rw [hfin] at hshared
  exact hshared

end ConsensusClient
