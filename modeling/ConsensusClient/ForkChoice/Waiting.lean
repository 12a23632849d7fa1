import ConsensusClient.ForkChoice.Sound

/-!
# Blocks That Wait

No delivered block is forgotten: it is stored, or rejected by the state of its parent for good,
or it stands in the queue for its parent. While the queue is flushed the last case has two more
forms, since the parent may be stored already and on the stack, and the block may have left the
queue and be next in turn. `Store.Covers` states all of them; the flush ends with an empty stack
and nothing in turn, and then the parents of the queue are missing.

## Main results

* `Store.Tree.onBlock`: a delivery only extends the tree
* `Store.Covers.processed`, `Store.Covers.taken`: the rounds of the flush
* `Store.Covers.decided_or_missing`: what is left to wait for when the flush is over
-/

namespace ConsensusClient

variable {E : Env} {g : State} {offered : SignedBlockWithAttestation → Prop}
  {store store' : Store} {sb : SignedBlockWithAttestation}

/-! ## Decided blocks -/

/-- The block is stored, or will never be: it names no parent, or its parent rejects it. -/
def Store.Decided (E : Env) (store : Store) (sb : SignedBlockWithAttestation) : Prop :=
  sb.block.hashTreeRoot E ∈ store.blocks ∨ sb.block.parentRoot = 0 ∨
    ∃ parent msg, store.states.lookup sb.block.parentRoot = some parent ∧
      parent.stateTransition E sb true = .error (.err msg)

/-- The tree has only grown. -/
structure Store.Extends (store' store : Store) : Prop where
  blocks_mem : ∀ root ∈ store.blocks, root ∈ store'.blocks
  states_lookup : ∀ root state, store.states.lookup root = some state →
    store'.states.lookup root = some state

theorem Store.Extends.refl (store : Store) : store.Extends store :=
  ⟨fun _ h => h, fun _ _ h => h⟩

theorem Store.Extends.trans {store'' : Store} (h' : store''.Extends store')
    (h : store'.Extends store) : store''.Extends store :=
  ⟨fun root hroot => h'.blocks_mem root (h.blocks_mem root hroot),
    fun root state hstate => h'.states_lookup root state (h.states_lookup root state hstate)⟩

theorem Store.Extends.states_mem (h : store'.Extends store) :
    ∀ root ∈ store.states, root ∈ store'.states := by
  intro root hroot
  obtain ⟨state, hstate⟩ := AList.mem_iff_exists_lookup.mp hroot
  exact AList.mem_iff_exists_lookup.mpr ⟨state, h.states_lookup root state hstate⟩

theorem Store.Decided.mono (hext : store'.Extends store) (h : store.Decided E sb) :
    store'.Decided E sb := by
  rcases h with h | h | ⟨parent, msg, hparent, hreject⟩
  · exact Or.inl (hext.blocks_mem _ h)
  · exact Or.inr (Or.inl h)
  · exact Or.inr (Or.inr ⟨parent, msg, hext.states_lookup _ _ hparent, hreject⟩)

/-- An imported block extends the tree and is decided. -/
theorem Store.Tree.extends_imported {parent post : State} {head : H256} (hE : E.HashIdeal)
    (tree : store.Tree E g offered) (hsb : offered sb)
    (himp : Imported E store sb (sb.block.hashTreeRoot E) store' parent post head) :
    store'.Extends store := by
  obtain ⟨hblocks, hstates⟩ := himp.blocks_eq
  constructor
  · intro root hroot
    rw [hblocks, AList.mem_insert]
    exact Or.inr hroot
  · intro root state hstate
    rw [hstates]
    exact tree.states_insert hE hsb himp.parent_state himp.transition hstate

/-- A block whose parent is stored is decided when it is processed. -/
theorem Store.Decided.of_processed {after : After Store Unit}
    (hparent : sb.block.parentRoot ∈ store.states ∨ sb.block.parentRoot = 0)
    (hafter : store.processBlockInternal E sb (sb.block.hashTreeRoot E) = .ok after) :
    after.state.Decided E sb := by
  obtain ⟨s₁, r⟩ := after
  cases r with
  | ok u =>
    obtain ⟨parent, post, head, himp⟩ := Store.processBlockInternal_eq_ok hafter
    left
    rw [himp.blocks_eq.1, AList.mem_insert]
    exact Or.inl rfl
  | error msg =>
    obtain ⟨rfl, hreject⟩ := Store.processBlockInternal_rejects hafter
    right
    rcases hparent with hparent | hzero
    · obtain ⟨parent, hparent⟩ := AList.mem_iff_exists_lookup.mp hparent
      obtain ⟨msg', herr⟩ := hreject parent hparent
      exact Or.inr ⟨parent, msg', hparent, herr⟩
    · exact Or.inl hzero

/-- Processing a block keeps the tree, and only extends it. -/
theorem Store.Tree.processed {after : After Store Unit} (hE : E.HashIdeal)
    (tree : store.Tree E g offered) (hsb : offered sb)
    (hafter : store.processBlockInternal E sb (sb.block.hashTreeRoot E) = .ok after) :
    after.state.Tree E g offered ∧ after.state.Extends store := by
  obtain ⟨s₁, r⟩ := after
  cases r with
  | ok u =>
    obtain ⟨parent, post, head, himp⟩ := Store.processBlockInternal_eq_ok hafter
    refine ⟨?_, tree.extends_imported hE hsb himp⟩
    exact (tree.insertBlock hE hsb himp.parent_state himp.transition).frame
      himp.blocks_eq.1 himp.blocks_eq.2
  | error msg =>
    obtain ⟨rfl, -⟩ := Store.processBlockInternal_rejects hafter
    exact ⟨tree, Store.Extends.refl _⟩

/-- A delivery keeps the tree, and only extends it. -/
theorem Store.Tree.onBlock {after : After Store (List SignedBlockWithAttestation)}
    (hE : E.HashIdeal) (tree : store.Tree E g fun _ => True)
    (hafter : store.onBlock E sb = .ok after) :
    after.state.Tree E g (fun _ => True) ∧ after.state.Extends store := by
  have hstart : store.Tree E g (fun _ => True) ∧ store.Extends store :=
    ⟨tree, Store.Extends.refl store⟩
  refine meets_true.mp (Store.onBlock_meets (I := fun s _ _ =>
    s.Tree E g (fun _ => True) ∧ s.Extends store) ?_ ?_ ?_ (fun _ => hstart) ?_
    fun _ _ => hstart) after hafter
  · intro s roots b rest hs
    refine meets_true.mpr fun after hafter => ?_
    obtain ⟨htree, hext⟩ := hs.1.processed hE trivial hafter
    exact ⟨htree, hext.trans hs.2⟩
  · intro s root roots hs _
    exact hs
  · intro s root roots blocks hs _
    exact ⟨hs.1.frame rfl rfl, hs.2.1, hs.2.2⟩
  · intro _ _ _
    exact ⟨tree.frame rfl rfl, hstart.2.1, hstart.2.2⟩

/-- A stored state is an old one or the one of the root that was pushed. -/
theorem Store.mem_states_processed {after : After Store Unit} {root : H256} {roots : List H256}
    (hafter : store.processBlockInternal E sb (sb.block.hashTreeRoot E) = .ok after) :
    (root ∈ after.state.states → root ∈ store.states ∨ root ∈ pushRoot E sb roots after.result) ∧
    (root ∈ pushRoot E sb roots after.result → root ∈ after.state.states ∨ root ∈ roots) := by
  obtain ⟨s₁, r⟩ := after
  cases r with
  | ok u =>
    obtain ⟨parent, post, head, himp⟩ := Store.processBlockInternal_eq_ok hafter
    simp only [himp.blocks_eq.2, AList.mem_insert, pushRoot, List.mem_cons]
    constructor
    · rintro (rfl | h)
      · exact Or.inr (Or.inl rfl)
      · exact Or.inl h
    · rintro (rfl | h)
      · exact Or.inl (Or.inl rfl)
      · exact Or.inr h
  | error msg =>
    obtain ⟨rfl, -⟩ := Store.processBlockInternal_rejects hafter
    exact ⟨Or.inl, Or.inr⟩

theorem mem_pushRoot {root : H256} {roots : List H256} {r : Except String Unit}
    (h : root ∈ roots) : root ∈ pushRoot E sb roots r := by
  cases r with
  | ok u => exact List.mem_cons_of_mem _ h
  | error msg => exact h

/-! ## Coverage -/

/-- The watched blocks are decided, queued or in turn, and a watched parent that is stored and
    still has a queue is on the stack. -/
structure Store.Covers (E : Env) (parents : H256 → Prop)
    (watched : SignedBlockWithAttestation → Prop) (store : Store) (roots : List H256)
    (rest : List SignedBlockWithAttestation) : Prop where
  queue_keyed : ∀ root blocks, store.blocksQueue.lookup root = some blocks →
    ∀ b ∈ blocks, b.block.parentRoot = root
  roots_stored : ∀ root ∈ roots, root ∈ store.states
  rest_parent : ∀ b ∈ rest, b.block.parentRoot ∈ store.states ∨ b.block.parentRoot = 0
  pending : ∀ root, parents root → root ∈ store.blocksQueue → root ∈ store.states → root ∈ roots
  covered : ∀ b, watched b → store.Decided E b ∨
    (∃ blocks, store.blocksQueue.lookup b.block.parentRoot = some blocks ∧ b ∈ blocks) ∨ b ∈ rest

namespace Store.Covers

variable {parents : H256 → Prop} {watched : SignedBlockWithAttestation → Prop}
  {roots : List H256} {rest : List SignedBlockWithAttestation}

/-- Only the tree and the queue matter. -/
theorem frame (h : store.Covers E parents watched roots rest)
    (hblocks : store'.blocks = store.blocks) (hstates : store'.states = store.states)
    (hqueue : store'.blocksQueue = store.blocksQueue) :
    store'.Covers E parents watched roots rest := by
  have hext : store'.Extends store :=
    ⟨fun root hroot => by rwa [hblocks], fun root state hstate => by rwa [hstates]⟩
  exact {
    queue_keyed := by rw [hqueue]; exact h.queue_keyed
    roots_stored := by rw [hstates]; exact h.roots_stored
    rest_parent := by rw [hstates]; exact h.rest_parent
    pending := by rw [hqueue, hstates]; exact h.pending
    covered := by
      intro b hb
      rw [hqueue]
      exact (h.covered b hb).imp_left (Store.Decided.mono hext) }

/-- A block in turn is imported or rejected. -/
theorem processed {after : After Store Unit} (hE : E.HashIdeal) (tree : store.Tree E g offered)
    (hsb : offered sb) (h : store.Covers E parents watched roots (sb :: rest))
    (hafter : store.processBlockInternal E sb (sb.block.hashTreeRoot E) = .ok after) :
    after.state.Covers E parents watched (pushRoot E sb roots after.result) rest := by
  have hqueue := Store.processBlockInternal_queue hafter
  obtain ⟨-, hext⟩ := tree.processed hE hsb hafter
  exact {
    queue_keyed := by rw [hqueue]; exact h.queue_keyed
    roots_stored := by
      intro root hroot
      rcases (Store.mem_states_processed hafter).2 hroot with hroot | hroot
      · exact hroot
      · exact hext.states_mem root (h.roots_stored root hroot)
    rest_parent := fun b hb => (h.rest_parent b (by simp [hb])).imp_left (hext.states_mem _)
    pending := by
      intro root hparent hin hstored
      rw [hqueue] at hin
      rcases (Store.mem_states_processed hafter).1 hstored with hstored | hroot
      · exact mem_pushRoot (h.pending root hparent hin hstored)
      · exact hroot
    covered := by
      intro b hb
      rw [hqueue]
      rcases h.covered b hb with hdec | hin | hrest
      · exact Or.inl (hdec.mono hext)
      · exact Or.inr (Or.inl hin)
      · -- the block at its turn is decided now
        rcases List.mem_cons.mp hrest with rfl | hrest
        · exact Or.inl (Store.Decided.of_processed (h.rest_parent b (by simp)) hafter)
        · exact Or.inr (Or.inr hrest) }

/-- A root for which nothing waits is dropped from the stack. -/
theorem skipped {root : H256} (h : store.Covers E parents watched (root :: roots) [])
    (hnone : store.blocksQueue.lookup root = none) :
    store.Covers E parents watched roots [] where
  queue_keyed := h.queue_keyed
  roots_stored := fun r hr => h.roots_stored r (by simp [hr])
  rest_parent := h.rest_parent
  pending := by
    intro r hparent hqueue hstored
    rcases List.mem_cons.mp (h.pending r hparent hqueue hstored) with rfl | hr
    · exact absurd hqueue (AList.lookup_eq_none.mp hnone)
    · exact hr
  covered := h.covered

/-- The blocks that wait for the root on top of the stack leave the queue together. -/
theorem taken {root : H256} {blocks : List SignedBlockWithAttestation}
    (h : store.Covers E parents watched (root :: roots) [])
    (hlookup : store.blocksQueue.lookup root = some blocks) :
    Store.Covers E parents watched
      { store with blocksQueue := store.blocksQueue.erase root } roots blocks where
  queue_keyed := by
    intro r bs hr
    simp only [AList.lookup_erase_eq] at hr
    split_ifs at hr
    exact h.queue_keyed r bs hr
  roots_stored := fun r hr => h.roots_stored r (by simp [hr])
  rest_parent := by
    intro b hb
    rw [h.queue_keyed root blocks hlookup b hb]
    exact Or.inl (h.roots_stored root (by simp))
  pending := by
    intro r hparent hqueue hstored
    -- another root waits as it did before
    obtain ⟨hne, hqueue⟩ := AList.mem_erase.mp hqueue
    rcases List.mem_cons.mp (h.pending r hparent hqueue hstored) with rfl | hr
    · exact absurd rfl hne
    · exact hr
  covered := by
    intro b hb
    rcases h.covered b hb with hdec | ⟨bs, hbs, hmem⟩ | hrest
    · exact Or.inl hdec
    · right
      by_cases hroot : b.block.parentRoot = root
      · -- it is among those taken
        rw [hroot, hlookup] at hbs
        obtain rfl := Option.some.inj hbs
        exact Or.inr hmem
      · refine Or.inl ⟨bs, ?_, hmem⟩
        simp only [AList.lookup_erase_eq, if_neg hroot]
        exact hbs
    · exact absurd hrest (by simp)

/-! ### A delivery -/

theorem mono {watched' : SignedBlockWithAttestation → Prop} (hsub : ∀ b, watched' b → watched b)
    (h : store.Covers E parents watched roots rest) :
    store.Covers E parents watched' roots rest :=
  { h with covered := fun b hb => h.covered b (hsub b hb) }

theorem delivered_known (h : store.Covers E parents watched [] [])
    (hknown : sb.block.hashTreeRoot E ∈ store.blocks) :
    store.Covers E parents (fun b => watched b ∨ b = sb) [] [] where
  queue_keyed := h.queue_keyed
  roots_stored := h.roots_stored
  rest_parent := h.rest_parent
  pending := h.pending
  covered := by
    rintro b (hb | rfl)
    · exact h.covered b hb
    · exact Or.inl (Or.inl hknown)

theorem delivered_waiting (h : store.Covers E parents watched [] [])
    (hmissing : sb.block.parentRoot ∉ store.states) :
    (store.enqueue sb).Covers E parents (fun b => watched b ∨ b = sb) [] [] where
  queue_keyed := by
    intro root blocks hlookup b hb
    rcases Store.mem_lookup_enqueue hlookup hb with ⟨old, hold, hb⟩ | ⟨rfl, hroot⟩
    · exact h.queue_keyed root old hold b hb
    · exact hroot.symm
  roots_stored := h.roots_stored
  rest_parent := h.rest_parent
  pending := by
    intro root hparent hqueue hstored
    rcases (AList.mem_insert store.blocksQueue).mp hqueue with rfl | hqueue
    -- the block waits because its parent is not stored
    · exact absurd hstored hmissing
    · exact h.pending root hparent hqueue hstored
  covered := by
    rintro b (hb | rfl)
    · rcases h.covered b hb with hdec | ⟨blocks, hblocks, hmem⟩ | hrest
      · exact Or.inl hdec
      · refine Or.inr (Or.inl ?_)
        simp only [Store.enqueue, AList.lookup_insert_eq]
        split_ifs with hroot
        · refine ⟨_, rfl, List.mem_append_left _ ?_⟩
          rw [← hroot, hblocks]
          exact hmem
        · exact ⟨blocks, hblocks, hmem⟩
      · exact absurd hrest (by simp)
    · refine Or.inr (Or.inl ⟨_, AList.lookup_insert store.blocksQueue, ?_⟩)
      simp

theorem delivered_now (h : store.Covers E parents watched [] [])
    (hparent : ¬ (sb.block.parentRoot ∉ store.states ∧ sb.block.parentRoot ≠ 0)) :
    store.Covers E parents (fun b => watched b ∨ b = sb) [] [sb] where
  queue_keyed := h.queue_keyed
  roots_stored := h.roots_stored
  rest_parent := by
    intro b hb
    rw [List.mem_singleton.mp hb]
    by_contra hnone
    push Not at hnone
    exact hparent hnone
  pending := h.pending
  covered := by
    rintro b (hb | rfl)
    · exact (h.covered b hb).imp_right fun hb => hb.imp_right fun hrest =>
        absurd hrest (by simp)
    · exact Or.inr (Or.inr (by simp))

/-- When the flush is over, a block that is not decided waits for a missing parent. -/
theorem decided_or_missing (h : store.Covers E parents watched [] []) (hb : watched sb)
    (hparent : parents sb.block.parentRoot) :
    store.Decided E sb ∨ sb.block.parentRoot ∉ store.states := by
  rcases h.covered sb hb with hdec | ⟨blocks, hblocks, hmem⟩ | hrest
  · exact Or.inl hdec
  · refine Or.inr fun hstored => ?_
    have hqueue := AList.mem_iff_exists_lookup.mpr ⟨blocks, hblocks⟩
    exact absurd (h.pending _ hparent hqueue hstored) (by simp)
  · exact absurd hrest (by simp)

end Store.Covers

end ConsensusClient
