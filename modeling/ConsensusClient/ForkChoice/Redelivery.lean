import ConsensusClient.ForkChoice.Waiting

/-!
# Redelivered Blocks

`on_block` ignores a block that is stored, and fails again on one that its parent rejects, so
delivering either a second time changes nothing. A block whose parent is missing is put into the
queue without a look at what is there: it waits once for every delivery, and when the parent
comes, it is processed as often. A repeated delivery is without effect exactly if the block is
not waiting at that moment.

## Main results

* `Store.apply_of_decided`, `Store.apply_of_awaits`: the two ways a second delivery can go
* `TrackInv.of_deliveries`: a delivered block is decided or waits, from then on
* `redelivery_idempotent_iff`: when a repeated delivery is without effect, anywhere in a run
-/

namespace ConsensusClient

/-! ## Waiting for a parent -/

/-- The block is unknown and `on_block` would put it into the queue. -/
def Store.Awaits (E : Env) (store : Store) (sb : SignedBlockWithAttestation) : Prop :=
  sb.block.hashTreeRoot E ∉ store.blocks ∧ sb.block.parentRoot ∉ store.states ∧
    sb.block.parentRoot ≠ 0

/-- A sequence of deliveries. -/
def deliveries (blocks : List SignedBlockWithAttestation) : List StoreOp :=
  blocks.map StoreOp.block

/-- The blocks of the queue wait for the parent under which they stand. -/
def Store.QueueKeyed (store : Store) : Prop :=
  ∀ root blocks, store.blocksQueue.lookup root = some blocks →
    ∀ b ∈ blocks, b.block.parentRoot = root

section Redelivery

variable {E : Env} {g : State} {store store' : Store} {sb b : SignedBlockWithAttestation}
  {time : ℕ} {validators : List Validator}

theorem Store.QueueKeyed.frame (h : store.QueueKeyed)
    (hqueue : store'.blocksQueue = store.blocksQueue) : store'.QueueKeyed := by
  unfold Store.QueueKeyed
  rw [hqueue]
  exact h

theorem Store.QueueKeyed.onBlock {after : After Store (List SignedBlockWithAttestation)}
    (h : store.QueueKeyed) (hafter : store.onBlock E sb = .ok after) :
    after.state.QueueKeyed := by
  refine meets_true.mp (Store.onBlock_meets (I := fun s _ _ => s.QueueKeyed) ?_ ?_ ?_ ?_ ?_ ?_)
    after hafter
  · intro s roots b rest hs
    exact meets_true.mpr fun after hafter => hs.frame (Store.processBlockInternal_queue hafter)
  · intro s root roots hs _
    exact hs
  · intro s root roots blocks hs _ r bs hr
    simp only [AList.lookup_erase_eq] at hr
    split_ifs at hr
    exact hs r bs hr
  · exact fun _ => h
  · intro _ _ _ root blocks hlookup b hb
    rcases Store.mem_lookup_enqueue hlookup hb with ⟨old, hold, hb⟩ | ⟨rfl, hroot⟩
    · exact h root old hold b hb
    · exact hroot.symm
  · exact fun _ _ => h

theorem Store.QueueKeyed.apply {op : StoreOp} (h : store.QueueKeyed)
    (hop : store.apply E op = .ok store') : store'.QueueKeyed := by
  cases Store.apply_step hop with
  | tick now hasProposal s hcall => exact h.frame (Store.onTick_sameTree hcall).blocksQueue
  | attestation sa isFromBlock after hcall =>
    exact h.frame (Store.onAttestation_frame hcall).1.blocksQueue
  | gossipAttestation sa after hcall =>
    exact h.frame (Store.onAttestation_frame hcall).1.blocksQueue
  | block sb s r hcall => exact h.onBlock hcall
  | produced slot validatorIndex orders s₀ built hcall hbuilt =>
    have hs₀ : s₀.QueueKeyed := h.frame (Store.getProposalHead_sameTree hcall).blocksQueue
    exact hs₀
  | unproduced slot validatorIndex orders s₀ hcall =>
    exact h.frame (Store.getProposalHead_sameTree hcall).blocksQueue

theorem Store.QueueKeyed.run {ops : List StoreOp} (h : store.QueueKeyed)
    (hrun : store.run E ops = .ok store') : store'.QueueKeyed :=
  Store.run_induction (fun _ _ _ _ _ _ _ hs hop => hs.apply hop) h hrun

/-! ## A delivered block is tracked -/

/-- What has become of a block that was delivered once: it is decided, or in turn, or it stands in
    the queue and its parent is missing. -/
def Store.Tracks (E : Env) (b : SignedBlockWithAttestation) (store : Store) (roots : List H256)
    (rest : List SignedBlockWithAttestation) : Prop :=
  store.Decided E b ∨
    (b ∈ rest ∧ (b.block.parentRoot ∈ store.states ∨ b.block.parentRoot = 0)) ∨
    store.Covers E (· = b.block.parentRoot) (· = b) roots rest

/-- The invariant of the deliveries from the first one of `b` on. -/
structure TrackInv (E : Env) (g : State) (b : SignedBlockWithAttestation) (store : Store)
    (roots : List H256) (rest : List SignedBlockWithAttestation) : Prop where
  tree : store.Tree E g fun _ => True
  tracks : store.Tracks E b roots rest

namespace TrackInv

variable {roots : List H256} {rest : List SignedBlockWithAttestation}
  {after : After Store (List SignedBlockWithAttestation)}

theorem processed {after : After Store Unit} (hE : E.HashIdeal)
    (inv : TrackInv E g b store roots (sb :: rest))
    (hafter : store.processBlockInternal E sb (sb.block.hashTreeRoot E) = .ok after) :
    TrackInv E g b after.state (pushRoot E sb roots after.result) rest := by
  obtain ⟨tree, hext⟩ := inv.tree.processed hE trivial hafter
  refine ⟨tree, ?_⟩
  rcases inv.tracks with hdec | ⟨hin, hparent⟩ | hcovers
  · exact Or.inl (hdec.mono hext)
  · rcases List.mem_cons.mp hin with rfl | hin
    · exact Or.inl (Store.Decided.of_processed hparent hafter)
    · exact Or.inr (Or.inl ⟨hin, hparent.imp_left (hext.states_mem _)⟩)
  · exact Or.inr (Or.inr (hcovers.processed hE inv.tree trivial hafter))

/-- The flush keeps the invariant, so it is enough to look at how `on_block` starts. -/
theorem onBlock_of (hE : E.HashIdeal)
    (hknown : sb.block.hashTreeRoot E ∈ store.blocks → TrackInv E g b store [] [])
    (hqueue : sb.block.parentRoot ∉ store.states → TrackInv E g b (store.enqueue sb) [] [])
    (hprocess : ¬ (sb.block.parentRoot ∉ store.states ∧ sb.block.parentRoot ≠ 0) →
      TrackInv E g b store [] [sb])
    (hafter : store.onBlock E sb = .ok after) : TrackInv E g b after.state [] [] := by
  refine meets_true.mp (Store.onBlock_meets (I := TrackInv E g b) ?_ ?_ ?_ hknown
    (fun _ hmissing _ => hqueue hmissing) fun _ => hprocess) after hafter
  · intro s roots c rest hs
    exact meets_true.mpr fun after hafter => hs.processed hE hafter
  · intro s root roots hs hnone
    refine ⟨hs.tree, ?_⟩
    rcases hs.tracks with hdec | ⟨hin, -⟩ | hcovers
    · exact Or.inl hdec
    · exact absurd hin (by simp)
    · exact Or.inr (Or.inr (hcovers.skipped hnone))
  · intro s root roots blocks hs hlookup
    refine ⟨hs.tree.frame rfl rfl, ?_⟩
    rcases hs.tracks with hdec | ⟨hin, -⟩ | hcovers
    · exact Or.inl hdec
    · exact absurd hin (by simp)
    · exact Or.inr (Or.inr (hcovers.taken hlookup))

/-- The first delivery of the block. -/
theorem first (hE : E.HashIdeal) (tree : store.Tree E g fun _ => True)
    (hkeyed : store.QueueKeyed) (hafter : store.onBlock E b = .ok after) :
    TrackInv E g b after.state [] [] := by
  refine onBlock_of hE (fun hknown => ⟨tree, Or.inl (Or.inl hknown)⟩) (fun hmissing => ?_)
    (fun hparent => ⟨tree, Or.inr (Or.inl ⟨by simp, ?_⟩)⟩) hafter
  · -- the parent is missing, so nothing waits for it in vain
    have hcovers : store.Covers E (· = b.block.parentRoot) (fun _ => False) [] [] := {
      queue_keyed := hkeyed
      roots_stored := by simp
      rest_parent := by simp
      pending := fun root hroot _ hstored => absurd (hroot ▸ hstored) hmissing
      covered := fun _ h => absurd h id }
    refine ⟨tree.frame rfl rfl, Or.inr (Or.inr ?_)⟩
    exact (hcovers.delivered_waiting hmissing).mono fun c hc => Or.inr hc
  · by_contra hnone
    push Not at hnone
    exact hparent hnone

/-- Any later delivery. -/
theorem later (hE : E.HashIdeal) (inv : TrackInv E g b store [] [])
    (hafter : store.onBlock E sb = .ok after) : TrackInv E g b after.state [] [] := by
  refine onBlock_of hE (fun _ => inv) (fun hmissing => ⟨inv.tree.frame rfl rfl, ?_⟩)
    (fun hparent => ⟨inv.tree, ?_⟩) hafter
  · rcases inv.tracks with hdec | ⟨hin, -⟩ | hcovers
    · exact Or.inl hdec
    · exact absurd hin (by simp)
    · exact Or.inr (Or.inr ((hcovers.delivered_waiting hmissing).mono fun c hc => Or.inl hc))
  · rcases inv.tracks with hdec | ⟨hin, -⟩ | hcovers
    · exact Or.inl hdec
    · exact absurd hin (by simp)
    · exact Or.inr (Or.inr ((hcovers.delivered_now hparent).mono fun c hc => Or.inl hc))

theorem run {blocks : List SignedBlockWithAttestation} (hE : E.HashIdeal)
    (inv : TrackInv E g b store [] []) (hrun : store.run E (deliveries blocks) = .ok store') :
    TrackInv E g b store' [] [] := by
  induction blocks generalizing store with
  | nil =>
    obtain rfl := Except.ok.inj hrun
    exact inv
  | cons c rest ih =>
    obtain ⟨s₁, h₁, hrun⟩ := Store.run_cons hrun
    obtain ⟨after, hafter, h₁⟩ := bind_eq_ok.mp h₁
    obtain rfl := Except.ok.inj h₁
    exact ih (inv.later hE hafter) hrun

/-- A block that is tracked and does not wait is decided. -/
theorem decided (inv : TrackInv E g b store [] []) (hawaits : ¬ store.Awaits E b) :
    store.Decided E b := by
  rcases inv.tracks with hdec | ⟨hin, -⟩ | hcovers
  · exact hdec
  · exact absurd hin (by simp)
  · rcases hcovers.decided_or_missing rfl rfl with hdec | hmissing
    · exact hdec
    · by_contra hnot
      apply hawaits
      exact ⟨fun h => hnot (Or.inl h), hmissing, fun h => hnot (Or.inr (Or.inl h))⟩

end TrackInv

/-! ## The effect of a repeated delivery -/

/-- A decided block is delivered without effect. -/
theorem Store.apply_of_decided (hzero : 0 ∉ store.states) (hdec : store.Decided E b) :
    store.apply E (.block b) = .ok store := by
  have honBlock : ∃ r, store.onBlock E b = .ok ⟨store, r⟩ := by
    unfold Store.onBlock
    simp only
    by_cases hmem : b.block.hashTreeRoot E ∈ store.blocks
    · rw [if_pos hmem]
      exact ⟨_, rfl⟩
    · rw [if_neg hmem]
      rcases hdec.resolve_left hmem with hparent | ⟨parent, msg, hparent, hreject⟩
      · -- the zero root has no state
        rw [if_neg (by simp [hparent])]
        unfold Store.processBlockInternal
        rw [hparent, AList.lookup_eq_none.mpr hzero]
        exact ⟨_, rfl⟩
      · have hstored : b.block.parentRoot ∈ store.states :=
          AList.mem_iff_exists_lookup.mpr ⟨parent, hparent⟩
        rw [if_neg (by simp [hstored])]
        unfold Store.processBlockInternal
        rw [hparent, okOr, attempt_ok, hreject]
        exact ⟨_, rfl⟩
  obtain ⟨r, hr⟩ := honBlock
  simp [Store.apply, hr]

/-- A block that waits is queued with each delivery. -/
theorem Store.apply_of_awaits (h : store.Awaits E b) :
    store.apply E (.block b) = .ok (store.enqueue b) := by
  unfold Store.apply Store.onBlock
  simp only
  rw [if_neg h.1, if_pos h.2]
  rfl

/-- The queue has changed then. -/
theorem Store.enqueue_ne (store : Store) (b : SignedBlockWithAttestation) :
    store.enqueue b ≠ store := by
  intro h
  have hlookup := congrArg (fun s : Store => s.blocksQueue.lookup b.block.parentRoot) h
  simp only [Store.enqueue, AList.lookup_insert] at hlookup
  cases hold : store.blocksQueue.lookup b.block.parentRoot with
  | none => simp [hold] at hlookup
  | some old =>
    rw [hold] at hlookup
    have hlength := congrArg List.length (Option.some.inj hlookup)
    simp at hlength

theorem Store.apply_ne_of_awaits (h : store.Awaits E b) :
    store.apply E (.block b) ≠ .ok store := by
  rw [Store.apply_of_awaits h]
  intro heq
  exact Store.enqueue_ne store b (Except.ok.inj heq)

/-- A block that is tracked and does not wait is delivered without effect. -/
theorem TrackInv.apply_eq (hE : E.HashIdeal) (inv : TrackInv E g b store [] [])
    (hawaits : ¬ store.Awaits E b) : store.apply E (.block b) = .ok store := by
  refine Store.apply_of_decided (fun hzero => ?_) (inv.decided hawaits)
  exact inv.tree.keyed.zero_not_mem hE (inv.tree.block_of_state 0 hzero)

/-- A block is tracked from its first delivery on. -/
theorem TrackInv.of_deliveries (hE : E.HashIdeal)
    (hg : generateGenesisWithValidators E time validators = .ok g)
    (sound : store.Sound E g fun _ => True) (hkeyed : store.QueueKeyed)
    {before : List SignedBlockWithAttestation} (hb : b ∈ before)
    (h : store.run E (deliveries before) = .ok store') : TrackInv E g b store' [] [] := by
  obtain ⟨front, back, rfl⟩ := List.append_of_mem hb
  unfold deliveries Store.run at h
  rw [List.map_append, List.foldlM_append] at h
  obtain ⟨s₀, h₀, h⟩ := bind_eq_ok.mp h
  obtain ⟨s₁, h₁, h⟩ := Store.run_cons h
  obtain ⟨after, hafter, h₁⟩ := bind_eq_ok.mp h₁
  obtain rfl := Except.ok.inj h₁
  have inv₁ := TrackInv.first hE (sound.run hg hE h₀).tree (hkeyed.run h₀) hafter
  exact inv₁.run hE h

/-- A repeated delivery is without effect exactly if the block is not waiting at that moment. -/
theorem redelivery_idempotent_iff (hE : E.HashIdeal)
    (hg : generateGenesisWithValidators E time validators = .ok g)
    {anchor : SignedBlockWithAttestation} (hanchor : anchor.block = genesisBlock E g)
    {config : Config} {ops : List StoreOp}
    (hreach : (getForkchoiceStore E g anchor config).run E ops = .ok store) :
    (∀ b s, store.apply E (.block b) = .ok s →
      (s.apply E (.block b) = .ok s ↔ ¬ store.Awaits E b)) ∧
    ∀ before b s, b ∈ before → store.run E (deliveries before) = .ok s →
      ((∀ more, s.run E (deliveries (b :: more)) = s.run E (deliveries more)) ↔
        ¬ s.Awaits E b) := by
  have sound : store.Sound E g fun _ => True :=
    (Store.Sound.genesis hg hanchor config).run hg hE hreach
  have hkeyed : store.QueueKeyed := Store.QueueKeyed.run
    (fun root blocks h => absurd h (by simp [getForkchoiceStore])) hreach
  constructor
  · intro b s hs
    constructor
    · intro hsame hawaits
      -- the block waits after the first delivery as before it
      obtain rfl := Except.ok.inj ((Store.apply_of_awaits hawaits).symm.trans hs)
      have hawaits' : (store.enqueue b).Awaits E b := hawaits
      exact Store.apply_ne_of_awaits hawaits' hsame
    · intro hawaits
      obtain ⟨after, hafter, hs⟩ := bind_eq_ok.mp hs
      obtain rfl := Except.ok.inj hs
      have inv := TrackInv.first hE sound.tree hkeyed hafter
      obtain ⟨-, hext⟩ := sound.tree.onBlock hE hafter
      refine inv.apply_eq hE fun hawaits' => hawaits ?_
      exact ⟨fun h => hawaits'.1 (hext.blocks_mem _ h),
        fun h => hawaits'.2.1 (hext.states_mem _ h), hawaits'.2.2⟩
  · intro before b s hb hs
    have inv := TrackInv.of_deliveries hE hg sound hkeyed hb hs
    constructor
    · intro hsame hawaits
      -- with nothing more to come, the delivery itself must be without effect
      have hnext : s.run E [.block b] = .ok s := hsame []
      exact Store.apply_ne_of_awaits hawaits (Store.run_singleton.mp hnext)
    · intro hawaits more
      unfold deliveries Store.run
      rw [List.map_cons, List.foldlM_cons, inv.apply_eq hE hawaits]
      rfl

end Redelivery

/-! ## A block that waits twice -/

namespace SoloChain

/-- The block at slot 4 with a proof for each of its two votes. -/
def block4 : SignedBlockWithAttestation :=
  { block 4 3 4 links with
    signature := { attestationSignatures := [⟨[true], 0⟩, ⟨[true], 1⟩], proposerSignature := 0 } }

/-- The block comes once before its parent at slot 3. -/
def waitsOnce : List StoreOp := deliveries [block 2 1 2 [], block4, block 3 2 3 []]

/-- The block comes twice. -/
def waitsTwice : List StoreOp := deliveries [block 2 1 2 [], block4, block4, block 3 2 3 []]

/-- The proofs cached for the first vote of the block. -/
def cachedProofs (store : Store) : Option (List AggregatedSignatureProof) :=
  store.aggregatedPayloads.lookup ⟨0, env.hashData (vote ⟨1, 0⟩ ⟨2, 2⟩).data⟩

end SoloChain

/-- Once the parent has come, the block may be delivered again and again. -/
theorem redelivery_after_parent :
    (GenesisVotes.storeAfter SoloChain.waitsOnce).head = 4 ∧
    ∀ more, (GenesisVotes.storeAfter SoloChain.waitsOnce).run SoloChain.env
        (deliveries (SoloChain.block4 :: more)) =
      (GenesisVotes.storeAfter SoloChain.waitsOnce).run SoloChain.env (deliveries more) := by
  have hreach := GenesisVotes.reached
    (show (GenesisVotes.init.run SoloChain.env SoloChain.waitsOnce).toOption.isSome = true by
      decide +kernel)
  have hidempotent := (redelivery_idempotent_iff (Env.tabulated_hashIdeal _)
    (show generateGenesisWithValidators SoloChain.env 0 [{ pubkey := 7, index := 0 }] =
      .ok SoloChain.genesis from rfl) (show GenesisVotes.anchor.block = _ from rfl)
    (show GenesisVotes.init.run SoloChain.env [] = .ok GenesisVotes.init from rfl)).2
  refine ⟨by decide +kernel, ?_⟩
  refine (hidempotent _ SoloChain.block4 _ (by simp) hreach.run).mpr fun hawaits => ?_
  exact hawaits.1 (by decide +kernel)

/-- The second delivery of a block that waits adds it to the queue once more, and after the parent
    has come, the proofs of the block are cached twice. -/
theorem redelivery_changes_store :
    (∃ s s', GenesisVotes.init.apply SoloChain.env (.block SoloChain.block4) = .ok s ∧
      s.apply SoloChain.env (.block SoloChain.block4) = .ok s' ∧ s' ≠ s) ∧
    ∃ s s', GenesisVotes.init.run SoloChain.env SoloChain.waitsOnce = .ok s ∧
      GenesisVotes.init.run SoloChain.env SoloChain.waitsTwice = .ok s' ∧
      SoloChain.cachedProofs s = some [⟨[true], 0⟩] ∧
      SoloChain.cachedProofs s' = some [⟨[true], 0⟩, ⟨[true], 0⟩] := by
  have hawaits : GenesisVotes.init.Awaits SoloChain.env SoloChain.block4 := by
    refine ⟨by decide +kernel, by decide +kernel, by decide⟩
  have honce := GenesisVotes.reached
    (show (GenesisVotes.init.run SoloChain.env SoloChain.waitsOnce).toOption.isSome = true by
      decide +kernel)
  have htwice := GenesisVotes.reached
    (show (GenesisVotes.init.run SoloChain.env SoloChain.waitsTwice).toOption.isSome = true by
      decide +kernel)
  refine ⟨⟨_, _, Store.apply_of_awaits hawaits, ?_, Store.enqueue_ne _ SoloChain.block4⟩,
    _, _, honce.run, htwice.run, by decide +kernel, by decide +kernel⟩
  exact Store.apply_of_awaits
    (show (GenesisVotes.init.enqueue SoloChain.block4).Awaits SoloChain.env SoloChain.block4 from
      hawaits)

end ConsensusClient
