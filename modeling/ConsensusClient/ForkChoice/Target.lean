import ConsensusClient.ForkChoice.Sound

/-!
# The Attestation Target

`get_attestation_target` walks back from the head, first up to three blocks toward the safe
target, and then on to a slot that is justifiable after the finalized one. The second walk asserts
that it is not before the finalized slot. The safe target is only recomputed at interval 2, while
any block may move the finalized slot, so the first walk can end before the finalized slot, and
the justified and the finalized checkpoint may be on different forks. The call returns exactly if
the second walk meets a good slot on its way (`Store.HasTarget`).

## Main results

* `Store.WellFormed.walkToSafe_eq`: where the first walk ends
* `Store.WellFormed.exists_walkToJustifiable`: when the second walk ends
* `attestation_target_iff`: when the call returns, and that the target then is a good one
* `attestation_target_panics`: a store reached by three blocks in which it does not
-/

namespace ConsensusClient

/-! ## Ancestors by distance -/

section Ancestors

variable {store : Store} {anchor root target : H256} {block : Block} {k : ℕ}

/-- The ancestor of a block `k` parents back. -/
def Store.ancestorAt (store : Store) : ℕ → H256 → Option H256
  | 0, root => some root
  | k + 1, root => (store.parentOf root).bind (store.ancestorAt k)

theorem Store.ancestorAt_succ (h : store.blocks.lookup root = some block) (k : ℕ) :
    store.ancestorAt (k + 1) root = store.ancestorAt k block.parentRoot := by
  rw [Store.ancestorAt, Store.parentOf_eq h]
  rfl

theorem Store.ancestorAt_add {j : ℕ} {middle : H256}
    (h : store.ancestorAt j root = some middle) :
    store.ancestorAt (j + k) root = store.ancestorAt k middle := by
  induction j generalizing root with
  | zero =>
    obtain rfl := Option.some.inj h
    rw [Nat.zero_add]
  | succ j ih =>
    rw [Store.ancestorAt] at h
    obtain ⟨p, hp, h⟩ := Option.bind_eq_some_iff.mp h
    rw [Nat.add_right_comm, Store.ancestorAt, hp]
    exact ih h

theorem Store.descends_of_ancestorAt (h : store.ancestorAt k root = some target) :
    store.Descends root target := by
  induction k generalizing root with
  | zero =>
    obtain rfl := Option.some.inj h
    exact Relation.ReflTransGen.refl
  | succ k ih =>
    obtain ⟨p, hp, h⟩ := Option.bind_eq_some_iff.mp h
    exact Relation.ReflTransGen.head hp (ih h)

/-- Ancestors that are stored are fewer than the stored blocks. -/
theorem Store.WellFormed.distance_lt (wf : store.WellFormed anchor)
    (hblock : store.blocks.lookup root = some block) (h : store.ancestorAt k root = some target)
    (htarget : target ∈ store.blocks) : k < store.blocksUpTo block.slot := by
  induction k generalizing root block with
  | zero => exact Store.blocksUpTo_pos hblock
  | succ k ih =>
    rw [Store.ancestorAt_succ hblock] at h
    by_cases hroot : root = anchor
    · -- no stored block is an ancestor of the anchor
      subst hroot
      have hunknown := wf.anchor_parent block hblock
      exact absurd (Store.descends_of_ancestorAt h)
        (Store.not_descends_of_unknown hunknown htarget)
    · obtain ⟨parent, hparent, hlt⟩ := wf.parent_mem root block hblock hroot
      have hless := Store.blocksUpTo_lt hblock hlt
      have hk := ih hparent h
      omega

end Ancestors

/-! ## The two walks -/

section Walks

variable {store : Store} {anchor root target : H256} {block : Block} {k : ℕ}

/-- The first walk ends at the first ancestor not after the safe slot, or when its rounds are
    over. -/
theorem Store.WellFormed.walkToSafe_eq (wf : store.WellFormed anchor)
    (hanchor : ∀ block, store.blocks.lookup anchor = some block → block.slot = 0)
    (safeSlot rounds : ℕ) (hblock : store.blocks.lookup root = some block) :
    ∃ k target tblock, store.walkToSafe safeSlot rounds root = .ok target ∧ k ≤ rounds ∧
      store.ancestorAt k root = some target ∧ store.blocks.lookup target = some tblock ∧
      (k = rounds ∨ tblock.slot ≤ safeSlot) ∧
      ∀ j r b, store.ancestorAt j root = some r → store.blocks.lookup r = some b →
        b.slot ≤ safeSlot → k ≤ j := by
  induction rounds generalizing root block with
  | zero =>
    exact ⟨0, root, block, rfl, le_rfl, rfl, hblock, Or.inl rfl, fun j _ _ _ _ _ => Nat.zero_le j⟩
  | succ rounds ih =>
    unfold Store.walkToSafe Store.blockAt
    rw [hblock, expect, ok_bind]
    by_cases hsafe : safeSlot < block.slot
    · -- the anchor is not after any slot, so there is a parent
      rw [if_pos hsafe]
      have hroot : root ≠ anchor := by
        rintro rfl
        have := hanchor block hblock
        omega
      obtain ⟨parent, hparent, -⟩ := wf.parent_mem root block hblock hroot
      obtain ⟨k, target, tblock, hwalk, hk, hanc, htblock, hend, hfirst⟩ := ih hparent
      refine ⟨k + 1, target, tblock, hwalk, by omega, ?_, htblock, hend.imp_left fun h => by omega,
        fun j r b hj hb hslot => ?_⟩
      · rw [Store.ancestorAt_succ hblock]
        exact hanc
      · -- an earlier end of the walk would be the block itself, which is after the safe slot
        cases j with
        | zero =>
          obtain rfl := Option.some.inj hj
          obtain rfl := Option.some.inj (hblock.symm.trans hb)
          omega
        | succ j =>
          rw [Store.ancestorAt_succ hblock] at hj
          exact Nat.succ_le_succ (hfirst j r b hj hb hslot)
    · rw [if_neg hsafe]
      exact ⟨0, root, block, rfl, Nat.zero_le _, rfl, hblock, Or.inr (Nat.le_of_not_lt hsafe),
        fun j _ _ _ _ _ => Nat.zero_le j⟩

/-- The second walk ends at the first ancestor whose slot is justifiable. -/
theorem Store.walkToJustifiable_eq_ok {fuel : ℕ}
    (h : store.walkToJustifiable fuel root = .ok target) :
    ∃ k tblock, store.ancestorAt k root = some target ∧
      store.blocks.lookup target = some tblock ∧
      isJustifiableAfter tblock.slot store.latestFinalized.slot = .ok true ∧
      ∀ j r b, store.ancestorAt j root = some r → store.blocks.lookup r = some b →
        isJustifiableAfter b.slot store.latestFinalized.slot = .ok true → k ≤ j := by
  induction fuel generalizing root with
  | zero => exact absurd h (by simp [Store.walkToJustifiable])
  | succ fuel ih =>
    unfold Store.walkToJustifiable at h
    obtain ⟨block, hblock, h⟩ := bind_eq_ok.mp h
    have hblock := expect_eq_ok.mp hblock
    obtain ⟨justifiable, hjust, h⟩ := bind_eq_ok.mp h
    cases justifiable with
    | true =>
      obtain rfl := Except.ok.inj h
      exact ⟨0, block, rfl, hblock, hjust, fun j _ _ _ _ _ => Nat.zero_le j⟩
    | false =>
      -- the walk goes on from the parent, one block further away
      obtain ⟨k, tblock, hanc, htblock, htrue, hfirst⟩ := ih h
      refine ⟨k + 1, tblock, ?_, htblock, htrue, fun j r b hj hb hjust' => ?_⟩
      · rw [Store.ancestorAt_succ hblock]
        exact hanc
      · cases j with
        | zero =>
          obtain rfl := Option.some.inj hj
          obtain rfl := Option.some.inj (hblock.symm.trans hb)
          rw [hjust] at hjust'
          exact absurd hjust' (by simp)
        | succ j =>
          rw [Store.ancestorAt_succ hblock] at hj
          exact Nat.succ_le_succ (hfirst j r b hj hb hjust')

/-- If there is a justifiable slot on the way, the second walk ends. -/
theorem Store.WellFormed.exists_walkToJustifiable (wf : store.WellFormed anchor) {fuel : ℕ}
    {tblock : Block} (hblock : store.blocks.lookup root = some block)
    (hanc : store.ancestorAt k root = some target)
    (htblock : store.blocks.lookup target = some tblock)
    (hjust : isJustifiableAfter tblock.slot store.latestFinalized.slot = .ok true)
    (hfuel : k < fuel) : ∃ end', store.walkToJustifiable fuel root = .ok end' := by
  induction fuel generalizing root block k with
  | zero => omega
  | succ fuel ih =>
    -- the walk is not before the finalized slot, since the target is not
    have hle := wf.slot_le (Store.descends_of_ancestorAt hanc) hblock htblock
    have hfin := (isJustifiableAfter_eq_ok.mp hjust).1
    unfold Store.walkToJustifiable Store.blockAt
    rw [hblock, expect, ok_bind, isJustifiableAfter_of_le (hfin.trans hle), ok_bind]
    by_cases htrue : justifiableDistance (block.slot - store.latestFinalized.slot) = true
    · rw [if_pos htrue]
      exact ⟨root, rfl⟩
    · rw [if_neg htrue]
      cases k with
      | zero =>
        obtain rfl := Option.some.inj hanc
        obtain rfl := Option.some.inj (hblock.symm.trans htblock)
        exact absurd (isJustifiableAfter_eq_ok.mp hjust).2.symm htrue
      | succ k =>
        rw [Store.ancestorAt_succ hblock] at hanc
        by_cases hroot : root = anchor
        · subst hroot
          have htarget : target ∈ store.blocks := AList.mem_iff_exists_lookup.mpr ⟨_, htblock⟩
          exact absurd (Store.descends_of_ancestorAt hanc)
            (Store.not_descends_of_unknown (wf.anchor_parent block hblock) htarget)
        · obtain ⟨parent, hparent, -⟩ := wf.parent_mem root block hblock hroot
          exact ih hparent hanc (by omega)

end Walks

/-! ## When there is a target -/

section Target

variable {E : Env} {g : State} {store : Store} {time : ℕ} {validators : List Validator}

/-- The checkpoint is the head or an ancestor of it, not before the finalized slot and justifiable
    after it. -/
structure Store.GoodTarget (store : Store) (c : Checkpoint) : Prop where
  on_chain : store.Descends store.head c.root
  stored : store.HasCheckpoint c
  not_before : store.latestFinalized.slot ≤ c.slot
  justifiable : isJustifiableAfter c.slot store.latestFinalized.slot = .ok true

/-- On the chain of the head there is a block, not before the finalized slot and justifiable after
    it, that lies at least three blocks back or not after the safe target. -/
def Store.HasTarget (store : Store) : Prop :=
  ∃ k root block safe, store.ancestorAt k store.head = some root ∧
    store.blocks.lookup root = some block ∧ store.blocks.lookup store.safeTarget = some safe ∧
    isJustifiableAfter block.slot store.latestFinalized.slot = .ok true ∧
    (justificationLookbackSlots ≤ k ∨ block.slot ≤ safe.slot)

namespace Store.Sound

variable {offered : SignedBlockWithAttestation → Prop}

theorem anchor_slot (sound : store.Sound E g offered) (block : Block)
    (h : store.blocks.lookup (genesisRoot E g) = some block) : block.slot = 0 := by
  obtain rfl := Option.some.inj (sound.tree.anchor_block.symm.trans h)
  rfl

/-- The target that the call returns is in reach of the two walks, and it is the latest such
    block on the chain of the head. -/
theorem getAttestationTarget_eq_ok (hE : E.HashIdeal)
    (hg : generateGenesisWithValidators E time validators = .ok g)
    (sound : store.Sound E g offered) {c : Checkpoint} (h : store.getAttestationTarget = .ok c) :
    ∃ k block safe, store.ancestorAt k store.head = some c.root ∧
      store.blocks.lookup c.root = some block ∧ block.slot = c.slot ∧
      store.blocks.lookup store.safeTarget = some safe ∧
      isJustifiableAfter block.slot store.latestFinalized.slot = .ok true ∧
      (justificationLookbackSlots ≤ k ∨ block.slot ≤ safe.slot) ∧
      ∀ j r b, store.ancestorAt j store.head = some r → store.blocks.lookup r = some b →
        isJustifiableAfter b.slot store.latestFinalized.slot = .ok true →
        (justificationLookbackSlots ≤ j ∨ b.slot ≤ safe.slot) → b.slot ≤ c.slot := by
  have wf := sound.tree.wellFormed hg hE
  obtain ⟨safe, hsafe⟩ := AList.mem_iff_exists_lookup.mp sound.safeTarget_mem
  obtain ⟨head, hhead⟩ := AList.mem_iff_exists_lookup.mp sound.head_mem
  obtain ⟨k₀, start, sblock, hwalk, hk₀, hstart, hsblock, hend, hfirst⟩ :=
    wf.walkToSafe_eq sound.anchor_slot safe.slot justificationLookbackSlots hhead
  unfold Store.getAttestationTarget at h
  simp only [Store.blockAt, hsafe, expect, ok_bind, hwalk] at h
  obtain ⟨target, htarget, h⟩ := bind_eq_ok.mp h
  obtain ⟨k, tblock, hanc, htblock, hjust, hearliest⟩ := Store.walkToJustifiable_eq_ok htarget
  rw [htblock] at h
  obtain rfl := Except.ok.inj h
  refine ⟨k₀ + k, tblock, safe, ?_, htblock, rfl, hsafe, hjust, ?_, ?_⟩
  · rw [Store.ancestorAt_add hstart, hanc]
  · rcases hend with hend | hend
    · exact Or.inl (by omega)
    · exact Or.inr ((wf.slot_le (Store.descends_of_ancestorAt hanc) hsblock htblock).trans hend)
  · intro j r b hj hb hjust' hreach
    -- the block is not above the end of the first walk, nor above that of the second
    have hle : k₀ ≤ j := by
      rcases hreach with hreach | hreach
      · exact hk₀.trans hreach
      · exact hfirst j r b hj hb hreach
    obtain ⟨i, rfl⟩ := Nat.exists_eq_add_of_le hle
    rw [Store.ancestorAt_add hstart] at hj
    obtain ⟨d, rfl⟩ := Nat.exists_eq_add_of_le (hearliest i r b hj hb hjust')
    rw [Store.ancestorAt_add hanc] at hj
    exact wf.slot_le (Store.descends_of_ancestorAt hj) htblock hb

/-- The call returns a good target exactly if there is one in reach of the two walks. -/
theorem getAttestationTarget_iff (hE : E.HashIdeal)
    (hg : generateGenesisWithValidators E time validators = .ok g)
    (sound : store.Sound E g offered) :
    (∃ c, store.getAttestationTarget = .ok c ∧ store.GoodTarget c) ↔ store.HasTarget := by
  have wf := sound.tree.wellFormed hg hE
  constructor
  · rintro ⟨c, hc, -⟩
    obtain ⟨k, block, safe, hanc, hblock, -, hsafe, hjust, hreach, -⟩ :=
      sound.getAttestationTarget_eq_ok hE hg hc
    exact ⟨k, c.root, block, safe, hanc, hblock, hsafe, hjust, hreach⟩
  · rintro ⟨k, root, block, safe, hanc, hblock, hsafe, hjust, hreach⟩
    obtain ⟨head, hhead⟩ := AList.mem_iff_exists_lookup.mp sound.head_mem
    -- where the first walk ends
    obtain ⟨k₀, start, sblock, hwalk, hk₀, hstart, hsblock, hend, hfirst⟩ :=
      wf.walkToSafe_eq sound.anchor_slot safe.slot justificationLookbackSlots hhead
    -- the block is not above the end of the first walk
    have hle : k₀ ≤ k := by
      rcases hreach with hreach | hreach
      · exact hk₀.trans hreach
      · exact hfirst k root block hanc hblock hreach
    obtain ⟨j, rfl⟩ := Nat.exists_eq_add_of_le hle
    rw [Store.ancestorAt_add hstart] at hanc
    have hstored : root ∈ store.blocks := AList.mem_iff_exists_lookup.mpr ⟨block, hblock⟩
    have hfuel : j < store.blocks.entries.length + 1 := by
      have hlt := wf.distance_lt hsblock hanc hstored
      have hcount : store.blocksUpTo sblock.slot ≤ store.blocks.entries.length :=
        List.length_filter_le _ _
      omega
    obtain ⟨target, htarget⟩ := wf.exists_walkToJustifiable hsblock hanc hblock hjust hfuel
    obtain ⟨i, tblock, hanc', htblock, hjust', -⟩ := Store.walkToJustifiable_eq_ok htarget
    refine ⟨⟨target, tblock.slot⟩, ?_, ?_, ⟨tblock, htblock, rfl⟩,
      (isJustifiableAfter_eq_ok.mp hjust').1, hjust'⟩
    · unfold Store.getAttestationTarget
      simp [Store.blockAt, hsafe, expect, hwalk, htarget, htblock]
    · exact (Store.descends_of_ancestorAt hstart).trans (Store.descends_of_ancestorAt hanc')

end Store.Sound

/-- In a store reached from genesis, `get_attestation_target` returns a good target exactly if on
    the chain of the head there is one in reach. -/
theorem attestation_target_iff (hE : E.HashIdeal)
    (hg : generateGenesisWithValidators E time validators = .ok g)
    {anchor : SignedBlockWithAttestation} (hanchor : anchor.block = genesisBlock E g)
    {config : Config} {ops : List StoreOp}
    (hreach : (getForkchoiceStore E g anchor config).run E ops = .ok store) :
    (∃ c, store.getAttestationTarget = .ok c ∧ store.GoodTarget c) ↔ store.HasTarget :=
  ((Store.Sound.genesis hg hanchor config).run hg hE hreach
    : store.Sound E g fun _ => True).getAttestationTarget_iff hE hg

end Target

/-! ## A safe target that lags behind -/

namespace SoloChain

/-- The block at slot 4 finalizes slot 2 before the safe target has ever moved. -/
def noTick : List StoreOp :=
  [.block (block 2 1 2 []), .block (block 3 2 3 []), .block (block 4 3 4 links)]

end SoloChain

/-- Before that block nothing is finalized but the genesis block, which is the target. -/
theorem genesis_is_target :
    ∃ c, (GenesisVotes.storeAfter (SoloChain.noTick.take 2)).getAttestationTarget = .ok c ∧
      (GenesisVotes.storeAfter (SoloChain.noTick.take 2)).GoodTarget c := by
  have hreach := GenesisVotes.reached
    (show (GenesisVotes.init.run SoloChain.env (SoloChain.noTick.take 2)).toOption.isSome = true by
      decide +kernel)
  refine (attestation_target_iff (Env.tabulated_hashIdeal _)
    (show generateGenesisWithValidators SoloChain.env 0 [{ pubkey := 7, index := 0 }] =
      .ok SoloChain.genesis from rfl) (show GenesisVotes.anchor.block = _ from rfl)
    hreach.run).mpr ?_
  exact ⟨2, 1, GenesisVotes.anchor.block, GenesisVotes.anchor.block, by decide +kernel,
    by decide +kernel, by decide +kernel, by decide +kernel, Or.inr (le_refl _)⟩

/-- After the blocks at slots 2, 3 and 4 the first walk ends at the genesis block, before the
    finalized slot 2, and the call panics. -/
theorem attestation_target_panics :
    (∃ store, GenesisVotes.init.run SoloChain.env SoloChain.noTick = .ok store ∧
      store.getAttestationTarget.Panics ∧
      ¬ ∃ c, store.getAttestationTarget = .ok c ∧ store.GoodTarget c) := by
  have hreach := GenesisVotes.reached
    (show (GenesisVotes.init.run SoloChain.env SoloChain.noTick).toOption.isSome = true by
      decide +kernel)
  have hpanic : (GenesisVotes.storeAfter SoloChain.noTick).getAttestationTarget =
      .error (.panic "Candidate slot must not be before finalized slot") := by
    decide +kernel
  refine ⟨_, hreach.run, ⟨_, hpanic⟩, ?_⟩
  rintro ⟨c, hc, -⟩
  rw [hpanic] at hc
  exact absurd hc (by simp)

end ConsensusClient
