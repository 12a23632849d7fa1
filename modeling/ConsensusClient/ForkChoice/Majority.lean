import ConsensusClient.ForkChoice.Checkpoints
import ConsensusClient.ForkChoice.Rules
import ConsensusClient.ForkChoice.SafeTarget

/-!
# Majorities and the Head

A block that more than half of the known votes are behind lies on the way of the head rule. The
safe target has two thirds of the new votes, and these are known votes one interval later: after a
tick the head lies below the safe target.

## Main results

* `timer_readings_compose`: ticks add up, so only the latest reading of the clock matters
* `Store.WellFormed.ghost_through_majority`: the descent passes through a block with a majority
* `majority_leads_head`: the head after the new votes are accepted
* `tick_leaves_head_below_safe_target`: the same for the safe target, after intervals 2 and 3
-/

namespace ConsensusClient

/-! ## Majorities -/

section Majority

variable {store : Store} {anchor : H256} {votes : HashMap ℕ AttestationData} {a b : H256}

/-- More than half of the votes are for the block `b` or for a descendant of it. -/
def Store.Majority (store : Store) (votes : HashMap ℕ AttestationData) (b : H256) : Prop :=
  votes.keys.length < 2 * store.weight votes b

theorem Store.Majority.up (h : store.Descends a b) (hmajority : store.Majority votes a) :
    store.Majority votes b :=
  hmajority.trans_le (Nat.mul_le_mul_left 2 (Store.weight_mono h))

theorem Store.supporters_subset_keys : store.supporters votes b ⊆ votes.keys.toFinset := by
  intro v hv
  obtain ⟨data, hdata, -⟩ := Store.mem_supporters.mp hv
  exact List.mem_toFinset.mpr (AList.mem_keys.mp (AList.mem_iff_exists_lookup.mpr ⟨data, hdata⟩))

/-- The votes behind two siblings are different votes. -/
theorem Store.WellFormed.weight_add_le (wf : store.WellFormed anchor) {r c d : H256}
    (hc : store.parentOf c = some r) (hd : store.parentOf d = some r) (hne : c ≠ d) :
    store.weight votes c + store.weight votes d ≤ votes.keys.length := by
  have hdisjoint : Disjoint (store.supporters votes c) (store.supporters votes d) := by
    rw [Finset.disjoint_left]
    intro v hv hv'
    obtain ⟨data, hdata, hdesc⟩ := Store.mem_supporters.mp hv
    obtain ⟨data', hdata', hdesc'⟩ := Store.mem_supporters.mp hv'
    obtain rfl := Option.some.inj (hdata.symm.trans hdata')
    exact hne (wf.acyclic.siblings_eq hc hd hdesc hdesc')
  calc store.weight votes c + store.weight votes d
      = (store.supporters votes c ∪ store.supporters votes d).card := by
        rw [Finset.card_union_of_disjoint hdisjoint, Store.card_supporters, Store.card_supporters]
    _ ≤ votes.keys.toFinset.card :=
        Finset.card_le_card
          (Finset.union_subset Store.supporters_subset_keys Store.supporters_subset_keys)
    _ ≤ votes.keys.length := List.toFinset_card_le _

/-- LMD-GHOST passes through a block with a majority. -/
theorem Store.WellFormed.ghost_through_majority (wf : store.WellFormed anchor) {r h : H256}
    (ghost : store.Ghost votes 0 r h) (hb : store.Descends b r)
    (hmajority : store.Majority votes b) : store.Descends h b := by
  have hup : ∀ a b, store.Descends a b → store.Majority votes a → store.Majority votes b :=
    fun a b hab ha => ha.up hab
  refine GreedyDescent.through_dominant hup (fun _ _ => Nat.zero_le _) ?_ ghost hb hmajority
  intro r c d hc hd hmaj hne
  have hadd : store.weight votes c + store.weight votes d ≤ votes.keys.length :=
    wf.weight_add_le hc hd hne
  unfold Store.Majority at hmaj
  exact Prod.Lex.toLex_lt_toLex.mpr (Or.inl (by simp only; omega))

end Majority

/-! ## Ticks -/

section Ticks

variable {store store' : Store}

/-- The intervals of a tick can be gone through in two parts; a proposal is signalled in the last
    one. -/
theorem Store.tickTo_add (hasProposal : Bool) (first : ℕ) {second : ℕ}
    (h : hasProposal = false ∨ 0 < second) (store : Store) :
    Store.tickTo hasProposal (first + second) store =
      (Store.tickTo false first store >>= Store.tickTo hasProposal second) := by
  induction first generalizing store with
  | zero => rw [Nat.zero_add, Store.tickTo, ok_bind]
  | succ first ih =>
    -- the first interval is not the last one
    have hflag : (hasProposal && first + second == 0) = false := by
      rcases h with rfl | hpos
      · rfl
      · rw [beq_eq_false_iff_ne.mpr (show first + second ≠ 0 by omega), Bool.and_false]
    rw [Nat.succ_add_eq_add_succ, Nat.add_succ, Store.tickTo, Store.tickTo, bind_assoc, hflag]
    simp only [Bool.false_and, ih]

/-- A number of intervals is a tick to the time when they are over. -/
theorem Store.tickTo_eq_onTick (store : Store) (intervals : ℕ) :
    Store.tickTo false intervals store =
      store.onTick (store.config.genesisTime + (store.time + intervals)) false := by
  unfold Store.onTick
  simp only [show secondsPerInterval = 1 from rfl, Nat.div_one, Nat.add_sub_cancel_left]

/-- Two ticks are one tick to the later time. -/
theorem Store.onTick_onTick (store : Store) (first second : ℕ) :
    (store.onTick first false >>= fun s => s.onTick second false) =
      store.onTick (max first second) false := by
  have hinterval : secondsPerInterval = 1 := rfl
  unfold Store.onTick
  simp only [hinterval, Nat.div_one]
  have hsum : max first second - store.config.genesisTime - store.time =
      (first - store.config.genesisTime - store.time) +
        (second - store.config.genesisTime -
          (store.time + (first - store.config.genesisTime - store.time))) := by
    omega
  rw [hsum, Store.tickTo_add false _ (Or.inl rfl)]
  cases htick : Store.tickTo false (first - store.config.genesisTime - store.time) store with
  | error e => rfl
  | ok s =>
    have hconfig := (Store.onTick_sameTree ((store.tickTo_eq_onTick _).symm.trans htick)).config
    rw [ok_bind, ok_bind, hconfig, Store.tickTo_time htick]

/-- How often the timer fires does not matter: the ticks of any readings of the clock, in any
    order, leave the store, or end in the panic, of one tick to the latest of them. -/
theorem timer_readings_compose (store : Store) (times : List ℕ) :
    times.foldlM (fun s time => s.onTick time false) store =
      store.onTick (times.foldr max 0) false := by
  induction times generalizing store with
  | nil => simp [Store.onTick, Store.tickTo, pure, Except.pure]
  | cons time rest ih =>
    rw [List.foldlM_cons, List.foldr_cons, ← Store.onTick_onTick]
    simp only [ih]

/-- Once the new votes are accepted, accepting again changes nothing. -/
theorem Store.acceptNewAttestations_again (hcall : store.acceptNewAttestations = .ok store')
    (time : ℕ) :
    Store.acceptNewAttestations { store' with time } = .ok { store' with time } := by
  obtain ⟨head, hhead, rfl⟩ := Store.acceptNewAttestations_eq_ok hcall
  -- there are no new votes left, so the head rule runs on the same votes
  have hsame : Store.acceptNewAttestations { store.mergeVotes with time, head } =
      Store.updateHead { store.mergeVotes with time, head } := by
    unfold Store.acceptNewAttestations
    simp [Store.mergeVotes]
  refine hsame.trans (bind_eq_ok.mpr ⟨head, ?_, rfl⟩)
  exact (Store.getForkChoiceHead_congr (by rfl) _ _ _).trans hhead

/-- After the new votes are accepted, intervals 0 and 1 change nothing but the time. -/
theorem Store.tickInterval_idle (hcall : store.acceptNewAttestations = .ok store') (time : ℕ)
    (h : (time + 1) % intervalsPerSlot ≤ 1) (hasProposal : Bool) :
    Store.tickInterval { store' with time } hasProposal =
      .ok { store' with time := time + 1 } := by
  have h2 : (time + 1) % intervalsPerSlot ≠ 2 := by omega
  have h3 : (time + 1) % intervalsPerSlot ≠ 3 := by omega
  unfold Store.tickInterval
  simp only [h2, h3, if_false]
  split_ifs
  · exact Store.acceptNewAttestations_again hcall (time + 1)
  · rfl

theorem Store.tickTo_idle (hcall : store.acceptNewAttestations = .ok store')
    (h : store'.time % intervalsPerSlot = 3) {rounds : ℕ} (hrounds : rounds ≤ 2)
    (hasProposal : Bool) :
    Store.tickTo hasProposal rounds store' = .ok { store' with time := store'.time + rounds } := by
  have hslot : intervalsPerSlot = 4 := rfl
  rw [hslot] at h
  have hfirst := Store.tickInterval_idle hcall store'.time (by rw [hslot]; omega)
  have hsecond := Store.tickInterval_idle hcall (store'.time + 1) (by rw [hslot]; omega)
  obtain rfl | rfl | rfl : rounds = 0 ∨ rounds = 1 ∨ rounds = 2 := by omega
  · rfl
  · rw [Store.tickTo, hfirst, ok_bind]
    rfl
  · rw [Store.tickTo, hfirst, ok_bind, Store.tickTo, hsecond, ok_bind]
    rfl

/-- Interval 2 computes the safe target, and interval 3 accepts the new votes. -/
theorem Store.tickTo_two (h : store.time % intervalsPerSlot = 1) {hasProposal : Bool}
    {rounds : ℕ} (hcall : Store.tickTo hasProposal (rounds + 2) store = .ok store') :
    ∃ s₁ s₂, Store.updateSafeTarget { store with time := store.time + 1 } = .ok s₁ ∧
      Store.acceptNewAttestations { s₁ with time := s₁.time + 1 } = .ok s₂ ∧
      s₂.time = store.time + 2 ∧ Store.tickTo hasProposal rounds s₂ = .ok store' := by
  have hslot : intervalsPerSlot = 4 := rfl
  rw [hslot] at h
  obtain ⟨s₁, hfirst, hcall⟩ := bind_eq_ok.mp hcall
  obtain ⟨s₂, hsecond, hcall⟩ := bind_eq_ok.mp hcall
  have htime := (Store.tickInterval_step hfirst).time_eq
  have htime₂ := (Store.tickInterval_step hsecond).time_eq
  refine ⟨s₁, s₂, ?_, ?_, by omega, hcall⟩
  · rw [Store.tickInterval] at hfirst
    simpa [hslot, show (store.time + 1) % 4 = 2 by omega] using hfirst
  · rw [Store.tickInterval] at hsecond
    simpa [hslot, show (s₁.time + 1) % 4 = 3 by omega] using hsecond

end Ticks

/-! ## The head below the safe target -/

section Reached

variable {E : Env} {g : State} {store store' : Store} {time : ℕ} {validators : List Validator}
  (hg : generateGenesisWithValidators E time validators = .ok g)

theorem Accepted.validators_eq {offered : SignedBlockWithAttestation → Prop} {block : Block}
    {state : State} (h : Accepted E g offered block state) : state.validators = g.validators := by
  induction h with
  | anchor => rfl
  | child sb _ _ _ htrans ih => rw [State.stateTransition_validators htrans, ih]

include hg in
theorem Store.Anchored.head_validators (h : store.Anchored E g) :
    ∃ state, store.states.lookup store.head = some state ∧
      state.validators.length = validators.length := by
  obtain ⟨block, hblock⟩ := AList.mem_iff_exists_lookup.mp h.sound.head_mem
  obtain ⟨state, hstate, hacc⟩ := h.sound.tree.accepted _ _ hblock
  obtain ⟨-, rfl⟩ := generateGenesisWithValidators_eq_ok hg
  exact ⟨state, hstate, congrArg List.length hacc.validators_eq⟩

include hg in
/-- The head rule from the justified block is LMD-GHOST. -/
theorem Store.Anchored.ghost (hE : E.HashIdeal) (h : store.Anchored E g)
    {votes : HashMap ℕ AttestationData} {minVotes : ℕ} {head : H256}
    (hhead : store.getForkChoiceHead store.latestJustified.root votes minVotes = .ok head) :
    store.Ghost votes minVotes store.latestJustified.root head := by
  obtain ⟨block, hblock, -⟩ := h.sound.justified
  have hroot : store.latestJustified.root ∈ store.blocks :=
    AList.lookup_isSome.mp (by rw [hblock]; rfl)
  have hne : store.latestJustified.root ≠ 0 := by
    intro h0
    exact h.sound.tree.keyed.zero_not_mem hE (h0 ▸ hroot)
  obtain ⟨head', hhead', ghost⟩ :=
    (h.sound.tree.wellFormed hg hE).exists_head hne hroot votes minVotes
  obtain rfl := Except.ok.inj (hhead.symm.trans hhead')
  exact ghost

include hg in
/-- The safe target is the justified block, or two thirds of the validators are behind it. -/
theorem Store.Anchored.safeTarget_weight (hE : E.HashIdeal) (h : store.Anchored E g)
    (hcall : store.updateSafeTarget = .ok store') :
    ∃ safeTarget, store' = { store with safeTarget } ∧
      store.Descends safeTarget store.latestJustified.root ∧
      (safeTarget = store.latestJustified.root ∨
        (validators.length * 2 + 2) / 3 ≤
          store.weight store.latestNewAttestations safeTarget) := by
  obtain ⟨state, hstate, hlength⟩ := h.head_validators hg
  unfold Store.updateSafeTarget at hcall
  simp only [hstate, hlength] at hcall
  obtain ⟨safeTarget, hsafe, hcall⟩ := bind_eq_ok.mp hcall
  have ghost := h.ghost hg hE hsafe
  exact ⟨safeTarget, (Except.ok.inj hcall).symm, ghost.descends, GreedyDescent.heavy_end ghost⟩

/-- New votes count as much among the known votes when they are merged. -/
theorem Store.weight_mergeVotes (store : Store) (b : H256) :
    store.weight store.latestNewAttestations b ≤
      store.weight store.mergeVotes.latestKnownAttestations b := by
  rw [← Store.card_supporters, ← Store.card_supporters]
  apply Finset.card_le_card
  intro v hv
  obtain ⟨data, hdata, hdesc⟩ := Store.mem_supporters.mp hv
  refine Store.mem_supporters.mpr ⟨data, ?_, hdesc⟩
  exact (AList.lookup_union_left (AList.mem_iff_exists_lookup.mpr ⟨data, hdata⟩)).trans hdata

/-- All votes are of validators of the registry. -/
def Store.VotersBelow (n : ℕ) (store : Store) : Prop :=
  ∀ v, v ∈ store.latestKnownAttestations ∨ v ∈ store.latestNewAttestations → v < n

theorem Store.VotersBelow.mergeVotes {n : ℕ} (h : store.VotersBelow n) :
    store.mergeVotes.VotersBelow n := by
  rintro v (hv | hv)
  · exact h v (AList.mem_union.mp hv).symm
  · exact absurd hv (by simp [Store.mergeVotes])

theorem Store.VotersBelow.length_le {n : ℕ} (h : store.VotersBelow n) :
    store.latestKnownAttestations.keys.length ≤ n := by
  have hsub : store.latestKnownAttestations.keys.toFinset ⊆ Finset.range n := by
    intro v hv
    exact Finset.mem_range.mpr (h v (Or.inl (AList.mem_keys.mpr (List.mem_toFinset.mp hv))))
  rw [← List.toFinset_card_of_nodup store.latestKnownAttestations.keys_nodup]
  exact (Finset.card_le_card hsub).trans (Finset.card_range n).le

theorem Store.VotersBelow.onTick {n : ℕ} (h : store.VotersBelow n) {now : ℕ} {hasProposal : Bool}
    (hcall : store.onTick now hasProposal = .ok store') : store'.VotersBelow n :=
  Store.onTick_induction (P := Store.VotersBelow n) (fun _ _ hs => hs) (fun _ _ hs => hs)
    (fun _ _ hs => hs) (fun _ hs => hs.mergeVotes) h hcall

include hg in
/-- When the new votes are accepted, the head moves below every block with a majority. -/
theorem Store.Anchored.accept_majority (hE : E.HashIdeal) (h : store.Anchored E g)
    (hcall : store.acceptNewAttestations = .ok store') {b : H256}
    (hb : store.Descends b store.latestJustified.root)
    (hmajority : store.Majority store.mergeVotes.latestKnownAttestations b) :
    store'.Descends store'.head b := by
  obtain ⟨head, hhead, rfl⟩ := Store.acceptNewAttestations_eq_ok hcall
  have hmerged : store.mergeVotes.Anchored E g :=
    h.frame ⟨rfl, rfl, rfl, rfl, rfl, rfl⟩ (h.sound.frame ⟨rfl, rfl, rfl, rfl, rfl, rfl⟩
      h.sound.head_mem h.sound.safeTarget_mem) h.head_descends
  exact (hmerged.sound.tree.wellFormed hg hE).ghost_through_majority (hmerged.ghost hg hE hhead)
    hb hmajority

/-- In every reached store, accepting the new votes succeeds, and then the head lies below every
    block after the justified one that more than half of the known votes are behind. -/
theorem majority_leads_head (hE : E.HashIdeal)
    (hg : generateGenesisWithValidators E time validators = .ok g)
    {anchor : SignedBlockWithAttestation} (hanchor : anchor.block = genesisBlock E g)
    {config : Config} {ops : List StoreOp}
    (hrun : (getForkchoiceStore E g anchor config).run E ops = .ok store) :
    ∃ store', store.acceptNewAttestations = .ok store' ∧
      ∀ b, store'.Descends b store'.latestJustified.root →
        store'.latestKnownAttestations.keys.length <
          2 * store'.weight store'.latestKnownAttestations b →
        store'.Descends store'.head b := by
  have h := (Store.Anchored.genesis hg hanchor config).run hg hE hrun
  obtain ⟨store', hcall, -⟩ := h.sound.acceptNewAttestations hg hE
  refine ⟨store', hcall, fun b hb hmajority => ?_⟩
  have haccept : store.Descends b store.latestJustified.root →
      store.Majority store.mergeVotes.latestKnownAttestations b →
      store'.Descends store'.head b := fun hb' hmaj => h.accept_majority hg hE hcall hb' hmaj
  obtain ⟨head, -, rfl⟩ := Store.acceptNewAttestations_eq_ok hcall
  exact haccept hb hmajority

end Reached

/-- The vote of the only validator for its block at slot 2 takes the head there. -/
theorem proposer_vote_leads_head :
    ∃ store', (GenesisVotes.storeAfter (SoloChain.proposed SoloChain.ownVote)).acceptNewAttestations
        = .ok store' ∧ store'.Descends store'.head 2 := by
  have hreach := GenesisVotes.reached (show (GenesisVotes.init.run SoloChain.env
    (SoloChain.proposed SoloChain.ownVote)).toOption.isSome = true by decide +kernel)
  obtain ⟨store', hcall, hlead⟩ := majority_leads_head (Env.tabulated_hashIdeal _)
    (show generateGenesisWithValidators SoloChain.env 0 [{ pubkey := 7, index := 0 }] =
      .ok SoloChain.genesis from rfl) (show GenesisVotes.anchor.block = _ from rfl) hreach.run
  refine ⟨store', hcall, ?_⟩
  have hfacts : (GenesisVotes.storeAfter
      (SoloChain.proposed SoloChain.ownVote)).acceptNewAttestations.toOption.map (fun s =>
        (s.latestKnownAttestations.keys, s.latestKnownAttestations.lookup 0,
          s.latestJustified.root, s.parentOf 2)) =
        some ([0], some SoloChain.ownVote, 1, some 1) := by decide +kernel
  rw [hcall] at hfacts
  simp only [Except.toOption, Option.map_some, Option.some.injEq, Prod.mk.injEq] at hfacts
  obtain ⟨hkeys, hvote, hjust, hparent⟩ := hfacts
  apply hlead
  · rw [hjust]
    exact Relation.ReflTransGen.single hparent
  · -- the one vote is behind the block
    have hmem : 0 ∈ store'.supporters store'.latestKnownAttestations 2 :=
      Store.mem_supporters.mpr ⟨SoloChain.ownVote, hvote, Relation.ReflTransGen.refl⟩
    have hpos := Finset.card_pos.mpr ⟨0, hmem⟩
    rw [Store.card_supporters] at hpos
    rw [hkeys, List.length_singleton]
    omega

/-! ## The head below the safe target -/

section SafeTarget

variable {E : Env} {g : State} {store store' : Store} {time : ℕ} {validators : List Validator}
  (hg : generateGenesisWithValidators E time validators = .ok g)

include hg in
/-- Without validators no block is accepted, and the genesis block is the only one. -/
theorem Store.Tree.eq_genesisRoot {offered : SignedBlockWithAttestation → Prop}
    (tree : store.Tree E g offered) (hnone : validators.length = 0) {root : H256}
    (hroot : root ∈ store.blocks) : root = genesisRoot E g := by
  obtain ⟨block, hblock⟩ := AList.mem_iff_exists_lookup.mp hroot
  obtain ⟨state, -, hacc⟩ := tree.accepted root block hblock
  rw [← tree.keyed root block hblock]
  cases hacc with
  | anchor => rfl
  | child sb _ hparent _ htrans =>
    have hvalidators := hparent.validators_eq
    obtain ⟨-, rfl⟩ := generateGenesisWithValidators_eq_ok hg
    exact absurd (hvalidators ▸ hnone) (State.stateTransition_validators_ne htrans)

include hg in
/-- The safe target of one interval is above the head of the next one, if nothing arrives. -/
theorem Store.Anchored.head_below_safeTarget (hE : E.HashIdeal)
    (h : store.Anchored E g) (hvoters : store.VotersBelow validators.length) {s₁ : Store}
    (hsafe : store.updateSafeTarget = .ok s₁) {t : ℕ}
    (haccept : Store.acceptNewAttestations { s₁ with time := t } = .ok store') :
    store'.Descends store'.head store'.safeTarget := by
  have h₁ := h.updateSafeTarget hg hE hsafe
  have h₂ : Store.Anchored E g { s₁ with time := t } :=
    h₁.frame ⟨rfl, rfl, rfl, rfl, rfl, rfl⟩ (h₁.sound.frame ⟨rfl, rfl, rfl, rfl, rfl, rfl⟩
      h₁.sound.head_mem h₁.sound.safeTarget_mem) h₁.head_descends
  obtain ⟨safeTarget, rfl, hdesc, hweight⟩ := h.safeTarget_weight hg hE hsafe
  have hbelow : ∀ b, store.Descends b store.latestJustified.root →
      store.Majority store.mergeVotes.latestKnownAttestations b →
      store'.Descends store'.head b :=
    fun b hb hmaj => h₂.accept_majority hg hE haccept hb hmaj
  have hhead := (h₂.acceptNewAttestations hg hE haccept).head_descends
  obtain ⟨head, -, rfl⟩ := Store.acceptNewAttestations_eq_ok haccept
  rcases hweight with heq | hquorum
  · show Store.Descends _ head safeTarget
    rw [heq]
    exact hhead
  rcases Nat.eq_zero_or_pos validators.length with hnone | hpos
  · -- without validators there is no block but the genesis block
    have hsafe₁ := h₁.sound.safeTarget_mem
    have hjust := h.sound.justified_mem
    rw [h₁.sound.tree.eq_genesisRoot hg hnone hsafe₁, ← h.sound.tree.eq_genesisRoot hg hnone hjust]
    exact hhead
  · refine hbelow safeTarget hdesc ?_
    have hmerge := store.weight_mergeVotes safeTarget
    have hlength := hvoters.mergeVotes.length_le
    unfold Store.Majority
    omega

/-- A tick that goes through interval 2 and interval 3 without anything in between, and does not
    end in interval 2, leaves a head that lies below the safe target, provided that the votes are
    of registered validators. -/
theorem tick_leaves_head_below_safe_target (hE : E.HashIdeal)
    (hg : generateGenesisWithValidators E time validators = .ok g)
    {anchor : SignedBlockWithAttestation} (hanchor : anchor.block = genesisBlock E g)
    {config : Config} {ops : List StoreOp}
    (hrun : (getForkchoiceStore E g anchor config).run E ops = .ok store)
    (hvoters : ∀ v, v ∈ store.latestKnownAttestations ∨ v ∈ store.latestNewAttestations →
      v < validators.length)
    {now : ℕ} {hasProposal : Bool} (htick : store.onTick now hasProposal = .ok store')
    (hphase : store'.time % intervalsPerSlot ≠ 2)
    (hpassed : store.time + 2 + (store'.time + 1) % intervalsPerSlot ≤ store'.time) :
    store'.Descends store'.head store'.safeTarget := by
  have h := (Store.Anchored.genesis hg hanchor config).run hg hE hrun
  have hslot : intervalsPerSlot = 4 := rfl
  rw [hslot] at hphase hpassed
  obtain ⟨quiet, hquiet⟩ : ∃ quiet, (store'.time + 1) % 4 = quiet := ⟨_, rfl⟩
  rw [hquiet] at hpassed
  -- the last interval 3 and the interval before it, with the quiet intervals that follow
  unfold Store.onTick at htick
  simp only at htick
  have htime := Store.tickTo_time htick
  generalize (now - store.config.genesisTime) / secondsPerInterval - store.time = left
    at htick htime
  obtain ⟨before, rfl⟩ : ∃ before, left = before + (quiet + 2) := ⟨left - (quiet + 2), by omega⟩
  rw [Store.tickTo_add hasProposal before (Or.inr (by omega))] at htick
  obtain ⟨s, hbefore, htick⟩ := bind_eq_ok.mp htick
  have hs := Store.tickTo_time hbefore
  rw [Store.tickTo_eq_onTick] at hbefore
  obtain ⟨s₁, s₂, hsafe, haccept, hs₂, hrest⟩ := Store.tickTo_two (by rw [hslot]; omega) htick
  rw [Store.tickTo_idle haccept (by rw [hslot]; omega) (by omega)] at hrest
  obtain rfl := Except.ok.inj hrest
  have hs' := h.onTick hg hE hbefore
  have hvoters' := Store.VotersBelow.onTick hvoters hbefore
  have hnext : Store.Anchored E g { s with time := s.time + 1 } :=
    hs'.frame ⟨rfl, rfl, rfl, rfl, rfl, rfl⟩ (hs'.sound.frame ⟨rfl, rfl, rfl, rfl, rfl, rfl⟩
      hs'.sound.head_mem hs'.sound.safeTarget_mem) hs'.head_descends
  have hbelow : s₂.Descends s₂.head s₂.safeTarget :=
    hnext.head_below_safeTarget hg hE hvoters' hsafe haccept
  exact hbelow

end SafeTarget

/-- The vote for the block at slot 2 makes it the safe target, and the head lies below it. -/
theorem safe_target_above_head_at_slot_two :
    ∃ store', (GenesisVotes.storeAfter (SoloChain.proposed SoloChain.ownVote)).onTick 11 false =
        .ok store' ∧ store'.safeTarget = 2 ∧ store'.Descends store'.head 2 := by
  have hreach := GenesisVotes.reached (show (GenesisVotes.init.run SoloChain.env
    (SoloChain.proposed SoloChain.ownVote)).toOption.isSome = true by decide +kernel)
  -- the tick from interval 0 to interval 3 of the slot
  have hfacts : ((GenesisVotes.storeAfter
      (SoloChain.proposed SoloChain.ownVote)).onTick 11 false).toOption.map (fun s =>
        (s.time, s.safeTarget)) = some (11, 2) := by decide +kernel
  cases hcall : (GenesisVotes.storeAfter (SoloChain.proposed SoloChain.ownVote)).onTick 11
      false with
  | error e =>
    rw [hcall] at hfacts
    exact absurd hfacts (by simp [Except.toOption])
  | ok store' =>
    rw [hcall] at hfacts
    simp only [Except.toOption, Option.map_some, Option.some.injEq, Prod.mk.injEq] at hfacts
    obtain ⟨htime, hsafe⟩ := hfacts
    refine ⟨store', rfl, hsafe, ?_⟩
    rw [← hsafe]
    have hstart : (GenesisVotes.storeAfter (SoloChain.proposed SoloChain.ownVote)).time = 8 := by
      decide +kernel
    -- the only vote is that of validator 0
    have hkeys : (GenesisVotes.storeAfter
          (SoloChain.proposed SoloChain.ownVote)).latestKnownAttestations.keys = [] ∧
        (GenesisVotes.storeAfter
          (SoloChain.proposed SoloChain.ownVote)).latestNewAttestations.keys = [0] := by
      decide +kernel
    refine tick_leaves_head_below_safe_target (Env.tabulated_hashIdeal _)
      (show generateGenesisWithValidators SoloChain.env 0 [{ pubkey := 7, index := 0 }] =
        .ok SoloChain.genesis from rfl) (show GenesisVotes.anchor.block = _ from rfl)
      hreach.run (fun v hv => ?_) hcall (by rw [htime]; decide) (by rw [htime, hstart]; decide)
    rw [AList.mem_keys, AList.mem_keys, hkeys.1, hkeys.2] at hv
    simpa using hv

end ConsensusClient
