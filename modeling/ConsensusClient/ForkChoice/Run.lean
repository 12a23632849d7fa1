import ConsensusClient.Lib.LatestMessage
import ConsensusClient.ForkChoice.Handlers

/-!
# Runs of the Store

What each operation of the store can do, said once: the two vote maps form a `VoteBook` and
change by its events only, a tick is a sequence of elementary changes
(`Store.onTick_induction`), and `on_block` processes a list of blocks one after the other, each
of which was delivered or stood in the queue (`Store.onBlock_induction`). Statements about
sequences of operations are derived from these.

## Main results

* `Store.onTick_induction`, `Store.onBlock_induction`: the rules for single calls
* `Store.buildOnHead_eq_ok`, `Store.produceBlockWithSignatures_eq_ok`: the parts of a production
* `Store.run_induction`, `Store.runLog_induction`: the rules for sequences of calls
* `Store.apply_book`: the vote maps change by the events of a call only
* `Store.apply_grows`: the tree changes only by blocks that their parents accept
-/

namespace ConsensusClient

/-! ## The vote maps -/

/-- The two vote maps of the store. -/
def Store.book (store : Store) : VoteBook ℕ AttestationData :=
  ⟨store.latestKnownAttestations, store.latestNewAttestations⟩

/-- The store with other vote maps. -/
def Store.withBook (store : Store) (b : VoteBook ℕ AttestationData) : Store :=
  { store with latestKnownAttestations := b.known, latestNewAttestations := b.new }

/-- The vote maps after an event. -/
abbrev bookStep : VoteBook ℕ AttestationData → VoteEvent ℕ AttestationData →
    VoteBook ℕ AttestationData :=
  VoteBook.apply AttestationData.slot

theorem isNewer_eq (votes : HashMap ℕ AttestationData) (v slot : ℕ) :
    isNewer votes v slot = laterThan AttestationData.slot votes v slot := by
  unfold isNewer laterThan
  cases votes.lookup v with
  | none => rfl
  | some existing => rfl

/-- Internal processing of a vote is an event of the vote maps. -/
theorem Store.onAttestationInternal_eq (store : Store) (v : ℕ) (d : AttestationData)
    (isFromBlock : Bool) :
    store.onAttestationInternal v d isFromBlock =
      store.withBook (bookStep store.book (.vote v d isFromBlock)) := by
  cases isFromBlock with
  | true =>
    -- an on-chain vote is one that is agreed on
    show store.onChainVote v d = _
    simp only [Store.onChainVote, Store.withBook, Store.book, bookStep, VoteBook.apply,
      dropSuperseded, isNewer_eq]
    cases store.latestNewAttestations.lookup v with
    | none => rfl
    | some existing => rfl
  | false =>
    show store.gossipVote v d = _
    unfold Store.gossipVote
    simp only [Store.withBook, Store.book, bookStep, VoteBook.apply, isNewer_eq]
    by_cases h : laterThan AttestationData.slot store.latestNewAttestations v d.slot = true
    · simp only [h, if_true]
    · simp only [h, if_false, Bool.false_eq_true]

/-- The events of the vote maps when a block is processed. -/
def bodyEvents (block : Block) : List (VoteEvent ℕ AttestationData) :=
  (bodyVotes block).map fun v => .vote v.1 v.2 true

/-- The events of the vote maps when a signed block is processed: the votes of its body, and
    then the vote of its proposer. -/
def blockEvents (sb : SignedBlockWithAttestation) : List (VoteEvent ℕ AttestationData) :=
  bodyEvents sb.block ++
    [.vote sb.message.proposerAttestation.validatorId sb.message.proposerAttestation.data false]

/-- The votes that a processed block enters: those of its body, and that of its proposer. -/
def SignedBlockWithAttestation.votes (sb : SignedBlockWithAttestation) :
    List (ℕ × AttestationData) :=
  bodyVotes sb.block ++
    [(sb.message.proposerAttestation.validatorId, sb.message.proposerAttestation.data)]

theorem mem_votes_of_entered {sb : SignedBlockWithAttestation} {v : ℕ} {data : AttestationData}
    (h : Entered (blockEvents sb) v data) : (v, data) ∈ sb.votes := by
  obtain ⟨agreed, h⟩ := h
  rcases List.mem_append.mp h with h | h
  · obtain ⟨vote, hvote, heq⟩ := List.mem_map.mp h
    obtain ⟨rfl, rfl, rfl⟩ := VoteEvent.vote.inj heq
    exact List.mem_append_left _ hvote
  · obtain ⟨rfl, rfl, rfl⟩ := VoteEvent.vote.inj (List.mem_singleton.mp h)
    exact List.mem_append_right _ (List.mem_singleton_self _)

theorem Store.castBodyVotes_eq (store : Store) (block : Block) :
    store.castBodyVotes block =
      store.withBook ((bodyEvents block).foldl bookStep store.book) := by
  have hrun : ∀ (votes : List (ℕ × AttestationData)) (s : Store),
      votes.foldl (fun s v => s.onAttestationInternal v.1 v.2 true) s =
        s.withBook ((votes.map fun v => VoteEvent.vote v.1 v.2 true).foldl bookStep s.book) := by
    intro votes
    induction votes with
    | nil => intro s; rfl
    | cons v votes ih =>
      intro s
      rw [List.foldl_cons, ih, Store.onAttestationInternal_eq]
      rfl
  exact hrun (bodyVotes block) store

/-- The proposer's vote enters with its signature. -/
theorem Store.castProposerVote_eq (E : Env) (store : Store) (sb : SignedBlockWithAttestation) :
    store.castProposerVote E sb =
      (store.storeSignature E sb.message.proposerAttestation.validatorId
        sb.message.proposerAttestation.data sb.signature.proposerSignature).withBook
      (bookStep store.book (.vote sb.message.proposerAttestation.validatorId
        sb.message.proposerAttestation.data false)) := by
  unfold Store.castProposerVote
  simp only
  rw [Store.onAttestationInternal_eq]
  rfl

/-! ## Ticks -/

theorem Store.updateHead_eq_ok {store store' : Store} (h : store.updateHead = .ok store') :
    ∃ head, store.getForkChoiceHead store.latestJustified.root store.latestKnownAttestations 0 =
      .ok head ∧ store' = { store with head } := by
  obtain ⟨head, hhead, h⟩ := bind_eq_ok.mp h
  exact ⟨head, hhead, (Except.ok.inj h).symm⟩

theorem Store.updateSafeTarget_eq_ok {store store' : Store}
    (h : store.updateSafeTarget = .ok store') :
    ∃ safeTarget, store' = { store with safeTarget } := by
  obtain ⟨safeTarget, -, h⟩ := bind_eq_ok.mp h
  exact ⟨safeTarget, (Except.ok.inj h).symm⟩

theorem Store.acceptNewAttestations_eq_ok {store store' : Store}
    (h : store.acceptNewAttestations = .ok store') :
    ∃ head, store.mergeVotes.getForkChoiceHead store.latestJustified.root
      store.mergeVotes.latestKnownAttestations 0 = .ok head ∧
      store' = { store.mergeVotes with head } :=
  Store.updateHead_eq_ok h

/-- The interval merges the new votes into the known ones. -/
def acceptsAt (time : ℕ) (hasProposal : Bool) : Bool :=
  (decide (time % intervalsPerSlot = 0) && hasProposal) ||
    decide (time % intervalsPerSlot = 3)

/-- The ways in which an interval passes. -/
inductive IntervalStep (store : Store) (hasProposal : Bool) : Store → Prop
  | merged (head : H256) (haccepts : acceptsAt (store.time + 1) hasProposal = true) :
      IntervalStep store hasProposal
        { store.mergeVotes with time := store.time + 1, head }
  | safe (safeTarget : H256) (htime : (store.time + 1) % intervalsPerSlot = 2)
      (haccepts : acceptsAt (store.time + 1) hasProposal = false) :
      IntervalStep store hasProposal { store with time := store.time + 1, safeTarget }
  | idle (haccepts : acceptsAt (store.time + 1) hasProposal = false) :
      IntervalStep store hasProposal { store with time := store.time + 1 }

theorem Store.tickInterval_step {store store' : Store} {hasProposal : Bool}
    (h : store.tickInterval hasProposal = .ok store') :
    IntervalStep store hasProposal store' := by
  unfold Store.tickInterval at h
  simp only at h
  -- the four intervals of a slot
  by_cases h0 : (store.time + 1) % intervalsPerSlot = 0 ∧ hasProposal = true
  · rw [if_pos h0] at h
    obtain ⟨head, -, rfl⟩ := Store.acceptNewAttestations_eq_ok h
    exact IntervalStep.merged head (by simp [acceptsAt, h0])
  · rw [if_neg h0] at h
    by_cases h2 : (store.time + 1) % intervalsPerSlot = 2
    · rw [if_pos h2] at h
      obtain ⟨safeTarget, rfl⟩ := Store.updateSafeTarget_eq_ok h
      exact IntervalStep.safe safeTarget h2 (by simp [acceptsAt, h2])
    · rw [if_neg h2] at h
      by_cases h3 : (store.time + 1) % intervalsPerSlot = 3
      · rw [if_pos h3] at h
        obtain ⟨head, -, rfl⟩ := Store.acceptNewAttestations_eq_ok h
        exact IntervalStep.merged head (by simp [acceptsAt, h3])
      · rw [if_neg h3] at h
        obtain rfl := Except.ok.inj h
        apply IntervalStep.idle
        simp only [acceptsAt, h3, decide_false, Bool.or_false, Bool.and_eq_false_iff,
          decide_eq_false_iff_not]
        by_cases h0' : (store.time + 1) % intervalsPerSlot = 0
        · right
          cases hasProposal with
          | true => exact absurd ⟨h0', rfl⟩ h0
          | false => rfl
        · exact Or.inl h0'

theorem Store.tickTo_succ {store store' : Store} {hasProposal : Bool} {left : ℕ}
    (h : Store.tickTo hasProposal (left + 1) store = .ok store') :
    ∃ s₁, IntervalStep store (hasProposal && left == 0) s₁ ∧
      Store.tickTo hasProposal left s₁ = .ok store' := by
  unfold Store.tickTo at h
  obtain ⟨s₁, h₁, h⟩ := bind_eq_ok.mp h
  exact ⟨s₁, Store.tickInterval_step h₁, h⟩

theorem IntervalStep.time_eq {store store' : Store} {hasProposal : Bool}
    (h : IntervalStep store hasProposal store') : store'.time = store.time + 1 := by
  cases h with
  | merged head _ => rfl
  | safe safeTarget _ _ => rfl
  | idle _ => rfl

theorem Store.tickTo_time {store store' : Store} {hasProposal : Bool} {left : ℕ}
    (h : Store.tickTo hasProposal left store = .ok store') : store'.time = store.time + left := by
  induction left generalizing store with
  | zero =>
    obtain rfl := Except.ok.inj h
    rfl
  | succ left ih =>
    obtain ⟨s₁, step, h⟩ := Store.tickTo_succ h
    have hrest := ih h
    have hstep := step.time_eq
    omega

theorem Store.onTick_time_le {store store' : Store} {time : ℕ} {hasProposal : Bool}
    (h : store.onTick time hasProposal = .ok store') : store.time ≤ store'.time := by
  have htime := Store.tickTo_time h
  omega

/-- A tick that ends in interval 0 or 1 of the same slot changes nothing but the time. -/
theorem Store.onTick_quiet {store store' : Store} {time : ℕ}
    (h : store.onTick time false = .ok store')
    (hslot : store'.time / intervalsPerSlot = store.time / intervalsPerSlot)
    (hinterval : store'.time % intervalsPerSlot ≤ 1) :
    store' = { store with time := store'.time } := by
  unfold Store.onTick at h
  simp only at h
  generalize (time - store.config.genesisTime) / secondsPerInterval - store.time = left at h
  unfold intervalsPerSlot at hslot hinterval
  induction left generalizing store with
  | zero =>
    obtain rfl := Except.ok.inj h
    rfl
  | succ left ih =>
    obtain ⟨s₁, step, h⟩ := Store.tickTo_succ h
    have htime := Store.tickTo_time h
    have hstep := step.time_eq
    have hrest := ih (by omega) h
    -- the interval just begun is not one that merges votes or moves the safe target
    cases step with
    | merged head haccepts =>
      exfalso
      have hthree : (store.time + 1) % intervalsPerSlot = 3 := by
        simpa [acceptsAt] using haccepts
      unfold intervalsPerSlot at hthree
      omega
    | safe safeTarget hsafe _ =>
      exfalso
      unfold intervalsPerSlot at hsafe
      omega
    | idle _ => exact hrest

/-- A property that survives the elementary changes of a tick survives a tick. -/
theorem Store.onTick_induction {P : Store → Prop} {store store' : Store} {time : ℕ}
    {hasProposal : Bool} (htime : ∀ s t, P s → P { s with time := t })
    (hhead : ∀ s head, P s → P { s with head })
    (hsafe : ∀ s safeTarget, P s → P { s with safeTarget })
    (hmerge : ∀ s, P s → P s.mergeVotes) (h₀ : P store)
    (h : store.onTick time hasProposal = .ok store') : P store' := by
  unfold Store.onTick at h
  simp only at h
  generalize (time - store.config.genesisTime) / secondsPerInterval - store.time = left at h
  induction left generalizing store with
  | zero =>
    obtain rfl := Except.ok.inj h
    exact h₀
  | succ left ih =>
    -- an interval is made of at most three of the elementary changes
    obtain ⟨s₁, step, h⟩ := Store.tickTo_succ h
    apply ih ?_ h
    cases step with
    | merged head _ => exact hhead _ head (htime _ _ (hmerge _ h₀))
    | safe safeTarget _ _ => exact hsafe _ safeTarget (htime _ _ h₀)
    | idle _ => exact htime _ _ h₀

/-- A property that the calls inside a tick keep survives the tick. -/
theorem Store.onTick_calls {P : Store → Prop} {store store' : Store} {time : ℕ}
    {hasProposal : Bool} (htime : ∀ s t, P s → P { s with time := t })
    (haccept : ∀ s s', P s → s.acceptNewAttestations = .ok s' → P s')
    (hsafe : ∀ s s', P s → s.updateSafeTarget = .ok s' → P s') (h₀ : P store)
    (h : store.onTick time hasProposal = .ok store') : P store' := by
  unfold Store.onTick at h
  simp only at h
  -- by induction on the intervals that are left
  generalize (time - store.config.genesisTime) / secondsPerInterval - store.time = left at h
  induction left generalizing store with
  | zero =>
    obtain rfl := Except.ok.inj h
    exact h₀
  | succ left ih =>
    obtain ⟨s₁, h₁, h⟩ := bind_eq_ok.mp h
    refine ih ?_ h
    -- the four cases of `tick_interval`
    have hnow := htime store (store.time + 1) h₀
    unfold Store.tickInterval at h₁
    simp only at h₁
    split_ifs at h₁
    · exact haccept _ _ hnow h₁
    · exact hsafe _ _ hnow h₁
    · exact haccept _ _ hnow h₁
    · obtain rfl := Except.ok.inj h₁
      exact hnow

/-- `s` differs from `store` in the time, the head, the safe target and the votes only. -/
def Store.MovedTo (store s : Store) : Prop :=
  s = { store with
    time := s.time
    head := s.head
    safeTarget := s.safeTarget
    latestKnownAttestations := s.latestKnownAttestations
    latestNewAttestations := s.latestNewAttestations }

theorem Store.MovedTo.refl (store : Store) : store.MovedTo store := rfl

theorem Store.MovedTo.trans {store s s' : Store} (h : store.MovedTo s) (h' : s.MovedTo s') :
    store.MovedTo s' := by
  unfold Store.MovedTo at h' ⊢
  rw [h']
  exact congrArg (fun s : Store => { s with
    time := s'.time
    head := s'.head
    safeTarget := s'.safeTarget
    latestKnownAttestations := s'.latestKnownAttestations
    latestNewAttestations := s'.latestNewAttestations }) h

theorem Store.onTick_movedTo {store store' : Store} {time : ℕ} {hasProposal : Bool}
    (h : store.onTick time hasProposal = .ok store') : store.MovedTo store' := by
  refine Store.onTick_induction (P := store.MovedTo) ?_ ?_ ?_ ?_ (.refl store) h
  · intro s t hs
    exact hs.trans rfl
  · intro s head hs
    exact hs.trans rfl
  · intro s safeTarget hs
    exact hs.trans rfl
  · intro s hs
    exact hs.trans rfl

theorem Store.getProposalHead_movedTo {store store' : Store} {slot : ℕ}
    (h : store.getProposalHead slot = .ok store') : store.MovedTo store' := by
  obtain ⟨s, hs, h⟩ := bind_eq_ok.mp h
  obtain ⟨head, -, rfl⟩ := Store.acceptNewAttestations_eq_ok h
  exact (Store.onTick_movedTo hs).trans rfl

/-- What a tick leaves alone: all but the time, the head, the safe target and the votes. -/
structure SameTree (s s' : Store) : Prop where
  config : s'.config = s.config
  latestJustified : s'.latestJustified = s.latestJustified
  latestFinalized : s'.latestFinalized = s.latestFinalized
  blocks : s'.blocks = s.blocks
  states : s'.states = s.states
  blocksQueue : s'.blocksQueue = s.blocksQueue

theorem SameTree.refl (s : Store) : SameTree s s := ⟨rfl, rfl, rfl, rfl, rfl, rfl⟩

theorem Store.MovedTo.sameTree {store s : Store} (h : store.MovedTo s) : SameTree store s := by
  unfold Store.MovedTo at h
  rw [h]
  exact ⟨rfl, rfl, rfl, rfl, rfl, rfl⟩

theorem Store.onTick_sameTree {store store' : Store} {time : ℕ} {hasProposal : Bool}
    (h : store.onTick time hasProposal = .ok store') : SameTree store store' :=
  (Store.onTick_movedTo h).sameTree

theorem Store.getProposalHead_sameTree {store store' : Store} {slot : ℕ}
    (h : store.getProposalHead slot = .ok store') : SameTree store store' :=
  (Store.getProposalHead_movedTo h).sameTree

/-- The events of the vote maps in the intervals still to go. -/
def intervalEvents (hasProposal : Bool) : ℕ → ℕ → List (VoteEvent ℕ AttestationData)
  | 0, _ => []
  | left + 1, time =>
    (if acceptsAt (time + 1) (hasProposal && left == 0) then [.accept] else []) ++
      intervalEvents hasProposal left (time + 1)

/-- The events of the vote maps in a tick. -/
def Store.tickEvents (store : Store) (time : ℕ) (hasProposal : Bool) :
    List (VoteEvent ℕ AttestationData) :=
  intervalEvents hasProposal
    ((time - store.config.genesisTime) / secondsPerInterval - store.time) store.time

theorem Store.onTick_book {store store' : Store} {time : ℕ} {hasProposal : Bool}
    (h : store.onTick time hasProposal = .ok store') :
    store'.book = (store.tickEvents time hasProposal).foldl bookStep store.book := by
  unfold Store.onTick at h
  unfold Store.tickEvents
  simp only at h
  generalize (time - store.config.genesisTime) / secondsPerInterval - store.time = left at h ⊢
  induction left generalizing store with
  | zero =>
    obtain rfl := Except.ok.inj h
    rfl
  | succ left ih =>
    obtain ⟨s₁, step, h⟩ := Store.tickTo_succ h
    unfold intervalEvents
    rw [List.foldl_append, ih h]
    -- only a merge is an event of the vote maps
    cases step with
    | merged head haccepts =>
      rw [if_pos haccepts]
      rfl
    | safe safeTarget _ haccepts =>
      rw [haccepts]
      rfl
    | idle haccepts =>
      rw [haccepts]
      rfl

/-! ## Blocks -/

section Blocks

variable {E : Env} {store store' : Store} {sb : SignedBlockWithAttestation}

/-- The store after a block is imported: everything but the vote maps is set at once. -/
theorem Store.importBlock_eq (E : Env) (store : Store) (sb : SignedBlockWithAttestation)
    (root : H256) (post : State) :
    store.importBlock E sb root post =
      (((store.insertBlock root sb.block post).updateCheckpoints post).cacheProofs E sb).withBook
        ((bodyEvents sb.block).foldl bookStep store.book) := by
  unfold Store.importBlock
  rw [Store.castBodyVotes_eq]
  rfl

/-- A block that was processed, with what was computed on the way. -/
structure Imported (E : Env) (store : Store) (sb : SignedBlockWithAttestation) (root : H256)
    (store' : Store) (parent post : State) (head : H256) : Prop where
  parent_state : store.states.lookup sb.block.parentRoot = some parent
  transition : parent.stateTransition E sb true = .ok post
  head_rule : (store.importBlock E sb root post).getForkChoiceHead
    (store.importBlock E sb root post).latestJustified.root
    (store.importBlock E sb root post).latestKnownAttestations 0 = .ok head
  result : store' = Store.castProposerVote E { store.importBlock E sb root post with head } sb

theorem Store.processBlockInternal_eq_ok {root : H256} {u : Unit}
    (h : store.processBlockInternal E sb root = .ok ⟨store', .ok u⟩) :
    ∃ parent post head, Imported E store sb root store' parent post head := by
  obtain ⟨parent, hparent, h⟩ := attempt_eq_done.mp h
  obtain ⟨post, hpost, h⟩ := attempt_eq_done.mp h
  obtain ⟨s₁, h₁, h⟩ := bind_eq_ok.mp h
  obtain ⟨head, hhead, rfl⟩ := Store.updateHead_eq_ok h₁
  refine ⟨parent, post, head, okOr_eq_ok.mp hparent, hpost, hhead, ?_⟩
  exact (congrArg After.state (Except.ok.inj h)).symm

/-- A block that fails leaves the store as it was, and the stored state of its parent returns an
    error on it. -/
theorem Store.processBlockInternal_rejects {root : H256} {msg : String}
    (h : store.processBlockInternal E sb root = .ok ⟨store', .error msg⟩) :
    store' = store ∧ ∀ parent, store.states.lookup sb.block.parentRoot = some parent →
      ∃ msg, parent.stateTransition E sb true = .error (.err msg) := by
  rcases attempt_eq_ok.mp h with ⟨parent, hparent, h⟩ | ⟨_, hmissing, h⟩
  · rcases attempt_eq_ok.mp h with ⟨post, -, h⟩ | ⟨_, hreject, h⟩
    · obtain ⟨s₁, -, h⟩ := bind_eq_ok.mp h
      have hresult := congrArg After.result (Except.ok.inj h)
      exact absurd hresult (by simp)
    · refine ⟨congrArg After.state h, fun parent' hparent' => ?_⟩
      obtain rfl := Option.some.inj ((okOr_eq_ok.mp hparent).symm.trans hparent')
      exact ⟨_, hreject⟩
  · refine ⟨congrArg After.state h, fun parent hparent => ?_⟩
    rw [hparent] at hmissing
    exact absurd hmissing (by simp [okOr])

theorem Store.processBlockInternal_eq_error {root : H256} {msg : String}
    (h : store.processBlockInternal E sb root = .ok ⟨store', .error msg⟩) :
    store' = store ∧ ∀ parent post, store.states.lookup sb.block.parentRoot = some parent →
      parent.stateTransition E sb true ≠ .ok post := by
  obtain ⟨hstore, hreject⟩ := Store.processBlockInternal_rejects h
  refine ⟨hstore, fun parent post hparent hpost => ?_⟩
  obtain ⟨_, herr⟩ := hreject parent hparent
  rw [herr] at hpost
  exact absurd hpost (by simp)

theorem Imported.blocks_eq {root : H256} {parent post : State} {head : H256}
    (h : Imported E store sb root store' parent post head) :
    store'.blocks = store.blocks.insert root sb.block ∧
      store'.states = store.states.insert root post := by
  rw [h.result, Store.castProposerVote_eq, Store.importBlock_eq]
  exact ⟨rfl, rfl⟩

theorem Imported.blocksQueue_eq {root : H256} {parent post : State} {head : H256}
    (h : Imported E store sb root store' parent post head) :
    store'.blocksQueue = store.blocksQueue := by
  rw [h.result, Store.castProposerVote_eq, Store.importBlock_eq]
  rfl

theorem Imported.book_eq {root : H256} {parent post : State} {head : H256}
    (h : Imported E store sb root store' parent post head) :
    store'.book = (blockEvents sb).foldl bookStep store.book := by
  rw [h.result, Store.castProposerVote_eq, Store.importBlock_eq, blockEvents, List.foldl_append]
  rfl

/-! ### The queue -/

theorem Store.mem_queued :
    sb ∈ store.queued ↔ ∃ root l, store.blocksQueue.lookup root = some l ∧ sb ∈ l := by
  unfold Store.queued
  simp only [List.mem_flatMap, AList.lookup_eq_some_iff]
  constructor
  · rintro ⟨e, he, hsb⟩
    exact ⟨e.1, e.2, he, hsb⟩
  · rintro ⟨root, l, he, hsb⟩
    exact ⟨⟨root, l⟩, he, hsb⟩

theorem Store.queued_congr (h : store'.blocksQueue = store.blocksQueue) :
    store'.queued = store.queued := by
  unfold Store.queued
  rw [h]

theorem Store.queued_erase {root : H256}
    (h : sb ∈ Store.queued { store with blocksQueue := store.blocksQueue.erase root }) :
    sb ∈ store.queued := by
  obtain ⟨r, l, hl, hsb⟩ := Store.mem_queued.mp h
  rw [AList.lookup_erase_eq] at hl
  split_ifs at hl
  exact Store.mem_queued.mpr ⟨r, l, hl, hsb⟩

/-- The store with one more block that waits for its parent. -/
def Store.enqueue (store : Store) (sb : SignedBlockWithAttestation) : Store :=
  { store with
    blocksQueue := store.blocksQueue.insert sb.block.parentRoot
      ((store.blocksQueue.lookup sb.block.parentRoot).getD [] ++ [sb]) }

/-- The lists of the queue are the old ones, but for the new block under its parent. -/
theorem Store.mem_lookup_enqueue {root : H256} {blocks : List SignedBlockWithAttestation}
    {b : SignedBlockWithAttestation} (h : (store.enqueue sb).blocksQueue.lookup root = some blocks)
    (hb : b ∈ blocks) :
    (∃ old, store.blocksQueue.lookup root = some old ∧ b ∈ old) ∨
      b = sb ∧ root = sb.block.parentRoot := by
  simp only [Store.enqueue, AList.lookup_insert_eq] at h
  split_ifs at h with hroot
  · obtain rfl := Option.some.inj h
    rw [← hroot] at hb
    rcases List.mem_append.mp hb with hb | hb
    · cases hold : store.blocksQueue.lookup root with
      | none =>
        rw [hold] at hb
        exact absurd hb (by simp)
      | some old =>
        rw [hold] at hb
        exact Or.inl ⟨old, rfl, hb⟩
    · exact Or.inr ⟨List.mem_singleton.mp hb, hroot⟩
  · exact Or.inl ⟨blocks, h, hb⟩

theorem Store.mem_queued_enqueue {b : SignedBlockWithAttestation}
    (h : b ∈ (store.enqueue sb).queued) : b ∈ store.queued ∨ b = sb := by
  obtain ⟨root, blocks, hlookup, hb⟩ := Store.mem_queued.mp h
  rcases Store.mem_lookup_enqueue hlookup hb with ⟨old, hold, hb⟩ | ⟨rfl, -⟩
  · exact Or.inl (Store.mem_queued.mpr ⟨root, old, hold, hb⟩)
  · exact Or.inr rfl

/-- The ways in which `on_block` deals with a block. -/
inductive Delivery (E : Env) (store : Store) (sb : SignedBlockWithAttestation) :
    After Store (List SignedBlockWithAttestation) → Prop
  | known (hknown : sb.block.hashTreeRoot E ∈ store.blocks) :
      Delivery E store sb ⟨store, .ok []⟩
  | queued (hnew : sb.block.hashTreeRoot E ∉ store.blocks)
      (hmissing : sb.block.parentRoot ∉ store.states) (msg : String) :
      Delivery E store sb ⟨{ store with
        blocksQueue := store.blocksQueue.insert sb.block.parentRoot
          ((store.blocksQueue.lookup sb.block.parentRoot).getD [] ++ [sb]) }, .error msg⟩
  | rejected (hnew : sb.block.hashTreeRoot E ∉ store.blocks)
      (hreject : ∀ parent post, store.states.lookup sb.block.parentRoot = some parent →
        parent.stateTransition E sb true ≠ .ok post) (msg : String) :
      Delivery E store sb ⟨store, .error msg⟩
  | imported (s₁ : Store) (parent post : State) (head : H256) (f : Flush)
      (hnew : sb.block.hashTreeRoot E ∉ store.blocks)
      (himp : Imported E store sb (sb.block.hashTreeRoot E) s₁ parent post head)
      (hflush : s₁.processPendingBlocks E [sb.block.hashTreeRoot E] = .ok f) :
      Delivery E store sb ⟨f.store, .ok (sb :: f.processed)⟩

theorem Store.onBlock_delivery {after : After Store (List SignedBlockWithAttestation)}
    (h : store.onBlock E sb = .ok after) : Delivery E store sb after := by
  unfold Store.onBlock at h
  simp only at h
  split_ifs at h with hknown hmissing
  · obtain rfl := Except.ok.inj h
    exact Delivery.known hknown
  · obtain rfl := Except.ok.inj h
    exact Delivery.queued hknown hmissing.1 _
  · -- the block is processed now, and the blocks that wait for it after it
    obtain ⟨⟨s₁, r⟩, hr, hrest⟩ := bind_eq_ok.mp h
    cases r with
    | error msg =>
      obtain ⟨hsame, hreject⟩ := Store.processBlockInternal_eq_error hr
      obtain rfl := Except.ok.inj hrest
      rw [hsame]
      exact Delivery.rejected hknown hreject msg
    | ok u =>
      obtain ⟨parent, post, head, himp⟩ := Store.processBlockInternal_eq_ok hr
      obtain ⟨f, hf, hdone⟩ := bind_eq_ok.mp hrest
      obtain rfl := Except.ok.inj hdone
      exact Delivery.imported s₁ parent post head f hknown himp hf

section Induction

variable {P : Store → List SignedBlockWithAttestation → Prop}
  {Q : SignedBlockWithAttestation → Prop}
  (hqueue : ∀ s processed queue, P s processed → P { s with blocksQueue := queue } processed)
  (himport : ∀ s processed sb s' parent post head, Q sb → P s processed →
    Imported E s sb (sb.block.hashTreeRoot E) s' parent post head → P s' (processed ++ [sb]))

include himport in
/-- One queued block: it is imported, or nothing changes. -/
theorem Flush.step_induction {f f' : Flush} (hsb : Q sb) (hP : P f.store f.processed)
    (hQ : ∀ b ∈ f.store.queued, Q b) (h : f.step E sb = .ok f') :
    P f'.store f'.processed ∧ ∀ b ∈ f'.store.queued, Q b := by
  unfold Flush.step at h
  obtain ⟨after, hafter, h⟩ := bind_eq_ok.mp h
  obtain ⟨s₁, r⟩ := after
  cases r with
  | ok u =>
    obtain rfl := Except.ok.inj h
    obtain ⟨parent, post, head, himp⟩ := Store.processBlockInternal_eq_ok hafter
    refine ⟨himport _ _ _ _ _ _ _ hsb hP himp, fun b hb => hQ b ?_⟩
    rwa [Store.queued_congr himp.blocksQueue_eq] at hb
  | error msg =>
    obtain rfl := Except.ok.inj h
    obtain ⟨rfl, -⟩ := Store.processBlockInternal_eq_error hafter
    exact ⟨hP, hQ⟩

include himport in
theorem Flush.steps_induction {blocks : List SignedBlockWithAttestation} {f f' : Flush}
    (hblocks : ∀ b ∈ blocks, Q b) (hP : P f.store f.processed)
    (hQ : ∀ b ∈ f.store.queued, Q b) (h : blocks.foldlM (Flush.step E) f = .ok f') :
    P f'.store f'.processed ∧ ∀ b ∈ f'.store.queued, Q b := by
  induction blocks generalizing f with
  | nil =>
    obtain rfl := Except.ok.inj h
    exact ⟨hP, hQ⟩
  | cons b blocks ih =>
    rw [List.foldlM_cons] at h
    obtain ⟨f₁, h₁, h⟩ := bind_eq_ok.mp h
    obtain ⟨hP₁, hQ₁⟩ := Flush.step_induction himport (hblocks b (by simp)) hP hQ h₁
    exact ih (fun c hc => hblocks c (by simp [hc])) hP₁ hQ₁ h

include hqueue himport in
/-- The loop over the pending blocks imports blocks that stood in the queue. -/
theorem processPending_induction {fuel : ℕ} {f f' : Flush} (hP : P f.store f.processed)
    (hQ : ∀ b ∈ f.store.queued, Q b) (h : processPending E fuel f = .ok f') :
    P f'.store f'.processed ∧ ∀ b ∈ f'.store.queued, Q b := by
  induction fuel generalizing f with
  | zero =>
    unfold processPending at h
    split_ifs at h
    obtain rfl := Except.ok.inj h
    exact ⟨hP, hQ⟩
  | succ fuel ih =>
    unfold processPending at h
    split at h
    · obtain rfl := Except.ok.inj h
      exact ⟨hP, hQ⟩
    · rename_i parentRoot roots _
      split at h
      · exact ih (f := { f with roots }) hP hQ h
      · rename_i purgatory hpurgatory
        obtain ⟨f₁, h₁, h⟩ := bind_eq_ok.mp h
        have hblocks : ∀ b ∈ purgatory, Q b := fun b hb =>
          hQ b (Store.mem_queued.mpr ⟨parentRoot, purgatory, hpurgatory, hb⟩)
        have hP₀ := hqueue f.store f.processed (f.store.blocksQueue.erase parentRoot) hP
        have hQ₀ : ∀ b ∈ Store.queued
            { f.store with blocksQueue := f.store.blocksQueue.erase parentRoot }, Q b :=
          fun b hb => hQ b (Store.queued_erase hb)
        -- the blocks of the purgatory leave the queue before they are processed
        obtain ⟨hP₁, hQ₁⟩ := Flush.steps_induction himport
          (f := ⟨{ f.store with blocksQueue := f.store.blocksQueue.erase parentRoot }, roots,
            f.processed⟩) hblocks hP₀ hQ₀ h₁
        exact ih hP₁ hQ₁ h

include hqueue himport in
/-- What `on_block` can do: it imports a list of blocks, each of them delivered now or queued
    before, and otherwise changes the queue only. -/
theorem Store.onBlock_induction {r : Except String (List SignedBlockWithAttestation)}
    (hsb : Q sb) (hP : P store []) (hQ : ∀ b ∈ store.queued, Q b)
    (h : store.onBlock E sb = .ok ⟨store', r⟩) :
    P store' (r.toOption.getD []) ∧ ∀ b ∈ store'.queued, Q b := by
  cases Store.onBlock_delivery h with
  | known hknown => exact ⟨hP, hQ⟩
  | rejected hnew hreject msg => exact ⟨hP, hQ⟩
  | queued hnew hmissing msg =>
    refine ⟨hqueue _ _ _ hP, fun b hb => ?_⟩
    rcases Store.mem_queued_enqueue hb with hb | rfl
    · exact hQ b hb
    · exact hsb
  | imported s₁ parent post head f hnew himp hflush =>
    have hP₁ := himport _ _ _ _ _ _ _ hsb hP himp
    have hQ₁ : ∀ b ∈ s₁.queued, Q b := by
      intro b hb
      apply hQ b
      rwa [Store.queued_congr himp.blocksQueue_eq] at hb
    -- the flush starts its own list of processed blocks
    exact processPending_induction (P := fun s processed => P s (sb :: processed))
      (fun s processed queue => hqueue s (sb :: processed) queue)
      (fun s processed => himport s (sb :: processed)) hP₁ hQ₁ hflush

end Induction

end Blocks

/-! ## Block production -/

section Production

variable {E : Env} {orders : IterationOrders} {store : Store} {slot validatorIndex : ℕ}
  {built : BuiltBlock}

/-- A block built on the head, with the state it was built from. -/
theorem Store.buildOnHead_eq_ok (h : store.buildOnHead E orders slot validatorIndex = .ok built) :
    ∃ headState, store.states.lookup store.head = some headState ∧
      headState.buildBlock E orders.unproved (store.buildArgs orders slot validatorIndex) none =
        .ok built := by
  obtain ⟨headState, hstate, h⟩ := bind_eq_ok.mp h
  simp only at h
  split_ifs at h
  · exact absurd h (by simp)
  · obtain ⟨_, -, h⟩ := bind_eq_ok.mp h
    exact ⟨headState, okOr_eq_ok.mp hstate, h⟩

/-- The block stands on the head, and every signed block that carries it is accepted there. -/
theorem Store.buildOnHead_transition
    (h : store.buildOnHead E orders slot validatorIndex = .ok built)
    (sb : SignedBlockWithAttestation) (hsb : sb.block = built.block) :
    built.block.parentRoot = store.head ∧
      ∃ headState, store.states.lookup store.head = some headState ∧
        headState.stateTransition E sb true = .ok built.post := by
  obtain ⟨headState, hstate, hbuild⟩ := Store.buildOnHead_eq_ok h
  exact ⟨(State.buildBlock_header hbuild).2, headState, hstate,
    State.buildBlock_transition hbuild hsb⟩

/-- A block is built for the proposer of the slot only, by the registry of the head state. -/
theorem Store.buildOnHead_proposer
    (h : store.buildOnHead E orders slot validatorIndex = .ok built) {headState : State}
    (hstate : store.states.lookup store.head = some headState) :
    validatorIndex = slot % headState.validators.length := by
  obtain ⟨headState', hstate', h⟩ := bind_eq_ok.mp h
  obtain rfl := Option.some.inj (hstate.symm.trans (okOr_eq_ok.mp hstate'))
  simp only at h
  split_ifs at h
  · exact absurd h (by simp)
  · obtain ⟨_, howner, -⟩ := bind_eq_ok.mp h
    exact ensure_eq_ok.mp howner

theorem Store.buildOnHead_slot (h : store.buildOnHead E orders slot validatorIndex = .ok built) :
    built.block.slot = slot := by
  obtain ⟨headState, -, hbuild⟩ := Store.buildOnHead_eq_ok h
  exact (State.buildBlock_header hbuild).1

/-- The post-state has the registry of the state of the head. -/
theorem Store.buildOnHead_validators
    (h : store.buildOnHead E orders slot validatorIndex = .ok built) :
    ∃ headState, store.states.lookup store.head = some headState ∧
      built.post.validators = headState.validators := by
  let sb : SignedBlockWithAttestation :=
    ⟨⟨built.block, ⟨0, ⟨0, ⟨0, 0⟩, ⟨0, 0⟩, ⟨0, 0⟩⟩⟩⟩, ⟨[], 0⟩⟩
  obtain ⟨-, headState, hstate, htrans⟩ := Store.buildOnHead_transition h sb rfl
  exact ⟨headState, hstate, State.stateTransition_validators htrans⟩

/-- Block production moves to the proposal head, and adds a block there or fails. -/
theorem Store.produceBlockWithSignatures_eq_ok
    {after : After Store (H256 × Block × List AggregatedSignatureProof)}
    (h : store.produceBlockWithSignatures E orders slot validatorIndex = .ok after) :
    ∃ s₀, store.getProposalHead slot = .ok s₀ ∧
      ((∃ built, s₀.buildOnHead E orders slot validatorIndex = .ok built ∧
        after = ⟨s₀.insertBlock (built.block.hashTreeRoot E) built.block built.post,
          .ok (built.block.hashTreeRoot E, built.block, built.proofs)⟩) ∨
      ∃ msg, after = ⟨s₀, .error msg⟩) := by
  obtain ⟨s₀, h₀, h⟩ := bind_eq_ok.mp h
  refine ⟨s₀, h₀, ?_⟩
  rcases attempt_eq_ok.mp h with ⟨built, hbuilt, h⟩ | ⟨msg, -, h⟩
  · exact Or.inl ⟨built, hbuilt, (Except.ok.inj h).symm⟩
  · exact Or.inr ⟨msg, h⟩

end Production

/-! ## Operations -/

/-- A call of one of the public functions that change the store. -/
inductive StoreOp where
  | tick (time : ℕ) (hasProposal : Bool)
  | attestation (sa : SignedAttestation) (isFromBlock : Bool)
  | gossipAttestation (sa : SignedAttestation)
  | block (sb : SignedBlockWithAttestation)
  | produce (slot validatorIndex : ℕ) (orders : IterationOrders)

/-- The store after a call that returns, with `Ok` or with `Err`. -/
def Store.apply (E : Env) (store : Store) : StoreOp → Res Store
  | .tick time hasProposal => store.onTick time hasProposal
  | .attestation sa isFromBlock => do
    let after ← store.onAttestation E sa isFromBlock
    pure after.state
  | .gossipAttestation sa => do
    let after ← store.onGossipAttestation E sa
    pure after.state
  | .block sb => do
    let after ← store.onBlock E sb
    pure after.state
  | .produce slot validatorIndex orders => do
    let after ← store.produceBlockWithSignatures E orders slot validatorIndex
    pure after.state

/-- The store after a sequence of calls. -/
def Store.run (E : Env) (store : Store) (ops : List StoreOp) : Res Store :=
  ops.foldlM (Store.apply E) store

/-- The blocks processed in a call. -/
def Store.processedBy (E : Env) (store : Store) : StoreOp → List SignedBlockWithAttestation
  | .block sb =>
    match store.onBlock E sb with
    | .ok ⟨_, .ok processed⟩ => processed
    | _ => []
  | _ => []

/-- The events of the vote maps in a call. -/
def Store.eventsOf (E : Env) (store : Store) : StoreOp → List (VoteEvent ℕ AttestationData)
  | .tick time hasProposal => store.tickEvents time hasProposal
  | .attestation sa isFromBlock =>
    match store.validateAttestationData sa.message with
    | .ok _ => [.vote sa.validatorId sa.message isFromBlock]
    | .error _ => []
  | .gossipAttestation sa =>
    match store.validateAttestationData sa.message with
    | .ok _ => [.vote sa.validatorId sa.message false]
    | .error _ => []
  | .block sb => (store.processedBy E (.block sb)).flatMap blockEvents
  | .produce slot _ _ =>
    store.tickEvents (store.config.genesisTime + slot * secondsPerSlot) true ++ [.accept]

/-- The entries that the calls of a sequence make in some log, in order. -/
def Store.runLog {α : Type} (E : Env) (entries : Store → StoreOp → List α) (store : Store) :
    List StoreOp → List α
  | [] => []
  | op :: rest =>
    match store.apply E op with
    | .ok store' => entries store op ++ store'.runLog E entries rest
    | .error _ => []

/-- The events of the vote maps in a sequence of calls. -/
def Store.runEvents (E : Env) (store : Store) (ops : List StoreOp) :
    List (VoteEvent ℕ AttestationData) :=
  store.runLog E (fun s op => s.eventsOf E op) ops

/-- A store reached from the store of an anchor. -/
structure ReachedFromAnchor (E : Env) (init : Store) (ops : List StoreOp) (store : Store) :
    Prop where
  anchor : ∃ state block config, init = getForkchoiceStore E state block config
  run : init.run E ops = .ok store

section Operations

variable {E : Env} {store store' : Store}

theorem Store.run_cons {op : StoreOp} {rest : List StoreOp}
    (h : store.run E (op :: rest) = .ok store') :
    ∃ s₁, store.apply E op = .ok s₁ ∧ s₁.run E rest = .ok store' := by
  unfold Store.run at h
  rw [List.foldlM_cons] at h
  exact bind_eq_ok.mp h

theorem Store.run_singleton {op : StoreOp} :
    store.run E [op] = .ok store' ↔ store.apply E op = .ok store' := by
  unfold Store.run
  rw [List.foldlM_cons, bind_eq_ok]
  simp

/-- A property that every call keeps holds after a sequence of calls. -/
theorem Store.run_induction {P : Store → Prop} {ops : List StoreOp}
    (hstep : ∀ pre op post s s', ops = pre ++ op :: post → store.run E pre = .ok s → P s →
      s.apply E op = .ok s' → P s') (h₀ : P store) (h : store.run E ops = .ok store') :
    P store' :=
  foldlM_induction hstep h₀ h

theorem Store.runLog_cons {α : Type} {entries : Store → StoreOp → List α} {op : StoreOp}
    {s₁ : Store} (h : store.apply E op = .ok s₁) (rest : List StoreOp) :
    store.runLog E entries (op :: rest) = entries store op ++ s₁.runLog E entries rest := by
  rw [Store.runLog, h]

/-- The log has what the single calls entered, each in the store that the calls before it left. -/
theorem Store.mem_runLog {α : Type} {entries : Store → StoreOp → List α} {ops : List StoreOp}
    {x : α} :
    x ∈ store.runLog E entries ops ↔ ∃ pre op post s s', ops = pre ++ op :: post ∧
      store.run E pre = .ok s ∧ s.apply E op = .ok s' ∧ x ∈ entries s op := by
  induction ops generalizing store with
  | nil => simp [Store.runLog]
  | cons first rest ih =>
    constructor
    · intro h
      unfold Store.runLog at h
      split at h
      · rename_i s₁ h₁
        -- the entry is from the first call or from a later one
        rcases List.mem_append.mp h with h | h
        · exact ⟨[], first, rest, store, s₁, rfl, rfl, h₁, h⟩
        · obtain ⟨pre, op, post, s, s', rfl, hpre, hop, hx⟩ := ih.mp h
          refine ⟨first :: pre, op, post, s, s', rfl, ?_, hop, hx⟩
          unfold Store.run
          rw [List.foldlM_cons, h₁, ok_bind]
          exact hpre
      · exact absurd h (by simp)
    · rintro ⟨pre, op, post, s, s', heq, hpre, hop, hx⟩
      -- and conversely, by where the call stands
      cases pre with
      | nil =>
        obtain ⟨rfl, rfl⟩ := List.cons.inj heq
        obtain rfl := Except.ok.inj hpre
        rw [Store.runLog_cons hop]
        exact List.mem_append_left _ hx
      | cons first' pre =>
        obtain ⟨rfl, rfl⟩ := List.cons.inj heq
        obtain ⟨s₁, h₁, hpre⟩ := Store.run_cons hpre
        rw [Store.runLog_cons h₁]
        exact List.mem_append_right _ (ih.mpr ⟨pre, op, post, s, s', rfl, hpre, hop, hx⟩)

/-- The log only grows. -/
theorem Store.mem_runLog_append {α : Type} {entries : Store → StoreOp → List α}
    {pre post : List StoreOp} {x : α} (h : x ∈ store.runLog E entries pre) :
    x ∈ store.runLog E entries (pre ++ post) := by
  obtain ⟨pre', op, post', s, s', rfl, hpre, hop, hx⟩ := Store.mem_runLog.mp h
  exact Store.mem_runLog.mpr
    ⟨pre', op, post' ++ post, s, s', by simp, hpre, hop, hx⟩

/-- A property of the store and its log that every call keeps with what it adds to the log. -/
theorem Store.runLog_induction {α : Type} {entries : Store → StoreOp → List α}
    {P : List α → Store → Prop} {log : List α} {ops : List StoreOp}
    (hstep : ∀ log s op s', P log s → s.apply E op = .ok s' → P (log ++ entries s op) s')
    (h₀ : P log store) (h : store.run E ops = .ok store') :
    P (log ++ store.runLog E entries ops) store' := by
  induction ops generalizing store log with
  | nil =>
    obtain rfl := Except.ok.inj h
    simpa [Store.runLog] using h₀
  | cons op rest ih =>
    obtain ⟨s₁, h₁, h⟩ := Store.run_cons h
    rw [Store.runLog_cons h₁, ← List.append_assoc]
    exact ih (hstep log store op s₁ h₀ h₁) h

/-- An attestation that returns was admitted or changed nothing. -/
theorem Store.onAttestation_eq_ok {sa : SignedAttestation} {isFromBlock : Bool}
    {after : After Store Unit} (h : store.onAttestation E sa isFromBlock = .ok after) :
    (store.validateAttestationData sa.message = .ok () ∧
      after.state = (if isFromBlock then store
        else store.storeSignature E sa.validatorId sa.message sa.signature).withBook
          (bookStep store.book (.vote sa.validatorId sa.message isFromBlock))) ∨
    ((∃ msg, store.validateAttestationData sa.message = .error (.err msg)) ∧
      after.state = store) := by
  rcases attempt_eq_ok.mp h with ⟨u, hu, h⟩ | ⟨msg, hmsg, h⟩
  · refine Or.inl ⟨hu, ?_⟩
    rw [← Except.ok.inj h]
    simp only [Store.onAttestationInternal_eq]
    cases isFromBlock <;> rfl
  · exact Or.inr ⟨⟨msg, hmsg⟩, congrArg After.state h⟩

/-- An attestation leaves the time, the head and the tree alone. -/
theorem Store.onAttestation_frame {sa : SignedAttestation} {isFromBlock : Bool}
    {after : After Store Unit} (h : store.onAttestation E sa isFromBlock = .ok after) :
    SameTree store after.state ∧ after.state.time = store.time ∧
      after.state.head = store.head ∧ after.state.safeTarget = store.safeTarget := by
  rcases Store.onAttestation_eq_ok h with ⟨-, hstate⟩ | ⟨-, hstate⟩
  · rw [hstate]
    cases isFromBlock with
    | true => exact ⟨⟨rfl, rfl, rfl, rfl, rfl, rfl⟩, rfl, rfl, rfl⟩
    | false => exact ⟨⟨rfl, rfl, rfl, rfl, rfl, rfl⟩, rfl, rfl, rfl⟩
  · rw [hstate]
    exact ⟨SameTree.refl store, rfl, rfl, rfl⟩

/-- The two handlers of gossip attestations do the same. -/
theorem Store.onGossipAttestation_eq (sa : SignedAttestation) :
    store.onGossipAttestation E sa = store.onAttestation E sa false := rfl

/-- The ways in which a call of a store operation returns. -/
inductive StoreStep (E : Env) (store : Store) : StoreOp → Store → Prop
  | tick (time : ℕ) (hasProposal : Bool) (store' : Store)
      (hcall : store.onTick time hasProposal = .ok store') :
      StoreStep E store (.tick time hasProposal) store'
  | attestation (sa : SignedAttestation) (isFromBlock : Bool) (after : After Store Unit)
      (hcall : store.onAttestation E sa isFromBlock = .ok after) :
      StoreStep E store (.attestation sa isFromBlock) after.state
  | gossipAttestation (sa : SignedAttestation) (after : After Store Unit)
      (hcall : store.onAttestation E sa false = .ok after) :
      StoreStep E store (.gossipAttestation sa) after.state
  | block (sb : SignedBlockWithAttestation) (store' : Store)
      (r : Except String (List SignedBlockWithAttestation))
      (hcall : store.onBlock E sb = .ok ⟨store', r⟩) : StoreStep E store (.block sb) store'
  | produced (slot validatorIndex : ℕ) (orders : IterationOrders) (s₀ : Store)
      (built : BuiltBlock)
      (hcall : store.getProposalHead slot = .ok s₀)
      (hbuilt : s₀.buildOnHead E orders slot validatorIndex = .ok built) :
      StoreStep E store (.produce slot validatorIndex orders)
        (s₀.insertBlock (built.block.hashTreeRoot E) built.block built.post)
  | unproduced (slot validatorIndex : ℕ) (orders : IterationOrders) (s₀ : Store)
      (hcall : store.getProposalHead slot = .ok s₀) :
      StoreStep E store (.produce slot validatorIndex orders) s₀

theorem Store.apply_step {op : StoreOp} (h : store.apply E op = .ok store') :
    StoreStep E store op store' := by
  cases op with
  | tick time hasProposal => exact .tick time hasProposal store' h
  | attestation sa isFromBlock =>
    obtain ⟨after, hafter, h⟩ := bind_eq_ok.mp h
    obtain rfl := Except.ok.inj h
    exact .attestation sa isFromBlock after hafter
  | gossipAttestation sa =>
    obtain ⟨after, hafter, h⟩ := bind_eq_ok.mp h
    obtain rfl := Except.ok.inj h
    rw [Store.onGossipAttestation_eq] at hafter
    exact .gossipAttestation sa after hafter
  | block sb =>
    obtain ⟨⟨s₁, r⟩, hafter, h⟩ := bind_eq_ok.mp h
    obtain rfl := Except.ok.inj h
    exact .block sb s₁ r hafter
  | produce slot validatorIndex orders =>
    obtain ⟨after, hafter, h⟩ := bind_eq_ok.mp h
    obtain rfl := Except.ok.inj h
    -- production moves to the proposal head also when it fails there
    obtain ⟨s₀, h₀, hcases⟩ := Store.produceBlockWithSignatures_eq_ok hafter
    rcases hcases with ⟨built, hbuilt, rfl⟩ | ⟨msg, rfl⟩
    · exact .produced slot validatorIndex orders s₀ built h₀ hbuilt
    · exact .unproduced slot validatorIndex orders s₀ h₀

theorem Store.processedBy_block {sb : SignedBlockWithAttestation}
    {r : Except String (List SignedBlockWithAttestation)}
    (h : store.onBlock E sb = .ok ⟨store', r⟩) :
    store.processedBy E (.block sb) = r.toOption.getD [] := by
  simp only [Store.processedBy, h]
  cases r with
  | ok processed => rfl
  | error msg => rfl

theorem Store.onBlock_book {sb : SignedBlockWithAttestation}
    {r : Except String (List SignedBlockWithAttestation)}
    (h : store.onBlock E sb = .ok ⟨store', r⟩) :
    store'.book = ((r.toOption.getD []).flatMap blockEvents).foldl bookStep store.book := by
  have hinduct := Store.onBlock_induction (E := E) (Q := fun _ => True)
    (P := fun s processed =>
      s.book = (processed.flatMap blockEvents).foldl bookStep store.book)
    (fun s processed queue hs => hs) ?_ trivial rfl (fun _ _ => trivial) h
  · exact hinduct.1
  · intro s processed sb s' parent post head _ hs himp
    rw [himp.book_eq, hs, List.flatMap_append, List.foldl_append]
    simp

/-- An attestation enters its vote if it passes the checks. -/
theorem Store.onAttestation_book {sa : SignedAttestation} {isFromBlock : Bool}
    {after : After Store Unit} (h : store.onAttestation E sa isFromBlock = .ok after) :
    after.state.book =
      (store.eventsOf E (.attestation sa isFromBlock)).foldl bookStep store.book := by
  rcases Store.onAttestation_eq_ok h with ⟨hok, hstate⟩ | ⟨⟨msg, herr⟩, hstate⟩
  · simp only [Store.eventsOf, hok, hstate]
    rfl
  · simp only [Store.eventsOf, herr, hstate]
    rfl

theorem Store.getProposalHead_book {slot : ℕ} (h : store.getProposalHead slot = .ok store')
    (validatorIndex : ℕ) (orders : IterationOrders) :
    store'.book =
      (store.eventsOf E (.produce slot validatorIndex orders)).foldl bookStep store.book := by
  obtain ⟨s₁, h₁, h⟩ := bind_eq_ok.mp h
  obtain ⟨head, -, rfl⟩ := Store.acceptNewAttestations_eq_ok h
  simp only [Store.eventsOf]
  rw [List.foldl_append, ← Store.onTick_book h₁]
  rfl

/-- The vote maps change by the events of a call only. -/
theorem Store.apply_book {op : StoreOp} (h : store.apply E op = .ok store') :
    store'.book = (store.eventsOf E op).foldl bookStep store.book := by
  cases Store.apply_step h with
  | tick time hasProposal s hcall => exact Store.onTick_book hcall
  | attestation sa isFromBlock after hcall => exact Store.onAttestation_book hcall
  | gossipAttestation sa after hcall => exact Store.onAttestation_book hcall
  | block sb s r hcall =>
    rw [Store.onBlock_book hcall, Store.eventsOf, Store.processedBy_block hcall]
  | produced slot validatorIndex orders s₀ built hcall hbuilt =>
    -- the block that is added does not touch the votes
    exact Store.getProposalHead_book hcall validatorIndex orders
  | unproduced slot validatorIndex orders s₀ hcall =>
    exact Store.getProposalHead_book hcall validatorIndex orders

theorem Store.run_book {ops : List StoreOp} (h : store.run E ops = .ok store') :
    store'.book = (store.runEvents E ops).foldl bookStep store.book := by
  have hstart : store.book = List.foldl bookStep store.book [] := rfl
  refine Store.runLog_induction (P := fun log s => s.book = log.foldl bookStep store.book)
    ?_ hstart h
  intro log s op s' hs hop
  rw [Store.apply_book hop, List.foldl_append, hs]

/-! ## Time -/

theorem Store.onBlock_time {sb : SignedBlockWithAttestation}
    {after : After Store (List SignedBlockWithAttestation)}
    (h : store.onBlock E sb = .ok after) : after.state.time = store.time := by
  obtain ⟨s₁, r⟩ := after
  refine (Store.onBlock_induction (Q := fun _ => True) (P := fun s _ => s.time = store.time)
    (fun _ _ _ hs => hs) ?_ trivial rfl (fun _ _ => trivial) h).1
  intro s _ sb s' parent post head _ hs himp
  rw [himp.result, Store.castProposerVote_eq, Store.importBlock_eq]
  exact hs

/-- Moving to the proposal head of a slot moves to the beginning of the slot at least. -/
theorem Store.getProposalHead_time {slot : ℕ} (h : store.getProposalHead slot = .ok store') :
    store'.time = max store.time (slot * intervalsPerSlot) := by
  obtain ⟨s₁, h₁, h⟩ := bind_eq_ok.mp h
  obtain ⟨head, -, rfl⟩ := Store.acceptNewAttestations_eq_ok h
  -- the tick goes to the first second of the slot
  have htime := Store.tickTo_time h₁
  rw [Nat.add_sub_cancel_left, show secondsPerInterval = 1 from rfl, Nat.div_one] at htime
  show s₁.time = max store.time (slot * 4)
  rw [htime, show slot * secondsPerSlot = slot * 4 from rfl]
  omega

/-- The time of the store never goes back. -/
theorem Store.apply_time_le {op : StoreOp} (h : store.apply E op = .ok store') :
    store.time ≤ store'.time := by
  have hproposal : ∀ {s slot}, store.getProposalHead slot = .ok s → store.time ≤ s.time := by
    intro s slot hs
    rw [Store.getProposalHead_time hs]
    exact le_max_left _ _
  cases Store.apply_step h with
  | tick time hasProposal s hcall => exact Store.onTick_time_le hcall
  | attestation sa isFromBlock after hcall => exact (Store.onAttestation_frame hcall).2.1.ge
  | gossipAttestation sa after hcall => exact (Store.onAttestation_frame hcall).2.1.ge
  | block sb s r hcall => exact (Store.onBlock_time hcall).ge
  | produced slot validatorIndex orders s₀ built hcall hbuilt =>
    show store.time ≤ s₀.time
    exact hproposal hcall
  | unproduced slot validatorIndex orders s₀ hcall => exact hproposal hcall

/-! ## Growth of the tree -/

section Growth

variable {P : Store → Prop}
  (hframe : ∀ s s', s'.blocks = s.blocks → s'.states = s.states → P s → P s')
  (hgrow : ∀ s sb parent post, s.states.lookup sb.block.parentRoot = some parent →
    parent.stateTransition E sb true = .ok post → P s →
    P (s.insertBlock (sb.block.hashTreeRoot E) sb.block post))

include hframe hgrow in
theorem Imported.grows {sb : SignedBlockWithAttestation} {parent post : State} {head : H256}
    (h : Imported E store sb (sb.block.hashTreeRoot E) store' parent post head)
    (hstore : P store) : P store' :=
  hframe _ _ h.blocks_eq.1 h.blocks_eq.2
    (hgrow store sb parent post h.parent_state h.transition hstore)

include hframe hgrow in
theorem Store.onBlock_grows {sb : SignedBlockWithAttestation}
    {r : Except String (List SignedBlockWithAttestation)} (hstore : P store)
    (h : store.onBlock E sb = .ok ⟨store', r⟩) : P store' := by
  refine (Store.onBlock_induction (Q := fun _ => True) (P := fun s _ => P s)
    (fun s _ queue hs => hframe s _ rfl rfl hs) ?_ trivial hstore (fun _ _ => trivial) h).1
  intro s _ sb s' parent post head _ hs himp
  exact himp.grows hframe hgrow hs

include hframe in
theorem Store.grows_of_sameTree (hstore : P store) (hsame : SameTree store store') : P store' :=
  hframe _ _ hsame.blocks hsame.states hstore

include hgrow in
/-- A block built on the head extends the tree like any other block. -/
theorem Store.produced_grows {slot validatorIndex : ℕ} {orders : IterationOrders}
    {built : BuiltBlock} (hstore : P store)
    (hbuilt : store.buildOnHead E orders slot validatorIndex = .ok built) :
    P (store.insertBlock (built.block.hashTreeRoot E) built.block built.post) := by
  -- any signed block that carries the new block will do
  let sb : SignedBlockWithAttestation :=
    ⟨⟨built.block, ⟨0, ⟨0, ⟨0, 0⟩, ⟨0, 0⟩, ⟨0, 0⟩⟩⟩⟩, ⟨[], 0⟩⟩
  obtain ⟨hparent, headState, hstate, htrans⟩ := Store.buildOnHead_transition hbuilt sb rfl
  refine hgrow store sb headState built.post ?_ htrans hstore
  rw [show sb.block.parentRoot = store.head from hparent]
  exact hstate

include hframe hgrow in
/-- The tree of blocks changes only by blocks that the state of their parent accepts. -/
theorem Store.apply_grows {op : StoreOp} (hstore : P store)
    (h : store.apply E op = .ok store') : P store' := by
  have hsame : ∀ {s}, SameTree store s → P s := Store.grows_of_sameTree hframe hstore
  cases Store.apply_step h with
  | tick time hasProposal s hcall => exact hsame (Store.onTick_sameTree hcall)
  | attestation sa isFromBlock after hcall => exact hsame (Store.onAttestation_frame hcall).1
  | gossipAttestation sa after hcall => exact hsame (Store.onAttestation_frame hcall).1
  | block sb s r hcall => exact Store.onBlock_grows hframe hgrow hstore hcall
  | produced slot validatorIndex orders s₀ built hcall hbuilt =>
    exact Store.produced_grows hgrow (hsame (Store.getProposalHead_sameTree hcall)) hbuilt
  | unproduced slot validatorIndex orders s₀ hcall =>
    exact hsame (Store.getProposalHead_sameTree hcall)

include hframe hgrow in
theorem Store.run_grows {ops : List StoreOp} (hstore : P store)
    (h : store.run E ops = .ok store') : P store' :=
  Store.run_induction (fun _ _ _ _ _ _ _ hs hop => Store.apply_grows hframe hgrow hs hop)
    hstore h

end Growth

/-- All stored states have this registry. -/
def Store.HasRegistry (registry : List Validator) (store : Store) : Prop :=
  ∀ root state, store.states.lookup root = some state → state.validators = registry

section Registry

variable {registry : List Validator}

theorem Store.HasRegistry.insertBlock (hreg : store.HasRegistry registry) (root : H256)
    (block : Block) {post : State} (hpost : post.validators = registry) :
    (store.insertBlock root block post).HasRegistry registry := by
  intro r state h
  have hlookup : (store.states.insert root post).lookup r = some state := h
  rw [AList.lookup_insert_eq] at hlookup
  split_ifs at hlookup
  · obtain rfl := Option.some.inj hlookup
    exact hpost
  · exact hreg r state hlookup

theorem Store.HasRegistry.of_states_eq (hreg : store.HasRegistry registry)
    (h : store'.states = store.states) : store'.HasRegistry registry := by
  unfold Store.HasRegistry
  rw [h]
  exact hreg

/-- The registry never changes. -/
theorem Store.HasRegistry.run (hreg : store.HasRegistry registry) {ops : List StoreOp}
    (h : store.run E ops = .ok store') : store'.HasRegistry registry := by
  refine Store.run_grows (E := E) (fun s s' _ hstates hs => hs.of_states_eq hstates) ?_ hreg h
  intro s sb parent post hparent htrans hs
  apply hs.insertBlock
  rw [State.stateTransition_validators htrans]
  exact hs _ parent hparent

theorem Store.HasRegistry.anchor (E : Env) (state : State) (block : SignedBlockWithAttestation)
    (config : Config) :
    (getForkchoiceStore E state block config).HasRegistry state.validators := by
  intro root s h
  rw [show (getForkchoiceStore E state block config).states =
    AList.singleton (block.block.hashTreeRoot E) state from rfl, AList.lookup_singleton_eq] at h
  split_ifs at h
  obtain rfl := Option.some.inj h
  rfl

end Registry

end Operations

end ConsensusClient
