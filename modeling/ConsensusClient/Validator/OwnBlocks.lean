import ConsensusClient.ForkChoice.Tree
import ConsensusClient.ForkChoice.Votes
import ConsensusClient.Validator.Service

/-!
# Own Blocks and Foreign Blocks

`produce_block_with_signatures` inserts the block it built, and `on_block` returns early for a
block that is stored. So when a node passes its own block to `on_block`, nothing happens: the
checkpoints, the votes and proofs of its body and the vote of its proposer are not entered, while
a node that receives the block from a peer enters all of them. This module shows that the two
stores differ for every block, since the vote of the proposer always is among the new votes of
the one store and never among those of the other.

## Main results

* `Store.getProposalHead_eq_ok`: at the proposal head there are no new votes
* `Store.onBlock_new_vote`: a node that processes a block has one afterwards
* `own_block_never_processed_alike`: so the two stores differ, for every block
-/

namespace ConsensusClient

/-! ## The two paths -/

section Paths

variable {E : Env} {orders : IterationOrders} {vs : ValidatorService} {store store' : Store}
  {slot proposerIndex : ℕ}
  {calls : List SignCall} {sb : SignedBlockWithAttestation}

/-- A successful proposal: the store of the proposal head, and the block built on it. -/
theorem ValidatorService.buildBlockProposal_eq_ok
    (h : vs.buildBlockProposal E orders store slot proposerIndex = .ok ⟨store', calls, .ok sb⟩) :
    ∃ s₀ built, store.getProposalHead slot = .ok s₀ ∧
      s₀.buildOnHead E orders slot proposerIndex = .ok built ∧ sb.block = built.block ∧
      store' = s₀.insertBlock (built.block.hashTreeRoot E) built.block built.post := by
  obtain ⟨s₀, h₀, hcases⟩ := ValidatorService.buildBlockProposal_cases h
  rcases hcases with ⟨built, hbuilt, hstore, hsigned, -⟩ | ⟨hfailed, -⟩
  · exact ⟨s₀, built, h₀, hbuilt, (ValidatorService.signBlock_eq_ok hsigned).2 sb rfl, hstore⟩
  · exact absurd (congrArg (fun p => p.signed.result) hfailed) (by simp)

/-- The store of the proposal head has no new votes, and no block on its head. -/
theorem Store.getProposalHead_eq_ok (hE : E.HashIdeal) (hkeyed : store.Keyed E)
    (h : store.getProposalHead slot = .ok store') :
    store'.latestNewAttestations = ∅ ∧
      ∀ r block, store'.blocks.lookup r = some block → block.parentRoot ≠ store'.head := by
  obtain ⟨s₁, h₁, h⟩ := bind_eq_ok.mp h
  obtain ⟨head, hhead, rfl⟩ := Store.acceptNewAttestations_eq_ok h
  have hkeyed₁ : s₁.Keyed E := hkeyed.of_blocks_eq (Store.onTick_sameTree h₁).blocks
  have hzero : 0 ∉ s₁.mergeVotes.blocks := hkeyed₁.zero_not_mem hE
  have hleaf := Store.getForkChoiceHead_leaf hzero hhead
  exact ⟨rfl, hleaf⟩

/-- A node that processes a block has a new vote afterwards. -/
theorem Store.onBlock_new_vote {r : Except String (List SignedBlockWithAttestation)}
    (h : store.onBlock E sb = .ok ⟨store', r⟩) (hne : r.toOption.getD [] ≠ []) :
    ∃ v, v ∈ store'.latestNewAttestations := by
  refine (Store.onBlock_induction (Q := fun _ => True)
    (P := fun s processed => processed ≠ [] → ∃ v, v ∈ s.latestNewAttestations)
    (fun _ _ _ hs => hs) ?_ trivial (fun h => absurd rfl h) (fun _ _ => trivial) h).1 hne
  -- the last thing a processed block does is to enter the vote of its proposer
  intro s _ sb s' parent post head _ _ himp _
  refine ⟨sb.message.proposerAttestation.validatorId, AList.mem_iff_exists_lookup.mpr ?_⟩
  have hbook := congrArg VoteBook.new himp.book_eq
  rw [blockEvents, List.foldl_append] at hbook
  have hlookup := lookup_insert_later AttestationData.slot
    ((bodyEvents sb.block).foldl bookStep s.book).new
    sb.message.proposerAttestation.validatorId sb.message.proposerAttestation.validatorId
    sb.message.proposerAttestation.data
  rw [if_pos rfl] at hlookup
  refine ⟨_, (congrArg (AList.lookup _) ?_).trans hlookup⟩
  exact hbook

/-- An unknown block whose parent state accepts it is processed, if the call returns. -/
theorem Store.onBlock_processes {parent post : State}
    (hunknown : sb.block.hashTreeRoot E ∉ store.blocks)
    (hparent : store.states.lookup sb.block.parentRoot = some parent)
    (htrans : parent.stateTransition E sb true = .ok post)
    {r : Except String (List SignedBlockWithAttestation)}
    (h : store.onBlock E sb = .ok ⟨store', r⟩) : r.toOption.getD [] ≠ [] := by
  cases Store.onBlock_delivery h with
  | known hknown => exact absurd hknown hunknown
  | queued hnew hmissing msg =>
    exact absurd (AList.mem_iff_exists_lookup.mpr ⟨parent, hparent⟩) hmissing
  | rejected hnew hreject msg => exact absurd htrans (hreject parent post hparent)
  | imported s₁ _ _ _ f hnew himp hflush => simp [Except.toOption]

/-- The two stores agree on what fork choice and block building read. -/
structure AgreeOn (s s' : Store) : Prop where
  head : s.head = s'.head
  latestJustified : s.latestJustified = s'.latestJustified
  latestFinalized : s.latestFinalized = s'.latestFinalized
  latestKnownAttestations : ∀ v,
    s.latestKnownAttestations.lookup v = s'.latestKnownAttestations.lookup v
  latestNewAttestations : ∀ v,
    s.latestNewAttestations.lookup v = s'.latestNewAttestations.lookup v
  gossipSignatures : ∀ key, s.gossipSignatures.lookup key = s'.gossipSignatures.lookup key
  aggregatedPayloads : ∀ key, s.aggregatedPayloads.lookup key = s'.aggregatedPayloads.lookup key

/-- The store of the proposer after its own block agrees with the store of a node that moved to
    the same proposal head and received the block from a peer. -/
def ProcessedAlike (E : Env) (store : Store) (slot : ℕ) (store₁ : Store)
    (sb : SignedBlockWithAttestation) : Prop :=
  ∃ s₀ own peer, store₁.onBlock E sb = .ok own ∧ store.getProposalHead slot = .ok s₀ ∧
    s₀.onBlock E sb = .ok peer ∧ AgreeOn own.state peer.state

/-- No own block is processed like a foreign one. -/
theorem own_block_never_processed_alike (hE : E.HashIdeal) {init store₁ : Store}
    {ops : List StoreOp} (hreach : ReachedFromAnchor E init ops store)
    (hprop : vs.buildBlockProposal E orders store slot proposerIndex =
      .ok ⟨store₁, calls, .ok sb⟩) :
    ¬ ProcessedAlike E store slot store₁ sb := by
  rintro ⟨s₀, own, ⟨peer, r⟩, hown, h₀, hpeer, agree⟩
  obtain ⟨s₀', built, h₀', hbuilt, hblock, rfl⟩ :=
    ValidatorService.buildBlockProposal_eq_ok hprop
  obtain rfl := Except.ok.inj (h₀.symm.trans h₀')
  have hkeyed := hreach.keyed
  obtain ⟨hempty, hleaf⟩ := Store.getProposalHead_eq_ok hE hkeyed h₀
  obtain ⟨hhead, headState, hstate, htrans⟩ := Store.buildOnHead_transition hbuilt sb hblock
  -- the proposer has stored the block already, so its call changes nothing
  have hmem : sb.block.hashTreeRoot E ∈
      (s₀.insertBlock (built.block.hashTreeRoot E) built.block built.post).blocks := by
    rw [hblock]
    exact (AList.mem_insert s₀.blocks).mpr (Or.inl rfl)
  unfold Store.onBlock at hown
  simp only at hown
  rw [if_pos hmem] at hown
  obtain rfl := Except.ok.inj hown
  -- the block is new to the other node, since nothing stands on the head
  have hunknown : sb.block.hashTreeRoot E ∉ s₀.blocks := by
    intro hknown
    obtain ⟨b, hb⟩ := AList.mem_iff_exists_lookup.mp hknown
    have heq := Block.hashTreeRoot_injective hE ((hkeyed.getProposalHead h₀) _ b hb)
    apply hleaf _ b hb
    rw [heq, hblock, hhead]
  have hprocessed := Store.onBlock_processes hunknown
    (show s₀.states.lookup sb.block.parentRoot = some headState by rw [hblock, hhead]; exact hstate)
    htrans hpeer
  obtain ⟨v, hv⟩ := Store.onBlock_new_vote hpeer hprocessed
  obtain ⟨d, hd⟩ := AList.mem_iff_exists_lookup.mp hv
  -- the vote of a proposer is new there, and nothing is new here
  have hnew := agree.latestNewAttestations v
  rw [show peer.latestNewAttestations.lookup v = some d from hd,
    show (s₀.insertBlock (built.block.hashTreeRoot E) built.block
      built.post).latestNewAttestations = ∅ from hempty] at hnew
  exact absurd hnew (by simp)

end Paths

/-! ## A proposal at slot 2 -/

namespace PairChain

open Sample

def validators : List Validator := [⟨7, 0⟩, ⟨8, 1⟩]

def genesis : State := state validators (header 2 0 0 0 1) ⟨0, 0⟩ ⟨0, 0⟩ [] []

/-- The state after the own block at slot 2. -/
def post2 : State := state validators (header 2 2 1 0 1) ⟨1, 0⟩ ⟨1, 0⟩ [1, 0] [false]

/-- The state after the block of the other validator at slot 1. -/
def post1 : State := state validators (header 2 1 1 0 1) ⟨1, 0⟩ ⟨1, 0⟩ [1] []

/-- The vote for the genesis block at slot 2. -/
def data : AttestationData where
  slot := 2
  head := ⟨1, 0⟩
  target := ⟨1, 0⟩
  source := ⟨1, 0⟩

/-- Roots and state roots are numbered: genesis, the own block, the block of the other. -/
def env : Env := Env.tabulated {
  headers := [header 2 0 0 1 1, header 2 2 1 2 1, header 2 1 1 3 1]
  bodies := [⟨[]⟩]
  datas := [data]
  states := [genesis, post2, post1] }

def init : Store := getForkchoiceStore env genesis (block 2 0 0 1 []) { genesisTime := 0 }

/-- The node runs the first validator. -/
def service : ValidatorService where
  validatorIndices := [0]
  numValidators := 2
  keyManager := some ⟨AList.singleton 0 7⟩

/-- The block that the node proposes at slot 2. -/
def own : SignedBlockWithAttestation where
  message := {
    block := { slot := 2, proposerIndex := 0, parentRoot := 1, stateRoot := 2, body := ⟨[]⟩ }
    proposerAttestation := { validatorId := 0, data } }
  signature := { attestationSignatures := [], proposerSignature := toySignature 7 2 1 }

/-- The store that the proposal leaves behind. -/
def proposed : Store :=
  match service.buildBlockProposal env .lastFirst init 2 0 with
  | .ok p => p.store
  | .error _ => init

theorem proposal_eq :
    service.buildBlockProposal env .lastFirst init 2 0 = .ok ⟨proposed, [⟨0, 2, 1⟩], .ok own⟩ := by
  have hsigned :
      (service.buildBlockProposal env .lastFirst init 2 0).toOption.map (fun p => p.signed) =
      some ⟨[⟨0, 2, 1⟩], .ok own⟩ := by decide +kernel
  unfold proposed
  cases hp : service.buildBlockProposal env .lastFirst init 2 0 with
  | error e =>
    rw [hp] at hsigned
    exact absurd hsigned (by simp [Except.toOption])
  | ok p =>
    rw [hp] at hsigned
    obtain ⟨store, signed⟩ := p
    obtain rfl : signed = _ := Option.some.inj hsigned
    rfl

end PairChain

/-- After the proposal at slot 2, the proposer has no new vote, and a node that receives the
    block has one. -/
theorem own_block_at_slot_two_not_alike :
    PairChain.service.buildBlockProposal PairChain.env .lastFirst PairChain.init 2 0 =
        .ok ⟨PairChain.proposed, [⟨0, 2, 1⟩], .ok PairChain.own⟩ ∧
      ¬ ProcessedAlike PairChain.env PairChain.init 2 PairChain.proposed PairChain.own := by
  refine ⟨PairChain.proposal_eq, ?_⟩
  rintro ⟨s₀, own, peer, hown, h₀, hpeer, agree⟩
  -- the new vote of validator 0 on both sides
  have hown' : (PairChain.proposed.onBlock PairChain.env PairChain.own).toOption.map
      (fun a => a.state.latestNewAttestations.lookup 0) = some none := by decide +kernel
  have hpeer' : (do
      let s ← PairChain.init.getProposalHead 2
      s.onBlock PairChain.env PairChain.own : Res _).toOption.map
      (fun a => a.state.latestNewAttestations.lookup 0) = some (some PairChain.data) := by
    decide +kernel
  rw [hown] at hown'
  rw [h₀, ok_bind, hpeer] at hpeer'
  have hnew := ((Option.some.inj hown').symm.trans (agree.latestNewAttestations 0)).trans
    (Option.some.inj hpeer')
  exact absurd hnew (by simp)

/-- The theorem at the same proposal. -/
theorem own_block_at_slot_two_differs :
    ReachedFromAnchor PairChain.env PairChain.init [] PairChain.init ∧
      ¬ ProcessedAlike PairChain.env PairChain.init 2 PairChain.proposed PairChain.own := by
  have hreach : ReachedFromAnchor PairChain.env PairChain.init [] PairChain.init :=
    ⟨⟨_, _, _, rfl⟩, rfl⟩
  exact ⟨hreach, own_block_never_processed_alike (Env.tabulated_hashIdeal _) hreach
    PairChain.proposal_eq⟩

end ConsensusClient
