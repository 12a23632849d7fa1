import ConsensusClient.Node.ChainTask
import ConsensusClient.Validator.OwnBlocks

/-!
# Imported Blocks

A comment in `process_block_internal` says that the signatures of a block are verified before
`on_block`, and the chain task passes every block it receives to `on_block` at once. So a block
enters the store with whatever signatures it was delivered with. This module follows the blocks
from their delivery, through the queue, into the store: what holds of every block that may be
imported when it is delivered holds of every block that is imported.

## Main results

* `ImportInv.step`: a round of the loop keeps the account of the imported blocks
* `imported_blocks_verified`: deliveries that verify make imports that verify
* `unsigned_block_is_imported`: a block with the zero signature that enters the store
-/

namespace ConsensusClient

/-! ## Delivered blocks -/

/-- Some state accepts the block. -/
def Acceptable (E : Env) (sb : SignedBlockWithAttestation) : Prop :=
  ∃ parent post, State.stateTransition E parent sb true = .ok post

/-- The block is new to the store, and the state of its parent accepts it, or some state does
    while that one is not stored. -/
def Store.MayImport (E : Env) (store : Store) (sb : SignedBlockWithAttestation) : Prop :=
  sb.block.hashTreeRoot E ∉ store.blocks ∧
    ∃ parent post, State.stateTransition E parent sb true = .ok post ∧
      ∀ state, store.states.lookup sb.block.parentRoot = some state → state = parent

/-- Every block that may be imported when it is delivered passes a check. -/
def DeliversChecked (E : Env) (Checked : SignedBlockWithAttestation → Prop) (node : Node) :
    ChainEvent → Prop
  | .message (.processBlock sb _) _ => node.store.MayImport E sb → Checked sb
  | _ => True

section Delivery

variable {E : Env} {store : Store} {sb : SignedBlockWithAttestation}
  {after : After Store (List SignedBlockWithAttestation)}

/-- A block that may not be imported changes nothing, or it waits in the queue for a state that
    does not exist. -/
theorem Store.onBlock_of_not_mayImport (hmay : ¬ store.MayImport E sb)
    (h : store.onBlock E sb = .ok after) :
    (after.state = store ∧ after.result.toOption.getD [] = []) ∨ ¬ Acceptable E sb := by
  cases Store.onBlock_delivery h with
  | known hknown => exact Or.inl ⟨rfl, rfl⟩
  | rejected hnew hreject msg => exact Or.inl ⟨rfl, rfl⟩
  | queued hnew hmissing msg =>
    -- a state that accepts it would allow the import
    right
    rintro ⟨parent, post, hpost⟩
    refine hmay ⟨hnew, parent, post, hpost, fun state hstate => ?_⟩
    exact absurd (AList.mem_iff_exists_lookup.mpr ⟨state, hstate⟩) hmissing
  | imported s₁ parent post head f hnew himp hflush =>
    exact absurd ⟨hnew, parent, post, himp.transition, fun state hstate =>
      Option.some.inj (hstate.symm.trans himp.parent_state)⟩ hmay

end Delivery

/-! ## The log of imported blocks -/

/-- The log accounts for the store: every block in it passed the check and stands on a stored
    state, and every stored block is the anchor, an own block or a block of the log. -/
structure ImportLog (E : Env) (anchor : H256) (Checked : SignedBlockWithAttestation → Prop)
    (node : Node) : Prop where
  checked : ∀ sb ∈ node.imported, Checked sb
  parents : ∀ sb ∈ node.imported, sb.block.parentRoot ∈ node.store.states
  origin : ∀ root ∈ node.store.blocks, root = anchor ∨ root ∈ node.produced ∨
    ∃ sb ∈ node.imported, sb.block.hashTreeRoot E = root

/-- The log accounts for the store, and the queued blocks will pass the check if they are
    imported. -/
structure ImportInv (E : Env) (anchor : H256) (Checked : SignedBlockWithAttestation → Prop)
    (node : Node) : Prop where
  log : ImportLog E anchor Checked node
  queue : ∀ sb ∈ node.store.queued, Acceptable E sb → Checked sb

section Log

variable {E : Env} {vs : Option ValidatorService} {anchor : H256}
  {Checked : SignedBlockWithAttestation → Prop} {node node' : Node}

theorem ImportLog.frame (log : ImportLog E anchor Checked node)
    (hblocks : node'.store.blocks = node.store.blocks)
    (hstates : node'.store.states = node.store.states)
    (himported : node'.imported = node.imported) (hproduced : node'.produced = node.produced) :
    ImportLog E anchor Checked node' where
  checked := by rw [himported]; exact log.checked
  parents := by rw [himported, hstates]; exact log.parents
  origin := by rw [himported, hproduced, hblocks]; exact log.origin

theorem ImportInv.frame (inv : ImportInv E anchor Checked node)
    (htree : SameTree node.store node'.store) (himported : node'.imported = node.imported)
    (hproduced : node'.produced = node.produced) : ImportInv E anchor Checked node' where
  log := inv.log.frame htree.blocks htree.states himported hproduced
  queue := by
    rw [Store.queued_congr htree.blocksQueue]
    exact inv.queue

/-- A block joins the store and the log. -/
theorem ImportLog.imported (log : ImportLog E anchor Checked node)
    {sb : SignedBlockWithAttestation} {store : Store} {parent post : State} {head : H256}
    (hsb : Checked sb)
    (himp : Imported E node.store sb (sb.block.hashTreeRoot E) store parent post head) :
    ImportLog E anchor Checked { node with store, imported := node.imported ++ [sb] } where
  checked := by
    intro b hb
    rcases List.mem_append.mp hb with hb | hb
    · exact log.checked b hb
    · rw [List.mem_singleton.mp hb]
      exact hsb
  parents := by
    intro b hb
    show b.block.parentRoot ∈ store.states
    -- states are added, never removed
    rw [himp.blocks_eq.2, AList.mem_insert]
    right
    rcases List.mem_append.mp hb with hb | hb
    · exact log.parents b hb
    · rw [List.mem_singleton.mp hb]
      exact AList.mem_iff_exists_lookup.mpr ⟨parent, himp.parent_state⟩
  origin := by
    intro root hroot
    have hmem : root ∈ store.blocks := hroot
    rw [himp.blocks_eq.1, AList.mem_insert] at hmem
    rcases hmem with rfl | hmem
    · -- the new root is that of the last block of the log
      exact Or.inr (Or.inr ⟨sb, by simp, rfl⟩)
    · rcases log.origin root hmem with h | h | ⟨b, hb, hroot⟩
      · exact Or.inl h
      · exact Or.inr (Or.inl h)
      · exact Or.inr (Or.inr ⟨b, List.mem_append_left _ hb, hroot⟩)

/-- A block of the own production joins the store. -/
theorem ImportLog.produced (log : ImportLog E anchor Checked node) (block : Block)
    (post : State) :
    ImportLog E anchor Checked { node with
      store := node.store.insertBlock (block.hashTreeRoot E) block post
      produced := node.produced ++ [block.hashTreeRoot E] } where
  checked := log.checked
  parents := fun sb hsb => (AList.mem_insert node.store.states).mpr (Or.inr (log.parents sb hsb))
  origin := by
    intro root hroot
    rcases (AList.mem_insert node.store.blocks).mp hroot with rfl | hmem
    · exact Or.inr (Or.inl (by simp))
    · rcases log.origin root hmem with h | h | h
      · exact Or.inl h
      · exact Or.inr (Or.inl (List.mem_append_left _ h))
      · exact Or.inr (Or.inr h)

/-- `on_block` imports the block it was called for or queued blocks, all of them checked. -/
theorem ImportInv.withBlocks (inv : ImportInv E anchor Checked node)
    {sb : SignedBlockWithAttestation} {after : After Store (List SignedBlockWithAttestation)}
    (hsb : node.store.MayImport E sb → Checked sb) (h : node.store.onBlock E sb = .ok after) :
    ImportInv E anchor Checked (node.withBlocks after) := by
  obtain ⟨store, r⟩ := after
  by_cases hacc : Acceptable E sb → Checked sb
  · -- the block may be treated like one that is queued
    have hinduct := Store.onBlock_induction (E := E)
      (P := fun s processed => ImportLog E anchor Checked
        { node with store := s, imported := node.imported ++ processed })
      (Q := fun b => Acceptable E b → Checked b)
      (fun s processed queue hs => hs.frame rfl rfl rfl rfl) ?_ hacc
      (inv.log.frame rfl rfl (List.append_nil _) rfl) inv.queue h
    · exact ⟨hinduct.1, hinduct.2⟩
    · intro s processed b s' parent post head hb hs himp
      rw [← List.append_assoc]
      exact hs.imported (hb ⟨parent, post, himp.transition⟩) himp
  · -- the block fails the check, so it may not be imported and nothing changes
    have hmay : ¬ node.store.MayImport E sb := fun hmay => hacc fun _ => hsb hmay
    rcases Store.onBlock_of_not_mayImport hmay h with ⟨hstate, hresult⟩ | hnot
    · refine inv.frame (show SameTree node.store store from ?_) ?_ rfl
      · rw [show store = node.store from hstate]
        exact SameTree.refl _
      · show node.imported ++ r.toOption.getD [] = node.imported
        rw [show r.toOption.getD [] = [] from hresult, List.append_nil]
    · exact absurd (fun hyes => absurd hyes hnot) hacc

/-- The roots recorded for a production are those it adds. -/
theorem ImportInv.produce (inv : ImportInv E anchor Checked node) {orders : IterationOrders}
    {slot proposerIndex : ℕ}
    {after : After Store (H256 × Block × List AggregatedSignatureProof)}
    (h : node.store.produceBlockWithSignatures E orders slot proposerIndex = .ok after) :
    ImportInv E anchor Checked { node with
      store := after.state
      produced := node.produced ++ node.store.producedRoot E orders slot proposerIndex } := by
  obtain ⟨s₀, h₀, hcases⟩ := Store.produceBlockWithSignatures_eq_ok h
  have htree := Store.getProposalHead_sameTree h₀
  have inv₀ : ImportInv E anchor Checked { node with store := s₀ } := inv.frame htree rfl rfl
  unfold Store.producedRoot
  rw [h]
  rcases hcases with ⟨built, -, rfl⟩ | ⟨msg, rfl⟩
  · exact ⟨inv₀.log.produced built.block built.post, inv₀.queue⟩
  · exact inv₀.frame (SameTree.refl _) rfl (List.append_nil _)

theorem ImportInv.survives (E : Env) (anchor : H256)
    (Checked : SignedBlockWithAttestation → Prop) : Survives E (ImportInv E anchor Checked) where
  same := by
    intro n n' hn hstore himported hproduced
    refine hn.frame ?_ himported hproduced
    rw [hstore]
    exact SameTree.refl _
  tick := fun n time store hstore hn => hn.frame (Store.onTick_sameTree hstore) rfl rfl
  attestation := fun n sa after hafter hn =>
    hn.frame (Store.onAttestation_frame hafter).1 rfl rfl
  produce := fun n orders slot proposerIndex after hafter hn => hn.produce hafter

/-- A round of the loop keeps the account. -/
theorem ImportInv.step (inv : ImportInv E anchor Checked node) {event : ChainEvent}
    (hevent : DeliversChecked E Checked node event) :
    ImportInv E anchor Checked (node.step E vs event) := by
  refine (ImportInv.survives E anchor Checked).step ?_ inv
  intro sb shouldGossip now store after hev hstore hafter hn
  subst hev
  have htree := Store.onTick_sameTree hstore
  have hn' : ImportInv E anchor Checked { node with store } := hn.frame htree rfl rfl
  refine hn'.withBlocks (fun hmay => hevent ?_) hafter
  -- the tick has changed neither the blocks nor the states
  unfold Store.MayImport at hmay ⊢
  rw [← htree.blocks, ← htree.states]
  exact hmay

theorem ImportInv.start (E : Env) (Checked : SignedBlockWithAttestation → Prop) (state : State)
    (block : SignedBlockWithAttestation) (config : Config) :
    ImportInv E (block.block.hashTreeRoot E) Checked
      (Node.start (getForkchoiceStore E state block config)) where
  log := {
    checked := by simp [Node.start]
    parents := by simp [Node.start]
    origin := by
      intro root hroot
      obtain ⟨b, hb⟩ := AList.mem_iff_exists_lookup.mp hroot
      rw [show (Node.start (getForkchoiceStore E state block config)).store.blocks =
        AList.singleton (block.block.hashTreeRoot E) block.block from rfl,
        AList.lookup_singleton_eq] at hb
      split_ifs at hb with hroot
      exact Or.inl hroot }
  queue := by
    intro sb hsb
    exact absurd hsb (by simp [Store.queued, Node.start, getForkchoiceStore])

end Log

/-! ## Signatures of imported blocks -/

/-- Every block that enters the store from outside carries signatures that verify against the
    state of its parent, if the blocks that may be imported are delivered with signatures that
    verify under the registry of the anchor. -/
theorem imported_blocks_verified {E : Env} {vs : Option ValidatorService} {state : State}
    {block : SignedBlockWithAttestation} {config : Config} {events : List ChainEvent}
    {node : Node}
    (hrun : node = (Node.start (getForkchoiceStore E state block config)).run E vs events)
    (hevents : (Node.start (getForkchoiceStore E state block config)).Always E vs
      (DeliversChecked E fun sb => sb.verifySignatures E state = .ok ()) events) :
    (∀ root ∈ node.store.blocks, root = block.block.hashTreeRoot E ∨ root ∈ node.produced ∨
      ∃ sb ∈ node.imported, sb.block.hashTreeRoot E = root) ∧
    ∀ sb ∈ node.imported, ∃ parent,
      node.store.states.lookup sb.block.parentRoot = some parent ∧
      sb.verifySignatures E parent = .ok () := by
  have inv : ImportInv E (block.block.hashTreeRoot E)
      (fun sb => sb.verifySignatures E state = .ok ()) node := by
    rw [hrun]
    exact Node.run_induction (fun n event hevent hn => hn.step hevent) hevents
      (ImportInv.start E _ state block config)
  refine ⟨inv.log.origin, fun sb hsb => ?_⟩
  obtain ⟨parent, hparent⟩ := AList.mem_iff_exists_lookup.mp (inv.log.parents sb hsb)
  refine ⟨parent, hparent, ?_⟩
  -- verification reads the registry, which all stored states share
  obtain ⟨ops, hreach⟩ := Node.run_reachedFromAnchor E vs state block config events
  have hregistry := (Store.HasRegistry.anchor E state block config).run hreach.run
  rw [← hrun] at hregistry
  rw [SignedBlockWithAttestation.verifySignatures_congr E sb (hregistry _ parent hparent)]
  exact inv.log.checked sb hsb

/-! ## A block of the other validator -/

namespace PairChain

/-- The vote for the genesis block at slot 1. -/
def vote1 : AttestationData where
  slot := 1
  head := ⟨1, 0⟩
  target := ⟨1, 0⟩
  source := ⟨1, 0⟩

/-- The block of the other validator at slot 1, with a signature. -/
def foreign (proposerSignature : Signature) : SignedBlockWithAttestation where
  message := {
    block := { slot := 1, proposerIndex := 1, parentRoot := 1, stateRoot := 3, body := ⟨[]⟩ }
    proposerAttestation := { validatorId := 1, data := vote1 } }
  signature := { attestationSignatures := [], proposerSignature }

/-- The signature of the other validator for its vote. -/
def foreignSignature : Signature := toySignature 8 1 (env.hashData vote1)

/-- The block is delivered a second after its slot has begun. -/
def delivery (proposerSignature : Signature) : List ChainEvent :=
  [.message (.processBlock (foreign proposerSignature) true) 5]

end PairChain

/-- The block delivered with its signature enters the store, verified. -/
theorem signed_block_at_slot_one_verified :
    ∃ node, node = (Node.start PairChain.init).run PairChain.env (some PairChain.service)
        (PairChain.delivery PairChain.foreignSignature) ∧
      node.imported = [PairChain.foreign PairChain.foreignSignature] ∧
      ∀ sb ∈ node.imported, ∃ parent,
        node.store.states.lookup sb.block.parentRoot = some parent ∧
        sb.verifySignatures PairChain.env parent = .ok () := by
  refine ⟨_, rfl, by decide +kernel, ?_⟩
  have hevents : (Node.start PairChain.init).Always PairChain.env (some PairChain.service)
      (DeliversChecked PairChain.env fun sb =>
        sb.verifySignatures PairChain.env PairChain.genesis = .ok ())
      (PairChain.delivery PairChain.foreignSignature) :=
    ⟨fun _ => by decide +kernel, trivial⟩
  exact (imported_blocks_verified rfl hevents).2

/-- The same block delivered with the zero signature enters the store as well. It is neither the
    anchor nor an own block, and its signatures do not verify against the state of its parent. -/
theorem unsigned_block_is_imported :
    ∃ node, node = (Node.start PairChain.init).run PairChain.env (some PairChain.service)
        (PairChain.delivery 0) ∧
      PairChain.foreign 0 ∈ node.imported ∧
      (PairChain.foreign 0).block.hashTreeRoot PairChain.env ∈ node.store.blocks ∧
      node.produced = [] ∧
      (PairChain.foreign 0).block.hashTreeRoot PairChain.env ≠
        (Sample.block 2 0 0 1 []).block.hashTreeRoot PairChain.env ∧
      ¬ ∃ parent,
        node.store.states.lookup (PairChain.foreign 0).block.parentRoot = some parent ∧
        (PairChain.foreign 0).verifySignatures PairChain.env parent = .ok () := by
  refine ⟨_, rfl, by decide +kernel, by decide +kernel, by decide +kernel, by decide +kernel, ?_⟩
  rintro ⟨parent, hparent, hverify⟩
  -- the stored parent state has the registry of the genesis state
  have hvalidators : (((Node.start PairChain.init).run PairChain.env (some PairChain.service)
      (PairChain.delivery 0)).store.states.lookup (PairChain.foreign 0).block.parentRoot).map
      (fun s => s.validators) = some PairChain.validators := by decide +kernel
  rw [hparent] at hvalidators
  rw [SignedBlockWithAttestation.verifySignatures_congr PairChain.env _
    (show parent.validators = PairChain.genesis.validators from Option.some.inj hvalidators)]
    at hverify
  exact absurd hverify (by decide +kernel)

end ConsensusClient
