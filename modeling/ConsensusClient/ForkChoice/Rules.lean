import ConsensusClient.ForkChoice.Sound

/-!
# The Attestation Rules

A vote may count in the fork choice if its blocks are stored at the slots it names, if its source
is not after its target and if it is not from the future. `validate_attestation_data` checks
this, and once it holds it holds for good, because blocks only grow and time only advances
(`Store.ValidVote.mono`). Votes that come on their own are checked. The votes inside a block go
to `on_attestation_internal` directly, so the rules hold along a run whose blocks carry valid
votes, and a single block can break them.

## Main results

* `Store.validateAttestationData_eq_ok`: the checks are exactly the rules
* `Store.validVote_of_entered`: the votes that a call enters are valid after it
* `votes_follow_attestation_rules`: the rules along runs whose blocks carry valid votes
* `far_vote_breaks_rules`: a vote for slot 1000 in a block at slot 2
-/

namespace ConsensusClient

variable {E : Env} {store store' : Store}

/-! ## The rules -/

/-- The attestation rules. -/
structure Store.ValidVote (store : Store) (data : AttestationData) : Prop where
  source_stored : store.HasCheckpoint data.source
  target_stored : store.HasCheckpoint data.target
  head_stored : data.head.root ∈ store.blocks
  source_le_target : data.source.slot ≤ data.target.slot
  not_future : data.slot ≤ store.time / intervalsPerSlot + 1

/-- Every vote of the two vote maps follows the rules. -/
def Store.VotesFollowRules (store : Store) : Prop :=
  ∀ v data, store.latestKnownAttestations.lookup v = some data ∨
    store.latestNewAttestations.lookup v = some data → store.ValidVote data

/-- The checks are exactly the rules. -/
theorem Store.validateAttestationData_eq_ok {data : AttestationData} :
    store.validateAttestationData data = .ok () ↔ store.ValidVote data := by
  unfold Store.validateAttestationData Store.blockAt
  simp only [bind_eq_ok, ensure_eq_ok, expect_eq_ok]
  constructor
  · rintro ⟨-, -, -, -, -, hhead, -, hle, source, hsource, target, htarget, -, hs, -, ht, hslot⟩
    exact ⟨⟨source, hsource, hs⟩, ⟨target, htarget, ht⟩, hhead, hle, hslot⟩
  · intro h
    obtain ⟨source, hsource, hs⟩ := h.source_stored
    obtain ⟨target, htarget, ht⟩ := h.target_stored
    exact ⟨(), h.source_stored.mem, (), h.target_stored.mem, (), h.head_stored, (),
      h.source_le_target, source, hsource, target, htarget, (), hs, (), ht, h.not_future⟩

/-- Blocks were added and time has passed. -/
structure Store.Advances (store store' : Store) : Prop where
  time_le : store.time ≤ store'.time
  blocks_lookup : ∀ root block, store.blocks.lookup root = some block →
    store'.blocks.lookup root = some block

theorem Store.HasCheckpoint.mono (hadv : store.Advances store') {c : Checkpoint}
    (h : store.HasCheckpoint c) : store'.HasCheckpoint c := by
  obtain ⟨block, hblock, hslot⟩ := h
  exact ⟨block, hadv.blocks_lookup _ _ hblock, hslot⟩

/-- A vote that is valid stays valid. -/
theorem Store.ValidVote.mono (hadv : store.Advances store') {data : AttestationData}
    (h : store.ValidVote data) : store'.ValidVote data where
  source_stored := h.source_stored.mono hadv
  target_stored := h.target_stored.mono hadv
  head_stored := by
    obtain ⟨block, hblock⟩ := AList.mem_iff_exists_lookup.mp h.head_stored
    exact AList.mem_iff_exists_lookup.mpr ⟨block, hadv.blocks_lookup _ _ hblock⟩
  source_le_target := h.source_le_target
  not_future := by
    have hslot := Nat.div_le_div_right (c := intervalsPerSlot) hadv.time_le
    exact h.not_future.trans (Nat.add_le_add_right hslot 1)

theorem Store.apply_advances (hE : E.HashIdeal) (hkeyed : store.Keyed E) {op : StoreOp}
    (h : store.apply E op = .ok store') : store.Advances store' := by
  refine ⟨Store.apply_time_le h, ?_⟩
  have hgrow : store'.Keyed E ∧ ∀ root block, store.blocks.lookup root = some block →
      store'.blocks.lookup root = some block := by
    refine Store.apply_grows (P := fun s => s.Keyed E ∧ ∀ root block,
      store.blocks.lookup root = some block → s.blocks.lookup root = some block) ?_ ?_
      ⟨hkeyed, fun _ _ hblock => hblock⟩ h
    · intro s s' hblocks _ hs
      rw [hblocks]
      exact ⟨hs.1.of_blocks_eq hblocks, hs.2⟩
    · intro s sb parent post _ _ hs
      exact ⟨hs.1.insertBlock sb.block post, fun root block hblock =>
        hs.1.blocks_insert hE (hs.2 root block hblock) sb.block⟩
  exact hgrow.2

/-! ## The votes of a block -/

/-- The votes that a block brings along: those of its body and that of its proposer. -/
def blockVotes (sb : SignedBlockWithAttestation) : List AttestationData :=
  (bodyVotes sb.block).map (fun v => v.2) ++ [sb.message.proposerAttestation.data]

theorem mem_blockVotes_of_entered {sb : SignedBlockWithAttestation} {v : ℕ}
    {data : AttestationData} (h : Entered (blockEvents sb) v data) : data ∈ blockVotes sb := by
  have heq : blockVotes sb = sb.votes.map Prod.snd := by
    simp [blockVotes, SignedBlockWithAttestation.votes]
  rw [heq]
  exact List.mem_map_of_mem (mem_votes_of_entered h)

/-- The store with more blocks in its block map. -/
def Store.withBlocks (E : Env) (store : Store) (sbs : List SignedBlockWithAttestation) : Store :=
  { store with
    blocks := sbs.foldl (fun blocks sb => blocks.insert (sb.block.hashTreeRoot E) sb.block)
      store.blocks }

theorem Store.withBlocks_append (pre post : List SignedBlockWithAttestation) :
    (store.withBlocks E pre).withBlocks E post = store.withBlocks E (pre ++ post) := by
  simp [Store.withBlocks]

theorem Store.Keyed.withBlocks (hE : E.HashIdeal) (hkeyed : store.Keyed E)
    (sbs : List SignedBlockWithAttestation) :
    (store.withBlocks E sbs).Keyed E ∧ store.Advances (store.withBlocks E sbs) := by
  induction sbs generalizing store with
  | nil => exact ⟨hkeyed, le_rfl, fun _ _ h => h⟩
  | cons sb sbs ih =>
    have hfirst : (store.withBlocks E [sb]).Keyed E := hkeyed.insert rfl
    obtain ⟨hrest, hadv⟩ := ih hfirst
    refine ⟨hrest, hadv.time_le, fun root block h => hadv.blocks_lookup root block ?_⟩
    exact hkeyed.blocks_insert hE h sb.block

/-- The block map after `on_block` has the processed blocks in addition. -/
theorem Store.onBlock_blocks {sb : SignedBlockWithAttestation}
    {r : Except String (List SignedBlockWithAttestation)}
    (h : store.onBlock E sb = .ok ⟨store', r⟩) :
    store'.blocks = (store.withBlocks E (r.toOption.getD [])).blocks := by
  refine (Store.onBlock_induction (Q := fun _ => True)
    (P := fun s processed => s.blocks = (store.withBlocks E processed).blocks)
    (fun _ _ _ hs => hs) ?_ trivial rfl (fun _ _ => trivial) h).1
  intro s processed sb s' parent post head _ hs himp
  rw [himp.blocks_eq.1, hs, ← Store.withBlocks_append]
  rfl

/-! ## Runs -/

/-- The votes of every block that is processed in the call pass the checks, in the store right
    after the block is added. -/
def Store.ChecksVotes (E : Env) (store : Store) (op : StoreOp) : Prop :=
  ∀ pre sb post, store.processedBy E op = pre ++ sb :: post → ∀ data ∈ blockVotes sb,
    (store.withBlocks E (pre ++ [sb])).validateAttestationData data = .ok ()

/-- So it is in every call of a sequence. -/
def Store.RunChecksVotes (E : Env) (store : Store) (ops : List StoreOp) : Prop :=
  ∀ pre op post s, ops = pre ++ op :: post → store.run E pre = .ok s → s.ChecksVotes E op

theorem Store.RunChecksVotes.nil : store.RunChecksVotes E [] := by
  intro pre op post s heq
  exact absurd heq (by simp)

theorem Store.RunChecksVotes.cons {op : StoreOp} {rest : List StoreOp}
    (hop : store.ChecksVotes E op)
    (hrest : ∀ s, store.apply E op = .ok s → s.RunChecksVotes E rest) :
    store.RunChecksVotes E (op :: rest) := by
  intro pre op' post s heq hs
  cases pre with
  | nil =>
    obtain ⟨rfl, rfl⟩ := List.cons.inj heq
    obtain rfl := Except.ok.inj hs
    exact hop
  | cons first pre =>
    obtain ⟨rfl, htail⟩ := List.cons.inj heq
    obtain ⟨s₁, h₁, hs⟩ := Store.run_cons hs
    exact hrest s₁ h₁ pre op' post s htail hs

/-- Ticks enter no votes. -/
theorem not_entered_intervalEvents {hasProposal : Bool} {left time v : ℕ}
    {data : AttestationData} : ¬ Entered (intervalEvents hasProposal left time) v data := by
  rintro ⟨agreed, h⟩
  induction left generalizing time with
  | zero => exact absurd h (by simp [intervalEvents])
  | succ left ih =>
    unfold intervalEvents at h
    rcases List.mem_append.mp h with h | h
    · split_ifs at h <;> simp at h
    · exact ih h

/-- A vote that comes on its own is entered only if it passes the checks. -/
theorem Store.validVote_of_attestation {sa : SignedAttestation} {isFromBlock : Bool} {v : ℕ}
    {data : AttestationData}
    (h : Entered (store.eventsOf E (.attestation sa isFromBlock)) v data) :
    store.ValidVote data := by
  obtain ⟨agreed, h⟩ := h
  simp only [Store.eventsOf] at h
  split at h
  · rename_i hvalid
    obtain ⟨rfl, rfl, rfl⟩ := VoteEvent.vote.inj (List.mem_singleton.mp h)
    exact Store.validateAttestationData_eq_ok.mp hvalid
  · exact absurd h (by simp)

/-- The votes of a block that passed the checks are valid when `on_block` returns. -/
theorem Store.validVote_of_block (hE : E.HashIdeal) (hkeyed : store.Keyed E)
    {sb : SignedBlockWithAttestation} {r : Except String (List SignedBlockWithAttestation)}
    (hop : store.ChecksVotes E (.block sb)) (h : store.onBlock E sb = .ok ⟨store', r⟩) {v : ℕ}
    {data : AttestationData} (hentered : Entered (store.eventsOf E (.block sb)) v data) :
    store'.ValidVote data := by
  obtain ⟨agreed, hmem⟩ := hentered
  obtain ⟨b, hb, hmem⟩ := List.mem_flatMap.mp hmem
  obtain ⟨pre, post, hsplit⟩ := List.append_of_mem hb
  have hvalid := hop pre b post hsplit data (mem_blockVotes_of_entered ⟨agreed, hmem⟩)
  -- the blocks processed after this one only add to the block map
  have hrest := ((hkeyed.withBlocks hE (pre ++ [b])).1.withBlocks hE post).2
  rw [Store.withBlocks_append, List.append_assoc, List.singleton_append, ← hsplit,
    Store.processedBy_block h] at hrest
  have hadv : (store.withBlocks E (pre ++ [b])).Advances store' := by
    refine ⟨(Store.onBlock_time h).ge, ?_⟩
    rw [Store.onBlock_blocks h]
    exact hrest.blocks_lookup
  exact (Store.validateAttestationData_eq_ok.mp hvalid).mono hadv

/-- The votes that a call enters are valid after it. -/
theorem Store.validVote_of_entered (hE : E.HashIdeal) (hkeyed : store.Keyed E) {op : StoreOp}
    (hop : store.ChecksVotes E op) (h : store.apply E op = .ok store') {v : ℕ}
    {data : AttestationData} (hentered : Entered (store.eventsOf E op) v data) :
    store'.ValidVote data := by
  have hadv := Store.apply_advances hE hkeyed h
  have hproduce : ∀ {slot validatorIndex orders},
      ¬ Entered (store.eventsOf E (.produce slot validatorIndex orders)) v data := by
    rintro slot validatorIndex orders ⟨agreed, hmem⟩
    rcases List.mem_append.mp hmem with hmem | hmem
    · exact not_entered_intervalEvents ⟨agreed, hmem⟩
    · simp at hmem
  cases Store.apply_step h with
  | tick time hasProposal s hcall => exact absurd hentered not_entered_intervalEvents
  | attestation sa isFromBlock after hcall =>
    exact (Store.validVote_of_attestation hentered).mono hadv
  | gossipAttestation sa after hcall =>
    -- the events are those of an attestation that is not from a block
    have hsame : Entered (store.eventsOf E (.attestation sa false)) v data := hentered
    exact (Store.validVote_of_attestation hsame).mono hadv
  | block sb s r hcall => exact Store.validVote_of_block hE hkeyed hop hcall hentered
  | produced slot validatorIndex orders s₀ built hcall hbuilt => exact absurd hentered hproduce
  | unproduced slot validatorIndex orders s₀ hcall => exact absurd hentered hproduce

/-- A call keeps the rules if the blocks it processes carry valid votes. -/
theorem Store.VotesFollowRules.apply (hE : E.HashIdeal) (hkeyed : store.Keyed E)
    (hrules : store.VotesFollowRules) {op : StoreOp} (hop : store.ChecksVotes E op)
    (h : store.apply E op = .ok store') : store'.VotesFollowRules := by
  intro v data hheld
  have hbook : store'.book.Holds v data := hheld
  rw [Store.apply_book h] at hbook
  rcases VoteBook.holds_foldl hbook with hold | hentered
  · exact (hrules v data hold).mono (Store.apply_advances hE hkeyed h)
  · exact Store.validVote_of_entered hE hkeyed hop h hentered

theorem Store.VotesFollowRules.run (hE : E.HashIdeal) (hkeyed : store.Keyed E)
    (hrules : store.VotesFollowRules) {ops : List StoreOp} (hops : store.RunChecksVotes E ops)
    (h : store.run E ops = .ok store') : store'.VotesFollowRules := by
  refine Store.run_induction ?_ hrules h
  intro pre op post s s' heq hrun hs hop
  exact hs.apply hE (hkeyed.run hrun) (hops pre op post s heq hrun) hop

/-- In a run whose blocks carry valid votes, every vote in the vote maps follows the rules. -/
theorem votes_follow_attestation_rules (hE : E.HashIdeal) {init : Store} {ops : List StoreOp}
    (hreach : ReachedFromAnchor E init ops store) (hops : init.RunChecksVotes E ops) :
    store.VotesFollowRules := by
  obtain ⟨state, anchor, config, rfl⟩ := hreach.anchor
  have hinit : ReachedFromAnchor E (getForkchoiceStore E state anchor config) []
      (getForkchoiceStore E state anchor config) := ⟨⟨state, anchor, config, rfl⟩, rfl⟩
  refine Store.VotesFollowRules.run hE hinit.keyed ?_ hops hreach.run
  -- the vote maps are empty at first
  intro v data hheld
  simp [getForkchoiceStore] at hheld

/-! ## The vote of a proposer -/

namespace SoloChain

/-- The block at slot 2 with this vote of its proposer. -/
def proposal (data : AttestationData) : SignedBlockWithAttestation :=
  { message := { (block 2 1 2 []).message with proposerAttestation := ⟨0, data⟩ }
    signature := { attestationSignatures := [], proposerSignature := 0 } }

/-- The proposer votes for its own block. -/
def ownVote : AttestationData := ⟨2, ⟨2, 2⟩, ⟨2, 2⟩, ⟨1, 0⟩⟩

/-- The same vote for a slot that is far ahead. -/
def farVote : AttestationData := { ownVote with slot := 1000 }

/-- The block comes in its slot. -/
def proposed (data : AttestationData) : List StoreOp := [.tick 8 false, .block (proposal data)]

/-- The store when the block comes. -/
def slotTwo : Store := GenesisVotes.storeAfter [.tick 8 false]

theorem proposal_checked : slotTwo.ChecksVotes env (.block (proposal ownVote)) := by
  have hprocessed : slotTwo.processedBy env (.block (proposal ownVote)) = [proposal ownVote] := by
    decide +kernel
  have hvalid : ∀ data ∈ blockVotes (proposal ownVote),
      (slotTwo.withBlocks env [proposal ownVote]).validateAttestationData data = .ok () := by
    decide +kernel
  intro pre sb post hsplit
  rw [hprocessed] at hsplit
  -- no other block is processed with it
  obtain ⟨rfl, rfl⟩ : pre = [] ∧ sb = proposal ownVote := by
    cases pre with
    | nil => exact ⟨rfl, (List.cons.inj hsplit).1.symm⟩
    | cons b pre => exact absurd (List.cons.inj hsplit).2 (by simp)
  exact hvalid

theorem proposed_checked : GenesisVotes.init.RunChecksVotes env (proposed ownVote) := by
  refine .cons (fun pre sb post hsplit => ?_) fun s hs => ?_
  · exact absurd hsplit (by simp [Store.processedBy])
  · have hslotTwo := (GenesisVotes.reached
      (show (GenesisVotes.init.run env [.tick 8 false]).toOption.isSome = true by
        decide +kernel)).run
    obtain rfl : slotTwo = s := Except.ok.inj (hslotTwo.symm.trans (Store.run_singleton.mpr hs))
    exact .cons proposal_checked fun _ _ => .nil

end SoloChain

/-- After the block at slot 2 the vote of its proposer waits, and it follows the rules. -/
theorem own_vote_follows_rules :
    (GenesisVotes.storeAfter (SoloChain.proposed SoloChain.ownVote)).latestNewAttestations.lookup
        0 = some SoloChain.ownVote ∧
      (GenesisVotes.storeAfter (SoloChain.proposed SoloChain.ownVote)).VotesFollowRules := by
  refine ⟨by decide +kernel, ?_⟩
  exact votes_follow_attestation_rules (Env.tabulated_hashIdeal _)
    (GenesisVotes.reached (by decide +kernel)) SoloChain.proposed_checked

/-- The vote for slot 1000 comes inside a block at slot 2 and enters the vote maps. -/
theorem far_vote_breaks_rules :
    ReachedFromAnchor SoloChain.env GenesisVotes.init (SoloChain.proposed SoloChain.farVote)
        (GenesisVotes.storeAfter (SoloChain.proposed SoloChain.farVote)) ∧
      ¬ (GenesisVotes.storeAfter (SoloChain.proposed SoloChain.farVote)).VotesFollowRules := by
  refine ⟨GenesisVotes.reached (by decide +kernel), fun hrules => ?_⟩
  have hheld : (GenesisVotes.storeAfter
      (SoloChain.proposed SoloChain.farVote)).latestNewAttestations.lookup 0 =
      some SoloChain.farVote := by
    decide +kernel
  have htime : (GenesisVotes.storeAfter (SoloChain.proposed SoloChain.farVote)).time = 8 := by
    decide +kernel
  have hslot := (hrules 0 SoloChain.farVote (Or.inr hheld)).not_future
  rw [htime] at hslot
  exact absurd hslot (by decide)

end ConsensusClient
