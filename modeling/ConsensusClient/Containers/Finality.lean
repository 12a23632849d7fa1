import ConsensusClient.Containers.Chain
import ConsensusClient.Containers.Instance

/-!
# Finality Never Moves Back

On every chain from a genesis state, each block keeps the finalized checkpoint or moves it to a
higher slot that had been justified, and the finalized block stays on the chain. The argument
for a single round is `LoopInv.finalized_le_source`; this module lifts it to blocks and chains.

## Main results

* `LoopInv.finalized_round`, `LoopInv.finalized_run`: what the rounds of a block do to finality
* `finality_never_moves_back`: each block of a chain keeps or advances the finalized checkpoint
-/

namespace ConsensusClient

/-! ## Rounds and runs of one block -/

section OneBlock

variable {s : State} {ledger : List AggregatedAttestation} {l l' : VoteLoop}

/-- A round keeps the finalized checkpoint, or moves it to a higher slot whose bit is set. -/
theorem LoopInv.finalized_round (inv : LoopInv s ledger l) {a : AggregatedAttestation}
    (h : s.processAttestation l a = .ok l') :
    l'.latestFinalized = l.latestFinalized ∨
      (l.latestFinalized.slot < l'.latestFinalized.slot ∧
        l.justifiedSlots.bitAt l.latestFinalized.slot l'.latestFinalized.slot = some true) := by
  cases State.processAttestation_round h with
  | skipped hc => exact Or.inl rfl
  | tallied tally ht hq => exact Or.inl rfl
  | justified tally ht hq window hw hdir => exact Or.inl rfl
  | refinalized tally ht hq window hw hdir hle =>
    -- the source is at the finalized slot, so it is the finalized checkpoint
    have hge := inv.finalized_le_source ht.counts hdir
    exact Or.inl (inv.eq_finalized ht.counts.source_on_chain (Nat.le_antisymm hle hge))
  | finalized tally ht hq window shifted hw hdir hlt hs hroots =>
    exact Or.inr ⟨hlt, ht.counts.source_justified⟩

/-- No round moves the finalized slot back. -/
theorem LoopInv.finalized_mono (inv : LoopInv s ledger l) {a : AggregatedAttestation}
    (h : s.processAttestation l a = .ok l') :
    l.latestFinalized.slot ≤ l'.latestFinalized.slot := by
  rcases inv.finalized_round h with heq | ⟨hlt, -⟩
  · rw [heq]
  · exact hlt.le

/-- A run of the vote loop keeps the finalized checkpoint, or some round of it moved it to its
    final place, a slot whose bit was set. -/
theorem LoopInv.finalized_run (hd : DistinctRoots s.historicalBlockHashes)
    {attestations : List AggregatedAttestation} (inv : LoopInv s ledger l)
    (h : attestations.foldlM s.processAttestation l = .ok l') :
    l'.latestFinalized = l.latestFinalized ∨
      ∃ pre a post l₁, attestations = pre ++ a :: post ∧
        pre.foldlM s.processAttestation l = .ok l₁ ∧
        l₁.latestFinalized.slot < l'.latestFinalized.slot ∧
        l₁.justifiedSlots.bitAt l₁.latestFinalized.slot l'.latestFinalized.slot = some true := by
  induction attestations generalizing ledger l with
  | nil =>
    obtain rfl := Except.ok.inj h
    exact Or.inl rfl
  | cons a rest ih =>
    rw [List.foldlM_cons] at h
    obtain ⟨l₁, h₁, h⟩ := bind_eq_ok.mp h
    rcases ih (inv.processAttestation hd h₁) h with heq | ⟨pre, b, post, l₂, hsplit, hpre, hrest⟩
    · -- the rest of the run keeps it, so the first round decides
      rcases inv.finalized_round h₁ with heq₁ | hmoved
      · exact Or.inl (heq.trans heq₁)
      · rw [← heq] at hmoved
        exact Or.inr ⟨[], a, rest, l, rfl, rfl, hmoved⟩
    · -- a later round moved it
      refine Or.inr ⟨a :: pre, b, post, l₂, by rw [hsplit]; rfl, ?_, hrest⟩
      rw [List.foldlM_cons]
      exact bind_eq_ok.mpr ⟨l₁, h₁, hpre⟩

end OneBlock

/-! ## Blocks of a chain -/

section Chain

variable {E : Env} {g s s' : State} {blocks : List SignedBlockWithAttestation}
  {sb : SignedBlockWithAttestation}

/-- A chain of at least one block ends in a state with a block after the genesis slot. -/
theorem State.runChain_slot_ne_zero (hE : E.HashIdeal) {ledger : List AggregatedAttestation}
    (inv : ChainInv E s ledger) (hne : blocks ≠ []) (h : s.runChain E blocks = .ok s') :
    s'.latestBlockHeader.slot ≠ 0 := by
  obtain ⟨front, last, rfl⟩ := List.eq_nil_or_concat blocks |>.resolve_left hne
  rw [List.concat_eq_append, State.runChain_append] at h
  obtain ⟨s₁, h₁, h⟩ := bind_eq_ok.mp h
  obtain ⟨s₂, h₂, h⟩ := State.runChain_cons h
  obtain rfl := Except.ok.inj h
  obtain ⟨l, l', step⟩ := State.stateTransition_step hE (inv.runChain hE h₁).unsealed h₂
  rw [step.result]
  exact Nat.ne_zero_of_lt step.slot_lt

/-- The finalized slot at the start of the votes of a block is the one of the parent state. -/
theorem ChainInv.finalized_beforeVotes {ledger : List AggregatedAttestation}
    (inv : ChainInv E s ledger) (block : Block) :
    (s.beforeVotes E block).latestFinalized.slot = s.latestFinalized.slot := by
  by_cases h0 : s.latestBlockHeader.slot = 0
  · rw [(inv.fresh h0).1.finalized_slot]
    simp [State.beforeVotes, State.withHeader, State.advanced, State.sealedHeader, h0]
  · simp [State.beforeVotes, State.withHeader, State.advanced, State.sealedHeader, h0]

/-- What a block may do to the finalized checkpoint of a chain. -/
structure FinalityKept (E : Env) (g : State) (blocks : List SignedBlockWithAttestation)
    (s : State) (sb : SignedBlockWithAttestation) (s' : State) : Prop where
  /-- The finalized slot does not decrease. -/
  slot_le : s.latestFinalized.slot ≤ s'.latestFinalized.slot
  /-- The finalized checkpoint is on the chain. -/
  on_chain : s'.historicalBlockHashes[s'.latestFinalized.slot]? = some s'.latestFinalized.root
  /-- The history only grows. -/
  history_prefix : s.historicalBlockHashes <+: s'.historicalBlockHashes
  /-- The previous finalized checkpoint, once set by the first block, is on the chain. -/
  still_on_chain : blocks ≠ [] →
    s'.historicalBlockHashes[s.latestFinalized.slot]? = some s.latestFinalized.root
  /-- A newly finalized slot had its justification bit set before, above the slot that was
      finalized then, and has the votes of two thirds of the validators on the chain. -/
  had_been_justified : s'.latestFinalized.slot ≠ s.latestFinalized.slot →
    (∃ pre a post l, sb.block.body.attestations = pre ++ a :: post ∧
      s.loopAfter E sb.block pre = .ok l ∧
      l.latestFinalized.slot < s'.latestFinalized.slot ∧
      l.justifiedSlots.isSlotJustified l.latestFinalized.slot s'.latestFinalized.slot =
        .ok true) ∧
    Quorum s.validators.length (voters (g.chainVotes E (blocks ++ [sb])) s'.latestFinalized)
  /-- In no round of the vote loop the finalized slot moves back. -/
  never_back : ∀ pre a post l l', sb.block.body.attestations = pre ++ a :: post →
    s.loopAfter E sb.block pre = .ok l → s.loopAfter E sb.block (pre ++ [a]) = .ok l' →
    l.latestFinalized.slot ≤ l'.latestFinalized.slot

/-- Every prefix of the votes of an accepted block is processed from the same start. -/
theorem BlockStep.loopAfter_eq (hE : E.HashIdeal) {l l' : VoteLoop}
    (hu : s.latestBlockHeader.stateRoot = 0) (hs : s.stateTransition E sb true = .ok s')
    (step : BlockStep E s sb.block s' l l') (done : List AggregatedAttestation) :
    s.loopAfter E sb.block done =
      done.foldlM (s.beforeVotes E sb.block).processAttestation l := by
  obtain ⟨s₁, s₂, h₁, h₂, -⟩ := State.stateTransition_eq_ok hs
  obtain ⟨rfl, -⟩ := State.header_eq_ok hE hu h₁ h₂
  unfold State.loopAfter
  rw [h₁, ok_bind, h₂, ok_bind, step.start, ok_bind]

/-- Finality never moves back: every block accepted on a chain from genesis keeps the finalized
    checkpoint on the chain, and moves it only upwards, to a justified slot. -/
theorem finality_never_moves_back (hE : E.HashIdeal)
    (hreach : ReachedFromGenesis E g blocks s) (hs : s.stateTransition E sb true = .ok s') :
    FinalityKept E g blocks s sb s' := by
  have inv := hreach.chainInv hE
  obtain ⟨l, l', step⟩ := State.stateTransition_step hE inv.unsealed hs
  obtain ⟨l₀, h₀, linv₀⟩ := inv.loopInv_beforeVotes hE step.slot_lt
  obtain rfl := Except.ok.inj (step.start.symm.trans h₀)
  have hd := (inv.chainRoots_beforeVotes sb.block).distinctRoots hE
  have linv := inv.loopInv_end hE hs step
  -- the post-state takes its checkpoints from the loop, and its history from the header
  have hfin : s'.latestFinalized = l'.latestFinalized := by rw [step.result]; rfl
  have hhist : s'.historicalBlockHashes = (s.beforeVotes E sb.block).historicalBlockHashes := by
    rw [step.result]; rfl
  have hstart : l.latestFinalized.slot = s.latestFinalized.slot := by
    obtain ⟨-, m, -, rfl⟩ := State.voteLoop_eq_ok.mp step.start
    exact inv.finalized_beforeVotes sb.block
  have hle : s.latestFinalized.slot ≤ s'.latestFinalized.slot := by
    rw [hfin, ← inv.finalized_beforeVotes sb.block]
    exact linv.finalized_le
  have hprefix : s.historicalBlockHashes <+: s'.historicalBlockHashes := by
    rw [hhist, State.history_beforeVotes]
    exact List.prefix_append _ _
  exact {
    slot_le := hle
    on_chain := by
      rw [hfin, hhist]
      exact linv.finalized_on_chain
    history_prefix := hprefix
    still_on_chain := by
      -- the parent is settled, and the history has only grown
      intro hne
      obtain ⟨time, validators, hn, hg⟩ := hreach.genesis
      have h0 := State.runChain_slot_ne_zero hE (ChainInv.genesis hn hg) hne hreach.run
      obtain ⟨lp, hlp, linvp⟩ := inv.settled h0
      obtain ⟨-, m, -, rfl⟩ := State.voteLoop_eq_ok.mp hlp
      rw [hhist]
      exact State.getElem?_beforeVotes linvp.finalized_on_chain
    had_been_justified := by
      intro hchanged
      constructor
      · -- some round moved it, to a slot with its bit set
        rcases linv₀.finalized_run hd step.run with
          heq | ⟨pre, a, post, l₁, hsplit, hpre, hlt, hbit⟩
        · rw [hfin, heq, hstart] at hchanged
          exact absurd rfl hchanged
        · refine ⟨pre, a, post, l₁, hsplit, ?_, ?_, ?_⟩
          · rw [step.loopAfter_eq hE inv.unsealed hs]
            exact hpre
          · rw [hfin]
            exact hlt
          · rw [hfin]
            exact JustifiedSlots.isSlotJustified_eq_ok.mpr hbit
      · -- and the whole chain has the votes of two thirds for it
        rw [State.chainVotes_append hreach.run, State.chainVotes_cons hs, State.chainVotes,
          List.append_nil, hfin]
        refine linv.finalized_quorum.resolve_left fun h0 => hchanged ?_
        rw [hfin, h0]
        rw [hfin, h0] at hle
        omega
    never_back := by
      -- the two prefixes differ by one round
      intro pre a post l₁ l₂ hsplit h₁ h₂
      rw [step.loopAfter_eq hE inv.unsealed hs] at h₁ h₂
      rw [List.foldlM_append, h₁, ok_bind, List.foldlM_cons] at h₂
      obtain ⟨l₃, h₃, h₂⟩ := bind_eq_ok.mp h₂
      obtain rfl := Except.ok.inj h₂
      exact (linv₀.foldlM hd h₁).finalized_mono h₃ }

end Chain

/-! ## A chain with one validator -/

namespace SoloChain

/-- A vote of the only validator. -/
def vote (source target : Checkpoint) : AggregatedAttestation where
  aggregationBits := [true]
  data := { slot := 4, head := target, target, source }

/-- The header of the block at `slot`. -/
def header (slot parentRoot stateRoot bodyRoot : ℕ) : BlockHeader where
  slot := slot
  proposerIndex := 0
  parentRoot := parentRoot
  stateRoot := stateRoot
  bodyRoot := bodyRoot

/-- A state with the given header and justification data. -/
def state (header : BlockHeader) (justified finalized : Checkpoint) (hashes : List H256)
    (bits : List Bool) : State where
  config := { genesisTime := 0 }
  slot := header.slot
  latestBlockHeader := header
  latestJustified := justified
  latestFinalized := finalized
  historicalBlockHashes := hashes
  justifiedSlots := bits
  validators := [{ pubkey := 7, index := 0 }]
  justificationsRoots := []
  justificationsValidators := []

/-- The votes of the block at slot 4: one link over the empty slot 1, and one to the next slot. -/
def links : List AggregatedAttestation := [vote ⟨1, 0⟩ ⟨2, 2⟩, vote ⟨2, 2⟩ ⟨3, 3⟩]

def genesis : State := state (header 0 0 0 1) ⟨0, 0⟩ ⟨0, 0⟩ [] []

def state2 : State := state (header 2 1 0 1) ⟨1, 0⟩ ⟨1, 0⟩ [1, 0] [false]

def state3 : State := state (header 3 2 0 1) ⟨1, 0⟩ ⟨1, 0⟩ [1, 0, 2] [false, false]

def state4 : State := state (header 4 3 0 2) ⟨3, 3⟩ ⟨2, 2⟩ [1, 0, 2, 3] [true]

/-- Hashes of the containers of the chain: roots and state roots are numbered in chain order. -/
def env : Env := Env.tabulated {
  headers := [header 0 0 1 1, header 2 1 2 1, header 3 2 3 1, header 4 3 4 2]
  bodies := [⟨[]⟩, ⟨links⟩]
  datas := []
  states := [genesis, state2, state3, state4] }

/-- The signed block at `slot`; nothing in the state transition reads its signatures. -/
def block (slot parentRoot stateRoot : ℕ) (attestations : List AggregatedAttestation) :
    SignedBlockWithAttestation where
  message := {
    block := { slot, proposerIndex := 0, parentRoot, stateRoot, body := { attestations } }
    proposerAttestation := { validatorId := 0, data := ⟨slot, ⟨0, 0⟩, ⟨0, 0⟩, ⟨0, 0⟩⟩ } }
  signature := { attestationSignatures := [], proposerSignature := 0 }

theorem reached_state3 :
    ReachedFromGenesis env genesis [block 2 1 2 [], block 3 2 3 []] state3 where
  genesis := ⟨0, [{ pubkey := 7, index := 0 }], by simp, rfl⟩
  run := by decide +kernel

theorem transition_state4 :
    state3.stateTransition env (block 4 3 4 links) true = .ok state4 := by
  decide +kernel

end SoloChain

/-- On the chain with one validator, the block at slot 4 finalizes slot 2. -/
theorem finality_moves_to_slot_two :
    SoloChain.state3.latestFinalized.slot = 0 ∧ SoloChain.state4.latestFinalized.slot = 2 ∧
      FinalityKept SoloChain.env SoloChain.genesis
        [SoloChain.block 2 1 2 [], SoloChain.block 3 2 3 []] SoloChain.state3
        (SoloChain.block 4 3 4 SoloChain.links) SoloChain.state4 :=
  ⟨rfl, rfl, finality_never_moves_back (Env.tabulated_hashIdeal _) SoloChain.reached_state3
    SoloChain.transition_state4⟩

end ConsensusClient
