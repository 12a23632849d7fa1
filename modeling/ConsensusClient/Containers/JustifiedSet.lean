import ConsensusClient.Containers.History

/-!
# The Set of Justified Slots

What the sliding window of justification bits stands for: the set of all slots that were ever
justified on the chain. The window grows with every block, loses its front when the finalized
slot moves on, also in the middle of the vote loop, and its bits are numbered from the slot after
the finalized one. `JustifiedSlots.Tracks` relates it to the set, each operation of the window
keeps the relation, and so the window of every state of a chain is the part of the set after the
finalized slot.

The latest justified checkpoint is another matter. It is overwritten by whatever target is
justified last, so it is the highest one only as long as the targets of a chain are justified in
the order of their slots.

## Main results

* `JustifiedSlots.Tracks.extendToSlot`, `withJustified`, `shiftWindow`: the three operations
* `JustifiedInv.windowInv`, `JustifiedInv.stateTransition`, `JustifiedInv.runChain`: the window at
  the start of a block, after it and along a chain
* `window_refines_justified_set`: what every query of the window returns, by absolute slot
-/

namespace ConsensusClient

/-! ## The window as a set -/

namespace JustifiedSlots

/-- The window `js` after slot `f` has the bits of the slots of `J` from there up to `h`. -/
structure Tracks (js : JustifiedSlots) (f h : ℕ) (J : Set ℕ) : Prop where
  length_eq : f + 1 + js.length = h
  bit_iff : ∀ t, f < t → t < h → (js.bitAt f t = some true ↔ t ∈ J)

variable {js js' : JustifiedSlots} {f h : ℕ} {J : Set ℕ}

/-- The bit of every slot of the window is known. -/
theorem Tracks.bitAt_eq [DecidablePred (· ∈ J)] (ht : js.Tracks f h J) {t : ℕ} (hlo : f < t)
    (hhi : t < h) : js.bitAt f t = some (decide (t ∈ J)) := by
  obtain ⟨b, hb⟩ : ∃ b, js.bitAt f t = some b := exists_bitAt (by rw [ht.length_eq]; exact hhi)
  have hiff := ht.bit_iff t hlo hhi
  rw [hb] at hiff ⊢
  cases b with
  | true => simp [hiff.mp rfl]
  | false => simpa using hiff

/-- Extending the window adds slots outside the set. -/
theorem Tracks.extendToSlot (ht : js.Tracks f h J) {h' : ℕ} (hle : h ≤ h')
    (hJ : ∀ t ∈ J, t < h) : (js.extendToSlot f (h' - 1)).Tracks f h' J := by
  have hlen := ht.length_eq
  have hbit := fun u => extendToSlot_bitAt js (f := f) (t := h' - 1) u (by omega)
  refine ⟨by rw [(hbit 0).1]; omega, fun t hlo hhi => ?_⟩
  rw [(hbit t).2]
  split_ifs with hold hnew
  · exact ht.bit_iff t hlo (by omega)
  · simp only [Option.some.injEq, Bool.false_eq_true, false_iff]
    intro hmem
    have := hJ t hmem
    omega
  · omega

/-- Setting the bit of a slot of the window inserts the slot. -/
theorem Tracks.withJustified (ht : js.Tracks f h J) {t : ℕ} (hlo : f < t)
    (hw : js.withJustified f t true = .ok js') : js'.Tracks f h (insert t J) := by
  obtain ⟨hlen, -, hbit⟩ := withJustified_eq_ok hlo hw
  refine ⟨by rw [hlen]; exact ht.length_eq, fun u hu hu' => ?_⟩
  rw [hbit, Set.mem_insert_iff]
  split_ifs with hut
  · simp [hut]
  · rw [ht.bit_iff u hu hu']
    simp [hut]

/-- Shifting the window forgets the slots up to the new start, and nothing else. -/
theorem Tracks.shiftWindow (ht : js.Tracks f h J) {d : ℕ} (hs : js.shiftWindow d = .ok js') :
    js'.Tracks (f + d) h J := by
  obtain ⟨hlen, hbit⟩ := shiftWindow_eq_ok (f := f) hs
  refine ⟨by rw [← ht.length_eq, ← hlen]; ring, fun t hlo hhi => ?_⟩
  rw [hbit t hlo]
  exact ht.bit_iff t (by omega) hhi

end JustifiedSlots

/-! ## The slots that are justified -/

/-- The target slot of `a`, if its round completes two thirds for the target. -/
def State.newlyJustified (s : State) (l : VoteLoop) (a : AggregatedAttestation) : List ℕ :=
  match s.voteCounts l a.data.source a.data.target,
      castVotes (s.tallyOf l a.data.target.root)
        (AggregationBits.setIndices a.aggregationBits) with
  | .ok true, .ok tally =>
    if 2 * s.validators.length ≤ 3 * tally.count true then [a.data.target.slot] else []
  | _, _ => []

/-- The slots that a run of the vote loop justifies, in order. -/
def State.loopJustified (s : State) : VoteLoop → List AggregatedAttestation → List ℕ
  | _, [] => []
  | l, a :: rest =>
    match s.processAttestation l a with
    | .ok l' => s.newlyJustified l a ++ s.loopJustified l' rest
    | .error _ => []

/-- The slots that a block justifies, in order. -/
def State.blockJustified (E : Env) (s : State) (block : Block) : List ℕ :=
  match (do
    let s ← s.processSlots E block.slot
    let s ← s.processBlockHeader E block
    let l ← s.voteLoop
    pure (s.loopJustified l block.body.attestations) : Res (List ℕ)) with
  | .ok slots => slots
  | .error _ => []

/-- All slots that were justified along a chain, in order. -/
def State.chainJustified (E : Env) (s : State) : List SignedBlockWithAttestation → List ℕ
  | [] => []
  | sb :: rest =>
    match s.stateTransition E sb true with
    | .ok s' => s.blockJustified E sb.block ++ s'.chainJustified E rest
    | .error _ => []

theorem State.newlyJustified_of_false {s : State} {l : VoteLoop} {a : AggregatedAttestation}
    (h : s.voteCounts l a.data.source a.data.target = .ok false) : s.newlyJustified l a = [] := by
  rw [State.newlyJustified, h]

theorem State.newlyJustified_of_tallied {s : State} {l : VoteLoop} {a : AggregatedAttestation}
    {tally : List Bool} (h : s.Tallied l a tally) :
    s.newlyJustified l a =
      if 2 * s.validators.length ≤ 3 * tally.count true then [a.data.target.slot] else [] := by
  rw [State.newlyJustified, State.voteCounts_eq_true.mpr h.counts, h.cast]

theorem State.loopJustified_cons {s : State} {l l' : VoteLoop} {a : AggregatedAttestation}
    {rest : List AggregatedAttestation} (h : s.processAttestation l a = .ok l') :
    s.loopJustified l (a :: rest) = s.newlyJustified l a ++ s.loopJustified l' rest := by
  rw [State.loopJustified, h]

theorem State.chainJustified_cons {E : Env} {s s' : State} {sb : SignedBlockWithAttestation}
    {rest : List SignedBlockWithAttestation} (h : s.stateTransition E sb true = .ok s') :
    s.chainJustified E (sb :: rest) = s.blockJustified E sb.block ++ s'.chainJustified E rest := by
  rw [State.chainJustified, h]

/-! ## The vote loop -/

/-- The window of the vote loop tracks the slots justified so far. The last two parts are what
    keeps the finalized slot from moving back. -/
structure WindowInv (s : State) (justified : List ℕ) (l : VoteLoop) : Prop where
  tracks : l.justifiedSlots.Tracks l.latestFinalized.slot s.historicalBlockHashes.length
    {t | t ∈ justified}
  before : ∀ t ∈ justified, t < s.historicalBlockHashes.length
  finalized_le : s.latestFinalized.slot ≤ l.latestFinalized.slot
  next_justified : s.latestFinalized.slot < l.latestFinalized.slot →
    ∃ t, l.latestFinalized.slot < t ∧
      l.justifiedSlots.bitAt l.latestFinalized.slot t = some true ∧
      justifiableDistance (t - s.latestFinalized.slot) = true ∧
      ∀ x, l.latestFinalized.slot < x → x < t →
        justifiableDistance (x - s.latestFinalized.slot) = false

namespace WindowInv

variable {s : State} {justified : List ℕ} {l l' : VoteLoop} {a : AggregatedAttestation}
  {tally : List Bool} {window : JustifiedSlots}

/-- Justifying a target inserts its slot. -/
theorem justifiedBy (inv : WindowInv s justified l) (h : s.Tallied l a tally)
    (hw : l.justifiedSlots.withJustified l.latestFinalized.slot a.data.target.slot true =
      .ok window) :
    WindowInv s (justified ++ [a.data.target.slot]) (l.justifiedBy a tally window) := by
  have hft := VoteLoop.lt_of_bit_false h.counts.target_unjustified
  obtain ⟨-, -, hbit⟩ := JustifiedSlots.withJustified_eq_ok hft hw
  have hset : {t | t ∈ justified ++ [a.data.target.slot]} =
      insert a.data.target.slot {t | t ∈ justified} := by
    ext t
    simp [or_comm]
  exact {
    tracks := by
      rw [hset]
      exact inv.tracks.withJustified hft hw
    before := by
      intro t ht
      rcases List.mem_append.mp ht with ht | ht
      · exact inv.before t ht
      · rw [List.mem_singleton.mp ht]
        exact (List.getElem?_eq_some_iff.mp h.counts.target_on_chain).1
    finalized_le := inv.finalized_le
    next_justified := by
      -- a bit that is set stays set
      intro hlt
      obtain ⟨t, ht, hb, hj, hgap⟩ := inv.next_justified hlt
      refine ⟨t, ht, ?_, hj, hgap⟩
      change window.bitAt l.latestFinalized.slot t = some true
      rw [hbit]
      split_ifs
      · rfl
      · exact hb }

/-- Finalizing a later slot shifts the window to it, if the next slot that this block may
    justify after it is justified. -/
theorem markFinalized (inv : WindowInv s justified l) {source : Checkpoint}
    {shifted : JustifiedSlots} {rootToSlot : HashMap H256 ℕ}
    (hlt : l.latestFinalized.slot < source.slot)
    (hnext : ∃ t, source.slot < t ∧
      l.justifiedSlots.bitAt l.latestFinalized.slot t = some true ∧
      justifiableDistance (t - s.latestFinalized.slot) = true ∧
      ∀ x, source.slot < x → x < t → justifiableDistance (x - s.latestFinalized.slot) = false)
    (hs : l.justifiedSlots.shiftWindow (source.slot - l.latestFinalized.slot) = .ok shifted) :
    WindowInv s justified (l.markFinalized shifted source rootToSlot) := by
  have htracks := inv.tracks.shiftWindow hs
  obtain ⟨-, hbits⟩ := JustifiedSlots.shiftWindow_eq_ok (f := l.latestFinalized.slot) hs
  rw [Nat.add_sub_cancel' hlt.le] at htracks hbits
  exact {
    tracks := htracks
    before := inv.before
    finalized_le := inv.finalized_le.trans hlt.le
    next_justified := by
      intro _
      obtain ⟨t, ht, hb, hj, hgap⟩ := hnext
      refine ⟨t, ht, ?_, hj, hgap⟩
      change shifted.bitAt source.slot t = some true
      rw [hbits t ht]
      exact hb }

/-- A round justifies at most its target. -/
theorem processAttestation (inv : WindowInv s justified l)
    (h : s.processAttestation l a = .ok l') :
    WindowInv s (justified ++ s.newlyJustified l a) l' := by
  cases State.processAttestation_round h with
  | skipped hc =>
    rw [State.newlyJustified_of_false hc, List.append_nil]
    exact inv
  | tallied tally ht hq =>
    rw [State.newlyJustified_of_tallied ht, if_neg hq, List.append_nil]
    exact ⟨inv.tracks, inv.before, inv.finalized_le, inv.next_justified⟩
  | justified tally ht hq window hw hdir =>
    rw [State.newlyJustified_of_tallied ht, if_pos hq]
    exact inv.justifiedBy ht hw
  | refinalized tally ht hq window hw hdir hle =>
    -- the source is at the finalized slot, so the window stays where it is
    have hge := ht.counts.finalized_le_source hdir inv.finalized_le inv.next_justified
    have heq : a.data.source.slot = l.latestFinalized.slot := Nat.le_antisymm hle hge
    rw [State.newlyJustified_of_tallied ht, if_pos hq]
    have inv' := inv.justifiedBy ht hw
    constructor
    · show window.Tracks a.data.source.slot _ _
      rw [heq]
      exact inv'.tracks
    · exact inv'.before
    · show s.latestFinalized.slot ≤ a.data.source.slot
      rw [heq]
      exact inv'.finalized_le
    · show s.latestFinalized.slot < a.data.source.slot → _
      simp only [heq]
      exact inv'.next_justified
  | finalized tally ht hq window shifted hw hdir hlt hs hroots =>
    rw [State.newlyJustified_of_tallied ht, if_pos hq]
    have hft := VoteLoop.lt_of_bit_false ht.counts.target_unjustified
    obtain ⟨-, -, hbit⟩ := JustifiedSlots.withJustified_eq_ok hft hw
    refine (inv.justifiedBy ht hw).markFinalized hlt ?_ hs
    -- no slot inside the link is justifiable, so its target is the next one
    refine ⟨a.data.target.slot, ht.counts.source_lt_target, ?_, ht.counts.justifiable, ?_⟩
    · change window.bitAt l.latestFinalized.slot a.data.target.slot = some true
      rw [hbit, if_pos rfl]
    · intro x hx hx'
      exact (State.linkIsDirect_eq_true hdir x hx hx').2

/-- The window tracks the justified slots through a whole run of the vote loop. -/
theorem foldlM {attestations : List AggregatedAttestation} (inv : WindowInv s justified l)
    (h : attestations.foldlM s.processAttestation l = .ok l') :
    WindowInv s (justified ++ s.loopJustified l attestations) l' := by
  induction attestations generalizing justified l with
  | nil =>
    obtain rfl := Except.ok.inj h
    simpa [State.loopJustified] using inv
  | cons a rest ih =>
    rw [List.foldlM_cons] at h
    obtain ⟨l₁, h₁, h⟩ := bind_eq_ok.mp h
    rw [State.loopJustified_cons h₁, ← List.append_assoc]
    exact ih (inv.processAttestation h₁) h

end WindowInv

/-! ## Chains -/

/-- The state on which the votes of a block are counted. -/
def State.votingState (E : Env) (s : State) (block : Block) : Res State := do
  let s ← s.processSlots E block.slot
  s.processBlockHeader E block

/-- The window of a state tracks the slots justified on its chain. Before the first block it
    stands right after the genesis slot. -/
structure JustifiedInv (s : State) (justified : List ℕ) : Prop where
  history_length : s.historicalBlockHashes.length = s.latestBlockHeader.slot
  fresh : s.latestBlockHeader.slot = 0 →
    s.latestFinalized.slot = 0 ∧ s.latestJustified.slot = 0
  tracks : s.justifiedSlots.Tracks s.latestFinalized.slot (max s.latestBlockHeader.slot 1)
    {t | t ∈ justified}
  before : ∀ t ∈ justified, t < max s.latestBlockHeader.slot 1

section Chain

variable {E : Env} {g s s' v : State} {justified : List ℕ} {block : Block}
  {blocks : List SignedBlockWithAttestation} {sb : SignedBlockWithAttestation} {l : VoteLoop}

/-- A successful transition counts its votes on the voting state. -/
theorem State.stateTransition_votes (h : s.stateTransition E sb true = .ok s') :
    ∃ v l l', s.votingState E sb.block = .ok v ∧ v.voteLoop = .ok l ∧
      sb.block.body.attestations.foldlM v.processAttestation l = .ok l' ∧
      s' = v.withVotes l' ∧
      s.blockJustified E sb.block = v.loopJustified l sb.block.body.attestations := by
  obtain ⟨s₁, v, h₁, h₂, -, hvotes, -⟩ := State.stateTransition_eq_ok h
  obtain ⟨l, l', hl, hrun, hresult⟩ := State.processAttestations_eq_ok hvotes
  refine ⟨v, l, l', bind_eq_ok.mpr ⟨s₁, h₁, h₂⟩, hl, hrun, hresult, ?_⟩
  unfold State.blockJustified
  rw [h₁, ok_bind, h₂, ok_bind, hl, ok_bind, pure_eq_ok]

/-- What slot and header processing leave for the votes. -/
structure VotesOn (s : State) (block : Block) (v : State) : Prop where
  slot_lt : s.latestBlockHeader.slot < block.slot
  header_slot : v.latestBlockHeader.slot = block.slot
  history_length : v.historicalBlockHashes.length =
    s.historicalBlockHashes.length + (block.slot - s.latestBlockHeader.slot)
  window_eq : v.justifiedSlots =
    s.justifiedSlots.extendToSlot s.latestFinalized.slot (block.slot - 1)
  finalized_slot : v.latestFinalized.slot =
    if s.latestBlockHeader.slot = 0 then 0 else s.latestFinalized.slot
  justified_slot : v.latestJustified.slot =
    if s.latestBlockHeader.slot = 0 then 0 else s.latestJustified.slot

theorem State.votingState_eq_ok (h : s.votingState E block = .ok v) : VotesOn s block v := by
  obtain ⟨s₁, h₁, h₂⟩ := bind_eq_ok.mp h
  obtain ⟨-, header, hslot, rfl⟩ := State.processSlots_frame h₁
  obtain ⟨rfl, hs, hlt, -⟩ := State.processBlockHeader_eq_ok h₂
  -- slots and header leave the votes alone, so the fields can be read off
  simp only at hs hlt
  rw [hslot] at hlt
  exact {
    slot_lt := hlt
    header_slot := rfl
    history_length := by
      simp only [State.withHeader, hslot, List.length_append, List.length_cons,
        List.length_replicate]
      omega
    window_eq := rfl
    finalized_slot := by
      simp only [State.withHeader, hslot]
      split_ifs <;> rfl
    justified_slot := by
      simp only [State.withHeader, hslot]
      split_ifs <;> rfl }

namespace JustifiedInv

theorem finalized_votes (inv : JustifiedInv s justified) (h : VotesOn s block v) :
    v.latestFinalized.slot = s.latestFinalized.slot := by
  rw [h.finalized_slot]
  split_ifs with h0
  · exact (inv.fresh h0).1.symm
  · rfl

/-- The vote loop of a block starts with the window extended to the slot before the block. -/
theorem windowInv (inv : JustifiedInv s justified) (h : VotesOn s block v)
    (hl : v.voteLoop = .ok l) : WindowInv v justified l := by
  obtain ⟨-, m, -, rfl⟩ := State.voteLoop_eq_ok.mp hl
  have hlt := h.slot_lt
  have hlen : v.historicalBlockHashes.length = block.slot := by
    rw [h.history_length, inv.history_length]
    omega
  constructor
  · show v.justifiedSlots.Tracks v.latestFinalized.slot _ _
    rw [h.window_eq, inv.finalized_votes h, hlen]
    exact inv.tracks.extendToSlot (by omega) inv.before
  · intro t ht
    have := inv.before t ht
    omega
  · exact le_refl _
  · intro hlt'
    exact absurd hlt' (lt_irrefl _)

/-- An accepted block adds the slots it justifies. -/
theorem stateTransition (inv : JustifiedInv s justified)
    (h : s.stateTransition E sb true = .ok s') :
    JustifiedInv s' (justified ++ s.blockJustified E sb.block) := by
  obtain ⟨v, l, l', hv, hl, hrun, rfl, hjust⟩ := State.stateTransition_votes h
  have hvotes := State.votingState_eq_ok hv
  have winv := (inv.windowInv hvotes hl).foldlM hrun
  rw [← hjust] at winv
  -- the history now ends right before the slot of the block
  have hlen : v.historicalBlockHashes.length = sb.block.slot := by
    rw [hvotes.history_length, inv.history_length]
    have := hvotes.slot_lt
    omega
  have hmax : max sb.block.slot 1 = sb.block.slot :=
    Nat.max_eq_left (Nat.one_le_of_lt hvotes.slot_lt)
  have hslot : (v.withVotes l').latestBlockHeader.slot = sb.block.slot := hvotes.header_slot
  exact {
    history_length := hlen.trans hslot.symm
    fresh := by
      intro h0
      rw [hslot] at h0
      exact absurd h0 (Nat.ne_zero_of_lt hvotes.slot_lt)
    tracks := by
      rw [hslot, hmax, ← hlen]
      exact winv.tracks
    before := by
      rw [hslot, hmax, ← hlen]
      exact winv.before }

theorem genesis {time : ℕ} {validators : List Validator}
    (h : generateGenesisWithValidators E time validators = .ok g) : JustifiedInv g [] := by
  obtain ⟨-, rfl⟩ := generateGenesisWithValidators_eq_ok h
  exact {
    history_length := rfl
    fresh := fun _ => ⟨rfl, rfl⟩
    tracks := ⟨rfl, fun t hlo hhi => absurd hhi (by simp only at hlo ⊢; omega)⟩
    before := fun t ht => absurd ht (by simp) }

/-- The window tracks the justified slots through a whole chain. -/
theorem runChain (inv : JustifiedInv s justified) (h : s.runChain E blocks = .ok s') :
    JustifiedInv s' (justified ++ s.chainJustified E blocks) := by
  induction blocks generalizing s justified with
  | nil =>
    obtain rfl := Except.ok.inj h
    simpa [State.chainJustified] using inv
  | cons sb rest ih =>
    obtain ⟨s₁, h₁, h⟩ := State.runChain_cons h
    rw [State.chainJustified_cons h₁, ← List.append_assoc]
    exact ih (inv.stateTransition h₁) h

end JustifiedInv

/-- The window of a chain refines the set of all slots justified on it: it covers the slots
    between the finalized slot and the latest block, in which it has exactly the justified
    ones. -/
theorem window_refines_justified_set {time : ℕ} {validators : List Validator}
    (hg : generateGenesisWithValidators E time validators = .ok g) (hne : blocks ≠ [])
    (hrun : g.runChain E blocks = .ok s) :
    s.latestFinalized.slot < s.latestBlockHeader.slot ∧
    s.justifiedSlots.length = s.latestBlockHeader.slot - 1 - s.latestFinalized.slot ∧
    (∀ t ≤ s.latestFinalized.slot,
      s.justifiedSlots.isSlotJustified s.latestFinalized.slot t = .ok true) ∧
    (∀ t, s.latestFinalized.slot < t → t < s.latestBlockHeader.slot →
      s.justifiedSlots.isSlotJustified s.latestFinalized.slot t =
        .ok (decide (t ∈ g.chainJustified E blocks))) ∧
    ∀ t, s.latestBlockHeader.slot ≤ t → ∃ msg,
      s.justifiedSlots.isSlotJustified s.latestFinalized.slot t = .error (.err msg) := by
  have inv := (JustifiedInv.genesis hg).runChain hrun
  rw [List.nil_append] at inv
  -- the last block is after the genesis slot
  have hslot : 1 ≤ s.latestBlockHeader.slot := by
    obtain ⟨front, last, rfl⟩ := List.eq_nil_or_concat blocks |>.resolve_left hne
    rw [List.concat_eq_append, State.runChain_append] at hrun
    obtain ⟨s₁, -, hrun⟩ := bind_eq_ok.mp hrun
    obtain ⟨s₂, h₂, hrun⟩ := State.runChain_cons hrun
    obtain rfl := Except.ok.inj hrun
    obtain ⟨v, l, l', hv, -, -, rfl, -⟩ := State.stateTransition_votes h₂
    have hvotes := State.votingState_eq_ok hv
    have hlt := hvotes.slot_lt
    rw [show (v.withVotes l').latestBlockHeader.slot = _ from hvotes.header_slot]
    omega
  have htracks := inv.tracks
  rw [Nat.max_eq_left hslot] at htracks
  have hlen := htracks.length_eq
  refine ⟨by omega, by omega, fun t ht => ?_, fun t hlo hhi => ?_, fun t ht => ?_⟩
  · exact JustifiedSlots.isSlotJustified_eq_ok.mpr (JustifiedSlots.bitAt_of_le ht)
  · exact JustifiedSlots.isSlotJustified_eq_ok.mpr (htracks.bitAt_eq hlo hhi)
  · -- past the window there is no bit to read
    rcases JustifiedSlots.returns_isSlotJustified s.justifiedSlots s.latestFinalized.slot t with
      ⟨b, hb⟩ | herr
    · rw [JustifiedSlots.isSlotJustified_eq_ok,
        JustifiedSlots.bitAt_eq_none.mpr (by omega)] at hb
      simp at hb
    · exact herr

end Chain

/-- On the chain with one validator, slots 2 and 3 are justified; after slot 2 is finalized the
    window starts with slot 3. -/
theorem solo_window_tracks_slot_three :
    SoloChain.genesis.chainJustified SoloChain.env [SoloChain.block 2 1 2 [],
        SoloChain.block 3 2 3 [], SoloChain.block 4 3 4 SoloChain.links] = [2, 3] ∧
      SoloChain.state4.justifiedSlots.isSlotJustified 2 3 = .ok true := by
  have hrun : SoloChain.genesis.runChain SoloChain.env [SoloChain.block 2 1 2 [],
      SoloChain.block 3 2 3 [], SoloChain.block 4 3 4 SoloChain.links] = .ok SoloChain.state4 := by
    decide +kernel
  have hslots : SoloChain.genesis.chainJustified SoloChain.env [SoloChain.block 2 1 2 [],
      SoloChain.block 3 2 3 [], SoloChain.block 4 3 4 SoloChain.links] = [2, 3] := by
    decide +kernel
  obtain ⟨-, -, -, hbits, -⟩ := window_refines_justified_set
    (show generateGenesisWithValidators SoloChain.env 0 [{ pubkey := 7, index := 0 }] =
      .ok SoloChain.genesis from rfl) (by simp) hrun
  refine ⟨hslots, (hbits 3 (by decide) (by decide)).trans ?_⟩
  rw [hslots]
  rfl

end ConsensusClient
