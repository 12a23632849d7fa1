import ConsensusClient.Containers.VoteLoop

/-!
# The Ledger of Counted Votes

The vote loop stores, for every pending target, a bit vector of the validators that voted for
it, forgets it once the target is justified, and keeps only a window of justification bits. The
ledger forgets nothing: it is the list of all attestations whose votes counted, in order.
`LoopInv` says how the variables of the loop are read off the ledger, and
`LoopInv.processAttestation` that every round keeps this.

The invariant also carries the argument for finality within a block: a link that finalizes has
no justifiable slot inside it, so once some slot is finalized, the next justifiable slot is
justified, and no later link of the block can start below it.

## Main results

* `LoopInv.finalized_le_source`: no link finalizes a source before the finalized slot
* `LoopInv.storeTally`, `LoopInv.justifiedBy`, `LoopInv.markFinalized`: the parts of a round
* `LoopInv.processAttestation`, `LoopInv.foldlM`: rounds and runs of the vote loop
-/

namespace ConsensusClient

/-! ## Voters of a checkpoint -/

/-- The validators with a vote for target `c` in the ledger. -/
def voters (ledger : List AggregatedAttestation) (c : Checkpoint) : Finset ℕ :=
  ((ledger.filter fun a => a.data.target = c).flatMap fun a =>
    AggregationBits.setIndices a.aggregationBits).toFinset

theorem mem_voters {ledger : List AggregatedAttestation} {c : Checkpoint} {v : ℕ} :
    v ∈ voters ledger c ↔
      ∃ a ∈ ledger, a.data.target = c ∧ v ∈ AggregationBits.setIndices a.aggregationBits := by
  simp [voters, and_assoc]

@[simp] theorem voters_nil (c : Checkpoint) : voters [] c = ∅ := rfl

theorem voters_append (ledger ledger' : List AggregatedAttestation) (c : Checkpoint) :
    voters (ledger ++ ledger') c = voters ledger c ∪ voters ledger' c := by
  ext v
  simp only [mem_voters, Finset.mem_union, List.mem_append, or_and_right, exists_or]

theorem voters_singleton (a : AggregatedAttestation) :
    voters [a] a.data.target = (AggregationBits.setIndices a.aggregationBits).toFinset := by
  ext v
  simp [mem_voters]

theorem voters_singleton_of_ne {a : AggregatedAttestation} {c : Checkpoint}
    (h : a.data.target ≠ c) : voters [a] c = ∅ := by
  simp [voters, h]

theorem voters_subset_append (ledger ledger' : List AggregatedAttestation) (c : Checkpoint) :
    voters ledger c ⊆ voters (ledger ++ ledger') c := by
  rw [voters_append]
  exact Finset.subset_union_left

/-! ## The votes a block adds -/

/-- The part of the ledger that a round adds. -/
def State.counted (s : State) (l : VoteLoop) (a : AggregatedAttestation) :
    List AggregatedAttestation :=
  match s.voteCounts l a.data.source a.data.target with
  | .ok true => [a]
  | _ => []

theorem State.counted_of_counts {s : State} {l : VoteLoop} {a : AggregatedAttestation}
    (h : s.Counts l a.data.source a.data.target) : s.counted l a = [a] := by
  rw [State.counted, State.voteCounts_eq_true.mpr h]

theorem State.counted_of_false {s : State} {l : VoteLoop} {a : AggregatedAttestation}
    (h : s.voteCounts l a.data.source a.data.target = .ok false) : s.counted l a = [] := by
  rw [State.counted, h]

/-- The attestations of a run of the vote loop that passed the skip checks when they were
    processed. -/
def State.countedVotes (s : State) : VoteLoop → List AggregatedAttestation →
    List AggregatedAttestation
  | _, [] => []
  | l, a :: rest =>
    match s.processAttestation l a with
    | .ok l' => s.counted l a ++ s.countedVotes l' rest
    | .error _ => []

theorem State.countedVotes_cons {s : State} {l l' : VoteLoop} {a : AggregatedAttestation}
    {rest : List AggregatedAttestation} (h : s.processAttestation l a = .ok l') :
    s.countedVotes l (a :: rest) = s.counted l a ++ s.countedVotes l' rest := by
  rw [State.countedVotes, h]

/-! ## Roots of the chain -/

/-- No block root occurs at two slots; only the zero hash of empty slots repeats. -/
def DistinctRoots (hashes : List H256) : Prop :=
  ∀ (i j : ℕ) (root : H256), root ≠ 0 → hashes[i]? = some root → hashes[j]? = some root → i = j

/-- Every slot of `met` has its root as a key of `m`, and the value of a key is a slot of `met`
    at which that root stands. -/
private structure RecordsSlots (hashes : List H256) (met : List ℕ) (m : HashMap H256 ℕ) :
    Prop where
  sound : ∀ root slot, m.lookup root = some slot → slot ∈ met ∧ hashes.getD slot 0 = root
  complete : ∀ i ∈ met, ∃ slot, m.lookup (hashes.getD i 0) = some slot

private theorem RecordsSlots.step {hashes : List H256} {met : List ℕ} {m : HashMap H256 ℕ}
    (h : RecordsSlots hashes met m) (i : ℕ) :
    RecordsSlots hashes (met ++ [i]) (recordSlot hashes m i) := by
  -- where the slot is recorded, its root is found, and the others as before
  have hins : RecordsSlots hashes (met ++ [i]) (m.insert (hashes.getD i 0) i) := by
    constructor
    · intro root slot hl
      rw [AList.lookup_insert_eq] at hl
      split_ifs at hl with heq
      · obtain rfl := Option.some.inj hl
        exact ⟨by simp, heq.symm⟩
      · obtain ⟨h₁, h₂⟩ := h.sound root slot hl
        exact ⟨List.mem_append_left _ h₁, h₂⟩
    · intro j hj
      rw [AList.lookup_insert_eq]
      split_ifs with heq
      · exact ⟨i, rfl⟩
      · rcases List.mem_append.mp hj with hj | hj
        · exact h.complete j hj
        · obtain rfl := List.mem_singleton.mp hj
          exact absurd rfl heq
  unfold recordSlot
  simp only
  split
  · rename_i slot hslot
    split_ifs
    · exact hins
    · -- the root has a later slot already
      constructor
      · intro root slot hl
        obtain ⟨h₁, h₂⟩ := h.sound root slot hl
        exact ⟨List.mem_append_left _ h₁, h₂⟩
      · intro j hj
        rcases List.mem_append.mp hj with hj | hj
        · exact h.complete j hj
        · obtain rfl := List.mem_singleton.mp hj
          exact ⟨slot, hslot⟩
  · exact hins

private theorem RecordsSlots.foldl {hashes : List H256} (slots : List ℕ) {met : List ℕ}
    {m : HashMap H256 ℕ} (h : RecordsSlots hashes met m) :
    RecordsSlots hashes (met ++ slots) (slots.foldl (recordSlot hashes) m) := by
  induction slots generalizing met m with
  | nil => simpa using h
  | cons i slots ih =>
    rw [List.foldl_cons, show met ++ i :: slots = (met ++ [i]) ++ slots by simp]
    exact ih (h.step i)

/-- A block root after the finalized slot is mapped to its slot. -/
theorem State.lookup_rootToSlot {s : State} (hd : DistinctRoots s.historicalBlockHashes)
    {t : ℕ} {root : H256} (hroot : root ≠ 0) (ht : s.latestFinalized.slot < t)
    (hget : s.historicalBlockHashes[t]? = some root) : s.rootToSlot.lookup root = some t := by
  -- the map records the slots of the history after the finalized one
  have hrec : RecordsSlots s.historicalBlockHashes
      (List.range' (s.latestFinalized.slot + 1)
        (s.historicalBlockHashes.length - (s.latestFinalized.slot + 1))) s.rootToSlot := by
    have hnil : RecordsSlots s.historicalBlockHashes [] ∅ :=
      ⟨fun root slot h => by simp at h, fun i h => by simp at h⟩
    exact hnil.foldl _
  have hlen := (List.getElem?_eq_some_iff.mp hget).1
  have hgetD : s.historicalBlockHashes.getD t 0 = root := by
    rw [List.getD_eq_getElem?_getD, hget]; rfl
  -- the root is mapped to some slot of it, which is the only one with this root
  obtain ⟨slot, hslot⟩ := hrec.complete t (by rw [List.mem_range'_1]; omega)
  rw [hgetD] at hslot
  obtain ⟨hmem, hroot'⟩ := hrec.sound root slot hslot
  rw [List.mem_range'_1] at hmem
  have hslotget : s.historicalBlockHashes[slot]? = some root := by
    have hin : slot < s.historicalBlockHashes.length := by omega
    rw [List.getD_eq_getElem?_getD, List.getElem?_eq_getElem hin] at hroot'
    rw [List.getElem?_eq_getElem hin]
    exact congrArg some hroot'
  rw [hslot, hd slot t root hroot hslotget hget]

/-- An element of a list with one element added at the end is the added one or stands in the
    list before. -/
private theorem snoc_eq_append_cons {α : Type} {xs pre post : List α} {x y : α}
    (h : xs ++ [x] = pre ++ y :: post) :
    (pre = xs ∧ y = x) ∨ ∃ post', xs = pre ++ y :: post' := by
  rcases List.eq_nil_or_concat post with rfl | ⟨post', z, rfl⟩
  · obtain ⟨h₁, h₂⟩ := List.append_inj' h rfl
    exact Or.inl ⟨h₁.symm, (List.singleton_inj.mp h₂).symm⟩
  · rw [List.concat_eq_append, ← List.cons_append, ← List.append_assoc] at h
    exact Or.inr ⟨post', (List.append_inj' h rfl).1⟩

/-! ## The loop invariant -/

/-- The variables of the vote loop are those of a ledger of counted votes on the chain of `s`. -/
structure LoopInv (s : State) (ledger : List AggregatedAttestation) (l : VoteLoop) : Prop where
  /-- The window reaches to the last slot of the history. -/
  window_length : l.latestFinalized.slot + 1 + l.justifiedSlots.length =
    s.historicalBlockHashes.length
  /-- The finalized checkpoint is on the chain. -/
  finalized_on_chain :
    s.historicalBlockHashes[l.latestFinalized.slot]? = some l.latestFinalized.root
  /-- The justified checkpoint is on the chain. -/
  justified_on_chain :
    s.historicalBlockHashes[l.latestJustified.slot]? = some l.latestJustified.root
  /-- A bit is set exactly for the targets with two thirds of the votes. -/
  bit_iff : ∀ t root, l.latestFinalized.slot < t → s.historicalBlockHashes[t]? = some root →
    (l.justifiedSlots.bitAt l.latestFinalized.slot t = some true ↔
      Quorum s.validators.length (voters ledger ⟨root, t⟩))
  /-- A stored tally has the votes of the ledger. -/
  tally_bits : ∀ t root tally, l.latestFinalized.slot < t →
    s.historicalBlockHashes[t]? = some root → l.justifications.lookup root = some tally →
    BitsOf s.validators.length tally (voters ledger ⟨root, t⟩) ∧
      (voters ledger ⟨root, t⟩).Nonempty
  /-- A pending target without a tally has no vote. -/
  tally_none : ∀ t root, l.latestFinalized.slot < t → s.historicalBlockHashes[t]? = some root →
    l.justifiedSlots.bitAt l.latestFinalized.slot t = some false →
    l.justifications.lookup root = none → voters ledger ⟨root, t⟩ = ∅
  /-- The tallies are those of pending targets of the chain. -/
  key_pending : ∀ root ∈ l.justifications, root ≠ 0 ∧ ∃ t, l.latestFinalized.slot < t ∧
    s.historicalBlockHashes[t]? = some root ∧
    l.justifiedSlots.bitAt l.latestFinalized.slot t = some false
  /-- The finalized slot has not moved back since the start of the block. -/
  finalized_le : s.latestFinalized.slot ≤ l.latestFinalized.slot
  /-- If it has moved on, the next slot that this block may justify is justified. -/
  next_justified : s.latestFinalized.slot < l.latestFinalized.slot →
    ∃ t, l.latestFinalized.slot < t ∧
      l.justifiedSlots.bitAt l.latestFinalized.slot t = some true ∧
      justifiableDistance (t - s.latestFinalized.slot) = true ∧
      ∀ x, l.latestFinalized.slot < x → x < t →
        justifiableDistance (x - s.latestFinalized.slot) = false
  /-- The finalized checkpoint had been justified, unless it is the genesis block. -/
  finalized_quorum : l.latestFinalized.slot = 0 ∨
    Quorum s.validators.length (voters ledger l.latestFinalized)
  /-- Counted votes are for blocks of the chain. -/
  target_on_chain : ∀ a ∈ ledger,
    s.historicalBlockHashes[a.data.target.slot]? = some a.data.target.root
  /-- Counted votes are from registered validators. -/
  voter_lt : ∀ a ∈ ledger, ∀ v ∈ AggregationBits.setIndices a.aggregationBits,
    v < s.validators.length
  /-- When a vote was counted, its source was not above all justified slots. -/
  source_justified : ∀ pre a post, ledger = pre ++ a :: post →
    a.data.source.slot < a.data.target.slot ∧
      ∃ c : Checkpoint, a.data.source.slot ≤ c.slot ∧
        s.historicalBlockHashes[c.slot]? = some c.root ∧
        (c.slot = 0 ∨ Quorum s.validators.length (voters pre c))

namespace LoopInv

variable {s : State} {ledger : List AggregatedAttestation} {l l' : VoteLoop}
  {a : AggregatedAttestation} {tally : List Bool}

/-- The voters of a checkpoint are registered. -/
theorem voters_subset (inv : LoopInv s ledger l) (c : Checkpoint) :
    voters ledger c ⊆ Finset.range s.validators.length := by
  intro v hv
  obtain ⟨b, hb, -, hmem⟩ := mem_voters.mp hv
  exact Finset.mem_range.mpr (inv.voter_lt b hb v hmem)

/-- Nobody has voted for a slot after the history. -/
theorem voters_eq_empty (inv : LoopInv s ledger l) {t : ℕ}
    (ht : s.historicalBlockHashes.length ≤ t) (root : H256) : voters ledger ⟨root, t⟩ = ∅ := by
  rw [Finset.eq_empty_iff_forall_notMem]
  intro v hv
  obtain ⟨b, hb, htarget, -⟩ := mem_voters.mp hv
  have hlt := (List.getElem?_eq_some_iff.mp (inv.target_on_chain b hb)).1
  rw [htarget] at hlt
  exact absurd ht (Nat.not_le.mpr hlt)

/-- A justified slot of the window has the votes of two thirds. -/
theorem quorum_of_bit {c : Checkpoint} (inv : LoopInv s ledger l)
    (hc : s.historicalBlockHashes[c.slot]? = some c.root) (hlt : l.latestFinalized.slot < c.slot)
    (hbit : l.justifiedSlots.bitAt l.latestFinalized.slot c.slot = some true) :
    Quorum s.validators.length (voters ledger c) :=
  (inv.bit_iff c.slot c.root hlt hc).mp hbit

/-! ### Finality inside a block -/

/-- A link that finalizes its source does not start below the finalized slot. -/
theorem finalized_le_source (inv : LoopInv s ledger l)
    (hc : s.Counts l a.data.source a.data.target)
    (hd : s.linkIsDirect a.data.source a.data.target = .ok true) :
    l.latestFinalized.slot ≤ a.data.source.slot :=
  hc.finalized_le_source hd inv.finalized_le inv.next_justified

/-! ### Counting a vote -/

/-- The ledger with a counted vote added only changes the voters of its target. -/
theorem voters_snoc_of_ne {c : Checkpoint} (h : a.data.target ≠ c) :
    voters (ledger ++ [a]) c = voters ledger c := by
  rw [voters_append, voters_singleton_of_ne h, Finset.union_empty]

/-- The tally after a round has the votes of the extended ledger for its target. -/
theorem bitsOf_tally (inv : LoopInv s ledger l) (h : s.Tallied l a tally) :
    BitsOf s.validators.length tally (voters (ledger ++ [a]) a.data.target) ∧
      ∀ v ∈ AggregationBits.setIndices a.aggregationBits, v < s.validators.length := by
  have hft : l.latestFinalized.slot < a.data.target.slot :=
    VoteLoop.lt_of_bit_false h.counts.target_unjustified
  have hbefore : BitsOf s.validators.length (s.tallyOf l a.data.target.root)
      (voters ledger a.data.target) := by
    unfold State.tallyOf
    cases hl : l.justifications.lookup a.data.target.root with
    | none =>
      rw [inv.tally_none _ _ hft h.counts.target_on_chain h.counts.target_unjustified hl]
      exact BitsOf.replicate_false _
    | some bits => exact (inv.tally_bits _ _ _ hft h.counts.target_on_chain hl).1
  rw [voters_append, voters_singleton]
  exact castVotes_eq_ok hbefore h.cast

/-- The target of a counted vote has a voter. -/
theorem voters_nonempty (h : s.Tallied l a tally) :
    (voters (ledger ++ [a]) a.data.target).Nonempty := by
  obtain ⟨v, hv⟩ := List.exists_mem_of_ne_nil _ h.nonempty
  exact ⟨v, mem_voters.mpr ⟨a, by simp, rfl, hv⟩⟩

/-- A chain checkpoint other than the target of `a` differs from it in the root and in the
    slot. -/
theorem target_ne (hd : DistinctRoots s.historicalBlockHashes)
    (hc : s.Counts l a.data.source a.data.target) {t : ℕ} {root : H256}
    (hget : s.historicalBlockHashes[t]? = some root) :
    (root = a.data.target.root ↔ t = a.data.target.slot) ∧
      (t ≠ a.data.target.slot → a.data.target ≠ ⟨root, t⟩) := by
  refine ⟨⟨fun h => ?_, fun h => ?_⟩, fun hne heq => hne (by rw [heq])⟩
  · exact hd _ _ _ hc.target_ne_zero (h ▸ hget) hc.target_on_chain
  · rw [h, hc.target_on_chain] at hget
    exact (Option.some.inj hget).symm

/-- A counted vote leaves the voters of the other slots alone. -/
theorem voters_snoc_of_slot_ne (hd : DistinctRoots s.historicalBlockHashes)
    (hc : s.Counts l a.data.source a.data.target) {t : ℕ} {root : H256}
    (hget : s.historicalBlockHashes[t]? = some root) (ht : t ≠ a.data.target.slot) :
    voters (ledger ++ [a]) ⟨root, t⟩ = voters ledger ⟨root, t⟩ :=
  voters_snoc_of_ne ((target_ne hd hc hget).2 ht)

theorem voters_snoc_of_root_ne (hd : DistinctRoots s.historicalBlockHashes)
    (hc : s.Counts l a.data.source a.data.target) {t : ℕ} {root : H256}
    (hget : s.historicalBlockHashes[t]? = some root) (hroot : root ≠ a.data.target.root) :
    voters (ledger ++ [a]) ⟨root, t⟩ = voters ledger ⟨root, t⟩ :=
  voters_snoc_of_slot_ne hd hc hget fun ht => hroot ((target_ne hd hc hget).1.mpr ht)

/-- The parts of the invariant about the ledger alone, after a counted vote. -/
private theorem ledger_snoc (inv : LoopInv s ledger l) (h : s.Tallied l a tally) :
    (∀ b ∈ ledger ++ [a],
      s.historicalBlockHashes[b.data.target.slot]? = some b.data.target.root) ∧
    (∀ b ∈ ledger ++ [a], ∀ v ∈ AggregationBits.setIndices b.aggregationBits,
      v < s.validators.length) ∧
    ∀ pre b post, ledger ++ [a] = pre ++ b :: post →
      b.data.source.slot < b.data.target.slot ∧
        ∃ c : Checkpoint, b.data.source.slot ≤ c.slot ∧
          s.historicalBlockHashes[c.slot]? = some c.root ∧
          (c.slot = 0 ∨ Quorum s.validators.length (voters pre c)) := by
  refine ⟨fun b hb => ?_, fun b hb => ?_, fun pre b post heq => ?_⟩
  · rcases List.mem_append.mp hb with hb | hb
    · exact inv.target_on_chain b hb
    · obtain rfl := List.mem_singleton.mp hb
      exact h.counts.target_on_chain
  · rcases List.mem_append.mp hb with hb | hb
    · exact inv.voter_lt b hb
    · obtain rfl := List.mem_singleton.mp hb
      exact (inv.bitsOf_tally h).2
  · rcases snoc_eq_append_cons heq with ⟨rfl, rfl⟩ | ⟨post', hledger⟩
    · -- the vote is the new one: its source is justified by the ledger so far
      refine ⟨h.counts.source_lt_target, ?_⟩
      rcases Nat.lt_or_ge l.latestFinalized.slot b.data.source.slot with hlt | hge
      · exact ⟨b.data.source, le_rfl, h.counts.source_on_chain,
          Or.inr (inv.quorum_of_bit h.counts.source_on_chain hlt h.counts.source_justified)⟩
      · exact ⟨l.latestFinalized, hge, inv.finalized_on_chain, inv.finalized_quorum⟩
    · exact inv.source_justified pre b post' hledger

/-- Adding votes short of two thirds keeps the invariant. -/
theorem storeTally (inv : LoopInv s ledger l) (hd : DistinctRoots s.historicalBlockHashes)
    (h : s.Tallied l a tally) (hq : ¬ 2 * s.validators.length ≤ 3 * tally.count true) :
    LoopInv s (ledger ++ [a]) (l.storeTally a.data.target.root tally) := by
  obtain ⟨hbits, -⟩ := inv.bitsOf_tally h
  -- the count of the tally is the number of voters
  have hnq : ¬ Quorum s.validators.length (voters (ledger ++ [a]) a.data.target) := by
    unfold Quorum
    rwa [← hbits.count_eq_card]
  obtain ⟨htarget, hvoter, hsource⟩ := inv.ledger_snoc h
  have hft := VoteLoop.lt_of_bit_false h.counts.target_unjustified
  exact {
    window_length := inv.window_length
    finalized_on_chain := inv.finalized_on_chain
    justified_on_chain := inv.justified_on_chain
    bit_iff := by
      -- only the voters of the target change, and they are short of a quorum
      intro t root ht hget
      by_cases hts : t = a.data.target.slot
      · subst hts
        obtain rfl := (target_ne hd h.counts hget).1.mpr rfl
        simp only [VoteLoop.storeTally, h.counts.target_unjustified]
        simpa using hnq
      · rw [voters_snoc_of_slot_ne hd h.counts hget hts]
        exact inv.bit_iff t root ht hget
    tally_bits := by
      intro t root bits ht hget hl
      simp only [VoteLoop.storeTally, AList.lookup_insert_eq] at hl
      split_ifs at hl with hroot
      · -- the tally just stored
        obtain rfl := Option.some.inj hl
        obtain rfl := (target_ne hd h.counts hget).1.mp hroot
        subst hroot
        exact ⟨hbits, voters_nonempty h⟩
      · rw [voters_snoc_of_root_ne hd h.counts hget hroot]
        exact inv.tally_bits t root bits ht hget hl
    tally_none := by
      intro t root ht hget hbit hl
      simp only [VoteLoop.storeTally, AList.lookup_insert_eq] at hl
      split_ifs at hl with hroot
      rw [voters_snoc_of_root_ne hd h.counts hget hroot]
      exact inv.tally_none t root ht hget hbit hl
    key_pending := by
      intro root hroot
      rcases (AList.mem_insert l.justifications).mp hroot with rfl | hroot
      · exact ⟨h.counts.target_ne_zero, _, hft, h.counts.target_on_chain,
          h.counts.target_unjustified⟩
      · exact inv.key_pending root hroot
    finalized_le := inv.finalized_le
    next_justified := inv.next_justified
    finalized_quorum := inv.finalized_quorum.imp_right fun hfin =>
      hfin.mono (voters_subset_append _ _ _)
    target_on_chain := htarget
    voter_lt := hvoter
    source_justified := hsource }

/-- Justifying a target keeps the invariant. -/
theorem justifiedBy (inv : LoopInv s ledger l) (hd : DistinctRoots s.historicalBlockHashes)
    (h : s.Tallied l a tally) (hq : 2 * s.validators.length ≤ 3 * tally.count true)
    {window : JustifiedSlots}
    (hw : l.justifiedSlots.withJustified l.latestFinalized.slot a.data.target.slot true =
      .ok window) :
    LoopInv s (ledger ++ [a]) (l.justifiedBy a tally window) := by
  obtain ⟨hbits, -⟩ := inv.bitsOf_tally h
  have hquorum : Quorum s.validators.length (voters (ledger ++ [a]) a.data.target) := by
    unfold Quorum
    rwa [← hbits.count_eq_card]
  obtain ⟨htarget, hvoter, hsource⟩ := inv.ledger_snoc h
  have hft := VoteLoop.lt_of_bit_false h.counts.target_unjustified
  obtain ⟨hlen, hin, hbit⟩ := JustifiedSlots.withJustified_eq_ok hft hw
  -- the tally of the target is removed once it is justified
  have hlookup : ∀ root, (l.justifiedBy a tally window).justifications.lookup root =
      if root = a.data.target.root then none else l.justifications.lookup root := by
    intro root
    simp only [VoteLoop.justifiedBy, VoteLoop.storeTally, VoteLoop.markJustified,
      AList.lookup_erase_eq, AList.lookup_insert_eq]
    split_ifs <;> rfl
  exact {
    window_length := by
      simp only [VoteLoop.justifiedBy, VoteLoop.storeTally, VoteLoop.markJustified, hlen]
      exact inv.window_length
    finalized_on_chain := inv.finalized_on_chain
    justified_on_chain := h.counts.target_on_chain
    bit_iff := by
      intro t root ht hget
      change window.bitAt l.latestFinalized.slot t = some true ↔ _
      rw [hbit]
      split_ifs with hts
      · -- the new bit stands for the quorum just completed
        subst hts
        obtain rfl := (target_ne hd h.counts hget).1.mpr rfl
        simpa using hquorum
      · rw [voters_snoc_of_slot_ne hd h.counts hget hts]
        exact inv.bit_iff t root ht hget
    tally_bits := by
      intro t root bits ht hget hl
      rw [hlookup] at hl
      split_ifs at hl with hroot
      rw [voters_snoc_of_root_ne hd h.counts hget hroot]
      exact inv.tally_bits t root bits ht hget hl
    tally_none := by
      intro t root ht hget hb hl
      change window.bitAt l.latestFinalized.slot t = some false at hb
      rw [hbit] at hb
      split_ifs at hb with hts
      · simp at hb
      · rw [voters_snoc_of_slot_ne hd h.counts hget hts]
        rw [hlookup, if_neg fun hr => hts ((target_ne hd h.counts hget).1.mp hr)] at hl
        exact inv.tally_none t root ht hget hb hl
    key_pending := by
      intro root hroot
      obtain ⟨bits, hl⟩ := AList.mem_iff_exists_lookup.mp hroot
      rw [hlookup] at hl
      split_ifs at hl with hr
      obtain ⟨hne, t, ht, hget, hb⟩ :=
        inv.key_pending root (AList.mem_iff_exists_lookup.mpr ⟨bits, hl⟩)
      refine ⟨hne, t, ht, hget, ?_⟩
      change window.bitAt l.latestFinalized.slot t = some false
      rw [hbit, if_neg fun hts => hr ((target_ne hd h.counts hget).1.mpr hts)]
      exact hb
    finalized_le := inv.finalized_le
    next_justified := by
      -- a bit that is set stays set
      intro hlt
      obtain ⟨t, ht, hb, hj, hgap⟩ := inv.next_justified hlt
      refine ⟨t, ht, ?_, hj, hgap⟩
      change window.bitAt l.latestFinalized.slot t = some true
      rw [hbit]
      split_ifs
      · rfl
      · exact hb
    finalized_quorum := inv.finalized_quorum.imp_right fun hfin =>
      hfin.mono (voters_subset_append _ _ _)
    target_on_chain := htarget
    voter_lt := hvoter
    source_justified := hsource }

/-- Finalizing a justified checkpoint after the finalized one keeps the invariant, if the next
    slot that this block may justify after it is justified. -/
theorem markFinalized (inv : LoopInv s ledger l) (hd : DistinctRoots s.historicalBlockHashes)
    {source : Checkpoint} {shifted : JustifiedSlots}
    (hsource : s.historicalBlockHashes[source.slot]? = some source.root)
    (hbit : l.justifiedSlots.bitAt l.latestFinalized.slot source.slot = some true)
    (hlt : l.latestFinalized.slot < source.slot)
    (hnext : ∃ t, source.slot < t ∧
      l.justifiedSlots.bitAt l.latestFinalized.slot t = some true ∧
      justifiableDistance (t - s.latestFinalized.slot) = true ∧
      ∀ x, source.slot < x → x < t → justifiableDistance (x - s.latestFinalized.slot) = false)
    (hs : l.justifiedSlots.shiftWindow (source.slot - l.latestFinalized.slot) = .ok shifted) :
    LoopInv s ledger (l.markFinalized shifted source s.rootToSlot) := by
  obtain ⟨hlen, hbits⟩ := JustifiedSlots.shiftWindow_eq_ok (f := l.latestFinalized.slot) hs
  rw [Nat.add_sub_cancel' hlt.le] at hbits
  have hwin := inv.window_length
  have hle := inv.finalized_le
  -- a tally of a later slot survives, since its root is mapped to that slot
  have hkept : ∀ t root bits, source.slot < t → s.historicalBlockHashes[t]? = some root →
      l.justifications.lookup root = some bits →
      (l.markFinalized shifted source s.rootToSlot).justifications.lookup root = some bits := by
    intro t root bits ht hget hl
    have hne := (inv.key_pending root (AList.mem_iff_exists_lookup.mpr ⟨bits, hl⟩)).1
    refine AList.lookup_retain_eq_some.mpr ⟨hl, ?_⟩
    rw [State.lookup_rootToSlot hd hne (by omega) hget]
    simpa using ht
  exact {
    window_length := by
      simp only [VoteLoop.markFinalized]
      omega
    finalized_on_chain := hsource
    justified_on_chain := inv.justified_on_chain
    bit_iff := by
      intro t root ht hget
      change shifted.bitAt source.slot t = some true ↔ _
      rw [hbits t ht]
      exact inv.bit_iff t root (hlt.trans ht) hget
    tally_bits := by
      intro t root bits ht hget hl
      exact inv.tally_bits t root bits (hlt.trans ht) hget (AList.lookup_retain_eq_some.mp hl).1
    tally_none := by
      intro t root ht hget hb hl
      change shifted.bitAt source.slot t = some false at hb
      rw [hbits t ht] at hb
      cases hl' : l.justifications.lookup root with
      | none => exact inv.tally_none t root (hlt.trans ht) hget hb hl'
      | some bits =>
        -- a tally would have been kept
        rw [hkept t root bits ht hget hl'] at hl
        simp at hl
    key_pending := by
      intro root hroot
      obtain ⟨bits, hl, hkeep⟩ := AList.mem_retain.mp hroot
      obtain ⟨hne, t, ht, hget, hb⟩ :=
        inv.key_pending root (AList.mem_iff_exists_lookup.mpr ⟨bits, hl⟩)
      rw [State.lookup_rootToSlot hd hne (by omega) hget] at hkeep
      have hst : source.slot < t := by simpa using hkeep
      refine ⟨hne, t, hst, hget, ?_⟩
      change shifted.bitAt source.slot t = some false
      rw [hbits t hst]
      exact hb
    finalized_le := by
      simp only [VoteLoop.markFinalized]
      omega
    next_justified := by
      intro _
      obtain ⟨t, ht, hb, hj, hgap⟩ := hnext
      refine ⟨t, ht, ?_, hj, hgap⟩
      change shifted.bitAt source.slot t = some true
      rw [hbits t ht]
      exact hb
    finalized_quorum := Or.inr (inv.quorum_of_bit hsource hlt hbit)
    target_on_chain := inv.target_on_chain
    voter_lt := inv.voter_lt
    source_justified := inv.source_justified }

/-- A checkpoint of the chain at the finalized slot is the finalized checkpoint. -/
theorem eq_finalized (inv : LoopInv s ledger l) {c : Checkpoint}
    (hc : s.historicalBlockHashes[c.slot]? = some c.root)
    (hslot : c.slot = l.latestFinalized.slot) : c = l.latestFinalized := by
  rw [hslot, inv.finalized_on_chain] at hc
  exact Checkpoint.ext (Option.some.inj hc).symm hslot

/-! ### Rounds and runs -/

/-- A successful round keeps the invariant, with its counted vote entered into the ledger. -/
theorem processAttestation (inv : LoopInv s ledger l)
    (hd : DistinctRoots s.historicalBlockHashes) (h : s.processAttestation l a = .ok l') :
    LoopInv s (ledger ++ s.counted l a) l' := by
  cases State.processAttestation_round h with
  | skipped hc =>
    rw [State.counted_of_false hc, List.append_nil]
    exact inv
  | tallied tally ht hq =>
    rw [State.counted_of_counts ht.counts]
    exact inv.storeTally hd ht hq
  | justified tally ht hq window hw hdir =>
    rw [State.counted_of_counts ht.counts]
    exact inv.justifiedBy hd ht hq hw
  | refinalized tally ht hq window hw hdir hle =>
    -- the source is the finalized checkpoint itself, so nothing but the target changes
    have hge := inv.finalized_le_source ht.counts hdir
    rw [State.counted_of_counts ht.counts,
      inv.eq_finalized ht.counts.source_on_chain (Nat.le_antisymm hle hge)]
    exact inv.justifiedBy hd ht hq hw
  | finalized tally ht hq window shifted hw hdir hlt hs hroots =>
    rw [State.counted_of_counts ht.counts]
    -- first the target is justified, then the source is finalized
    have hft := VoteLoop.lt_of_bit_false ht.counts.target_unjustified
    obtain ⟨-, -, hbit⟩ := JustifiedSlots.withJustified_eq_ok hft hw
    have hsource_ne : a.data.source.slot ≠ a.data.target.slot :=
      ht.counts.source_lt_target.ne
    refine (inv.justifiedBy hd ht hq hw).markFinalized hd ht.counts.source_on_chain ?_ hlt ?_ hs
    · change window.bitAt l.latestFinalized.slot a.data.source.slot = some true
      rw [hbit, if_neg hsource_ne]
      exact ht.counts.source_justified
    · refine ⟨a.data.target.slot, ht.counts.source_lt_target, ?_, ht.counts.justifiable, ?_⟩
      · change window.bitAt l.latestFinalized.slot a.data.target.slot = some true
        rw [hbit, if_pos rfl]
      · intro x hx hx'
        exact (State.linkIsDirect_eq_true hdir x hx hx').2

/-- A run of the vote loop keeps the invariant, with all its counted votes entered. -/
theorem foldlM (hd : DistinctRoots s.historicalBlockHashes)
    {attestations : List AggregatedAttestation} (inv : LoopInv s ledger l)
    (h : attestations.foldlM s.processAttestation l = .ok l') :
    LoopInv s (ledger ++ s.countedVotes l attestations) l' := by
  induction attestations generalizing ledger l with
  | nil =>
    obtain rfl := Except.ok.inj h
    simpa [State.countedVotes] using inv
  | cons a rest ih =>
    rw [List.foldlM_cons] at h
    obtain ⟨l₁, h₁, h⟩ := bind_eq_ok.mp h
    rw [State.countedVotes_cons h₁, ← List.append_assoc]
    exact ih (inv.processAttestation hd h₁) h

end LoopInv

end ConsensusClient
