import ConsensusClient.Lib.VoteSet
import ConsensusClient.Containers.Instance
import ConsensusClient.ForkChoice.Head

/-!
# The Safe Target

`update_safe_target` runs the head rule from the latest justified block over the new votes, with
only the children that two thirds of the validators of the head state voted for. A validator has
one new vote, so the validators behind two siblings are disjoint, and two quorums are not: there
is never a choice to make between children, and the walk follows the chain of the blocks that
have a quorum.

## Main results

* `Store.WellFormed.eligible_unique`: no two siblings have two thirds of the votes
* `safe_target_ends_supermajority_chain`: the safe target, and that ties play no role
-/

namespace ConsensusClient

section Supporters

variable {store : Store} {anchor : H256} {votes : HashMap ℕ AttestationData} {a b : H256}

open Classical in
/-- The validators whose vote is for the block `b` or for a descendant of it. -/
noncomputable def Store.supporters (store : Store) (votes : HashMap ℕ AttestationData)
    (b : H256) : Finset ℕ :=
  ((votes.entries.filter fun e => store.Descends e.2.head.root b).map Sigma.fst).toFinset

theorem Store.mem_supporters {v : ℕ} :
    v ∈ store.supporters votes b ↔
      ∃ data, votes.lookup v = some data ∧ store.Descends data.head.root b := by
  simp only [Store.supporters, List.mem_toFinset, List.mem_map, List.mem_filter,
    decide_eq_true_eq]
  constructor
  · rintro ⟨⟨w, data⟩, ⟨hmem, hdesc⟩, rfl⟩
    exact ⟨data, AList.lookup_eq_some_iff.mpr hmem, hdesc⟩
  · rintro ⟨data, hdata, hdesc⟩
    exact ⟨⟨v, data⟩, ⟨AList.lookup_eq_some_iff.mp hdata, hdesc⟩, rfl⟩

/-- The weight of a block is the number of its supporters: no validator is counted twice. -/
theorem Store.card_supporters : (store.supporters votes b).card = store.weight votes b := by
  unfold Store.supporters Store.weight
  rw [List.toFinset_card_of_nodup, List.length_map, List.countP_eq_length_filter]
  have hnodup : (votes.entries.map Sigma.fst).Nodup := votes.nodupKeys
  exact hnodup.sublist (List.filter_sublist.map _)

/-- Who supports a block supports its ancestors. -/
theorem Store.weight_mono (h : store.Descends a b) :
    store.weight votes a ≤ store.weight votes b := by
  rw [← Store.card_supporters, ← Store.card_supporters]
  apply Finset.card_le_card
  intro v hv
  obtain ⟨data, hdata, hdesc⟩ := Store.mem_supporters.mp hv
  exact Store.mem_supporters.mpr ⟨data, hdata, hdesc.trans h⟩

theorem Store.supporters_subset_range {n : ℕ} (hkeys : ∀ v ∈ votes, v < n) :
    store.supporters votes b ⊆ Finset.range n := by
  intro v hv
  obtain ⟨data, hdata, -⟩ := Store.mem_supporters.mp hv
  exact Finset.mem_range.mpr (hkeys v (AList.mem_iff_exists_lookup.mpr ⟨data, hdata⟩))

theorem Store.WellFormed.acyclic (wf : store.WellFormed anchor) : Acyclic store.parentOf := by
  intro c p hc hcycle
  obtain ⟨block, hblock, rfl⟩ := Store.parentOf_eq_some.mp hc
  by_cases hanchor : c = anchor
  · subst hanchor
    exact Store.not_descends_of_unknown (wf.anchor_parent block hblock) wf.anchor_mem hcycle
  · -- the parent would be after its child
    obtain ⟨parent, hparent, hlt⟩ := wf.parent_mem c block hblock hanchor
    have := wf.slot_le hcycle hparent hblock
    omega

/-- Two blocks on one parent do not both have the votes of two thirds of the validators. -/
theorem Store.WellFormed.eligible_unique (wf : store.WellFormed anchor) {n : ℕ} (hn : 1 ≤ n)
    (hkeys : ∀ v ∈ votes, v < n) {r c d : H256}
    (hc : store.Eligible votes ((n * 2 + 2) / 3) r c)
    (hd : store.Eligible votes ((n * 2 + 2) / 3) r d) : c = d := by
  -- two thirds rounded up, as the code computes it, is a quorum
  have hquorum : ∀ b, (n * 2 + 2) / 3 ≤ store.weight votes b →
      Quorum n (store.supporters votes b) := by
    intro b hb
    unfold Quorum
    rw [Store.card_supporters]
    omega
  have hinter := (hquorum c hc.2).inter (hquorum d hd.2) (Store.supporters_subset_range hkeys)
    (Store.supporters_subset_range hkeys)
  -- a validator behind both has its one vote under both
  have hcard : 0 < (store.supporters votes c ∩ store.supporters votes d).card := by omega
  obtain ⟨v, hv⟩ := Finset.card_pos.mp hcard
  obtain ⟨hvc, hvd⟩ := Finset.mem_inter.mp hv
  obtain ⟨data, hdata, hdesc⟩ := Store.mem_supporters.mp hvc
  obtain ⟨data', hdata', hdesc'⟩ := Store.mem_supporters.mp hvd
  obtain rfl := Option.some.inj (hdata.symm.trans hdata')
  exact wf.acyclic.siblings_eq hc.1 hd.1 hdesc hdesc'

end Supporters

/-! ## The supermajority chain -/

section SafeTarget

variable {store : Store} {anchor : H256} {state : State}

/-- The safe target ends the chain of the quorums: the blocks strictly after the latest
    justified one that at least `⌈2n/3⌉` of the new votes are behind are those on the way from
    there to the safe target. A walk that compares the children by any other key ends there. -/
theorem safe_target_ends_supermajority_chain (wf : store.WellFormed anchor)
    (h0 : store.latestJustified.root ≠ 0) (hroot : store.latestJustified.root ∈ store.blocks)
    (hstate : store.states.lookup store.head = some state) (hn : 1 ≤ state.validators.length)
    (hkeys : ∀ v ∈ store.latestNewAttestations, v < state.validators.length) :
    ∃ safeTarget, store.updateSafeTarget = .ok { store with safeTarget } ∧
      store.Descends safeTarget store.latestJustified.root ∧
      (∀ b, store.Descends b store.latestJustified.root → b ≠ store.latestJustified.root →
        (2 * state.validators.length ≤ 3 * store.weight store.latestNewAttestations b ↔
          store.Descends safeTarget b)) ∧
      ∀ (κ : Type) [LinearOrder κ] (key : H256 → κ) (h : H256),
        GreedyDescent (store.Eligible store.latestNewAttestations
            ((state.validators.length * 2 + 2) / 3)) key store.latestJustified.root h ↔
          h = safeTarget := by
  obtain ⟨safeTarget, hrun, hghost⟩ := wf.exists_head h0 hroot store.latestNewAttestations
    ((state.validators.length * 2 + 2) / 3)
  -- the votes behind a block are behind its ancestors, and behind no sibling of theirs
  have hup : ∀ a b, store.Descends a b →
      (state.validators.length * 2 + 2) / 3 ≤ store.weight store.latestNewAttestations a →
      (state.validators.length * 2 + 2) / 3 ≤ store.weight store.latestNewAttestations b :=
    fun a b hab ha => ha.trans (Store.weight_mono hab)
  have hunique : ∀ r c d,
      store.Eligible store.latestNewAttestations ((state.validators.length * 2 + 2) / 3) r c →
      store.Eligible store.latestNewAttestations ((state.validators.length * 2 + 2) / 3) r d →
      c = d :=
    fun r c d hc hd => wf.eligible_unique hn hkeys hc hd
  refine ⟨safeTarget, ?_, hghost.ancestor_start, fun b hb hne => ?_, fun κ _ key h => ⟨?_, ?_⟩⟩
  · unfold Store.updateSafeTarget
    rw [hstate]
    simp only [hrun, ok_bind, pure_eq_ok]
  · rw [show 2 * state.validators.length ≤ 3 * store.weight store.latestNewAttestations b ↔
      (state.validators.length * 2 + 2) / 3 ≤ store.weight store.latestNewAttestations b by omega]
    exact hghost.heavy_iff wf.acyclic hup hunique hb hne
  · intro hwalk
    exact (hwalk.of_unique_child hunique).unique (store.ghostKey_injective _) hghost
  · rintro rfl
    exact hghost.of_unique_child hunique

end SafeTarget

/-! ## Two of three votes -/

namespace Tie

/-- The head state of the store above, with three validators. -/
def headState : State :=
  Sample.state [⟨0, 0⟩, ⟨1, 1⟩, ⟨2, 2⟩] (Sample.header 3 0 0 0 0) ⟨1, 0⟩ ⟨1, 0⟩ [] []

/-- Two new votes for block 4 and one for block 3. -/
def safeStore : Store :=
  { store with
    states := AList.singleton 1 headState
    latestNewAttestations :=
      ((AList.singleton 0 (vote ⟨4, 2⟩)).insert 1 (vote ⟨3, 2⟩)).insert 2 (vote ⟨4, 2⟩) }

theorem safeStore_wellFormed : safeStore.WellFormed 1 where
  anchor_mem := wellFormed.anchor_mem
  anchor_parent := wellFormed.anchor_parent
  parent_ne_zero := wellFormed.parent_ne_zero
  parent_mem := wellFormed.parent_mem

end Tie

/-- The two votes for block 4 make it the safe target, with block 2 on the way to it. -/
theorem block_four_is_safe :
    Tie.safeStore.updateSafeTarget = .ok { Tie.safeStore with safeTarget := 4 } ∧
      2 * 3 ≤ 3 * Tie.safeStore.weight Tie.safeStore.latestNewAttestations 2 ∧
      ¬ 2 * 3 ≤ 3 * Tie.safeStore.weight Tie.safeStore.latestNewAttestations 3 := by
  have hkeys : ∀ v ∈ Tie.safeStore.latestNewAttestations, v < 3 := by
    intro v hv
    have hall : ∀ v ∈ Tie.safeStore.latestNewAttestations.keys, v < 3 := by decide
    exact hall v (AList.mem_keys.mpr hv)
  obtain ⟨safeTarget, hrun, -, hchain, -⟩ :=
    safe_target_ends_supermajority_chain Tie.safeStore_wellFormed (show 1 ≠ 0 by decide)
      (by decide) (show _ = some Tie.headState from rfl) (by decide) hkeys
  obtain rfl : safeTarget = 4 := by
    have heval : (Tie.safeStore.updateSafeTarget.map fun s => s.safeTarget) = .ok 4 := by
      decide +kernel
    rw [hrun] at heval
    exact Except.ok.inj heval
  -- the parents in the tree
  have h2 : Tie.safeStore.parentOf 2 = some 1 := by decide
  have h3 : Tie.safeStore.parentOf 3 = some 1 := by decide
  have h4 : Tie.safeStore.parentOf 4 = some 2 := by decide
  refine ⟨hrun, (hchain 2 (.single h2) (by decide)).mpr (.single h4), fun hheavy => ?_⟩
  have hdesc := (hchain 3 (.single h3) (by decide)).mp hheavy
  have h1 : Tie.safeStore.parentOf 1 = some 0 := by decide
  have h0 : Tie.safeStore.parentOf 0 = none := by decide
  simp [Store.Descends, ancestor_of_parent h4, ancestor_of_parent h2, ancestor_of_parent h1,
    ancestor_of_no_parent h0] at hdesc

end ConsensusClient
