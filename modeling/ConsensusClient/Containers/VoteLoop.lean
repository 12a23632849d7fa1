import ConsensusClient.Lib.VoteSet
import ConsensusClient.Containers.Window

/-!
# One Round of the Vote Loop

What a single attestation can do to the variables of the vote loop: each function of a round
has one lemma that says exactly when it succeeds and with what, and
`State.processAttestation_cases` puts them together. Later modules never unfold a round again.

## Main results

* `State.voteCounts_eq_true`: the skip checks decide `State.Counts`
* `State.linkIsDirect_of_le`, `State.linkIsDirect_of_stale`: when the scan between source and
  target returns
* `State.processAttestation_round`: a successful round is one of the steps of `State.Round`
-/

namespace ConsensusClient

/-! ## The skip checks -/

/-- The vote passes all skip checks of the vote loop. -/
structure State.Counts (s : State) (l : VoteLoop) (source target : Checkpoint) : Prop where
  source_justified : l.justifiedSlots.bitAt l.latestFinalized.slot source.slot = some true
  target_unjustified : l.justifiedSlots.bitAt l.latestFinalized.slot target.slot = some false
  source_ne_zero : source.root ≠ 0
  target_ne_zero : target.root ≠ 0
  source_on_chain : s.historicalBlockHashes[source.slot]? = some source.root
  target_on_chain : s.historicalBlockHashes[target.slot]? = some target.root
  source_lt_target : source.slot < target.slot
  finalized_le_target : s.latestFinalized.slot ≤ target.slot
  justifiable : justifiableDistance (target.slot - s.latestFinalized.slot) = true

/-- `voteCounts` decides `Counts`. -/
theorem State.voteCounts_eq_true {s : State} {l : VoteLoop} {source target : Checkpoint} :
    s.voteCounts l source target = .ok true ↔ s.Counts l source target := by
  unfold State.voteCounts
  constructor
  · intro h
    simp only [bind_eq_ok, skip_eq_true, JustifiedSlots.isSlotJustified_eq_ok, okOr_eq_ok] at h
    obtain ⟨b₁, h₁, hb₁, b₂, h₂, hb₂, hz, r₁, h₃, hr₁, r₂, h₄, hr₂, hlt, hj⟩ := h
    obtain ⟨hle, hj⟩ := isJustifiableAfter_eq_ok.mp hj
    -- each skip check is negated in what is left
    rw [Bool.not_eq_false] at hb₁
    rw [Bool.not_eq_true] at hb₂
    rw [ne_eq, not_not] at hr₁ hr₂
    push Not at hz
    exact {
      source_justified := hb₁ ▸ h₁
      target_unjustified := hb₂ ▸ h₂
      source_ne_zero := hz.1
      target_ne_zero := hz.2
      source_on_chain := hr₁ ▸ h₃
      target_on_chain := hr₂ ▸ h₄
      source_lt_target := Nat.lt_of_not_le hlt
      finalized_le_target := hle
      justifiable := hj.symm }
  · -- conversely the checks are passed one after the other
    intro h
    rw [JustifiedSlots.isSlotJustified_eq_ok.mpr h.source_justified, ok_bind,
      JustifiedSlots.isSlotJustified_eq_ok.mpr h.target_unjustified]
    simp only [ok_bind, h.source_on_chain, h.target_on_chain, okOr]
    rw [if_neg (by simp), if_neg (by simp),
      if_neg (by simp [h.source_ne_zero, h.target_ne_zero]), if_neg (by simp), if_neg (by simp),
      if_neg (Nat.not_le.mpr h.source_lt_target), isJustifiableAfter_of_le h.finalized_le_target,
      h.justifiable]

/-- The skip checks of a vote cannot panic, as long as the finalized slot has not moved below
    the one at the start of the block. -/
theorem State.returns_voteCounts {s : State} {l : VoteLoop} {source target : Checkpoint}
    (hle : s.latestFinalized.slot ≤ l.latestFinalized.slot) :
    (s.voteCounts l source target).Returns := by
  unfold State.voteCounts
  refine returns_bind (JustifiedSlots.returns_isSlotJustified _ _ _) fun b₁ _ => ?_
  refine returns_ite (fun _ => returns_ok false) fun _ => ?_
  refine returns_bind (JustifiedSlots.returns_isSlotJustified _ _ _) fun b₂ h₂ => ?_
  refine returns_ite (fun _ => returns_ok false) fun hb₂ => ?_
  refine returns_ite (fun _ => returns_ok false) fun _ => ?_
  refine returns_bind (returns_okOr _ _) fun r₁ _ => ?_
  refine returns_ite (fun _ => returns_ok false) fun _ => ?_
  refine returns_bind (returns_okOr _ _) fun r₂ _ => ?_
  refine returns_ite (fun _ => returns_ok false) fun _ => ?_
  refine returns_ite (fun _ => returns_ok false) fun _ => ?_
  -- an unjustified target lies after the finalized slot, so the assertion holds
  have hlt : l.latestFinalized.slot < target.slot := by
    by_contra hge
    rw [JustifiedSlots.isSlotJustified_eq_ok, JustifiedSlots.bitAt_of_le (by omega)] at h₂
    exact hb₂ (Option.some.inj h₂).symm
  rw [isJustifiableAfter_of_le (by omega)]
  exact returns_ok _

/-! ## Tallying -/

/-- Casting votes into a bit vector adds the voters to the set it represents. -/
theorem castVotes_eq_ok {n : ℕ} {tally tally' : List Bool} {V : Finset ℕ} {ids : List ℕ}
    (hV : BitsOf n tally V) (h : castVotes tally ids = .ok tally') :
    BitsOf n tally' (V ∪ ids.toFinset) ∧ ∀ v ∈ ids, v < n := by
  induction ids generalizing tally V with
  | nil =>
    obtain rfl := Except.ok.inj h
    simpa using hV
  | cons v ids ih =>
    unfold castVotes at h
    rw [List.foldlM_cons] at h
    obtain ⟨t, ht, h⟩ := bind_eq_ok.mp h
    split_ifs at ht with hv
    · obtain rfl := Except.ok.inj ht
      rw [hV.length_eq] at hv
      -- the rest of the loop starts with the bit of `v` set
      obtain ⟨hbits, hids⟩ := ih (hV.set_true hv) h
      refine ⟨?_, ?_⟩
      · rw [List.toFinset_cons, Finset.union_insert, ← Finset.insert_union]
        exact hbits
      · intro u hu
        rcases List.mem_cons.mp hu with rfl | hu
        · exact hv
        · exact hids u hu
    · simp at ht

/-- Casting votes never panics. -/
theorem returns_castVotes (tally : List Bool) (ids : List ℕ) :
    (castVotes tally ids).Returns := by
  unfold castVotes
  induction ids generalizing tally with
  | nil => exact returns_ok tally
  | cons v ids ih =>
    rw [List.foldlM_cons]
    refine returns_bind ?_ fun t _ => ih t
    split_ifs
    · exact returns_ok _
    · exact returns_bail _

/-! ## The finalization test -/

/-- A scan whose test returns everywhere is a plain `any`. -/
private theorem anyM_eq_ok {p : ℕ → Res Bool} {q : ℕ → Bool} {xs : List ℕ}
    (h : ∀ x ∈ xs, p x = .ok (q x)) : xs.anyM p = .ok (xs.any q) := by
  induction xs with
  | nil => rfl
  | cons x xs ih =>
    rw [List.anyM_cons, h x (by simp), ih fun y hy => h y (by simp [hy])]
    cases hq : q x with
    | false => simp [hq]
    | true => simp [hq]

/-- The slots strictly between the source and the target of a link. -/
theorem mem_between {x a b : ℕ} : x ∈ List.range' (a + 1) (b - (a + 1)) ↔ a < x ∧ x < b := by
  rw [List.mem_range'_1]
  omega

/-- A scan that starts at or after the finalized slot returns. -/
theorem State.linkIsDirect_of_le {s : State} {source target : Checkpoint}
    (h : s.latestFinalized.slot ≤ source.slot + 1 ∨ target.slot ≤ source.slot + 1) :
    s.linkIsDirect source target = .ok (!(List.range' (source.slot + 1)
      (target.slot - (source.slot + 1))).any
        fun x => justifiableDistance (x - s.latestFinalized.slot)) := by
  unfold State.linkIsDirect
  rw [anyM_eq_ok (q := fun x => justifiableDistance (x - s.latestFinalized.slot))]
  · rfl
  · intro x hx
    rw [mem_between] at hx
    exact isJustifiableAfter_of_le (by omega)

/-- A scan that starts before the finalized slot fails the assertion at once. -/
theorem State.linkIsDirect_of_stale {s : State} {source target : Checkpoint}
    (h₁ : source.slot + 1 < s.latestFinalized.slot) (h₂ : source.slot + 1 < target.slot) :
    s.linkIsDirect source target =
      crash "Candidate slot must not be before finalized slot" := by
  unfold State.linkIsDirect
  obtain ⟨k, hk⟩ : ∃ k, target.slot - (source.slot + 1) = k + 1 :=
    ⟨target.slot - (source.slot + 1) - 1, by omega⟩
  rw [hk, List.range'_succ, List.anyM_cons, isJustifiableAfter_of_lt h₁]
  rfl

/-- What a successful finalization test says about the slots it scanned. -/
theorem State.linkIsDirect_eq_true {s : State} {source target : Checkpoint}
    (h : s.linkIsDirect source target = .ok true) :
    ∀ x, source.slot < x → x < target.slot →
      s.latestFinalized.slot ≤ x ∧ justifiableDistance (x - s.latestFinalized.slot) = false := by
  by_cases hle : s.latestFinalized.slot ≤ source.slot + 1 ∨ target.slot ≤ source.slot + 1
  · rw [linkIsDirect_of_le hle] at h
    intro x hx hx'
    refine ⟨by omega, ?_⟩
    have hany := Except.ok.inj h
    rw [Bool.not_eq_true', List.any_eq_false] at hany
    simpa using hany x (mem_between.mpr ⟨hx, hx'⟩)
  · rw [linkIsDirect_of_stale (by omega) (by omega)] at h
    simp at h

/-- An unjustified slot lies after the finalized one. -/
theorem VoteLoop.lt_of_bit_false {l : VoteLoop} {t : ℕ}
    (h : l.justifiedSlots.bitAt l.latestFinalized.slot t = some false) :
    l.latestFinalized.slot < t := by
  by_contra hge
  rw [JustifiedSlots.bitAt_of_le (Nat.not_lt.mp hge)] at h
  simp at h

/-- A link that finalizes its source does not start below the finalized slot, if the next slot
    this block may justify after a slot it finalized is justified: a lower source would have
    that slot strictly inside its link. -/
theorem State.Counts.finalized_le_source {s : State} {l : VoteLoop} {source target : Checkpoint}
    (hc : s.Counts l source target) (hd : s.linkIsDirect source target = .ok true)
    (hmono : s.latestFinalized.slot ≤ l.latestFinalized.slot)
    (hnext : s.latestFinalized.slot < l.latestFinalized.slot →
      ∃ t, l.latestFinalized.slot < t ∧
        l.justifiedSlots.bitAt l.latestFinalized.slot t = some true ∧
        justifiableDistance (t - s.latestFinalized.slot) = true ∧
        ∀ x, l.latestFinalized.slot < x → x < t →
          justifiableDistance (x - s.latestFinalized.slot) = false) :
    l.latestFinalized.slot ≤ source.slot := by
  by_contra hlt
  have hft : l.latestFinalized.slot < target.slot := VoteLoop.lt_of_bit_false hc.target_unjustified
  have hinside := State.linkIsDirect_eq_true hd
  rcases Nat.eq_or_lt_of_le hmono with heq | hlt₀
  · -- the slot after the source is at or right before the finalized slot, hence justifiable
    obtain ⟨h₁, h₂⟩ := hinside (source.slot + 1) (by omega) (by omega)
    rw [justifiableDistance_of_le_five (by omega)] at h₂
    simp at h₂
  · -- the target is not the next slot to justify, so that slot lies inside the link
    obtain ⟨t, hft', hbit, hj, hgap⟩ := hnext hlt₀
    rcases Nat.lt_trichotomy target.slot t with h | h | h
    · have := hgap _ hft h
      rw [hc.justifiable] at this
      simp at this
    · rw [← h, hc.target_unjustified] at hbit
      simp at hbit
    · obtain ⟨-, h₂⟩ := hinside t (by omega) h
      rw [hj] at h₂
      simp at h₂

/-! ## A round as a step relation -/

/-- The votes of `a` count, and `tally` is the tally of its target with these votes added. -/
structure State.Tallied (s : State) (l : VoteLoop) (a : AggregatedAttestation)
    (tally : List Bool) : Prop where
  counts : s.Counts l a.data.source a.data.target
  nonempty : AggregationBits.setIndices a.aggregationBits ≠ []
  cast : castVotes (s.tallyOf l a.data.target.root)
    (AggregationBits.setIndices a.aggregationBits) = .ok tally

/-- The variables after the target of `a` was justified. -/
def VoteLoop.justifiedBy (l : VoteLoop) (a : AggregatedAttestation) (tally : List Bool)
    (window : JustifiedSlots) : VoteLoop :=
  (l.storeTally a.data.target.root tally).markJustified window a.data.target

/-- The successful rounds of the vote loop. -/
inductive State.Round (s : State) (l : VoteLoop) (a : AggregatedAttestation) : VoteLoop → Prop
  /-- A skip check fails. -/
  | skipped (h : s.voteCounts l a.data.source a.data.target = .ok false) : Round s l a l
  /-- The votes are added, short of two thirds. -/
  | tallied (tally : List Bool) (h : s.Tallied l a tally)
      (hq : ¬ 2 * s.validators.length ≤ 3 * tally.count true) :
      Round s l a (l.storeTally a.data.target.root tally)
  /-- The target is justified and the source is not finalized. -/
  | justified (tally : List Bool) (h : s.Tallied l a tally)
      (hq : 2 * s.validators.length ≤ 3 * tally.count true) (window : JustifiedSlots)
      (hw : l.justifiedSlots.withJustified l.latestFinalized.slot a.data.target.slot true =
        .ok window)
      (hd : s.linkIsDirect a.data.source a.data.target = .ok false) :
      Round s l a (l.justifiedBy a tally window)
  /-- The target is justified and the source, not after the finalized slot, is made the
      finalized checkpoint without moving the window. -/
  | refinalized (tally : List Bool) (h : s.Tallied l a tally)
      (hq : 2 * s.validators.length ≤ 3 * tally.count true) (window : JustifiedSlots)
      (hw : l.justifiedSlots.withJustified l.latestFinalized.slot a.data.target.slot true =
        .ok window)
      (hd : s.linkIsDirect a.data.source a.data.target = .ok true)
      (hle : a.data.source.slot ≤ l.latestFinalized.slot) :
      Round s l a { l.justifiedBy a tally window with latestFinalized := a.data.source }
  /-- The target is justified and the source, after the finalized slot, is finalized. -/
  | finalized (tally : List Bool) (h : s.Tallied l a tally)
      (hq : 2 * s.validators.length ≤ 3 * tally.count true) (window shifted : JustifiedSlots)
      (hw : l.justifiedSlots.withJustified l.latestFinalized.slot a.data.target.slot true =
        .ok window)
      (hd : s.linkIsDirect a.data.source a.data.target = .ok true)
      (hlt : l.latestFinalized.slot < a.data.source.slot)
      (hs : window.shiftWindow (a.data.source.slot - l.latestFinalized.slot) = .ok shifted)
      (hroots : ∀ root ∈ (l.justifiedBy a tally window).justifications.keys,
        root ∈ s.rootToSlot) :
      Round s l a ((l.justifiedBy a tally window).markFinalized shifted a.data.source
        s.rootToSlot)

/-- A successful round is one of the steps of `Round`. -/
theorem State.processAttestation_round {s : State} {l l' : VoteLoop} {a : AggregatedAttestation}
    (h : s.processAttestation l a = .ok l') : s.Round l a l' := by
  unfold State.processAttestation at h
  obtain ⟨counts, hc, h⟩ := bind_eq_ok.mp h
  cases counts with
  | false =>
    rw [if_pos rfl] at h
    obtain rfl := Except.ok.inj h
    exact .skipped hc
  | true =>
    rw [if_neg (by simp)] at h
    obtain ⟨ids, hids, h⟩ := bind_eq_ok.mp h
    obtain ⟨rfl, hne⟩ := toValidatorIndices_eq_ok.mp hids
    obtain ⟨tally, ht, h⟩ := bind_eq_ok.mp h
    have htal : s.Tallied l a tally := ⟨State.voteCounts_eq_true.mp hc, hne, ht⟩
    by_cases hq : 2 * s.validators.length ≤ 3 * tally.count true
    · -- two thirds: the target is justified, and the source perhaps finalized
      simp only [hq, if_true] at h
      unfold State.justify at h
      obtain ⟨window, hw, h⟩ := bind_eq_ok.mp h
      obtain ⟨direct, hd, h⟩ := bind_eq_ok.mp h
      cases direct with
      | false =>
        rw [if_neg (by simp)] at h
        obtain rfl := Except.ok.inj h
        exact .justified tally htal hq window hw hd
      | true =>
        rw [if_pos rfl] at h
        unfold State.finalize at h
        -- `checked_sub` decides whether the window moves
        by_cases hlt : l.latestFinalized.slot < a.data.source.slot
        · simp only [VoteLoop.storeTally, VoteLoop.markJustified, hlt, if_true] at h
          obtain ⟨shifted, hs, h⟩ := bind_eq_ok.mp h
          obtain ⟨u, hroots, h⟩ := bind_eq_ok.mp h
          obtain rfl := Except.ok.inj h
          exact .finalized tally htal hq window shifted hw hd hlt hs (ensure_eq_ok.mp hroots)
        · simp only [VoteLoop.storeTally, VoteLoop.markJustified, hlt, if_false] at h
          obtain rfl := Except.ok.inj h
          exact .refinalized tally htal hq window hw hd (Nat.not_lt.mp hlt)
    · simp only [hq, if_false] at h
      obtain rfl := Except.ok.inj h
      exact .tallied tally htal hq

end ConsensusClient
