import Mathlib.Data.List.Induction
import Mathlib.Data.List.Sort
import ConsensusClient.Containers.Attestation

/-!
# Bits and Groups

Facts about the participation bits and the grouping of votes: writing a list of indices into bits
and reading it back gives the same list in increasing order, and `aggregate_by_data` makes one
group for each vote, with the validators that cast it.

## Main results

* `setIndices_fromValidatorIndices`: increasing indices survive the way through the bits
* `mem_aggregateByData`: an attestation of the result has exactly the voters of its data
* `exists_aggregateByData_iff`: grouping fails on an index past the limit, and only there
* `aggregateByData_groups`: the groups of a list of votes, and that their order is all that the
  order of the list decides
-/

namespace ConsensusClient

/-! ## Writing and reading bits -/

section Bits

variable {bits : AggregationBits} {ids : List ℕ}

/-- The set positions are listed in increasing order. -/
theorem sortedLT_setIndices (bits : AggregationBits) :
    (AggregationBits.setIndices bits).SortedLT := by
  have hsub : (AggregationBits.setIndices bits).Sublist (List.range' 0 bits.length) := by
    rw [← List.zipIdx_map_snd 0 bits]
    exact List.filter_sublist.map _
  exact (List.Pairwise.sublist hsub List.pairwise_lt_range').sortedLT

/-- Setting bits one after the other. -/
theorem getElem?_foldl_set {v : ℕ} :
    (ids.foldl (fun b i => b.set i true) bits)[v]? = some true ↔
      bits[v]? = some true ∨ v ∈ ids ∧ v < bits.length := by
  induction ids generalizing bits with
  | nil => simp
  | cons i ids ih =>
    rw [List.foldl_cons, ih, List.length_set, List.getElem?_set]
    -- only the round for `v` itself can change the bit
    by_cases hi : i = v
    · subst hi
      simp only [if_true, List.mem_cons, true_or, true_and]
      constructor
      · rintro (h | h)
        · right
          by_contra hge
          simp [hge] at h
        · exact Or.inr h.2
      · rintro (h | h)
        · left
          simp [(List.getElem?_eq_some_iff.mp h).1]
        · simp [h]
    · simp [hi, Ne.symm hi]

theorem length_foldl_set : (ids.foldl (fun b i => b.set i true) bits).length = bits.length := by
  induction ids generalizing bits with
  | nil => rfl
  | cons i ids ih => rw [List.foldl_cons, ih, List.length_set]

/-- Bits of the same length are equal when the same positions are set. -/
theorem eq_of_set_iff {bits' : AggregationBits} (hlen : bits.length = bits'.length)
    (hset : ∀ v : ℕ, bits[v]? = some true ↔ bits'[v]? = some true) : bits = bits' := by
  apply List.ext_getElem hlen
  intro v h h'
  have hv := hset v
  rw [List.getElem?_eq_getElem h, List.getElem?_eq_getElem h', Option.some.injEq,
    Option.some.injEq] at hv
  exact Bool.eq_iff_iff.mpr hv

/-- The largest index is below a bound exactly when all are. -/
theorem foldl_max_lt_iff {m bound : ℕ} :
    ids.foldl max m < bound ↔ m < bound ∧ ∀ i ∈ ids, i < bound := by
  induction ids generalizing m with
  | nil => simp
  | cons i ids ih => rw [List.foldl_cons, ih, max_lt_iff, List.forall_mem_cons, and_assoc]

/-- Indices can be written into bits exactly when there are any and each is below the limit. -/
theorem fromValidatorIndices_eq_ok :
    AggregationBits.fromValidatorIndices ids = .ok bits ↔
      ids ≠ [] ∧ (∀ i ∈ ids, i < validatorRegistryLimit) ∧
        bits = ids.foldl (fun b i => b.set i true)
          (List.replicate (ids.foldl max 0 + 1) false) := by
  have hlimit : ids.foldl max 0 < validatorRegistryLimit ↔
      ∀ i ∈ ids, i < validatorRegistryLimit := by
    rw [foldl_max_lt_iff]
    simp [validatorRegistryLimit]
  unfold AggregationBits.fromValidatorIndices
  simp only [hlimit]
  split_ifs with h₁ h₂
  · simp [h₁]
  · simp only [Except.ok.injEq, ne_eq, h₁, not_false_eq_true, true_and]
    exact ⟨fun h => ⟨h₂, h.symm⟩, fun h => h.2.symm⟩
  · simp [h₂]

/-- Reading the bits back gives the indices that were written. -/
theorem mem_setIndices_fromValidatorIndices
    (h : AggregationBits.fromValidatorIndices ids = .ok bits) {v : ℕ} :
    v ∈ AggregationBits.setIndices bits ↔ v ∈ ids := by
  obtain ⟨-, -, rfl⟩ := fromValidatorIndices_eq_ok.mp h
  rw [mem_setIndices, getElem?_foldl_set, List.length_replicate]
  have hlt : v ∈ ids → v < ids.foldl max 0 + 1 :=
    fun hv => (foldl_max_lt_iff.mp (Nat.lt_succ_self _)).2 v hv
  simp only [List.getElem?_replicate]
  constructor
  · rintro (h | h)
    · exact absurd h (by split_ifs <;> simp)
    · exact h.1
  · intro hv
    exact Or.inr ⟨hv, hlt hv⟩

/-- Only the set of indices matters, neither their order nor how often they occur. -/
theorem fromValidatorIndices_congr {ids' : List ℕ} (hids : ∀ v, v ∈ ids ↔ v ∈ ids') :
    AggregationBits.fromValidatorIndices ids = .ok bits ↔
      AggregationBits.fromValidatorIndices ids' = .ok bits := by
  have hempty : ids ≠ [] ↔ ids' ≠ [] := by
    simp only [ne_eq, List.eq_nil_iff_forall_not_mem, hids]
  have hmax : ids.foldl max 0 = ids'.foldl max 0 := by
    apply eq_of_forall_gt_iff
    intro bound
    simp only [foldl_max_lt_iff, hids]
  have hbits : ids.foldl (fun b i => b.set i true) (List.replicate (ids.foldl max 0 + 1) false) =
      ids'.foldl (fun b i => b.set i true) (List.replicate (ids'.foldl max 0 + 1) false) := by
    rw [hmax]
    apply eq_of_set_iff
    · rw [length_foldl_set, length_foldl_set]
    · intro v
      simp only [getElem?_foldl_set, hids]
  simp only [fromValidatorIndices_eq_ok, hempty, hids, hbits]

/-- A list in increasing order is read back as it was written. -/
theorem setIndices_fromValidatorIndices (hids : ids.SortedLT)
    (h : AggregationBits.fromValidatorIndices ids = .ok bits) :
    AggregationBits.setIndices bits = ids :=
  (sortedLT_setIndices bits).eq_of_mem_iff hids fun _ => mem_setIndices_fromValidatorIndices h

end Bits

/-! ## Groups -/

/-- The validators of the votes for `data`, in the order of the list. -/
def votersFor (attestations : List Attestation) (data : AttestationData) : List ℕ :=
  (attestations.filter fun a => a.data = data).map fun a => a.validatorId

/-- The groups of a list of votes: one for each data that occurs, with its voters. -/
structure GroupsOf (attestations : List Attestation) (groups : List (AttestationData × List ℕ)) :
    Prop where
  nodup : (groups.map Prod.fst).Nodup
  ids : ∀ g ∈ groups, g.2 = votersFor attestations g.1
  mem : ∀ data, data ∈ groups.map Prod.fst ↔ ∃ a ∈ attestations, a.data = data

section Groups

variable {attestations : List Attestation} {groups : List (AttestationData × List ℕ)}
  {a : Attestation} {data : AttestationData}

theorem votersFor_append (attestations new : List Attestation) (data : AttestationData) :
    votersFor (attestations ++ new) data = votersFor attestations data ++ votersFor new data := by
  simp [votersFor]

theorem mem_votersFor {v : ℕ} : v ∈ votersFor attestations data ↔ ⟨v, data⟩ ∈ attestations := by
  simp only [votersFor, List.mem_map, List.mem_filter, decide_eq_true_eq]
  constructor
  · rintro ⟨⟨w, d⟩, ⟨ha, rfl⟩, rfl⟩
    exact ha
  · intro h
    exact ⟨_, ⟨h, rfl⟩, rfl⟩

/-- A vote whose data has no group yet gets one at the end. -/
theorem addToGroups_of_not_mem (h : a.data ∉ groups.map Prod.fst) :
    addToGroups groups a = groups ++ [(a.data, [a.validatorId])] := by
  induction groups with
  | nil => rfl
  | cons g rest ih =>
    rw [List.map_cons, List.mem_cons, not_or] at h
    rw [addToGroups, if_neg (Ne.symm h.1), ih h.2, List.cons_append]

/-- Otherwise its validator joins the group. -/
theorem addToGroups_of_mem (h : a.data ∈ groups.map Prod.fst)
    (hnodup : (groups.map Prod.fst).Nodup) :
    addToGroups groups a =
      groups.map fun g => if g.1 = a.data then (g.1, g.2 ++ [a.validatorId]) else g := by
  induction groups with
  | nil => simp at h
  | cons g rest ih =>
    rw [List.map_cons, List.nodup_cons] at hnodup
    rw [addToGroups, List.map_cons]
    by_cases hg : g.1 = a.data
    · -- no later group has the same data
      have hrest : rest.map (fun g => if g.1 = a.data then (g.1, g.2 ++ [a.validatorId]) else g) =
          rest := by
        conv_rhs => rw [← List.map_id rest]
        apply List.map_congr_left
        intro g' hg'
        rw [if_neg, id]
        intro heq
        exact hnodup.1 (hg ▸ heq ▸ List.mem_map_of_mem hg')
      rw [if_pos hg, if_pos hg, hrest]
    · have hmem : a.data ∈ rest.map Prod.fst := by
        rcases List.mem_cons.mp h with h | h
        · exact absurd h.symm hg
        · exact h
      rw [if_neg hg, if_neg hg, ih hmem hnodup.2]

theorem map_fst_join (groups : List (AttestationData × List ℕ)) (a : Attestation) :
    (groups.map fun g => if g.1 = a.data then (g.1, g.2 ++ [a.validatorId]) else g).map Prod.fst =
      groups.map Prod.fst := by
  rw [List.map_map]
  apply List.map_congr_left
  intro g _
  by_cases hg : g.1 = a.data <;> simp [hg]

/-- One round of the grouping loop. -/
theorem GroupsOf.addToGroups (h : GroupsOf attestations groups) (a : Attestation) :
    GroupsOf (attestations ++ [a]) (addToGroups groups a) := by
  by_cases hmem : a.data ∈ groups.map Prod.fst
  · -- the validator joins the group of its data, and the data stay the same
    rw [addToGroups_of_mem hmem h.nodup]
    have hfst := map_fst_join groups a
    refine ⟨hfst ▸ h.nodup, ?_, ?_⟩
    · intro g hg
      obtain ⟨g', hg', rfl⟩ := List.mem_map.mp hg
      rw [votersFor_append]
      by_cases heq : g'.1 = a.data
      · simp [heq, h.ids g' hg', votersFor]
      · simp [heq, h.ids g' hg', votersFor, Ne.symm heq]
    · intro data
      rw [hfst, h.mem data]
      constructor
      · rintro ⟨b, hb, rfl⟩
        exact ⟨b, List.mem_append_left _ hb, rfl⟩
      · rintro ⟨b, hb, rfl⟩
        rcases List.mem_append.mp hb with hb | hb
        · exact ⟨b, hb, rfl⟩
        · obtain rfl := List.mem_singleton.mp hb
          exact (h.mem _).mp hmem
  · -- a new group at the end
    rw [addToGroups_of_not_mem hmem]
    refine ⟨?_, ?_, ?_⟩
    · rw [List.map_append, List.nodup_append]
      refine ⟨h.nodup, by simp, ?_⟩
      rintro data hdata _ hlast rfl
      obtain rfl : data = a.data := by simpa using hlast
      exact hmem hdata
    · intro g hg
      rw [votersFor_append]
      rcases List.mem_append.mp hg with hg | hg
      · have hne : a.data ≠ g.1 := fun heq => hmem (heq ▸ List.mem_map_of_mem hg)
        simp [h.ids g hg, votersFor, hne]
      · obtain rfl := List.mem_singleton.mp hg
        -- nobody voted for this data before
        have hnone : votersFor attestations a.data = [] := by
          rw [votersFor, List.map_eq_nil_iff, List.filter_eq_nil_iff]
          intro b hb hdata
          exact hmem ((h.mem _).mpr ⟨b, hb, by simpa using hdata⟩)
        rw [hnone]
        simp [votersFor]
    · intro data
      rw [List.map_append, List.mem_append, h.mem data]
      simp only [List.mem_append, List.map_cons, List.map_nil, List.mem_singleton, or_and_right,
        exists_or, exists_eq_left]
      exact or_congr Iff.rfl eq_comm

/-- The grouping loop. -/
theorem GroupsOf.foldl (h : GroupsOf attestations groups) (new : List Attestation) :
    GroupsOf (attestations ++ new) (new.foldl ConsensusClient.addToGroups groups) := by
  induction new generalizing attestations groups with
  | nil => simpa using h
  | cons a new ih =>
    rw [List.foldl_cons, show attestations ++ a :: new = (attestations ++ [a]) ++ new by simp]
    exact ih (h.addToGroups a)

theorem groupsOf_foldl (attestations : List Attestation) :
    GroupsOf attestations (attestations.foldl addToGroups []) := by
  have hnil : GroupsOf [] [] := ⟨List.nodup_nil, by simp, by simp⟩
  simpa using hnil.foldl attestations

/-- Erasing duplicates keeps a last element that has not occurred before. -/
theorem eraseDups_concat (xs : List AttestationData) (x : AttestationData) :
    (xs ++ [x]).eraseDups = if x ∈ xs then xs.eraseDups else xs.eraseDups ++ [x] := by
  rw [List.eraseDups_append]
  by_cases hx : x ∈ xs
  · simp [List.removeAll, hx]
  · simp [List.removeAll, hx, List.eraseDups_cons]

/-- The groups stand in the order in which their data occurs first. -/
theorem map_fst_foldl_addToGroups (attestations : List Attestation) :
    (attestations.foldl addToGroups []).map Prod.fst =
      (attestations.map fun a => a.data).eraseDups := by
  induction attestations using List.reverseRecOn with
  | nil => rfl
  | append_singleton init a ih =>
    have hnodup := (groupsOf_foldl init).nodup
    rw [List.foldl_append, List.foldl_cons, List.foldl_nil, List.map_append, List.map_singleton,
      eraseDups_concat]
    by_cases hmem : a.data ∈ init.map fun a => a.data
    · have hkey : a.data ∈ (init.foldl addToGroups []).map Prod.fst := by
        rw [ih]
        exact List.mem_eraseDups.mpr hmem
      rw [addToGroups_of_mem hkey hnodup, map_fst_join, if_pos hmem, ih]
    · have hkey : a.data ∉ (init.foldl addToGroups []).map Prod.fst := by
        rw [ih]
        exact fun h => hmem (List.mem_eraseDups.mp h)
      rw [addToGroups_of_not_mem hkey, List.map_append, if_neg hmem, ih, List.map_singleton]

/-- Each attestation has the data of its group, and its ids as bits. -/
theorem aggregateByData_pairs {groups : List AggregatedAttestation}
    (h : aggregateByData attestations = .ok groups) :
    List.Forall₂ (fun (p : AttestationData × List ℕ) (g : AggregatedAttestation) =>
      AggregationBits.fromValidatorIndices p.2 = .ok g.aggregationBits ∧ p.1 = g.data)
      (attestations.foldl addToGroups []) groups := by
  refine (mapM_eq_ok.mp h).imp fun p g hpg => ?_
  obtain ⟨bits, hbits, hg⟩ := bind_eq_ok.mp hpg
  obtain rfl := Except.ok.inj hg
  exact ⟨hbits, rfl⟩

theorem aggregateByData_data {groups : List AggregatedAttestation}
    (h : aggregateByData attestations = .ok groups) :
    groups.map (fun g => g.data) = (attestations.map fun a => a.data).eraseDups := by
  rw [← map_fst_foldl_addToGroups, ← List.forall₂_eq_eq_eq, List.forall₂_map_left_iff,
    List.forall₂_map_right_iff]
  exact (aggregateByData_pairs h).flip.imp fun _ _ hpg => hpg.2.symm

/-- The attestations returned are those whose bits are written from the voters of their data. -/
theorem mem_aggregateByData {groups : List AggregatedAttestation}
    (h : aggregateByData attestations = .ok groups) {g : AggregatedAttestation} :
    g ∈ groups ↔ AggregationBits.fromValidatorIndices (votersFor attestations g.data) =
      .ok g.aggregationBits := by
  have hgroups := groupsOf_foldl attestations
  rw [mem_mapM_iff h]
  constructor
  · rintro ⟨p, hp, hpg⟩
    obtain ⟨bits, hbits, hg⟩ := bind_eq_ok.mp hpg
    obtain rfl := Except.ok.inj hg
    rw [hgroups.ids p hp] at hbits
    exact hbits
  · intro hbits
    -- some validator voted for the data, so it has a group
    obtain ⟨v, hv⟩ := List.exists_mem_of_ne_nil _ (fromValidatorIndices_eq_ok.mp hbits).1
    obtain ⟨p, hp, hdata⟩ := List.mem_map.mp
      ((hgroups.mem g.data).mpr ⟨_, mem_votersFor.mp hv, rfl⟩)
    refine ⟨p, hp, ?_⟩
    rw [hgroups.ids p hp, hdata, hbits, ok_bind, pure_eq_ok]

/-- `aggregate_by_data` gives one attestation for each data that occurs, whose set bits are its
    voters. -/
theorem aggregateByData_eq_ok {groups : List AggregatedAttestation}
    (h : aggregateByData attestations = .ok groups) :
    (groups.map fun g => g.data).Nodup ∧
      (∀ data, (∃ g ∈ groups, g.data = data) ↔ ∃ a ∈ attestations, a.data = data) ∧
      ∀ g ∈ groups, ∀ v,
        v ∈ AggregationBits.setIndices g.aggregationBits ↔ v ∈ votersFor attestations g.data := by
  have hgroups := groupsOf_foldl attestations
  have hdata : groups.map (fun g => g.data) = (attestations.foldl addToGroups []).map Prod.fst := by
    rw [aggregateByData_data h, map_fst_foldl_addToGroups]
  refine ⟨hdata ▸ hgroups.nodup, ?_, ?_⟩
  · intro data
    rw [← hgroups.mem data, ← hdata]
    simp
  · intro g hg v
    exact mem_setIndices_fromValidatorIndices ((mem_aggregateByData h).mp hg)

/-- Grouping succeeds exactly when all validator indices are below the limit of the registry. -/
theorem exists_aggregateByData_iff :
    (∃ groups, aggregateByData attestations = .ok groups) ↔
      ∀ a ∈ attestations, a.validatorId < validatorRegistryLimit := by
  have hgroups := groupsOf_foldl attestations
  -- a group is written as bits exactly when all its voters fit into the registry
  have hgroup : ∀ g ∈ attestations.foldl addToGroups [],
      (∃ aggregated, (do
        let bits ← AggregationBits.fromValidatorIndices g.2
        pure (⟨bits, g.1⟩ : AggregatedAttestation) : Res AggregatedAttestation) =
          .ok aggregated) ↔ ∀ v ∈ votersFor attestations g.1, v < validatorRegistryLimit := by
    intro g hg
    have hids := hgroups.ids g hg
    have hne : g.2 ≠ [] := by
      obtain ⟨a, ha, hdata⟩ := (hgroups.mem g.1).mp (List.mem_map_of_mem hg)
      rw [hids, ← hdata]
      exact List.ne_nil_of_mem (mem_votersFor.mpr ha)
    rw [← hids]
    constructor
    · rintro ⟨aggregated, h⟩
      obtain ⟨bits, hbits, -⟩ := bind_eq_ok.mp h
      exact (fromValidatorIndices_eq_ok.mp hbits).2.1
    · intro hlt
      rw [fromValidatorIndices_eq_ok.mpr ⟨hne, hlt, rfl⟩, ok_bind]
      exact ⟨_, rfl⟩
  -- every vote is in the group of its data, and every voter of a group has a vote
  unfold aggregateByData
  rw [exists_mapM_iff]
  constructor
  · intro h a ha
    obtain ⟨g, hg, hdata⟩ := List.mem_map.mp ((hgroups.mem a.data).mpr ⟨a, ha, rfl⟩)
    apply (hgroup g hg).mp (h g hg)
    rw [hdata]
    exact mem_votersFor.mpr ha
  · intro h g hg
    apply (hgroup g hg).mpr
    intro v hv
    exact h _ (mem_votersFor.mp hv)

/-- For indices below the limit of the registry, `aggregate_by_data` returns one group for each
    data, in the order of first occurrence; its bits are the validators that cast this vote, read in
    increasing order. Another list of the same votes gives the same groups in some order. -/
theorem aggregateByData_groups
    (hids : ∀ a ∈ attestations, a.validatorId < validatorRegistryLimit) :
    ∃ groups, aggregateByData attestations = .ok groups ∧
      (groups.map fun g => g.data).Nodup ∧
      groups.map (fun g => g.data) = (attestations.map fun a => a.data).eraseDups ∧
      (∀ data v, (∃ g ∈ groups, g.data = data ∧ ∃ ids,
        AggregationBits.toValidatorIndices g.aggregationBits = .ok ids ∧ v ∈ ids) ↔
          ⟨v, data⟩ ∈ attestations) ∧
      (∀ g ∈ groups, ∃ ids, AggregationBits.toValidatorIndices g.aggregationBits = .ok ids ∧
        ids.SortedLT) ∧
      ∀ attestations', (∀ a, a ∈ attestations' ↔ a ∈ attestations) →
        ∃ groups', aggregateByData attestations' = .ok groups' ∧ groups'.Perm groups := by
  obtain ⟨groups, h⟩ := exists_aggregateByData_iff.mpr hids
  obtain ⟨hnodup, hdata, hbits⟩ := aggregateByData_eq_ok h
  -- no group is empty
  have hread : ∀ g ∈ groups, AggregationBits.toValidatorIndices g.aggregationBits =
      .ok (AggregationBits.setIndices g.aggregationBits) := by
    intro g hg
    obtain ⟨a, ha, heq⟩ := (hdata g.data).mp ⟨g, hg, rfl⟩
    apply toValidatorIndices_eq_ok.mpr ⟨rfl, List.ne_nil_of_mem (a := a.validatorId) _⟩
    rw [hbits g hg, ← heq]
    exact mem_votersFor.mpr ha
  refine ⟨groups, h, hnodup, aggregateByData_data h, ?_, ?_, ?_⟩
  · intro data v
    rw [← mem_votersFor]
    constructor
    · rintro ⟨g, hg, rfl, ids, hids, hv⟩
      obtain rfl := Except.ok.inj (hids.symm.trans (hread g hg))
      exact (hbits g hg v).mp hv
    · intro hv
      obtain ⟨g, hg, rfl⟩ := (hdata data).mpr ⟨_, mem_votersFor.mp hv, rfl⟩
      exact ⟨g, hg, rfl, _, hread g hg, (hbits g hg v).mpr hv⟩
  · intro g hg
    exact ⟨_, hread g hg, sortedLT_setIndices _⟩
  · intro attestations' hsame
    obtain ⟨groups', h'⟩ := exists_aggregateByData_iff.mpr fun a ha => hids a ((hsame a).mp ha)
    refine ⟨groups', h', ?_⟩
    rw [List.perm_ext_iff_of_nodup (aggregateByData_eq_ok h').1.of_map hnodup.of_map]
    intro g
    rw [mem_aggregateByData h', mem_aggregateByData h]
    -- the voters of a data are the same set in both lists
    apply fromValidatorIndices_congr
    intro v
    rw [mem_votersFor, mem_votersFor, hsame]

/-- Two validators vote from slot 0 to slot 1, and one from slot 0 to slot 2 in between. -/
theorem aggregateByData_of_three_votes :
    let first : AttestationData := ⟨2, ⟨8, 1⟩, ⟨8, 1⟩, ⟨7, 0⟩⟩
    let second : AttestationData := ⟨2, ⟨9, 2⟩, ⟨9, 2⟩, ⟨7, 0⟩⟩
    let votes : List Attestation := [⟨2, first⟩, ⟨1, second⟩, ⟨0, first⟩]
    (∀ a ∈ votes, a.validatorId < validatorRegistryLimit) ∧
      ∃ groups, aggregateByData votes = .ok groups ∧
        groups.map (fun g => g.data) = [first, second] := by
  intro first second votes
  have hids : ∀ a ∈ votes, a.validatorId < validatorRegistryLimit := by decide
  obtain ⟨groups, h, -, horder, -⟩ := aggregateByData_groups hids
  exact ⟨hids, groups, h, horder.trans (by decide)⟩

/-- There are not more groups than votes. -/
theorem aggregateByData_length_le {groups : List AggregatedAttestation}
    (h : aggregateByData attestations = .ok groups) : groups.length ≤ attestations.length := by
  obtain ⟨hnodup, hmem, -⟩ := aggregateByData_eq_ok h
  have hsub : (groups.map fun g => g.data) ⊆ attestations.map fun a => a.data := by
    intro data hdata
    obtain ⟨g, hg, rfl⟩ := List.mem_map.mp hdata
    obtain ⟨a, ha, heq⟩ := (hmem g.data).mp ⟨g, hg, rfl⟩
    exact List.mem_map.mpr ⟨a, ha, heq⟩
  simpa using (List.subperm_of_subset hnodup hsub).length_le

end Groups

/-! ## Duplicates -/

theorem hasDuplicateRoot_eq_false {seen roots : List H256} :
    hasDuplicateRoot seen roots = false ↔ roots.Nodup ∧ ∀ root ∈ roots, root ∉ seen := by
  induction roots generalizing seen with
  | nil => simp [hasDuplicateRoot]
  | cons root rest ih =>
    rw [hasDuplicateRoot, List.nodup_cons, List.forall_mem_cons]
    by_cases h : root ∈ seen
    · simp [h]
    · rw [if_neg h, ih]
      simp only [List.mem_cons, not_or, h, not_false_eq_true, true_and]
      constructor
      · rintro ⟨hnodup, hseen⟩
        exact ⟨⟨fun hmem => (hseen root hmem).1 rfl, hnodup⟩, fun r hr => (hseen r hr).2⟩
      · rintro ⟨⟨hroot, hnodup⟩, hseen⟩
        exact ⟨hnodup, fun r hr => ⟨fun heq => hroot (heq ▸ hr), hseen r hr⟩⟩

/-- With an injective hash, the duplicate check passes exactly when no data occurs twice. -/
theorem hasDuplicateData_eq_false {E : Env} (hinj : Function.Injective E.hashData)
    {attestations : List AggregatedAttestation} :
    hasDuplicateData E attestations = false ↔ (attestations.map fun a => a.data).Nodup := by
  have hmap : (attestations.map fun a => E.hashData a.data) =
      (attestations.map fun a => a.data).map E.hashData := by simp
  rw [hasDuplicateData, hasDuplicateRoot_eq_false, hmap, List.nodup_map_iff hinj]
  simp

end ConsensusClient
