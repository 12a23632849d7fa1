import ConsensusClient.Containers.Ledger

/-!
# Flattened Tallies

Between two blocks the tallies live in the state as a sorted list of roots and one long bitlist.
This module shows that writing them out and cutting them up again gives back the same map, and
carries the loop invariant from the end of one block to the start of the next.

## Main results

* `State.unflatten_eq_ok`: flattened tallies are read back unchanged
* `LoopInv.withVotes`: the end of one block is a start of the loop for the next
-/

namespace ConsensusClient

/-! ## Slices of a concatenation -/

theorem length_flatMap_const {α : Type} {n : ℕ} {xs : List α} {f : α → List Bool}
    (h : ∀ x ∈ xs, (f x).length = n) : (xs.flatMap f).length = xs.length * n := by
  induction xs with
  | nil => simp
  | cons x xs ih =>
    rw [List.flatMap_cons, List.length_append, h x (by simp), ih fun y hy => h y (by simp [hy]),
      List.length_cons]
    ring

/-- The slice at position `pre.length` of a concatenation of blocks of length `n`. -/
theorem sliceBits_flatMap {α : Type} {n : ℕ} {pre post : List α} {x : α} {f : α → List Bool}
    (h : ∀ y ∈ pre ++ x :: post, (f y).length = n) :
    sliceBits ((pre ++ x :: post).flatMap f) (pre.length * n) ((pre.length + 1) * n) =
      .ok (f x) := by
  have hx : (f x).length = n := h x (by simp)
  have hpre : (pre.flatMap f).length = pre.length * n :=
    length_flatMap_const fun y hy => h y (by simp [hy])
  have hsub : (pre.length + 1) * n - pre.length * n = n := by
    rw [Nat.add_mul, Nat.one_mul, Nat.add_sub_cancel_left]
  unfold sliceBits
  rw [List.flatMap_append, List.flatMap_cons, if_pos, hsub, ← hpre, List.drop_left, ← hx,
    List.take_left]
  rw [List.length_append, List.length_append, hpre, hx, Nat.add_mul, Nat.one_mul]
  omega

/-! ## Reading the tallies back -/

/-- One step of `unflatten`. -/
private theorem unflatten_foldlM {s : State} {f : H256 → List Bool}
    (rest pre : List H256) (m : HashMap H256 (List Bool))
    (hbits : s.justificationsValidators = (pre ++ rest).flatMap f)
    (hlen : ∀ root ∈ pre ++ rest, (f root).length = s.validators.length)
    (hm : ∀ root, m.lookup root = if root ∈ pre then some (f root) else none) :
    ∃ m', (rest.zipIdx pre.length).foldlM s.readTally m = .ok m' ∧
      ∀ root, m'.lookup root = if root ∈ pre ++ rest then some (f root) else none := by
  induction rest generalizing pre m with
  | nil => exact ⟨m, rfl, by simpa using hm⟩
  | cons root rest ih =>
    have happ : pre ++ root :: rest = (pre ++ [root]) ++ rest := by simp
    have hslice := sliceBits_flatMap hlen
    rw [← hbits] at hslice
    -- the tally of the next root joins those already read
    have hm' : ∀ r, (m.insert root (f root)).lookup r =
        if r ∈ pre ++ [root] then some (f r) else none := by
      intro r
      rw [AList.lookup_insert_eq, hm r]
      by_cases hr : r = root
      · simp [hr]
      · simp [hr]
    obtain ⟨m', hfold, hlook⟩ := ih (pre ++ [root]) _ (by rw [hbits, happ])
      (by rw [← happ]; exact hlen) hm'
    refine ⟨m', ?_, by rw [happ]; exact hlook⟩
    rw [List.zipIdx_cons, List.foldlM_cons, State.readTally, hslice]
    rw [List.length_append, List.length_singleton] at hfold
    exact hfold

/-- Tallies of equal length, written out root by root, are read back unchanged. -/
theorem State.unflatten_eq_ok {s : State} {f : H256 → List Bool}
    (hbits : s.justificationsValidators = s.justificationsRoots.flatMap f)
    (hlen : ∀ root ∈ s.justificationsRoots, (f root).length = s.validators.length) :
    ∃ m, s.unflatten = .ok m ∧
      ∀ root, m.lookup root = if root ∈ s.justificationsRoots then some (f root) else none := by
  obtain ⟨m, hm, hlook⟩ := unflatten_foldlM (s := s) s.justificationsRoots [] ∅
    (by simpa using hbits) (by simpa using hlen) (by simp)
  exact ⟨m, hm, by simpa using hlook⟩

/-- The tally `bits` stands in the bitlist at the position of `root`. -/
def State.StoredTally (s : State) (root : H256) (bits : List Bool) : Prop :=
  ∃ i : ℕ, s.justificationsRoots[i]? = some root ∧
    sliceBits s.justificationsValidators (i * s.validators.length)
      ((i + 1) * s.validators.length) = .ok bits

private theorem storedTally_foldlM {s : State} {ps : List (H256 × ℕ)}
    {m m' : HashMap H256 (List Bool)}
    (hps : ∀ p ∈ ps, s.justificationsRoots[p.2]? = some p.1)
    (hm : ∀ root bits, m.lookup root = some bits → s.StoredTally root bits)
    (h : ps.foldlM s.readTally m = .ok m') :
    ∀ root bits, m'.lookup root = some bits → s.StoredTally root bits := by
  induction ps generalizing m with
  | nil =>
    obtain rfl := Except.ok.inj h
    exact hm
  | cons p ps ih =>
    rw [List.foldlM_cons] at h
    obtain ⟨m₁, h₁, h⟩ := bind_eq_ok.mp h
    obtain ⟨bits₁, hb₁, h₁⟩ := bind_eq_ok.mp h₁
    obtain rfl := Except.ok.inj h₁
    refine ih (fun q hq => hps q (by simp [hq])) (fun root bits hl => ?_) h
    rw [AList.lookup_insert_eq] at hl
    split_ifs at hl with hr
    · obtain rfl := Option.some.inj hl
      exact ⟨p.2, hr ▸ hps p (by simp), hb₁⟩
    · exact hm root bits hl

/-- A tally read back is the slice at the position of its root. -/
theorem State.storedTally_of_lookup {s : State} {m : HashMap H256 (List Bool)} {root : H256}
    {bits : List Bool} (h : s.unflatten = .ok m) (hl : m.lookup root = some bits) :
    s.StoredTally root bits :=
  storedTally_foldlM (fun _ hp => List.mem_zipIdx_iff_getElem?.mp hp)
    (fun _ _ hr => by simp at hr) h root bits hl

/-! ## From the end of a block to the start of the next -/

/-- The loop invariant depends on the tallies only through lookups, and on the state only
    through the chain, the registry and the finalized slot at the start of the block. -/
theorem LoopInv.transfer {s s' : State} {ledger : List AggregatedAttestation} {l l' : VoteLoop}
    (inv : LoopInv s ledger l)
    (hhist : s'.historicalBlockHashes = s.historicalBlockHashes)
    (hval : s'.validators = s.validators)
    (hstart : s'.latestFinalized.slot = l.latestFinalized.slot)
    (hj : l'.latestJustified = l.latestJustified)
    (hf : l'.latestFinalized = l.latestFinalized)
    (hw : l'.justifiedSlots = l.justifiedSlots)
    (hl : ∀ root, l'.justifications.lookup root = l.justifications.lookup root) :
    LoopInv s' ledger l' := by
  have hmem : ∀ root, root ∈ l'.justifications ↔ root ∈ l.justifications := by
    intro root
    simp only [AList.mem_iff_exists_lookup, hl]
  -- every part is the old one after rewriting what it mentions
  exact {
    window_length := by rw [hf, hw, hhist]; exact inv.window_length
    finalized_on_chain := by rw [hf, hhist]; exact inv.finalized_on_chain
    justified_on_chain := by rw [hj, hhist]; exact inv.justified_on_chain
    bit_iff := by rw [hf, hw, hhist, hval]; exact inv.bit_iff
    tally_bits := by
      intro t root tally ht hget hlk
      rw [hf] at ht
      rw [hhist] at hget
      rw [hl] at hlk
      rw [hval]
      exact inv.tally_bits t root tally ht hget hlk
    tally_none := by
      intro t root ht hget hb hlk
      rw [hf] at ht hb
      rw [hw] at hb
      rw [hhist] at hget
      rw [hl] at hlk
      exact inv.tally_none t root ht hget hb hlk
    key_pending := by
      intro root hroot
      rw [hf, hw, hhist]
      exact inv.key_pending root ((hmem root).mp hroot)
    finalized_le := by rw [hf, hstart]
    next_justified := by
      -- a new block starts at the finalized slot
      intro hlt
      rw [hf, hstart] at hlt
      omega
    finalized_quorum := by rw [hf, hval]; exact inv.finalized_quorum
    target_on_chain := by rw [hhist]; exact inv.target_on_chain
    voter_lt := by rw [hval]; exact inv.voter_lt
    source_justified := by rw [hhist, hval]; exact inv.source_justified }

/-- The variables the vote loop starts with. -/
theorem State.voteLoop_eq_ok {s : State} {l : VoteLoop} :
    s.voteLoop = .ok l ↔ (∀ root ∈ s.justificationsRoots, root ≠ 0) ∧
      ∃ m, s.unflatten = .ok m ∧
        l = ⟨s.latestJustified, s.latestFinalized, s.justifiedSlots, m⟩ := by
  unfold State.voteLoop
  constructor
  · intro h
    obtain ⟨u, hu, h⟩ := bind_eq_ok.mp h
    obtain ⟨m, hm, h⟩ := bind_eq_ok.mp h
    exact ⟨ensure_eq_ok.mp hu, m, hm, (Except.ok.inj h).symm⟩
  · rintro ⟨hne, m, hm, rfl⟩
    exact bind_eq_ok.mpr ⟨(), ensure_eq_ok.mpr hne, bind_eq_ok.mpr ⟨m, hm, rfl⟩⟩

theorem VoteLoop.mem_sortedRoots {l : VoteLoop} {root : H256} :
    root ∈ l.sortedRoots ↔ root ∈ l.justifications := by
  rw [VoteLoop.sortedRoots, List.mem_insertionSort]
  rfl

/-- After the vote loop the state holds the tallies of the loop, ready for the next block. -/
theorem LoopInv.withVotes {s : State} {ledger : List AggregatedAttestation} {l : VoteLoop}
    (inv : LoopInv s ledger l) :
    ∃ l', (s.withVotes l).voteLoop = .ok l' ∧ LoopInv (s.withVotes l) ledger l' := by
  -- every tally has one bit for each validator, so the slices are read back as they were
  have hlen : ∀ root ∈ l.sortedRoots,
      ((l.justifications.lookup root).getD []).length = s.validators.length := by
    intro root hroot
    have hmem := VoteLoop.mem_sortedRoots.mp hroot
    obtain ⟨bits, hl⟩ := AList.mem_iff_exists_lookup.mp hmem
    obtain ⟨-, t, ht, hget, -⟩ := inv.key_pending root hmem
    rw [hl]
    exact (inv.tally_bits t root bits ht hget hl).1.length_eq
  obtain ⟨m, hm, hlook⟩ := State.unflatten_eq_ok (s := s.withVotes l) rfl hlen
  refine ⟨⟨l.latestJustified, l.latestFinalized, l.justifiedSlots, m⟩, ?_, ?_⟩
  · refine State.voteLoop_eq_ok.mpr ⟨fun root hroot => ?_, m, hm, rfl⟩
    exact (inv.key_pending root (VoteLoop.mem_sortedRoots.mp hroot)).1
  · refine inv.transfer rfl rfl rfl rfl rfl rfl fun root => ?_
    -- the map that is read back has the same entries, in another order
    rw [hlook root]
    split_ifs with hroot
    · obtain ⟨bits, hl⟩ := AList.mem_iff_exists_lookup.mp (VoteLoop.mem_sortedRoots.mp hroot)
      rw [hl]
      rfl
    · have hnot : root ∉ l.justifications := fun h => hroot (VoteLoop.mem_sortedRoots.mpr h)
      exact (AList.lookup_eq_none.mpr hnot).symm

end ConsensusClient
