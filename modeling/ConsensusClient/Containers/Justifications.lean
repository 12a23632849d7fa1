import ConsensusClient.Lib.OrderedMap
import ConsensusClient.Containers.Chain

/-!
# Justifications as a Map

Translation of `get_justifications` and `with_justifications` of `containers/src/state.rs`, which
read the tallies of a state as a map from roots to votes and write such a map back. The two are
inverse to each other, and `with_justifications` writes the same lists as the end of
`process_attestations`.

## Main results

* `State.withJustifications_eq_ok`: what is written for a map
* `State.entries_getJustifications`: what is read back from increasing roots
* `State.flatten_eq_ok`: the vote loop writes the same lists
* `justifications_round_trip`: reading undoes writing, and writing undoes reading
-/

namespace ConsensusClient

/-! ## Reading -/

/-- The votes of all roots, in the order of the roots; a missing bit reads as `false`. -/
def State.tallies (s : State) : List (H256 × List Bool) :=
  let numValidators := s.validators.length
  s.justificationsRoots.zipIdx.map fun p =>
    let start := p.2 * numValidators
    (p.1, (List.range' start numValidators).map fun idx =>
      s.justificationsValidators[idx]?.getD false)

/-- `State::get_justifications` -/
def State.getJustifications (s : State) : BTreeMap H256 (List Bool) := BTreeMap.ofList s.tallies

/-! ## Writing -/

/-- `BitList::set` with a set bit; out of range it panics. -/
def setBit (bits : List Bool) (i : ℕ) : Res (List Bool) :=
  if i < bits.length then .ok (bits.set i true) else crash "index out of bounds"

/-- Sets the bits of `votes` from position `base` on. -/
def writeVotes (base : ℕ) (bits : List Bool) (votes : List Bool) : Res (List Bool) :=
  votes.zipIdx.foldlM
    (fun bits p => if p.1 = true then setBit bits (base + p.2) else pure bits) bits

/-- Writes the votes of the root `p.1`, which is at position `p.2`. -/
def writeTally (map : BTreeMap H256 (List Bool)) (numValidators : ℕ) (bits : List Bool)
    (p : H256 × ℕ) : Res (List Bool) := do
  let v ← expect (map.get p.1) "root present"
  if v.length = numValidators then writeVotes (p.2 * numValidators) bits v
  else crash "vote vector must match validator count"

/-- `State::with_justifications`. The bitlist never outgrows its type, which has room for the
    largest registry under each of `2^18` roots. -/
def State.withJustifications (s : State) (map : BTreeMap H256 (List Bool)) : Res State := do
  let numValidators := s.validators.length
  let roots := map.keys.insertionSort (· ≤ ·)
  let newRoots ← expectOk "within limit" (pushAll historicalRootsLimit [] roots)
  let totalBits := roots.length * numValidators
  let newValidators ←
    roots.zipIdx.foldlM (writeTally map numValidators) (List.replicate totalBits false)
  pure { s with justificationsRoots := newRoots, justificationsValidators := newValidators }

/-! ## What is written -/

section Writing

variable {map : BTreeMap H256 (List Bool)} {n : ℕ}

/-- Setting a bit right after `done`. -/
theorem setBit_length (done rest : List Bool) (bit : Bool) :
    setBit (done ++ bit :: rest) done.length = .ok (done ++ true :: rest) := by
  unfold setBit
  rw [if_pos (by simp), List.set_append_right _ _ le_rfl, Nat.sub_self, List.set_cons_zero]

/-- The votes replace as many unset bits. -/
theorem writeVotes_foldlM {base k m : ℕ} {done : List Bool} (votes : List Bool)
    (hbase : base + k = done.length) :
    (votes.zipIdx k).foldlM
        (fun bits p => if p.1 = true then setBit bits (base + p.2) else pure bits)
        (done ++ List.replicate (votes.length + m) false) =
      .ok (done ++ votes ++ List.replicate m false) := by
  induction votes generalizing k done with
  | nil => simp
  | cons bit votes ih =>
    have hsplit : List.replicate ((bit :: votes).length + m) false =
        false :: List.replicate (votes.length + m) false := by
      rw [List.length_cons, show votes.length + 1 + m = votes.length + m + 1 by omega,
        List.replicate_succ]
    -- the first vote is in place after one round, whether its bit was set or not
    have hround : (if bit = true then
        setBit (done ++ false :: List.replicate (votes.length + m) false) (base + k)
        else pure (done ++ false :: List.replicate (votes.length + m) false)) =
          .ok ((done ++ [bit]) ++ List.replicate (votes.length + m) false) := by
      cases bit with
      | false => simp
      | true => simp [hbase, setBit_length]
    have hnext : base + (k + 1) = (done ++ [bit]).length := by simp [← hbase]; omega
    rw [List.zipIdx_cons, List.foldlM_cons, hsplit, hround, ok_bind, ih hnext]
    simp

/-- The tallies of the remaining roots replace the unset bits. -/
theorem writeTally_foldlM {k : ℕ} {done : List Bool} {votes : H256 → List Bool} (roots : List H256)
    (hget : ∀ root ∈ roots, map.get root = some (votes root) ∧ (votes root).length = n)
    (hdone : done.length = k * n) :
    (roots.zipIdx k).foldlM (writeTally map n)
        (done ++ List.replicate (roots.length * n) false) =
      .ok (done ++ roots.flatMap votes) := by
  induction roots generalizing k done with
  | nil => simp
  | cons root roots ih =>
    obtain ⟨hroot, hlen⟩ := hget root List.mem_cons_self
    have hbits : (root :: roots).length * n = (votes root).length + roots.length * n := by
      rw [List.length_cons, hlen]
      ring
    -- the tally of the first root fills the first part of the unset bits
    have hround : writeTally map n
        (done ++ List.replicate ((root :: roots).length * n) false) (root, k) =
          .ok (done ++ votes root ++ List.replicate (roots.length * n) false) := by
      simp only [writeTally, hroot, expect, ok_bind, hlen, if_true]
      rw [hbits]
      exact writeVotes_foldlM (votes root) (by rw [hdone, Nat.add_zero])
    have hnext : (done ++ votes root).length = (k + 1) * n := by
      rw [List.length_append, hdone, hlen]
      ring
    rw [List.zipIdx_cons, List.foldlM_cons, hround, ok_bind,
      ih (fun r hr => hget r (List.mem_cons_of_mem _ hr)) hnext]
    simp

/-- The votes of a map, one root after the other. -/
theorem flatMap_keys (map : BTreeMap H256 (List Bool)) :
    (map.keys.flatMap fun root => (map.get root).getD []) = map.entries.flatMap Prod.snd := by
  rw [BTreeMap.keys, List.flatMap_map]
  apply List.flatMap_congr
  intro e he
  rw [BTreeMap.get_eq_some_iff.mpr he, Option.getD_some]

/-- A map with one vote for each validator is written as its keys and its votes. -/
theorem State.withJustifications_eq_ok {s : State}
    (hvotes : ∀ e ∈ map.entries, e.2.length = s.validators.length)
    (hlimit : map.entries.length ≤ historicalRootsLimit) :
    s.withJustifications map = .ok { s with
      justificationsRoots := map.keys
      justificationsValidators := map.entries.flatMap Prod.snd } := by
  -- the keys are sorted already, and there is room for them
  have hsort : map.keys.insertionSort (· ≤ ·) = map.keys :=
    (map.pairwise_keys.imp le_of_lt).insertionSort_eq
  have hlen : map.keys.length = map.entries.length := by simp [BTreeMap.keys]
  have hpush : pushAll historicalRootsLimit [] map.keys = .ok map.keys := by
    have hfits : ([] : List H256).length + map.keys.length ≤ historicalRootsLimit := by
      simpa [hlen] using hlimit
    obtain ⟨pushed, hpushed⟩ := (exists_pushAll_iff (Nat.zero_le _)).mpr hfits
    rw [hpushed, pushAll_eq_ok hpushed, List.nil_append]
  have hget : ∀ root ∈ map.keys, map.get root = some ((map.get root).getD []) ∧
      ((map.get root).getD []).length = s.validators.length := by
    intro root hroot
    obtain ⟨votes, hmem⟩ := BTreeMap.mem_keys.mp hroot
    rw [BTreeMap.get_eq_some_iff.mpr hmem, Option.getD_some]
    exact ⟨rfl, hvotes _ hmem⟩
  -- the bits are those of the entries, one root after the other
  have hwrite : map.keys.zipIdx.foldlM (writeTally map s.validators.length)
      (List.replicate (map.keys.length * s.validators.length) false) =
        .ok (map.entries.flatMap Prod.snd) := by
    rw [← flatMap_keys]
    exact writeTally_foldlM map.keys hget (by rw [List.length_nil, Nat.zero_mul])
  simp only [State.withJustifications, hsort, expectOk_eq_ok.mpr hpush, ok_bind, hwrite, pure_eq_ok]

end Writing

/-! ## What is read -/

section Reading

variable {s : State} {map : BTreeMap H256 (List Bool)}

theorem range_getD_eq_slice {bits : List Bool} {start n : ℕ} (h : start + n ≤ bits.length) :
    (List.range' start n).map (fun idx => bits[idx]?.getD false) = (bits.drop start).take n := by
  apply List.ext_getElem
  · simp; omega
  · intro i hi _
    have hlt : i < n := by simpa using hi
    have hget : start + i < bits.length := by omega
    simp [List.getElem?_eq_getElem hget]

/-- With enough bits for all roots, the votes of a root are a slice. -/
theorem State.tallies_eq
    (hbits : s.justificationsValidators.length =
      s.justificationsRoots.length * s.validators.length) :
    s.tallies = s.justificationsRoots.zipIdx.map fun p =>
      (p.1, (s.justificationsValidators.drop (p.2 * s.validators.length)).take
        s.validators.length) := by
  apply List.map_congr_left
  rintro ⟨root, i⟩ hp
  have hi : i < s.justificationsRoots.length :=
    (List.getElem?_eq_some_iff.mp (List.mem_zipIdx_iff_getElem?.mp hp)).1
  -- the slice of the root ends within the bitlist
  have hfits : i * s.validators.length + s.validators.length ≤
      s.justificationsValidators.length := by
    rw [hbits, ← Nat.succ_mul]
    exact Nat.mul_le_mul_right _ hi
  simp only [range_getD_eq_slice hfits]

theorem State.map_fst_tallies (s : State) : s.tallies.map Prod.fst = s.justificationsRoots := by
  simp only [State.tallies, List.map_map, Function.comp_def]
  exact List.zipIdx_map_fst 0 _

/-- The slices of all roots make up the bitlist. -/
theorem flatMap_slices {bits : List Bool} {n : ℕ} (roots : List H256) (k : ℕ) :
    ((roots.zipIdx k).flatMap fun p => (bits.drop (p.2 * n)).take n) =
      (bits.drop (k * n)).take (roots.length * n) := by
  induction roots generalizing k with
  | nil => simp
  | cons root roots ih =>
    rw [List.zipIdx_cons, List.flatMap_cons, ih, List.length_cons,
      show (roots.length + 1) * n = n + roots.length * n by ring, List.take_add, List.drop_drop,
      show k * n + n = (k + 1) * n by ring]

/-- The slices of votes of equal length, written one after the other behind `done`. -/
theorem slices_of_entries {n k : ℕ} {done : List Bool} (entries : List (H256 × List Bool))
    (hvotes : ∀ e ∈ entries, e.2.length = n) (hdone : done.length = k * n) :
    (((entries.map Prod.fst).zipIdx k).map fun p =>
      (p.1, ((done ++ entries.flatMap Prod.snd).drop (p.2 * n)).take n)) = entries := by
  induction entries generalizing k done with
  | nil => rfl
  | cons e entries ih =>
    have hlen : e.2.length = n := hvotes e List.mem_cons_self
    -- the slice of the next root starts where this tally ends
    have hnext : (done ++ e.2).length = (k + 1) * n := by
      rw [List.length_append, hdone, hlen]
      ring
    have hrest := ih (fun e' he' => hvotes e' (List.mem_cons_of_mem _ he')) hnext
    rw [List.append_assoc] at hrest
    rw [List.map_cons, List.zipIdx_cons, List.map_cons, List.flatMap_cons, hrest]
    simp only [List.drop_left' hdone, List.take_left' hlen]

/-- The votes of a map that was written are read back. -/
theorem State.tallies_of_written
    (hroots : s.justificationsRoots = map.keys)
    (hbits : s.justificationsValidators = map.entries.flatMap Prod.snd)
    (hvotes : ∀ e ∈ map.entries, e.2.length = s.validators.length) :
    s.tallies = map.entries := by
  have hlen : s.justificationsValidators.length =
      s.justificationsRoots.length * s.validators.length := by
    rw [hbits, hroots, length_flatMap_const hvotes, BTreeMap.keys, List.length_map]
  rw [State.tallies_eq hlen, hbits, hroots]
  exact slices_of_entries map.entries hvotes (by rw [List.length_nil, Nat.zero_mul])

theorem State.getJustifications_of_written
    (hroots : s.justificationsRoots = map.keys)
    (hbits : s.justificationsValidators = map.entries.flatMap Prod.snd)
    (hvotes : ∀ e ∈ map.entries, e.2.length = s.validators.length) :
    s.getJustifications = map := by
  apply BTreeMap.ext
  rw [State.getJustifications, State.tallies_of_written hroots hbits hvotes,
    BTreeMap.entries_ofList map.sorted]

/-- With increasing roots, the tallies are the entries of the map that is read. -/
theorem State.entries_getJustifications
    (hroots : s.justificationsRoots.Pairwise (· < ·)) :
    s.getJustifications.entries = s.tallies := by
  apply BTreeMap.entries_ofList
  rw [← List.pairwise_map, s.map_fst_tallies]
  exact hroots

/-- A state whose roots increase and that has one bit for each root and validator is written back
    as it was. -/
theorem State.withJustifications_getJustifications
    (hlimit : s.justificationsRoots.length ≤ historicalRootsLimit)
    (hroots : s.justificationsRoots.Pairwise (· < ·))
    (hbits : s.justificationsValidators.length =
      s.justificationsRoots.length * s.validators.length) :
    s.withJustifications s.getJustifications = .ok s := by
  have hread := State.entries_getJustifications hroots
  have hkeys : s.getJustifications.keys = s.justificationsRoots := by
    rw [BTreeMap.keys, hread, s.map_fst_tallies]
  -- the slices put together are the bitlist they were cut from
  have hflat : s.getJustifications.entries.flatMap Prod.snd = s.justificationsValidators := by
    rw [hread, State.tallies_eq hbits, List.flatMap_map, flatMap_slices, Nat.zero_mul,
      List.drop_zero, ← hbits, List.take_length]
  have hlen : ∀ e ∈ s.getJustifications.entries, e.2.length = s.validators.length := by
    intro e he
    rw [hread] at he
    obtain ⟨p, -, rfl⟩ := List.mem_map.mp he
    simp
  have hsize : s.getJustifications.entries.length ≤ historicalRootsLimit := by
    rw [hread, ← List.length_map (f := Prod.fst), s.map_fst_tallies]
    exact hlimit
  rw [State.withJustifications_eq_ok hlen hsize, hkeys, hflat]

end Reading

/-! ## The flattening of the vote loop -/

section Loop

variable {l : VoteLoop} {map : BTreeMap H256 (List Bool)}

theorem VoteLoop.pairwise_sortedRoots (l : VoteLoop) : l.sortedRoots.Pairwise (· < ·) := by
  have hle : l.sortedRoots.Pairwise (· ≤ ·) := List.pairwise_insertionSort _ _
  have hnodup : l.sortedRoots.Nodup :=
    (List.perm_insertionSort _ _).nodup_iff.mpr l.justifications.nodupKeys
  exact hle.imp₂ (fun _ _ h₁ h₂ => lt_of_le_of_ne h₁ h₂) hnodup

/-- The roots of the loop, sorted, are the keys of a map with the same tallies. -/
theorem VoteLoop.sortedRoots_eq_keys
    (hsame : ∀ root, map.get root = l.justifications.lookup root) : l.sortedRoots = map.keys := by
  apply l.pairwise_sortedRoots.eq_of_mem_iff map.pairwise_keys
  intro root
  rw [VoteLoop.mem_sortedRoots, AList.mem_iff_exists_lookup, BTreeMap.mem_keys]
  simp only [← hsame, BTreeMap.get_eq_some_iff]

/-- The vote loop flattens its tallies to the keys and the votes of such a map. -/
theorem State.flatten_eq_ok {s : State}
    (hsame : ∀ root, map.get root = l.justifications.lookup root)
    (hlimit : map.entries.length ≤ historicalRootsLimit) :
    ∃ flattened, s.flatten l = .ok flattened ∧ flattened.justificationsRoots = map.keys ∧
      flattened.justificationsValidators = map.entries.flatMap Prod.snd := by
  have hroots := VoteLoop.sortedRoots_eq_keys hsame
  have hsize : l.sortedRoots.length ≤ historicalRootsLimit := by
    rw [hroots, BTreeMap.keys, List.length_map]
    exact hlimit
  refine ⟨s.withVotes l, ?_, hroots, ?_⟩
  · rw [State.flatten, ensure_of hsize, ok_bind, pure_eq_ok]
  · rw [← flatMap_keys]
    simp only [State.withVotes, hroots, hsame]

end Loop

/-! ## Inverse to each other -/

/-- Reading undoes writing, for every map with one vote for each validator; writing undoes reading,
    for every state with increasing roots and one bit for each root and validator; and the vote
    loop writes the same two lists for the same tallies. -/
theorem justifications_round_trip (s : State) :
    (∀ map : BTreeMap H256 (List Bool),
      (∀ root votes, map.get root = some votes → votes.length = s.validators.length) →
      map.entries.length ≤ historicalRootsLimit →
      ∃ s', s.withJustifications map = .ok s' ∧ s'.getJustifications = map) ∧
    (s.justificationsRoots.length ≤ historicalRootsLimit →
      s.justificationsRoots.Pairwise (· < ·) →
      s.justificationsValidators.length =
        s.justificationsRoots.length * s.validators.length →
      s.withJustifications s.getJustifications = .ok s) ∧
    ∀ (l : VoteLoop) (map : BTreeMap H256 (List Bool)),
      (∀ root, map.get root = l.justifications.lookup root) →
      (∀ root votes, map.get root = some votes → votes.length = s.validators.length) →
      map.entries.length ≤ historicalRootsLimit →
      ∃ flattened written, s.flatten l = .ok flattened ∧ s.withJustifications map = .ok written ∧
        flattened.justificationsRoots = written.justificationsRoots ∧
        flattened.justificationsValidators = written.justificationsValidators := by
  have hentries : ∀ map : BTreeMap H256 (List Bool),
      (∀ root votes, map.get root = some votes → votes.length = s.validators.length) →
      ∀ e ∈ map.entries, e.2.length = s.validators.length :=
    fun map hvotes e he => hvotes e.1 e.2 (BTreeMap.get_eq_some_iff.mpr he)
  refine ⟨?_, State.withJustifications_getJustifications, ?_⟩
  · intro map hvotes hlimit
    have hlen := hentries map hvotes
    exact ⟨_, State.withJustifications_eq_ok hlen hlimit,
      State.getJustifications_of_written rfl rfl hlen⟩
  · intro l map hsame hvotes hlimit
    obtain ⟨flattened, hflattened, hroots, hbits⟩ := State.flatten_eq_ok hsame hlimit
    exact ⟨flattened, _, hflattened,
      State.withJustifications_eq_ok (hentries map hvotes) hlimit, hroots, hbits⟩

/-- Two validators and the votes under two roots, written and read back. -/
theorem justifications_of_two_roots :
    let s : State := {
      config := ⟨0⟩, slot := 4, latestBlockHeader := ⟨3, 1, 8, 0, 0⟩
      latestJustified := ⟨6, 0⟩, latestFinalized := ⟨6, 0⟩
      historicalBlockHashes := [6, 7, 8], justifiedSlots := [false, false]
      validators := [⟨0, 0⟩, ⟨1, 1⟩], justificationsRoots := [], justificationsValidators := [] }
    let map : BTreeMap H256 (List Bool) := ⟨[(7, [true, false]), (8, [false, true])], by decide⟩
    ∃ s', s.withJustifications map = .ok s' ∧ s'.getJustifications = map ∧
      s'.withJustifications s'.getJustifications = .ok s' ∧
      s'.justificationsRoots = [7, 8] ∧
      s'.justificationsValidators = [true, false, false, true] := by
  intro s map
  have hvotes : ∀ root votes, map.get root = some votes → votes.length = s.validators.length := by
    intro root votes h
    have hmem : (root, votes) ∈ map.entries := BTreeMap.get_eq_some_iff.mp h
    exact (by decide : ∀ e ∈ map.entries, e.2.length = s.validators.length) _ hmem
  have hlimit : map.entries.length ≤ historicalRootsLimit := by decide
  have hwritten : s.withJustifications map = .ok { s with
      justificationsRoots := [7, 8]
      justificationsValidators := [true, false, false, true] } := by decide
  obtain ⟨s', hs', hread⟩ := (justifications_round_trip s).1 map hvotes hlimit
  obtain rfl := Except.ok.inj (hwritten.symm.trans hs')
  have hback := (justifications_round_trip { s with
      justificationsRoots := [7, 8]
      justificationsValidators := [true, false, false, true] }).2.1 (by decide) (by decide)
      (by decide)
  exact ⟨_, hs', hread, hback, rfl, rfl⟩

end ConsensusClient
