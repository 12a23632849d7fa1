import ConsensusClient.Containers.Flatten

/-!
# Chains of Blocks

Runs of the state transition from a genesis state. `ChainInv` ties a state to the ledger of all
votes that counted on its chain and to the block roots in its history; it holds at genesis and
is kept by every block (`ChainInv.stateTransition`), hence in every state a chain reaches
(`ChainInv.runChain`).

## Main results

* `State.stateTransition_eq_ok`: a successful transition, taken apart
* `ChainInv.loopInv_beforeVotes`: the vote loop of every block starts from a ledger
* `ChainInv.stateTransition`, `ChainInv.runChain`: the chain invariant along blocks and chains
-/

namespace ConsensusClient

/-! ## Lists with a limit -/

theorem pushLimited_eq_ok {α : Type} {limit : ℕ} {l r : List α} {x : α} :
    pushLimited limit l x = .ok r ↔ l.length < limit ∧ r = l ++ [x] := by
  unfold pushLimited
  split_ifs with h
  · simp [h, eq_comm]
  · simp [h]

theorem pushAll_eq_ok {α : Type} {limit : ℕ} {l r xs : List α}
    (h : pushAll limit l xs = .ok r) : r = l ++ xs := by
  induction xs generalizing l with
  | nil =>
    obtain rfl := Except.ok.inj h
    simp
  | cons x xs ih =>
    unfold pushAll at h
    rw [List.foldlM_cons] at h
    obtain ⟨l₁, h₁, h⟩ := bind_eq_ok.mp h
    obtain ⟨-, rfl⟩ := pushLimited_eq_ok.mp h₁
    rw [ih h, List.append_assoc, List.singleton_append]

theorem returns_pushLimited {α : Type} (limit : ℕ) (l : List α) (x : α) :
    (pushLimited limit l x).Returns :=
  returns_ite (fun _ => returns_ok _) fun _ => returns_bail _

/-- Pushing succeeds as long as the limit is kept. -/
theorem exists_pushAll_iff {α : Type} {limit : ℕ} {l xs : List α} (hl : l.length ≤ limit) :
    (∃ r, pushAll limit l xs = .ok r) ↔ l.length + xs.length ≤ limit := by
  unfold pushAll
  induction xs generalizing l with
  | nil => exact iff_of_true ⟨l, rfl⟩ (by simpa using hl)
  | cons x xs ih =>
    rw [List.foldlM_cons]
    by_cases hlt : l.length < limit
    · rw [pushLimited_eq_ok.mpr ⟨hlt, rfl⟩, ok_bind, ih (by simp; omega)]
      simp
      omega
    · refine iff_of_false ?_ (by simp; omega)
      rintro ⟨r, h⟩
      obtain ⟨l₁, h₁, -⟩ := bind_eq_ok.mp h
      exact hlt (pushLimited_eq_ok.mp h₁).1

theorem returns_pushAll {α : Type} (limit : ℕ) (l xs : List α) :
    (pushAll limit l xs).Returns := by
  unfold pushAll
  induction xs generalizing l with
  | nil => exact returns_ok l
  | cons x xs ih =>
    rw [List.foldlM_cons]
    exact returns_bind (returns_pushLimited limit l x) fun l₁ _ => ih l₁

/-! ## Slots and header -/

/-- The header of the latest block with its state root filled in, as the first empty slot after
    the block does. -/
def State.sealedHeader (E : Env) (s : State) : BlockHeader :=
  { s.latestBlockHeader with stateRoot := E.hashState s }

/-- The root of the latest block of a state. -/
def State.blockRoot (E : Env) (s : State) : H256 := E.hashHeader (s.sealedHeader E)

/-- The state at slot `slot`, without a block since. -/
def State.advanced (E : Env) (s : State) (slot : ℕ) : State :=
  { s with latestBlockHeader := s.sealedHeader E, slot }

private theorem iterate_processSlot {E : Env} (hE : E.HashIdeal) {s : State}
    (hu : s.latestBlockHeader.stateRoot = 0) (k : ℕ) :
    (State.processSlot E)^[k + 1] s = s.advanced E (s.slot + (k + 1)) := by
  induction k with
  | zero => simp [State.processSlot, State.advanced, State.sealedHeader, hu]
  | succ k ih =>
    rw [Function.iterate_succ_apply', ih]
    simp [State.processSlot, State.advanced, State.sealedHeader, hE.state_ne_zero, Nat.add_assoc]

private theorem iterate_processSlot_frame (E : Env) (k : ℕ) (s : State) :
    ∃ header : BlockHeader, header.slot = s.latestBlockHeader.slot ∧
      (State.processSlot E)^[k] s =
        { s with latestBlockHeader := header, slot := s.slot + k } := by
  induction k with
  | zero => exact ⟨s.latestBlockHeader, rfl, rfl⟩
  | succ k ih =>
    obtain ⟨header, hslot, hk⟩ := ih
    rw [Function.iterate_succ_apply', hk]
    unfold State.processSlot
    refine ⟨_, ?_, rfl⟩
    simp only
    split_ifs
    · exact hslot
    · exact hslot

/-- Slot processing changes the slot and the state root of the header only. -/
theorem State.processSlots_frame {E : Env} {s s' : State} {slot : ℕ}
    (h : s.processSlots E slot = .ok s') :
    s.slot < slot ∧ ∃ header : BlockHeader, header.slot = s.latestBlockHeader.slot ∧
      s' = { s with latestBlockHeader := header, slot } := by
  obtain ⟨_, hlt, h⟩ := bind_eq_ok.mp h
  have hlt := ensure_eq_ok.mp hlt
  obtain ⟨header, hslot, hk⟩ := iterate_processSlot_frame E (slot - s.slot) s
  refine ⟨hlt, header, hslot, ?_⟩
  rw [← Except.ok.inj h, hk, Nat.add_sub_cancel' hlt.le]

/-- Slot processing after a block seals its header and moves the slot. -/
theorem State.processSlots_eq_ok {E : Env} (hE : E.HashIdeal) {s s' : State} {slot : ℕ}
    (hu : s.latestBlockHeader.stateRoot = 0) :
    s.processSlots E slot = .ok s' ↔ s.slot < slot ∧ s' = s.advanced E slot := by
  unfold State.processSlots
  constructor
  · intro h
    obtain ⟨u, hlt, h⟩ := bind_eq_ok.mp h
    have hlt := ensure_eq_ok.mp hlt
    -- at least one slot passes, and the first one seals the header
    obtain ⟨k, hk⟩ : ∃ k, slot - s.slot = k + 1 := ⟨slot - s.slot - 1, by omega⟩
    rw [hk, iterate_processSlot hE hu] at h
    refine ⟨hlt, ?_⟩
    rw [← Except.ok.inj h, ← hk]
    congr 1
    omega
  · rintro ⟨hlt, rfl⟩
    obtain ⟨k, hk⟩ : ∃ k, slot - s.slot = k + 1 := ⟨slot - s.slot - 1, by omega⟩
    refine bind_eq_ok.mpr ⟨(), ensure_eq_ok.mpr hlt, ?_⟩
    rw [hk, iterate_processSlot hE hu, pure_eq_ok, ← hk]
    congr 2
    omega

/-- The state with the header of `block` applied. -/
def State.withHeader (E : Env) (s : State) (block : Block) : State :=
  let anchor : Checkpoint := ⟨E.hashHeader s.latestBlockHeader, 0⟩
  { s with
    historicalBlockHashes := s.historicalBlockHashes ++ E.hashHeader s.latestBlockHeader ::
      List.replicate (block.slot - s.latestBlockHeader.slot - 1) 0
    justifiedSlots := s.justifiedSlots.extendToSlot s.latestFinalized.slot (block.slot - 1)
    latestJustified := if s.latestBlockHeader.slot = 0 then anchor else s.latestJustified
    latestFinalized := if s.latestBlockHeader.slot = 0 then anchor else s.latestFinalized
    latestBlockHeader := {
      slot := block.slot, proposerIndex := block.proposerIndex, parentRoot := block.parentRoot
      bodyRoot := E.hashBody block.body, stateRoot := 0 } }

/-- What a header must satisfy, and what it does to the state. -/
theorem State.processBlockHeader_eq_ok {E : Env} {s s' : State} {block : Block}
    (h : s.processBlockHeader E block = .ok s') :
    s' = s.withHeader E block ∧ block.slot = s.slot ∧ s.latestBlockHeader.slot < block.slot ∧
      s.validators.length ≠ 0 ∧ s.slot % s.validators.length = block.proposerIndex ∧
      block.parentRoot = E.hashHeader s.latestBlockHeader := by
  unfold State.processBlockHeader at h
  -- the five checks, and the two pushes onto the history
  obtain ⟨_, h₁, h⟩ := bind_eq_ok.mp h
  obtain ⟨_, h₂, h⟩ := bind_eq_ok.mp h
  obtain ⟨b, h₃, h⟩ := bind_eq_ok.mp h
  obtain ⟨_, h₄, h⟩ := bind_eq_ok.mp h
  obtain ⟨_, h₅, h⟩ := bind_eq_ok.mp h
  obtain ⟨hashes₁, h₆, h⟩ := bind_eq_ok.mp h
  obtain ⟨hashes₂, h₇, h⟩ := bind_eq_ok.mp h
  obtain ⟨-, rfl⟩ := pushLimited_eq_ok.mp h₆
  obtain rfl := pushAll_eq_ok h₇
  obtain rfl := Except.ok.inj h
  rw [ensure_eq_ok] at h₁ h₂ h₄ h₅
  subst h₄
  unfold isProposerFor at h₃
  split_ifs at h₃ with hn
  · simp at h₃
  · refine ⟨?_, h₁, h₂, hn, by simpa using h₃, h₅⟩
    simp [State.withHeader]

/-- A header never makes the transition panic, as long as there is a validator. -/
theorem State.returns_processBlockHeader {E : Env} {s : State} {block : Block}
    (hn : s.validators.length ≠ 0) : (s.processBlockHeader E block).Returns := by
  unfold State.processBlockHeader
  refine returns_bind (returns_ensure _ _) fun _ _ => ?_
  refine returns_bind (returns_ensure _ _) fun _ _ => ?_
  refine returns_bind ?_ fun _ _ => ?_
  · unfold isProposerFor
    rw [if_neg hn]
    exact returns_ok _
  refine returns_bind (returns_ensure _ _) fun _ _ => ?_
  refine returns_bind (returns_ensure _ _) fun _ _ => ?_
  refine returns_bind (returns_pushLimited _ _ _) fun _ _ => ?_
  exact returns_bind (returns_pushAll _ _ _) fun _ _ => returns_ok _

/-! ## Block roots in the history -/

/-- Every entry of the history is the zero hash of an empty slot or the root of a block at that
    slot whose own state has the history before it. -/
def ChainRoots (E : Env) (hashes : List H256) : Prop :=
  ∀ (t : ℕ) (root : H256), hashes[t]? = some root → root = 0 ∨
    ∃ p : State, p.latestBlockHeader.slot = t ∧ root = p.blockRoot E ∧
      p.historicalBlockHashes = hashes.take t

/-- Blocks at different slots have different roots. -/
theorem ChainRoots.distinctRoots {E : Env} (hE : E.HashIdeal) {hashes : List H256}
    (h : ChainRoots E hashes) : DistinctRoots hashes := by
  intro i j root hne hi hj
  rcases h i root hi with rfl | ⟨p, hp, hroot, -⟩
  · exact absurd rfl hne
  rcases h j root hj with rfl | ⟨q, hq, hroot', -⟩
  · exact absurd rfl hne
  rw [hroot] at hroot'
  have heq := congrArg BlockHeader.slot (hE.header_injective hroot')
  simp only [State.sealedHeader] at heq
  rw [← hp, ← hq, heq]

/-- The history grows by the root of the latest block and the empty slots after it. -/
theorem ChainRoots.extend {E : Env} {s : State} (h : ChainRoots E s.historicalBlockHashes)
    (hlen : s.historicalBlockHashes.length = s.latestBlockHeader.slot) (k : ℕ) :
    ChainRoots E (s.historicalBlockHashes ++ s.blockRoot E :: List.replicate k 0) := by
  intro t root hget
  rcases Nat.lt_trichotomy t s.historicalBlockHashes.length with hlt | heq | hgt
  · -- an old entry
    rw [List.getElem?_append_left hlt] at hget
    rcases h t root hget with h0 | ⟨p, hp, hroot, htake⟩
    · exact Or.inl h0
    · refine Or.inr ⟨p, hp, hroot, ?_⟩
      rw [htake, List.take_append_of_le_length hlt.le]
  · -- the latest block, whose own state is `s`
    subst heq
    rw [List.getElem?_append_right le_rfl, Nat.sub_self] at hget
    refine Or.inr ⟨s, hlen.symm, (Option.some.inj hget).symm, ?_⟩
    rw [List.take_left]
  · -- an empty slot after it
    rw [List.getElem?_append_right hgt.le, List.getElem?_cons, if_neg (by omega),
      List.getElem?_replicate] at hget
    split_ifs at hget with hk
    exact Or.inl (Option.some.inj hget).symm

/-! ## The chain invariant -/

/-- A state before the first block. -/
structure State.Fresh (s : State) : Prop where
  justified_slot : s.latestJustified.slot = 0
  finalized_slot : s.latestFinalized.slot = 0
  no_window : s.justifiedSlots = []
  no_tallies : s.justificationsRoots = []

/-- A state reached by a chain whose counted votes are `ledger`. -/
structure ChainInv (E : Env) (s : State) (ledger : List AggregatedAttestation) : Prop where
  validators_pos : 0 < s.validators.length
  slot_eq : s.slot = s.latestBlockHeader.slot
  unsealed : s.latestBlockHeader.stateRoot = 0
  history_length : s.historicalBlockHashes.length = s.latestBlockHeader.slot
  chain_roots : ChainRoots E s.historicalBlockHashes
  fresh : s.latestBlockHeader.slot = 0 → s.Fresh ∧ ledger = []
  settled : s.latestBlockHeader.slot ≠ 0 → ∃ l, s.voteLoop = .ok l ∧ LoopInv s ledger l

/-- The state on which the votes of a block are processed. -/
def State.beforeVotes (E : Env) (s : State) (block : Block) : State :=
  (s.advanced E block.slot).withHeader E block

section BeforeVotes

variable {E : Env} {s : State} {ledger : List AggregatedAttestation} {block : Block}

theorem State.history_beforeVotes : (s.beforeVotes E block).historicalBlockHashes =
    s.historicalBlockHashes ++ s.blockRoot E ::
      List.replicate (block.slot - s.latestBlockHeader.slot - 1) 0 := rfl

theorem State.getElem?_beforeVotes_of_lt {t : ℕ} (h : t < s.historicalBlockHashes.length) :
    (s.beforeVotes E block).historicalBlockHashes[t]? = s.historicalBlockHashes[t]? := by
  rw [State.history_beforeVotes, List.getElem?_append_left h]

/-- An entry of the old history is an entry of the new one. -/
theorem State.getElem?_beforeVotes {t : ℕ} {root : H256}
    (h : s.historicalBlockHashes[t]? = some root) :
    (s.beforeVotes E block).historicalBlockHashes[t]? = some root := by
  rw [State.getElem?_beforeVotes_of_lt (List.getElem?_eq_some_iff.mp h).1, h]

namespace ChainInv

/-- Before the votes of a block the history reaches up to the slot before the block. -/
theorem length_beforeVotes (inv : ChainInv E s ledger) (hlt : s.slot < block.slot) :
    (s.beforeVotes E block).historicalBlockHashes.length = block.slot := by
  have h₁ := inv.history_length
  have h₂ := inv.slot_eq
  rw [State.history_beforeVotes]
  simp only [List.length_append, List.length_cons, List.length_replicate]
  omega

theorem chainRoots_beforeVotes (inv : ChainInv E s ledger) (block : Block) :
    ChainRoots E (s.beforeVotes E block).historicalBlockHashes :=
  inv.chain_roots.extend inv.history_length _

/-- The first block starts the vote loop with the genesis block finalized. -/
theorem loopInv_first (inv : ChainInv E s ledger) (hlt : s.slot < block.slot)
    (h0 : s.latestBlockHeader.slot = 0) :
    ∃ l, (s.beforeVotes E block).voteLoop = .ok l ∧
      LoopInv (s.beforeVotes E block) ledger l := by
  obtain ⟨hfresh, rfl⟩ := inv.fresh h0
  have hhist : s.historicalBlockHashes = [] := by
    rw [← List.length_eq_zero_iff, inv.history_length, h0]
  have hlen := inv.length_beforeVotes hlt
  -- the header of the first block makes the genesis block justified and finalized
  let anchor : Checkpoint := ⟨s.blockRoot E, 0⟩
  have hroot : (s.beforeVotes E block).historicalBlockHashes[0]? = some (s.blockRoot E) := by
    rw [State.history_beforeVotes, hhist]
    rfl
  have hfin : (s.beforeVotes E block).latestFinalized = anchor := by
    simp [State.beforeVotes, State.withHeader, State.advanced, State.sealedHeader, h0, anchor,
      State.blockRoot]
  have hjust : (s.beforeVotes E block).latestJustified = anchor := by
    simp [State.beforeVotes, State.withHeader, State.advanced, State.sealedHeader, h0, anchor,
      State.blockRoot]
  have hwin : (s.beforeVotes E block).justifiedSlots =
      JustifiedSlots.extendToSlot [] 0 (block.slot - 1) := by
    simp [State.beforeVotes, State.withHeader, State.advanced, hfresh.no_window,
      hfresh.finalized_slot]
  -- the window is new, so all its bits are false
  have hbit := fun u => JustifiedSlots.extendToSlot_bitAt [] (f := 0) (t := block.slot - 1) u
    (by simp)
  refine ⟨⟨anchor, anchor, JustifiedSlots.extendToSlot [] 0 (block.slot - 1), ∅⟩, ?_, ?_⟩
  · refine State.voteLoop_eq_ok.mpr ⟨?_, ∅, ?_, by rw [hfin, hjust, hwin]⟩
    · intro root hr
      exact absurd (hfresh.no_tallies ▸ hr) (by simp)
    · unfold State.unflatten
      rw [show (s.beforeVotes E block).justificationsRoots = [] from hfresh.no_tallies]
      rfl
  · exact {
      window_length := by
        rw [hlen, (hbit 0).1]
        simp only [anchor]
        omega
      finalized_on_chain := hroot
      justified_on_chain := hroot
      bit_iff := by
        intro t root ht hget
        have hn : 0 < (s.beforeVotes E block).validators.length := inv.validators_pos
        have htlt := (List.getElem?_eq_some_iff.mp hget).1
        rw [hlen] at htlt
        simp only [anchor] at ht ⊢
        -- no vote was counted yet, and no quorum is empty
        rw [(hbit t).2, if_neg (by simp; omega), if_pos (by omega), voters_nil]
        simp only [Option.some.injEq, Bool.false_eq_true, false_iff]
        exact not_quorum_empty hn
      tally_bits := fun t root tally _ _ hl => by simp at hl
      tally_none := fun t root _ _ _ _ => rfl
      key_pending := fun root hr => absurd hr (AList.notMem_empty root)
      finalized_le := by rw [hfin]
      next_justified := by
        intro hlt'
        rw [hfin] at hlt'
        exact absurd hlt' (lt_irrefl _)
      finalized_quorum := Or.inl rfl
      target_on_chain := fun a ha => absurd ha (by simp)
      voter_lt := fun a ha => absurd ha (by simp)
      source_justified := fun pre a post h => absurd h (by simp) }

/-- A later block starts the vote loop with the window extended to the slot before it. -/
theorem loopInv_later (hE : E.HashIdeal) (inv : ChainInv E s ledger) (hlt : s.slot < block.slot)
    (h0 : s.latestBlockHeader.slot ≠ 0) :
    ∃ l, (s.beforeVotes E block).voteLoop = .ok l ∧
      LoopInv (s.beforeVotes E block) ledger l := by
  obtain ⟨l, hl, linv⟩ := inv.settled h0
  obtain ⟨hne, m, hm, rfl⟩ := State.voteLoop_eq_ok.mp hl
  have hlen := inv.length_beforeVotes hlt
  have hdist := (inv.chainRoots_beforeVotes block).distinctRoots hE
  have hold := inv.history_length
  have hslot := inv.slot_eq
  have hwlen := linv.window_length
  simp only at hwlen
  -- after the first block the header leaves the checkpoints alone
  have hfin : (s.beforeVotes E block).latestFinalized = s.latestFinalized := by
    simp [State.beforeVotes, State.withHeader, State.advanced, State.sealedHeader, h0]
  have hjust : (s.beforeVotes E block).latestJustified = s.latestJustified := by
    simp [State.beforeVotes, State.withHeader, State.advanced, State.sealedHeader, h0]
  have hbit := fun u => JustifiedSlots.extendToSlot_bitAt s.justifiedSlots
    (f := s.latestFinalized.slot) (t := block.slot - 1) u (by omega)
  -- the slots of the old history keep their bit, and those after it have none set
  have hbit_old : ∀ t, t < s.historicalBlockHashes.length →
      (s.justifiedSlots.extendToSlot s.latestFinalized.slot (block.slot - 1)).bitAt
        s.latestFinalized.slot t = s.justifiedSlots.bitAt s.latestFinalized.slot t := by
    intro t ht
    rw [(hbit t).2, if_pos (by omega)]
  have hbit_new : ∀ t, s.historicalBlockHashes.length ≤ t → t < block.slot →
      (s.justifiedSlots.extendToSlot s.latestFinalized.slot (block.slot - 1)).bitAt
        s.latestFinalized.slot t = some false := by
    intro t ht ht'
    rw [(hbit t).2, if_neg (by omega), if_pos (by omega)]
  refine ⟨⟨s.latestJustified, s.latestFinalized,
    s.justifiedSlots.extendToSlot s.latestFinalized.slot (block.slot - 1), m⟩, ?_, ?_⟩
  · exact State.voteLoop_eq_ok.mpr ⟨hne, m, hm, by rw [hfin, hjust]; rfl⟩
  · exact {
      window_length := by
        rw [hlen, (hbit 0).1]
        simp only
        omega
      finalized_on_chain := State.getElem?_beforeVotes linv.finalized_on_chain
      justified_on_chain := State.getElem?_beforeVotes linv.justified_on_chain
      bit_iff := by
        intro t root ht hget
        have htlt := (List.getElem?_eq_some_iff.mp hget).1
        rw [hlen] at htlt
        -- an old slot, or a new one that nobody could vote for
        rcases Nat.lt_or_ge t s.historicalBlockHashes.length with hto | htn
        · rw [hbit_old t hto]
          rw [State.getElem?_beforeVotes_of_lt hto] at hget
          exact linv.bit_iff t root ht hget
        · rw [hbit_new t htn htlt, linv.voters_eq_empty htn root]
          simp only [Option.some.injEq, Bool.false_eq_true, false_iff]
          exact not_quorum_empty inv.validators_pos
      tally_bits := by
        intro t root tally ht hget hlk
        obtain ⟨hnz, t', ht', hget', -⟩ :=
          linv.key_pending root (AList.mem_iff_exists_lookup.mpr ⟨tally, hlk⟩)
        obtain rfl := hdist t t' root hnz hget (State.getElem?_beforeVotes hget')
        exact linv.tally_bits t root tally ht hget' hlk
      tally_none := by
        intro t root ht hget hb hlk
        rcases Nat.lt_or_ge t s.historicalBlockHashes.length with hto | htn
        · rw [hbit_old t hto] at hb
          rw [State.getElem?_beforeVotes_of_lt hto] at hget
          exact linv.tally_none t root ht hget hb hlk
        · exact linv.voters_eq_empty htn root
      key_pending := by
        intro root hr
        obtain ⟨hnz, t, ht, hget, hb⟩ := linv.key_pending root hr
        refine ⟨hnz, t, ht, State.getElem?_beforeVotes hget, ?_⟩
        rw [hbit_old t (List.getElem?_eq_some_iff.mp hget).1]
        exact hb
      finalized_le := by rw [hfin]
      next_justified := by
        intro hlt'
        rw [hfin] at hlt'
        exact absurd hlt' (lt_irrefl _)
      finalized_quorum := linv.finalized_quorum
      target_on_chain := fun a ha => State.getElem?_beforeVotes (linv.target_on_chain a ha)
      voter_lt := linv.voter_lt
      source_justified := by
        intro pre a post h
        obtain ⟨hlt', c, hle, hget, hq⟩ := linv.source_justified pre a post h
        exact ⟨hlt', c, hle, State.getElem?_beforeVotes hget, hq⟩ }

/-- The vote loop of every block starts from a ledger. -/
theorem loopInv_beforeVotes (hE : E.HashIdeal) (inv : ChainInv E s ledger)
    (hlt : s.slot < block.slot) :
    ∃ l, (s.beforeVotes E block).voteLoop = .ok l ∧
      LoopInv (s.beforeVotes E block) ledger l := by
  by_cases h0 : s.latestBlockHeader.slot = 0
  · exact inv.loopInv_first hlt h0
  · exact inv.loopInv_later hE hlt h0

end ChainInv

end BeforeVotes

/-! ## Runs -/

/-- The state after a chain of blocks. -/
def State.runChain (E : Env) (s : State) (blocks : List SignedBlockWithAttestation) : Res State :=
  blocks.foldlM (fun s sb => s.stateTransition E sb true) s

/-- The variables of the vote loop of `block` after the attestations `done`. -/
def State.loopAfter (E : Env) (s : State) (block : Block) (done : List AggregatedAttestation) :
    Res VoteLoop := do
  let s ← s.processSlots E block.slot
  let s ← s.processBlockHeader E block
  let l ← s.voteLoop
  done.foldlM s.processAttestation l

/-- The attestations of `block` that passed all skip checks when they were processed. -/
def State.blockVotes (E : Env) (s : State) (block : Block) : List AggregatedAttestation :=
  match (do
    let s ← s.processSlots E block.slot
    let s ← s.processBlockHeader E block
    let l ← s.voteLoop
    pure (s.countedVotes l block.body.attestations) : Res (List AggregatedAttestation)) with
  | .ok votes => votes
  | .error _ => []

/-- The attestations of a chain that passed all skip checks when they were processed. -/
def State.chainVotes (E : Env) (s : State) : List SignedBlockWithAttestation →
    List AggregatedAttestation
  | [] => []
  | sb :: rest =>
    match s.stateTransition E sb true with
    | .ok s' => s.blockVotes E sb.block ++ s'.chainVotes E rest
    | .error _ => []

theorem State.chainVotes_cons {E : Env} {s s' : State} {sb : SignedBlockWithAttestation}
    {rest : List SignedBlockWithAttestation} (h : s.stateTransition E sb true = .ok s') :
    s.chainVotes E (sb :: rest) = s.blockVotes E sb.block ++ s'.chainVotes E rest := by
  rw [State.chainVotes, h]

theorem State.runChain_cons {E : Env} {s s' : State} {sb : SignedBlockWithAttestation}
    {rest : List SignedBlockWithAttestation} (h : s.runChain E (sb :: rest) = .ok s') :
    ∃ s₁, s.stateTransition E sb true = .ok s₁ ∧ s₁.runChain E rest = .ok s' := by
  unfold State.runChain at h
  rw [List.foldlM_cons] at h
  exact bind_eq_ok.mp h

theorem State.runChain_append {E : Env} {s : State}
    {blocks blocks' : List SignedBlockWithAttestation} :
    s.runChain E (blocks ++ blocks') =
      (do let s₁ ← s.runChain E blocks; s₁.runChain E blocks') := by
  unfold State.runChain
  rw [List.foldlM_append]

theorem State.chainVotes_append {E : Env} {s s₁ : State}
    {blocks blocks' : List SignedBlockWithAttestation} (h : s.runChain E blocks = .ok s₁) :
    s.chainVotes E (blocks ++ blocks') = s.chainVotes E blocks ++ s₁.chainVotes E blocks' := by
  induction blocks generalizing s with
  | nil =>
    obtain rfl := Except.ok.inj h
    rfl
  | cons sb rest ih =>
    obtain ⟨s₂, h₂, h⟩ := State.runChain_cons h
    rw [List.cons_append, State.chainVotes_cons h₂, State.chainVotes_cons h₂, ih h,
      List.append_assoc]

/-! ## The parts of a successful transition -/

/-- A successful state transition, taken apart. -/
structure BlockStep (E : Env) (s : State) (block : Block) (s' : State) (l l' : VoteLoop) :
    Prop where
  slot_lt : s.slot < block.slot
  proposer : block.slot % s.validators.length = block.proposerIndex
  parent_root : block.parentRoot = s.blockRoot E
  no_duplicates : hasDuplicateData E block.body.attestations = false
  start : (s.beforeVotes E block).voteLoop = .ok l
  run : block.body.attestations.foldlM (s.beforeVotes E block).processAttestation l = .ok l'
  result : s' = (s.beforeVotes E block).withVotes l'
  state_root : block.stateRoot = E.hashState s'

/-- Slot and header processing lead to `beforeVotes`. -/
theorem State.header_eq_ok {E : Env} (hE : E.HashIdeal) {s s₁ s₂ : State} {block : Block}
    (hu : s.latestBlockHeader.stateRoot = 0) (h₁ : s.processSlots E block.slot = .ok s₁)
    (h₂ : s₁.processBlockHeader E block = .ok s₂) :
    s₂ = s.beforeVotes E block ∧ s.slot < block.slot ∧
      block.slot % s.validators.length = block.proposerIndex ∧
      block.parentRoot = s.blockRoot E := by
  obtain ⟨hlt, rfl⟩ := (State.processSlots_eq_ok hE hu).mp h₁
  obtain ⟨rfl, -, -, -, hprop, hparent⟩ := State.processBlockHeader_eq_ok h₂
  exact ⟨rfl, hlt, hprop, hparent⟩

/-- A successful transition went through all of its parts. -/
theorem State.stateTransition_eq_ok {E : Env} {s s' : State} {sb : SignedBlockWithAttestation}
    {valid : Bool} (h : s.stateTransition E sb valid = .ok s') :
    ∃ s₁ s₂, s.processSlots E sb.block.slot = .ok s₁ ∧
      s₁.processBlockHeader E sb.block = .ok s₂ ∧
      hasDuplicateData E sb.block.body.attestations = false ∧
      s₂.processAttestations sb.block.body.attestations = .ok s' ∧
      sb.block.stateRoot = E.hashState s' := by
  obtain ⟨_, -, h⟩ := bind_eq_ok.mp h
  obtain ⟨s₁, h₁, h⟩ := bind_eq_ok.mp h
  obtain ⟨s₃, h₃, h⟩ := bind_eq_ok.mp h
  obtain ⟨_, hroot, h⟩ := bind_eq_ok.mp h
  obtain rfl := Except.ok.inj h
  obtain ⟨s₂, h₂, h₃⟩ := bind_eq_ok.mp h₃
  obtain ⟨_, hdup, h₃⟩ := bind_eq_ok.mp h₃
  exact ⟨s₁, s₂, h₁, h₂, ensure_eq_ok.mp hdup, h₃, ensure_eq_ok.mp hroot⟩

/-- The votes of a block are stored back into the state at the end of the loop. -/
theorem State.processAttestations_eq_ok {s s' : State} {votes : List AggregatedAttestation}
    (h : s.processAttestations votes = .ok s') :
    ∃ l l', s.voteLoop = .ok l ∧ votes.foldlM s.processAttestation l = .ok l' ∧
      s' = s.withVotes l' := by
  obtain ⟨l, hl, h⟩ := bind_eq_ok.mp h
  obtain ⟨l', hrun, h⟩ := bind_eq_ok.mp h
  obtain ⟨_, -, h⟩ := bind_eq_ok.mp h
  exact ⟨l, l', hl, hrun, (Except.ok.inj h).symm⟩

theorem State.stateTransition_step {E : Env} (hE : E.HashIdeal) {s s' : State}
    {sb : SignedBlockWithAttestation} (hu : s.latestBlockHeader.stateRoot = 0)
    (h : s.stateTransition E sb true = .ok s') :
    ∃ l l', BlockStep E s sb.block s' l l' := by
  obtain ⟨s₁, s₂, h₁, h₂, hdup, hvotes, hroot⟩ := State.stateTransition_eq_ok h
  obtain ⟨l, l', hl, hrun, hresult⟩ := State.processAttestations_eq_ok hvotes
  obtain ⟨rfl, hlt, hprop, hparent⟩ := State.header_eq_ok hE hu h₁ h₂
  exact ⟨l, l', {
    slot_lt := hlt
    proposer := hprop
    parent_root := hparent
    no_duplicates := hdup
    start := hl
    run := hrun
    result := hresult
    state_root := hroot }⟩

/-! ## What a transition keeps and what it reads -/

section Registry

variable {E : Env} {s s' : State}

theorem State.processSlots_validators {targetSlot : ℕ}
    (h : s.processSlots E targetSlot = .ok s') : s'.validators = s.validators := by
  obtain ⟨-, header, -, rfl⟩ := State.processSlots_frame h
  rfl

/-- No block changes the registry. -/
theorem State.stateTransition_validators {sb : SignedBlockWithAttestation} {valid : Bool}
    (h : s.stateTransition E sb valid = .ok s') : s'.validators = s.validators := by
  obtain ⟨s₁, s₂, h₁, h₂, -, hvotes, -⟩ := State.stateTransition_eq_ok h
  obtain ⟨l, l', -, -, rfl⟩ := State.processAttestations_eq_ok hvotes
  obtain ⟨rfl, -⟩ := State.processBlockHeader_eq_ok h₂
  show s₁.validators = s.validators
  exact State.processSlots_validators h₁

/-- Without validators a slot has no proposer, and no block is accepted. -/
theorem State.stateTransition_validators_ne {sb : SignedBlockWithAttestation} {valid : Bool}
    (h : s.stateTransition E sb valid = .ok s') : s.validators.length ≠ 0 := by
  obtain ⟨s₁, s₂, h₁, h₂, -⟩ := State.stateTransition_eq_ok h
  obtain ⟨-, -, -, hne, -⟩ := State.processBlockHeader_eq_ok h₂
  rwa [State.processSlots_validators h₁] at hne

/-- No chain changes the registry. -/
theorem State.runChain_validators {blocks : List SignedBlockWithAttestation}
    (h : s.runChain E blocks = .ok s') : s'.validators = s.validators := by
  induction blocks generalizing s with
  | nil =>
    obtain rfl := Except.ok.inj h
    rfl
  | cons sb rest ih =>
    obtain ⟨s₁, h₁, h⟩ := State.runChain_cons h
    rw [ih h, State.stateTransition_validators h₁]

end Registry

/-! ## The invariant along a chain -/

section ChainInvariant

variable {E : Env} {s s' : State} {ledger : List AggregatedAttestation}

/-- The state before the votes is the one slot and header processing compute. -/
theorem State.header_of_loop {α : Type} (hE : E.HashIdeal) {block : Block}
    (hu : s.latestBlockHeader.stateRoot = 0) {f : State → Res α} {r : α}
    (h : (do
      let s₁ ← s.processSlots E block.slot
      let s₂ ← s₁.processBlockHeader E block
      f s₂) = .ok r) :
    s.slot < block.slot ∧ f (s.beforeVotes E block) = .ok r := by
  obtain ⟨s₁, h₁, h⟩ := bind_eq_ok.mp h
  obtain ⟨s₂, h₂, h⟩ := bind_eq_ok.mp h
  obtain ⟨rfl, hlt, -, -⟩ := State.header_eq_ok hE hu h₁ h₂
  exact ⟨hlt, h⟩

/-- The counted votes of a block are those of its vote loop. -/
theorem BlockStep.blockVotes_eq (hE : E.HashIdeal) {sb : SignedBlockWithAttestation}
    {l l' : VoteLoop} (hu : s.latestBlockHeader.stateRoot = 0)
    (hs : s.stateTransition E sb true = .ok s') (step : BlockStep E s sb.block s' l l') :
    s.blockVotes E sb.block =
      (s.beforeVotes E sb.block).countedVotes l sb.block.body.attestations := by
  obtain ⟨s₁, s₂, h₁, h₂, -⟩ := State.stateTransition_eq_ok hs
  obtain ⟨rfl, -⟩ := State.header_eq_ok hE hu h₁ h₂
  unfold State.blockVotes
  rw [h₁, ok_bind, h₂, ok_bind, step.start, ok_bind, pure_eq_ok]

/-- Every state along the votes of a block is described by the ledger so far. -/
theorem ChainInv.loopAfter (hE : E.HashIdeal) (inv : ChainInv E s ledger) {block : Block}
    {done : List AggregatedAttestation} {l : VoteLoop}
    (h : s.loopAfter E block done = .ok l) :
    s.slot < block.slot ∧ ∃ l₀, (s.beforeVotes E block).voteLoop = .ok l₀ ∧
      done.foldlM (s.beforeVotes E block).processAttestation l₀ = .ok l ∧
      LoopInv (s.beforeVotes E block)
        (ledger ++ (s.beforeVotes E block).countedVotes l₀ done) l := by
  obtain ⟨hlt, h⟩ := State.header_of_loop hE inv.unsealed h
  obtain ⟨l₀, h₀, h⟩ := bind_eq_ok.mp h
  obtain ⟨l₁, h₁, linv⟩ := inv.loopInv_beforeVotes hE hlt
  obtain rfl := Except.ok.inj (h₀.symm.trans h₁)
  exact ⟨hlt, l₀, h₀, h, linv.foldlM ((inv.chainRoots_beforeVotes block).distinctRoots hE) h⟩

/-- The loop invariant at the end of a block. -/
theorem ChainInv.loopInv_end (hE : E.HashIdeal) (inv : ChainInv E s ledger)
    {sb : SignedBlockWithAttestation} {l l' : VoteLoop}
    (hs : s.stateTransition E sb true = .ok s') (step : BlockStep E s sb.block s' l l') :
    LoopInv (s.beforeVotes E sb.block) (ledger ++ s.blockVotes E sb.block) l' := by
  obtain ⟨l₁, h₁, linv⟩ := inv.loopInv_beforeVotes hE step.slot_lt
  obtain rfl := Except.ok.inj (step.start.symm.trans h₁)
  rw [step.blockVotes_eq hE inv.unsealed hs]
  exact linv.foldlM ((inv.chainRoots_beforeVotes sb.block).distinctRoots hE) step.run

/-- A block keeps the chain invariant. -/
theorem ChainInv.stateTransition (hE : E.HashIdeal) (inv : ChainInv E s ledger)
    {sb : SignedBlockWithAttestation} (h : s.stateTransition E sb true = .ok s') :
    ChainInv E s' (ledger ++ s.blockVotes E sb.block) := by
  obtain ⟨l, l', step⟩ := State.stateTransition_step hE inv.unsealed h
  have linv := inv.loopInv_end hE h step
  have hslot : s'.latestBlockHeader.slot = sb.block.slot := by rw [step.result]; rfl
  have hhist : s'.historicalBlockHashes = (s.beforeVotes E sb.block).historicalBlockHashes := by
    rw [step.result]; rfl
  exact {
    validators_pos := by rw [step.result]; exact inv.validators_pos
    slot_eq := by rw [step.result]; rfl
    unsealed := by rw [step.result]; rfl
    history_length := by rw [hhist, hslot, inv.length_beforeVotes step.slot_lt]
    chain_roots := by rw [hhist]; exact inv.chainRoots_beforeVotes sb.block
    fresh := by
      -- the slot of a block is later than that of its parent, hence not zero
      intro h0
      rw [hslot] at h0
      exact absurd h0 (Nat.ne_zero_of_lt step.slot_lt)
    settled := by
      intro _
      rw [step.result]
      exact linv.withVotes }

/-- A genesis state has a registry that fits, and is empty otherwise. -/
theorem generateGenesisWithValidators_eq_ok {time : ℕ} {validators : List Validator} {g : State}
    (h : generateGenesisWithValidators E time validators = .ok g) :
    validators.length ≤ validatorRegistryLimit ∧ g = {
      config := { genesisTime := time }
      slot := 0
      latestBlockHeader := {
        slot := 0, proposerIndex := 0, parentRoot := 0, stateRoot := 0
        bodyRoot := E.hashBody { attestations := [] } }
      latestJustified := { root := 0, slot := 0 }
      latestFinalized := { root := 0, slot := 0 }
      historicalBlockHashes := []
      justifiedSlots := []
      validators
      justificationsRoots := []
      justificationsValidators := [] } := by
  unfold generateGenesisWithValidators at h
  split_ifs at h with hlimit
  · exact ⟨hlimit, (Except.ok.inj h).symm⟩
  · exact absurd h (by simp)

/-- A genesis state satisfies the chain invariant. -/
theorem ChainInv.genesis {time : ℕ} {validators : List Validator} {g : State}
    (hn : validators ≠ []) (h : generateGenesisWithValidators E time validators = .ok g) :
    ChainInv E g [] := by
  obtain ⟨-, rfl⟩ := generateGenesisWithValidators_eq_ok h
  exact {
    validators_pos := List.length_pos_iff.mpr hn
    slot_eq := rfl
    unsealed := rfl
    history_length := rfl
    chain_roots := fun t root hget => by simp at hget
    fresh := fun _ => ⟨⟨rfl, rfl, rfl, rfl⟩, rfl⟩
    settled := fun h0 => absurd rfl h0 }

/-- The chain invariant holds in every state a chain reaches. -/
theorem ChainInv.runChain (hE : E.HashIdeal) {blocks : List SignedBlockWithAttestation}
    (inv : ChainInv E s ledger) (h : s.runChain E blocks = .ok s') :
    ChainInv E s' (ledger ++ s.chainVotes E blocks) := by
  induction blocks generalizing s ledger with
  | nil =>
    obtain rfl := Except.ok.inj h
    simpa [State.chainVotes] using inv
  | cons sb rest ih =>
    obtain ⟨s₁, h₁, h⟩ := State.runChain_cons h
    rw [State.chainVotes_cons h₁, ← List.append_assoc]
    exact ih (inv.stateTransition hE h₁) h

end ChainInvariant

/-- The states a chain of blocks reaches from a genesis with at least one validator. -/
structure ReachedFromGenesis (E : Env) (g : State) (blocks : List SignedBlockWithAttestation)
    (s : State) : Prop where
  genesis : ∃ time validators, validators ≠ [] ∧
    generateGenesisWithValidators E time validators = .ok g
  run : g.runChain E blocks = .ok s

theorem ReachedFromGenesis.chainInv {E : Env} (hE : E.HashIdeal) {g s : State}
    {blocks : List SignedBlockWithAttestation} (h : ReachedFromGenesis E g blocks s) :
    ChainInv E s (g.chainVotes E blocks) := by
  obtain ⟨time, validators, hn, hg⟩ := h.genesis
  simpa using (ChainInv.genesis hn hg).runChain hE h.run

theorem ReachedFromGenesis.validators_eq {E : Env} {g s : State}
    {blocks : List SignedBlockWithAttestation} (h : ReachedFromGenesis E g blocks s) :
    s.validators = g.validators :=
  State.runChain_validators h.run

end ConsensusClient
