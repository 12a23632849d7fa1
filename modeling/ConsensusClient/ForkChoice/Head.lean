import ConsensusClient.Lib.Ghost
import ConsensusClient.ForkChoice.Store

/-!
# The Head Rule

`get_fork_choice_head` against the definition of LMD-GHOST: start at a block and move to the
child with the greatest weight, and the greatest root among those, where the weight of a block
is the number of votes for it or for a descendant of it.

The code does not sum over subtrees. It walks up from the head of every vote and adds one to
each block it meets until it reaches a slot at or below the start, so its weights are right for
the blocks after the start only (`Store.voteWeights_eq`). Those are all that the descent looks
at, since slots grow from a block to its children.

## Main results

* `Store.WellFormed.voteWeights_eq`: the first stage counts the votes below a block
* `Store.WellFormed.walkHeaviest_eq`: the third stage follows LMD-GHOST to its end
* `head_is_lmd_ghost`: the head rule is LMD-GHOST on every well-formed store, in whatever order
  the maps are iterated
* `Store.getForkChoiceHead_leaf`: without a threshold the head has no child
-/

namespace ConsensusClient

/-! ## The reference -/

/-- The parent pointer of a stored block. -/
def Store.parentOf (store : Store) (root : H256) : Option H256 :=
  (store.blocks.lookup root).map fun block => block.parentRoot

/-- The block `b` is the block `a` or one of its ancestors in the store. -/
def Store.Descends (store : Store) : H256 → H256 → Prop := Ancestor store.parentOf

open Classical in
/-- The number of votes whose head is the block `b` or a descendant of it. -/
noncomputable def Store.weight (store : Store) (votes : HashMap ℕ AttestationData) (b : H256) : ℕ :=
  votes.entries.countP fun e => store.Descends e.2.head.root b

/-- A child of `r` in the store with at least `minVotes` votes. -/
def Store.Eligible (store : Store) (votes : HashMap ℕ AttestationData) (minVotes : ℕ)
    (r c : H256) : Prop :=
  store.parentOf c = some r ∧ minVotes ≤ store.weight votes c

/-- The pair by which children are compared: the weight, and then the root. -/
noncomputable def Store.ghostKey (store : Store) (votes : HashMap ℕ AttestationData) (c : H256) :
    ℕ ×ₗ H256 :=
  toLex (store.weight votes c, c)

/-- LMD-GHOST from `r` ends at `h`. -/
def Store.Ghost (store : Store) (votes : HashMap ℕ AttestationData) (minVotes : ℕ) :
    H256 → H256 → Prop :=
  GreedyDescent (store.Eligible votes minVotes) (store.ghostKey votes)

/-- The blocks of the store form a tree with root `anchor`, along which slots grow. -/
structure Store.WellFormed (store : Store) (anchor : H256) : Prop where
  anchor_mem : anchor ∈ store.blocks
  anchor_parent : ∀ block, store.blocks.lookup anchor = some block →
    block.parentRoot ∉ store.blocks
  parent_ne_zero : ∀ root block, store.blocks.lookup root = some block → root ≠ anchor →
    block.parentRoot ≠ 0
  parent_mem : ∀ root block, store.blocks.lookup root = some block → root ≠ anchor →
    ∃ parent, store.blocks.lookup block.parentRoot = some parent ∧ parent.slot < block.slot

theorem Store.ghostKey_injective (store : Store) (votes : HashMap ℕ AttestationData) :
    Function.Injective (store.ghostKey votes) := by
  intro a b h
  exact congrArg Prod.snd (toLex.injective h)

/-! ## Walking up -/

section WalkUp

variable {store : Store} {anchor : H256}

theorem Store.parentOf_eq {root : H256} {block : Block}
    (h : store.blocks.lookup root = some block) :
    store.parentOf root = some block.parentRoot := by
  rw [Store.parentOf, h]
  rfl

theorem Store.parentOf_eq_some {root p : H256} :
    store.parentOf root = some p ↔
      ∃ block, store.blocks.lookup root = some block ∧ block.parentRoot = p := by
  rw [Store.parentOf, Option.map_eq_some_iff]

/-- An unknown block has no ancestor in the store. -/
theorem Store.not_descends_of_unknown {a b : H256} (ha : a ∉ store.blocks)
    (hb : b ∈ store.blocks) : ¬ store.Descends a b := by
  intro h
  have hp : store.parentOf a = none := by
    rw [Store.parentOf, AList.lookup_eq_none.mpr ha]
    rfl
  obtain rfl := (ancestor_of_no_parent hp).mp h
  exact ha hb

/-- The number of stored blocks up to a slot, which bounds the walks up from there. -/
def Store.blocksUpTo (store : Store) (slot : ℕ) : ℕ :=
  (store.blocks.entries.filter fun e => e.2.slot ≤ slot).length

theorem Store.blocksUpTo_pos {root : H256} {block : Block}
    (h : store.blocks.lookup root = some block) : 0 < store.blocksUpTo block.slot := by
  apply List.length_pos_of_mem
  exact List.mem_filter.mpr ⟨AList.lookup_eq_some_iff.mp h, by simp⟩

theorem Store.blocksUpTo_lt {root : H256} {block : Block} {slot : ℕ}
    (h : store.blocks.lookup root = some block) (hlt : slot < block.slot) :
    store.blocksUpTo slot < store.blocksUpTo block.slot := by
  unfold Store.blocksUpTo
  rw [← List.countP_eq_length_filter, ← List.countP_eq_length_filter]
  -- the block itself is counted on the right only
  have hmem := AList.lookup_eq_some_iff.mp h
  obtain ⟨pre, post, heq⟩ := List.append_of_mem hmem
  rw [heq]
  simp only [List.countP_append, List.countP_cons]
  have hpre : ∀ l : List (Sigma fun _ : H256 => Block),
      l.countP (fun e => decide (e.2.slot ≤ slot)) ≤
        l.countP (fun e => decide (e.2.slot ≤ block.slot)) := by
    intro l
    apply List.countP_mono_left
    intro e _ he
    simp only [decide_eq_true_eq] at he ⊢
    omega
  have h₁ := hpre pre
  have h₂ := hpre post
  have h₃ : ¬ block.slot ≤ slot := by omega
  simp only [h₃, decide_false, le_refl, decide_true, if_true, Bool.false_eq_true, if_false]
  omega

/-- The ancestors of a block in the store are at lower slots. -/
theorem Store.WellFormed.slot_le (wf : store.WellFormed anchor) {a b : H256} {x y : Block}
    (h : store.Descends a b) (hx : store.blocks.lookup a = some x)
    (hy : store.blocks.lookup b = some y) : y.slot ≤ x.slot := by
  induction h using Relation.ReflTransGen.head_induction_on generalizing x with
  | refl =>
    obtain rfl := Option.some.inj (hx.symm.trans hy)
    exact le_refl _
  | head hp hrest ih =>
    rename_i c p
    obtain ⟨block, hblock, rfl⟩ := Store.parentOf_eq_some.mp hp
    obtain rfl := Option.some.inj (hx.symm.trans hblock)
    by_cases hc : c = anchor
    · -- the parent of the anchor is unknown, so it has no known ancestor
      subst hc
      have hb : b ∈ store.blocks := AList.mem_iff_exists_lookup.mpr ⟨y, hy⟩
      exact absurd hrest (Store.not_descends_of_unknown (wf.anchor_parent x hx) hb)
    · obtain ⟨parent, hparent, hlt⟩ := wf.parent_mem c x hx hc
      exact (ih hparent).trans hlt.le

/-- The ancestors of a block in the store: itself, and those of its parent if that is known. -/
theorem Store.WellFormed.descends_iff (wf : store.WellFormed anchor) {a b : H256} {x : Block}
    (hx : store.blocks.lookup a = some x) (hb : b ∈ store.blocks) :
    store.Descends a b ↔ a = b ∨
      (a ≠ anchor ∧ store.Descends x.parentRoot b) := by
  unfold Store.Descends
  rw [ancestor_of_parent (Store.parentOf_eq hx)]
  constructor
  · rintro (h | h)
    · exact Or.inl h
    · refine Or.inr ⟨?_, h⟩
      rintro rfl
      exact Store.not_descends_of_unknown (wf.anchor_parent x hx) hb h
  · rintro (h | ⟨-, h⟩)
    · exact Or.inl h
    · exact Or.inr h

/-- Adding one to the weight of a block. -/
theorem lookup_insert_succ (weights : HashMap H256 ℕ) (curr b : H256) :
    ((weights.insert curr ((weights.lookup curr).getD 0 + 1)).lookup b).getD 0 =
      (weights.lookup b).getD 0 + if curr = b then 1 else 0 := by
  rw [AList.lookup_insert_eq]
  by_cases hb : curr = b
  · subst hb
    simp
  · rw [if_neg (Ne.symm hb), if_neg hb, Nat.add_zero]

open Classical in
/-- The walk up from a vote adds one to the blocks after the start that the vote is for. -/
theorem Store.WellFormed.addVote_eq (wf : store.WellFormed anchor) (rootSlot : ℕ) {fuel : ℕ}
    {curr : H256} {block : Block} (weights : HashMap H256 ℕ)
    (hblock : store.blocks.lookup curr = some block)
    (hfuel : store.blocksUpTo block.slot ≤ fuel) :
    ∃ weights', store.addVote rootSlot fuel curr block.slot weights = .ok weights' ∧
      ∀ b y, store.blocks.lookup b = some y → rootSlot < y.slot →
        (weights'.lookup b).getD 0 =
          (weights.lookup b).getD 0 + if store.Descends curr b then 1 else 0 := by
  induction fuel generalizing curr block weights with
  | zero =>
    -- the block itself is one of those up to its slot
    have hpos := Store.blocksUpTo_pos hblock
    omega
  | succ fuel ih =>
    unfold Store.addVote
    by_cases hslot : rootSlot < block.slot
    · rw [if_pos hslot]
      simp only [hblock]
      by_cases hc : curr = anchor
      · -- the walk ends at the anchor
        subst hc
        have hend : ∀ b y, store.blocks.lookup b = some y →
            (store.Descends curr b ↔ curr = b) := by
          intro b y hy
          rw [wf.descends_iff hblock (AList.mem_iff_exists_lookup.mpr ⟨y, hy⟩)]
          simp
        have hunknown := AList.lookup_eq_none.mpr (wf.anchor_parent block hblock)
        refine ⟨weights.insert curr ((weights.lookup curr).getD 0 + 1), ?_, fun b y hy _ => ?_⟩
        · rw [hunknown]
          split_ifs
          · rfl
          · rfl
        · rw [lookup_insert_succ, if_congr (hend b y hy) rfl rfl]
      · -- the walk goes on from the parent, with one block less up to its slot
        obtain ⟨parent, hparent, hlt⟩ := wf.parent_mem curr block hblock hc
        rw [if_neg (wf.parent_ne_zero curr block hblock hc), hparent]
        have hless := Store.blocksUpTo_lt hblock hlt
        obtain ⟨weights', hrun, hspec⟩ :=
          ih (weights.insert curr ((weights.lookup curr).getD 0 + 1)) hparent (by omega)
        refine ⟨weights', hrun, fun b y hy hby => ?_⟩
        rw [hspec b y hy hby, lookup_insert_succ, Nat.add_assoc]
        congr 1
        -- `curr` is not among the ancestors of its parent
        have hdesc := wf.descends_iff hblock (AList.mem_iff_exists_lookup.mpr ⟨y, hy⟩)
        by_cases hb : curr = b
        · subst hb
          have hnot : ¬ store.Descends block.parentRoot curr := by
            intro h
            have := wf.slot_le h hparent hblock
            omega
          rw [if_pos rfl, if_neg hnot, if_pos (hdesc.mpr (Or.inl rfl))]
        · rw [if_neg hb, Nat.zero_add]
          refine if_congr ?_ rfl rfl
          rw [hdesc]
          simp [hb, hc]
    · -- nothing after the start is an ancestor of a block at or before it
      rw [if_neg hslot]
      refine ⟨weights, rfl, fun b y hy hby => ?_⟩
      have hnot : ¬ store.Descends curr b := by
        intro h
        have := wf.slot_le h hblock hy
        omega
      rw [if_neg hnot, Nat.add_zero]

/-- One round of the first stage: the walk up from the head of one vote. -/
def Store.countVote (store : Store) (rootSlot : ℕ) (weights : HashMap H256 ℕ)
    (vote : Sigma fun _ : ℕ => AttestationData) : Res (HashMap H256 ℕ) :=
  (store.blocks.lookup vote.2.head.root).elim (.ok weights) fun block =>
    store.addVote rootSlot store.blocks.entries.length vote.2.head.root block.slot weights

theorem Store.voteWeights_eq_foldlM (rootSlot : ℕ) (votes : HashMap ℕ AttestationData) :
    store.voteWeights rootSlot votes = votes.entries.foldlM (store.countVote rootSlot) ∅ := by
  unfold Store.voteWeights
  congr 1
  funext weights vote
  unfold Store.countVote
  cases store.blocks.lookup vote.2.head.root with
  | none => rfl
  | some block => rfl

open Classical in
theorem Store.WellFormed.countVote_eq (wf : store.WellFormed anchor) (rootSlot : ℕ)
    (weights : HashMap H256 ℕ) (vote : Sigma fun _ : ℕ => AttestationData) :
    ∃ weights', store.countVote rootSlot weights vote = .ok weights' ∧
      ∀ b y, store.blocks.lookup b = some y → rootSlot < y.slot →
        (weights'.lookup b).getD 0 = (weights.lookup b).getD 0 +
          if store.Descends vote.2.head.root b then 1 else 0 := by
  unfold Store.countVote
  cases hhead : store.blocks.lookup vote.2.head.root with
  | none =>
    -- a vote for an unknown block counts nowhere
    refine ⟨weights, rfl, fun b y hy _ => ?_⟩
    have hnot : ¬ store.Descends vote.2.head.root b :=
      Store.not_descends_of_unknown (AList.lookup_eq_none.mp hhead)
        (AList.mem_iff_exists_lookup.mpr ⟨y, hy⟩)
    rw [if_neg hnot, Nat.add_zero]
  | some block => exact wf.addVote_eq rootSlot weights hhead (List.length_filter_le _ _)

open Classical in
/-- The first stage computes the weights of the blocks after the start. -/
theorem Store.WellFormed.voteWeights_eq (wf : store.WellFormed anchor) (rootSlot : ℕ)
    (votes : HashMap ℕ AttestationData) :
    ∃ weights, store.voteWeights rootSlot votes = .ok weights ∧
      ∀ b y, store.blocks.lookup b = some y → rootSlot < y.slot →
        (weights.lookup b).getD 0 = store.weight votes b := by
  -- by induction over the entries, for any weights to start with
  have hrun : ∀ (entries : List (Sigma fun _ : ℕ => AttestationData)) (weights : HashMap H256 ℕ),
      ∃ weights', entries.foldlM (store.countVote rootSlot) weights = .ok weights' ∧
      ∀ b y, store.blocks.lookup b = some y → rootSlot < y.slot →
        (weights'.lookup b).getD 0 = (weights.lookup b).getD 0 +
          entries.countP fun e => store.Descends e.2.head.root b := by
    intro entries
    induction entries with
    | nil =>
      intro weights
      exact ⟨weights, rfl, fun b y _ _ => by simp⟩
    | cons vote entries ih =>
      intro weights
      obtain ⟨weights₁, h₁, hspec₁⟩ := wf.countVote_eq rootSlot weights vote
      obtain ⟨weights', hrest, hspec⟩ := ih weights₁
      refine ⟨weights', ?_, fun b y hy hby => ?_⟩
      · rw [List.foldlM_cons, h₁, ok_bind]
        exact hrest
      · rw [hspec b y hy hby, hspec₁ b y hy hby, List.countP_cons, Nat.add_assoc]
        congr 1
        rw [Nat.add_comm]
        simp
  obtain ⟨weights, hok, hspec⟩ := hrun votes.entries ∅
  refine ⟨weights, ?_, fun b y hy hby => ?_⟩
  · rw [Store.voteWeights_eq_foldlM]
    exact hok
  · rw [hspec b y hy hby]
    simp [Store.weight]

end WalkUp

/-! ## Children and the best of them -/

/-- What one round of the second stage adds to the list of `p`. -/
theorem mem_addChild {weights : HashMap H256 ℕ} {minVotes : ℕ}
    {children : HashMap H256 (List H256)} {root p c : H256} {block : Block} :
    c ∈ ((addChild weights minVotes children root block).lookup p).getD [] ↔
      c ∈ (children.lookup p).getD [] ∨
        (c = root ∧ block.parentRoot = p ∧ p ≠ 0 ∧ minVotes ≤ (weights.lookup c).getD 0) := by
  unfold addChild
  by_cases hadd : block.parentRoot ≠ 0 ∧ minVotes ≤ (weights.lookup root).getD 0
  · rw [if_pos hadd, AList.lookup_insert_eq]
    by_cases hp : p = block.parentRoot
    · subst hp
      rw [if_pos rfl, Option.getD_some, List.mem_append, List.mem_singleton]
      refine or_congr Iff.rfl ⟨?_, And.left⟩
      rintro rfl
      exact ⟨rfl, rfl, hadd.1, hadd.2⟩
    · rw [if_neg hp]
      refine ⟨Or.inl, ?_⟩
      rintro (h | ⟨-, h, -⟩)
      · exact h
      · exact absurd h.symm hp
  · -- the block has the zero parent or too few votes
    rw [if_neg hadd]
    refine ⟨Or.inl, ?_⟩
    rintro (h | ⟨rfl, rfl, hp, hmin⟩)
    · exact h
    · exact absurd ⟨hp, hmin⟩ hadd

/-- A block is listed under its parent when it has enough votes. -/
theorem Store.mem_childMap {store : Store} {weights : HashMap H256 ℕ} {minVotes : ℕ}
    {p c : H256} :
    c ∈ ((store.childMap weights minVotes).lookup p).getD [] ↔
      ∃ block, store.blocks.lookup c = some block ∧ block.parentRoot = p ∧ p ≠ 0 ∧
        minVotes ≤ (weights.lookup c).getD 0 := by
  -- by induction over the blocks, for any lists to start with
  have hrun : ∀ (entries : List (Sigma fun _ : H256 => Block))
      (children : HashMap H256 (List H256)),
      c ∈ ((entries.foldl (fun children e => addChild weights minVotes children e.1 e.2)
        children).lookup p).getD [] ↔
      c ∈ (children.lookup p).getD [] ∨
        ∃ block, (⟨c, block⟩ : Sigma fun _ : H256 => Block) ∈ entries ∧ block.parentRoot = p ∧
          p ≠ 0 ∧ minVotes ≤ (weights.lookup c).getD 0 := by
    intro entries
    induction entries with
    | nil => simp
    | cons e entries ih =>
      intro children
      obtain ⟨root, block⟩ := e
      rw [List.foldl_cons, ih]
      rw [mem_addChild, or_assoc]
      refine or_congr Iff.rfl ?_
      simp only [List.mem_cons]
      constructor
      · rintro (⟨rfl, h⟩ | ⟨block', hmem, h⟩)
        · exact ⟨block, Or.inl rfl, h⟩
        · exact ⟨block', Or.inr hmem, h⟩
      · rintro ⟨block', heq | hmem, h⟩
        · cases heq
          exact Or.inl ⟨rfl, h⟩
        · exact Or.inr ⟨block', hmem, h⟩
  unfold Store.childMap
  rw [hrun]
  simp [AList.lookup_eq_some_iff]

/-- The maximum by a comparison that follows a key has the greatest key. -/
theorem maxBy_eq_some {α κ : Type} [LinearOrder κ] {cmp : α → α → Ordering} (key : α → κ)
    (hcmp : ∀ a b, cmp a b = .gt ↔ key b < key a) {xs : List α} {m : α}
    (h : maxBy cmp xs = some m) : m ∈ xs ∧ ∀ x ∈ xs, key x ≤ key m := by
  have hfold : ∀ (ys : List α) (best : α),
      let r := ys.foldl (fun best y => if cmp best y = .gt then best else y) best
      r ∈ best :: ys ∧ ∀ x ∈ best :: ys, key x ≤ key r := by
    intro ys
    induction ys with
    | nil =>
      intro best
      simp
    | cons y ys ih =>
      intro best
      rw [List.foldl_cons]
      obtain ⟨hmem, hmax⟩ := ih (if cmp best y = .gt then best else y)
      by_cases hgt : cmp best y = .gt
      · -- the element is below the best so far
        simp only [hgt, if_true] at hmem hmax ⊢
        have hlt := (hcmp best y).mp hgt
        have hbest := hmax best (by simp)
        refine ⟨by simp only [List.mem_cons] at hmem ⊢; tauto, fun x hx => ?_⟩
        simp only [List.mem_cons] at hx
        rcases hx with rfl | rfl | hx
        · exact hbest
        · exact hlt.le.trans hbest
        · exact hmax x (by simp [hx])
      · -- the element replaces it, also when the keys are equal
        simp only [hgt, if_false] at hmem hmax ⊢
        have hle : key best ≤ key y := not_lt.mp fun h => hgt ((hcmp best y).mpr h)
        have hy := hmax y (by simp)
        refine ⟨by simp only [List.mem_cons] at hmem ⊢; tauto, fun x hx => ?_⟩
        simp only [List.mem_cons] at hx
        rcases hx with rfl | rfl | hx
        · exact hle.trans hy
        · exact hy
        · exact hmax x (by simp [hx])
  cases xs with
  | nil => simp [maxBy] at h
  | cons x xs =>
    obtain rfl := Option.some.inj h
    exact hfold xs x

theorem maxBy_eq_none {α : Type} {cmp : α → α → Ordering} {xs : List α} :
    maxBy cmp xs = none ↔ xs = [] := by
  cases xs <;> simp [maxBy]

/-- The order of the children is the order of the pairs of weight and root. -/
theorem compareChildren_eq_gt {weights : HashMap H256 ℕ} {a b : H256} :
    compareChildren weights a b = .gt ↔
      toLex ((weights.lookup b).getD 0, b) < toLex ((weights.lookup a).getD 0, a) := by
  unfold compareChildren
  rw [Ordering.then_eq_gt, Nat.compare_eq_gt, Nat.compare_eq_eq, Nat.compare_eq_gt,
    Prod.Lex.toLex_lt_toLex]
  simp only [eq_comm]

/-! ## The descent -/

section Descent

variable {store : Store} {anchor : H256}

/-- A child in the store lies after its parent. -/
theorem Store.WellFormed.child_slot_lt (wf : store.WellFormed anchor) {r c : H256}
    {x y : Block} (hx : store.blocks.lookup r = some x) (hy : store.blocks.lookup c = some y)
    (hparent : y.parentRoot = r) : r ≠ 0 ∧ x.slot < y.slot := by
  have hc : c ≠ anchor := by
    rintro rfl
    apply wf.anchor_parent y hy
    rw [hparent]
    exact AList.mem_iff_exists_lookup.mpr ⟨x, hx⟩
  obtain ⟨p, hp, hlt⟩ := wf.parent_mem c y hy hc
  rw [hparent, hx] at hp
  obtain rfl := Option.some.inj hp
  refine ⟨?_, hlt⟩
  rw [← hparent]
  exact wf.parent_ne_zero c y hy hc

/-- From a block at or after the start, the third stage follows LMD-GHOST to its end. -/
theorem Store.WellFormed.walkHeaviest_eq (wf : store.WellFormed anchor)
    {votes : HashMap ℕ AttestationData} {rootSlot : ℕ} {weights : HashMap H256 ℕ}
    (minVotes : ℕ) (hweights : ∀ b y, store.blocks.lookup b = some y → rootSlot < y.slot →
      (weights.lookup b).getD 0 = store.weight votes b) {fuel : ℕ} {curr : H256}
    {block : Block} (hblock : store.blocks.lookup curr = some block)
    (hslot : rootSlot ≤ block.slot)
    (hfuel : store.blocks.entries.length < fuel + store.blocksUpTo block.slot) :
    ∃ head, walkHeaviest weights (store.childMap weights minVotes) fuel curr = .ok head ∧
      store.Ghost votes minVotes curr head := by
  induction fuel generalizing curr block with
  | zero =>
    -- the fuel suffices for the blocks after the current one
    have hle : store.blocksUpTo block.slot ≤ store.blocks.entries.length :=
      List.length_filter_le _ _
    omega
  | succ fuel ih =>
    -- the listed children are the eligible ones
    have hchild : ∀ c, c ∈ ((store.childMap weights minVotes).lookup curr).getD [] ↔
        store.Eligible votes minVotes curr c := by
      intro c
      rw [Store.mem_childMap]
      unfold Store.Eligible
      rw [Store.parentOf_eq_some]
      constructor
      · rintro ⟨y, hy, hparent, -, hmin⟩
        obtain ⟨-, hlt⟩ := wf.child_slot_lt hblock hy hparent
        rw [hweights c y hy (by omega)] at hmin
        exact ⟨⟨y, hy, hparent⟩, hmin⟩
      · rintro ⟨⟨y, hy, hparent⟩, hmin⟩
        obtain ⟨hne, hlt⟩ := wf.child_slot_lt hblock hy hparent
        rw [← hweights c y hy (by omega)] at hmin
        exact ⟨y, hy, hparent, hne, hmin⟩
    unfold walkHeaviest
    cases hmax : maxBy (compareChildren weights)
        (((store.childMap weights minVotes).lookup curr).getD []) with
    | none =>
      refine ⟨curr, rfl, GreedyDescent.stop fun c hc => ?_⟩
      have hmem := (hchild c).mpr hc
      rw [maxBy_eq_none.mp hmax] at hmem
      exact absurd hmem (by simp)
    | some best =>
      obtain ⟨hmem, hbest⟩ := maxBy_eq_some (fun c => toLex ((weights.lookup c).getD 0, c))
        (fun a b => compareChildren_eq_gt) hmax
      -- the best child lies after `curr`, so fewer blocks are left
      have helig := (hchild best).mp hmem
      obtain ⟨y, hy, hparent⟩ := Store.parentOf_eq_some.mp helig.1
      obtain ⟨-, hlt⟩ := wf.child_slot_lt hblock hy hparent
      have hless := Store.blocksUpTo_lt hy hlt
      obtain ⟨head, hrun, hghost⟩ := ih hy (by omega) (by omega)
      refine ⟨head, hrun, GreedyDescent.step ⟨helig, fun d hd => ?_⟩ hghost⟩
      -- the computed weights of the children are their true ones
      have hle := hbest d ((hchild d).mpr hd)
      obtain ⟨z, hz, hparent'⟩ := Store.parentOf_eq_some.mp hd.1
      obtain ⟨-, hlt'⟩ := wf.child_slot_lt hblock hz hparent'
      rw [hweights best y hy (by omega), hweights d z hz (by omega)] at hle
      exact hle

/-- From a stored block the head rule ends, and it ends where LMD-GHOST does. -/
theorem Store.WellFormed.exists_head (wf : store.WellFormed anchor) {root : H256}
    (h0 : root ≠ 0) (hroot : root ∈ store.blocks) (votes : HashMap ℕ AttestationData)
    (minVotes : ℕ) :
    ∃ head, store.getForkChoiceHead root votes minVotes = .ok head ∧
      store.Ghost votes minVotes root head := by
  obtain ⟨block, hblock⟩ := AList.mem_iff_exists_lookup.mp hroot
  obtain ⟨weights, hrun, hweights⟩ := wf.voteWeights_eq block.slot votes
  obtain ⟨head, hwalk, hghost⟩ := wf.walkHeaviest_eq minVotes hweights hblock
    (le_refl _) (show _ < store.blocks.entries.length + 1 + _ by omega)
  refine ⟨head, ?_, hghost⟩
  unfold Store.getForkChoiceHead Store.startRoot
  rw [if_neg h0, pure_eq_ok, ok_bind, Store.blockAt, hblock]
  simp only [expect, ok_bind, hrun]
  exact hwalk

/-- LMD-GHOST depends only on the parent pointers and the weights of the stored blocks. -/
theorem Store.Ghost.congr {store' : Store} {votes votes' : HashMap ℕ AttestationData}
    {minVotes : ℕ} (hparent : ∀ c, store.parentOf c = store'.parentOf c)
    (hweight : ∀ c ∈ store.blocks, store.weight votes c = store'.weight votes' c)
    {r h : H256} (hr : store.Ghost votes minVotes r h) : store'.Ghost votes' minVotes r h := by
  have hmem : ∀ r c, store.parentOf c = some r → c ∈ store.blocks := by
    intro r c hc
    obtain ⟨block, hblock, -⟩ := Store.parentOf_eq_some.mp hc
    exact AList.mem_iff_exists_lookup.mpr ⟨block, hblock⟩
  refine GreedyDescent.congr (fun r c => ?_) (fun r c hc => ?_) hr
  · unfold Store.Eligible
    rw [← hparent]
    refine and_congr_right fun hc => ?_
    rw [hweight c (hmem r c hc)]
  · unfold Store.ghostKey
    rw [hweight c (hmem r c hc.1)]

theorem Store.descends_congr {store' : Store}
    (hparent : ∀ c, store.parentOf c = store'.parentOf c) {a b : H256} :
    store.Descends a b ↔ store'.Descends a b := by
  unfold Store.Descends
  rw [funext hparent]

open Classical in
/-- The votes for unknown blocks do not count for any stored block. -/
theorem Store.weight_retain_known (store : Store) (votes : HashMap ℕ AttestationData)
    {c : H256} (hc : c ∈ store.blocks) :
    store.weight (votes.retain fun _ d => decide (d.head.root ∈ store.blocks)) c =
      store.weight votes c := by
  unfold Store.weight
  show (votes.entries.filter fun e => decide (e.2.head.root ∈ store.blocks)).countP _ = _
  rw [List.countP_filter]
  apply List.countP_congr
  intro e _
  simp only [Bool.and_eq_true, decide_eq_true_eq, and_iff_left_iff_imp]
  intro hdesc
  by_contra hunknown
  exact Store.not_descends_of_unknown hunknown hc hdesc

/-- The order of the entries of the block map does not matter for well-formedness. -/
theorem Store.WellFormed.of_perm (wf : store.WellFormed anchor) {blocks' : HashMap H256 Block}
    (hperm : blocks'.entries.Perm store.blocks.entries) :
    Store.WellFormed { store with blocks := blocks' } anchor := by
  have hlookup : ∀ r, blocks'.lookup r = store.blocks.lookup r := fun r =>
    AList.perm_lookup hperm
  have hmem : ∀ r, r ∈ blocks' ↔ r ∈ store.blocks := fun r => AList.mem_of_perm hperm
  exact {
    anchor_mem := (hmem anchor).mpr wf.anchor_mem
    anchor_parent := by
      intro block hblock hparent
      exact wf.anchor_parent block (hlookup anchor ▸ hblock) ((hmem _).mp hparent)
    parent_ne_zero := by
      intro root block hblock
      exact wf.parent_ne_zero root block (hlookup root ▸ hblock)
    parent_mem := by
      intro root block hblock hne
      obtain ⟨parent, hparent, hlt⟩ := wf.parent_mem root block (hlookup root ▸ hblock) hne
      exact ⟨parent, (hlookup _).trans hparent, hlt⟩ }

/-- The head rule is LMD-GHOST: on a well-formed store it ends at the one block at which the
    reference ends, for every iteration order of the maps, and votes for unknown blocks count
    nowhere. -/
theorem head_is_lmd_ghost (wf : store.WellFormed anchor) {root : H256} (h0 : root ≠ 0)
    (hroot : root ∈ store.blocks) (votes : HashMap ℕ AttestationData) (minVotes : ℕ) :
    ∃ head, store.getForkChoiceHead root votes minVotes = .ok head ∧
      (∀ h, store.Ghost votes minVotes root h ↔ h = head) ∧
      (∀ blocks' votes', blocks'.entries.Perm store.blocks.entries →
        votes'.entries.Perm votes.entries →
        Store.getForkChoiceHead { store with blocks := blocks' } root votes' minVotes =
          .ok head) ∧
      store.getForkChoiceHead root
        (votes.retain fun _ d => decide (d.head.root ∈ store.blocks)) minVotes = .ok head := by
  obtain ⟨head, hrun, hghost⟩ := wf.exists_head h0 hroot votes minVotes
  have hunique : ∀ h, store.Ghost votes minVotes root h → h = head := fun h hh =>
    hh.unique (store.ghostKey_injective votes) hghost
  refine ⟨head, hrun, fun h => ⟨hunique h, ?_⟩, ?_, ?_⟩
  · rintro rfl
    exact hghost
  · intro blocks' votes' hblocks hvotes
    obtain ⟨head', hrun', hghost'⟩ := (wf.of_perm hblocks).exists_head h0
      ((AList.mem_of_perm hblocks).mpr hroot) votes' minVotes
    -- the reference reads the maps only by lookup and by counting
    have hparent : ∀ c, Store.parentOf { store with blocks := blocks' } c = store.parentOf c := by
      intro c
      unfold Store.parentOf
      rw [AList.perm_lookup hblocks]
    rw [hrun', hunique head' (hghost'.congr hparent fun c _ => ?_)]
    unfold Store.weight
    rw [hvotes.countP_eq]
    apply List.countP_congr
    intro e _
    simp only [decide_eq_true_eq]
    exact Store.descends_congr hparent
  · -- dropping the votes for unknown blocks changes no weight
    obtain ⟨head', hrun', hghost'⟩ := wf.exists_head h0 hroot
      (votes.retain fun _ d => decide (d.head.root ∈ store.blocks)) minVotes
    rw [hrun', hunique head' (hghost'.congr (fun _ => rfl) fun c hc => ?_)]
    exact store.weight_retain_known votes hc

end Descent

/-! ## The head is a leaf -/

section Leaf

/-- The walk ends where no child is listed, at its start or at a listed child. -/
theorem walkHeaviest_eq_ok {weights : HashMap H256 ℕ} {children : HashMap H256 (List H256)}
    {fuel : ℕ} {curr head : H256} (h : walkHeaviest weights children fuel curr = .ok head) :
    (children.lookup head).getD [] = [] ∧
      (head = curr ∨ ∃ p, head ∈ (children.lookup p).getD []) := by
  induction fuel generalizing curr with
  | zero => exact absurd h (by simp [walkHeaviest])
  | succ fuel ih =>
    unfold walkHeaviest at h
    cases hmax : maxBy (compareChildren weights) ((children.lookup curr).getD []) with
    | none =>
      rw [hmax] at h
      obtain rfl := Except.ok.inj h
      exact ⟨maxBy_eq_none.mp hmax, Or.inl rfl⟩
    | some best =>
      -- the walk goes on from a listed child
      rw [hmax] at h
      obtain ⟨hleaf, hlast⟩ := ih h
      refine ⟨hleaf, Or.inr ?_⟩
      rcases hlast with rfl | hlast
      · exact ⟨curr, (maxBy_eq_some (fun c => toLex ((weights.lookup c).getD 0, c))
          (fun a b => compareChildren_eq_gt) hmax).1⟩
      · exact hlast

/-- The head is a stored block. -/
theorem Store.getForkChoiceHead_mem {store : Store} {root head : H256}
    {votes : HashMap ℕ AttestationData} {minVotes : ℕ}
    (h : store.getForkChoiceHead root votes minVotes = .ok head) : head ∈ store.blocks := by
  obtain ⟨start, -, h⟩ := bind_eq_ok.mp h
  obtain ⟨block, hblock, h⟩ := bind_eq_ok.mp h
  obtain ⟨weights, -, h⟩ := bind_eq_ok.mp h
  rcases (walkHeaviest_eq_ok h).2 with rfl | ⟨p, hp⟩
  · exact AList.mem_iff_exists_lookup.mpr ⟨block, expect_eq_ok.mp hblock⟩
  · obtain ⟨b, hb, -⟩ := Store.mem_childMap.mp hp
    exact AList.mem_iff_exists_lookup.mpr ⟨b, hb⟩

theorem Store.addVote_congr {store store' : Store} (h : store'.blocks = store.blocks)
    (rootSlot fuel : ℕ) (curr : H256) (currSlot : ℕ) (weights : HashMap H256 ℕ) :
    store'.addVote rootSlot fuel curr currSlot weights =
      store.addVote rootSlot fuel curr currSlot weights := by
  induction fuel generalizing curr currSlot weights with
  | zero => rfl
  | succ fuel ih => simp only [Store.addVote, h, ih]

/-- The head rule reads nothing of the store but the blocks. -/
theorem Store.getForkChoiceHead_congr {store store' : Store} (h : store'.blocks = store.blocks)
    (root : H256) (votes : HashMap ℕ AttestationData) (minVotes : ℕ) :
    store'.getForkChoiceHead root votes minVotes = store.getForkChoiceHead root votes minVotes := by
  simp only [Store.getForkChoiceHead, Store.startRoot, Store.blockAt, Store.voteWeights,
    Store.childMap, h, Store.addVote_congr h]

/-- Without a bound on the votes, the head is a block on which no other one stands. -/
theorem Store.getForkChoiceHead_leaf {store : Store} {root head : H256}
    {votes : HashMap ℕ AttestationData} (hzero : 0 ∉ store.blocks)
    (h : store.getForkChoiceHead root votes 0 = .ok head) :
    ∀ r block, store.blocks.lookup r = some block → block.parentRoot ≠ head := by
  intro r b hb hparent
  have hne : head ≠ 0 := by
    rintro rfl
    exact hzero (Store.getForkChoiceHead_mem h)
  obtain ⟨start, -, h⟩ := bind_eq_ok.mp h
  obtain ⟨block, hblock, h⟩ := bind_eq_ok.mp h
  obtain ⟨weights, -, h⟩ := bind_eq_ok.mp h
  -- every child has the zero votes that are asked for
  have hchild : r ∈ ((store.childMap weights 0).lookup head).getD [] :=
    Store.mem_childMap.mpr ⟨b, hb, hparent, hne, Nat.zero_le _⟩
  rw [(walkHeaviest_eq_ok h).1] at hchild
  exact absurd hchild (by simp)

end Leaf

/-! ## A tie -/

namespace Tie

def block (slot parentRoot : ℕ) : Block where
  slot := slot
  proposerIndex := 0
  parentRoot := parentRoot
  stateRoot := 0
  body := { attestations := [] }

/-- The anchor 1 with the children 2 and 3, and a child 4 of block 2. -/
def store : Store where
  time := 8
  config := { genesisTime := 0 }
  head := 1
  safeTarget := 1
  latestJustified := ⟨1, 0⟩
  latestFinalized := ⟨1, 0⟩
  blocks := (((AList.singleton 1 (block 0 0)).insert 2 (block 1 1)).insert 3 (block 2 1)).insert 4
    (block 2 2)
  states := ∅
  latestKnownAttestations := ∅
  latestNewAttestations := ∅
  blocksQueue := ∅
  gossipSignatures := ∅
  aggregatedPayloads := ∅

def vote (head : Checkpoint) : AttestationData where
  slot := 2
  head := head
  target := ⟨1, 0⟩
  source := ⟨1, 0⟩

/-- One vote for block 4, one for block 3 and one for an unknown block. -/
def votes : HashMap ℕ AttestationData :=
  ((AList.singleton 0 (vote ⟨4, 2⟩)).insert 1 (vote ⟨3, 2⟩)).insert 2 (vote ⟨9, 2⟩)

theorem wellFormed : store.WellFormed 1 where
  anchor_mem := by decide
  anchor_parent := by
    intro b hb
    obtain rfl : block 0 0 = b := Option.some.inj hb
    decide
  parent_ne_zero := by
    intro root b hb hne
    have hmem := AList.lookup_eq_some_iff.mp hb
    have hall : ∀ e ∈ store.blocks.entries, e.1 ≠ 1 → e.2.parentRoot ≠ 0 := by decide
    exact hall _ hmem hne
  parent_mem := by
    intro root b hb hne
    have hmem := AList.lookup_eq_some_iff.mp hb
    have hall : ∀ e ∈ store.blocks.entries, e.1 ≠ 1 →
        ∃ p ∈ store.blocks.lookup e.2.parentRoot, p.slot < e.2.slot := by decide
    exact hall _ hmem hne

end Tie

/-- With one vote on each side of the fork, the head is the child with the greater root. -/
theorem tie_goes_to_greater_root :
    Tie.store.getForkChoiceHead 1 Tie.votes 0 = .ok 3 ∧
      ∀ h, Tie.store.Ghost Tie.votes 0 1 h ↔ h = 3 := by
  have hrun : Tie.store.getForkChoiceHead 1 Tie.votes 0 = .ok 3 := by decide +kernel
  obtain ⟨head, hhead, hghost, -⟩ :=
    head_is_lmd_ghost Tie.wellFormed (show 1 ≠ 0 by decide) (by decide) Tie.votes 0
  obtain rfl := Except.ok.inj (hrun.symm.trans hhead)
  exact ⟨hrun, hghost⟩

end ConsensusClient
