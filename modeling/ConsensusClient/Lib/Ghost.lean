import Mathlib.Data.Prod.Lex
import Mathlib.Logic.Relation
import Mathlib.Order.Basic

/-!
# Greedy Descent in a Forest

A forest given by parent pointers, and the walk that starts at a node and moves to the best
child until there is none. The best child is the one with the greatest key, so with an injective
key the walk has one end at most.

## Main results

* `Ancestor.total`, `Acyclic.siblings_eq`: ancestors form a chain, and siblings have disjoint
  subtrees
* `GreedyDescent.unique`: the walk has one end at most
* `GreedyDescent.heavy_iff`: where only heavy children are allowed and no two siblings are heavy,
  the walk goes through exactly the heavy nodes
* `GreedyDescent.through_dominant`: the walk passes through a node that beats all siblings
-/

/-! ## Ancestors -/

section Ancestor

variable {α : Type*} {parent : α → Option α} {slot : α → ℕ} {a b p : α}

/-- `b` is `a` or an ancestor of `a`. -/
def Ancestor (parent : α → Option α) : α → α → Prop :=
  Relation.ReflTransGen fun x y => parent x = some y

/-- An ancestor is the node itself or an ancestor of its parent. -/
theorem ancestor_iff :
    Ancestor parent a b ↔ a = b ∨ ∃ p, parent a = some p ∧ Ancestor parent p b :=
  Relation.ReflTransGen.cases_head_iff

theorem ancestor_of_parent (hp : parent a = some p) :
    Ancestor parent a b ↔ a = b ∨ Ancestor parent p b := by
  rw [ancestor_iff]
  constructor
  · rintro (h | ⟨q, hq, h⟩)
    · exact Or.inl h
    · obtain rfl := Option.some.inj (hp.symm.trans hq)
      exact Or.inr h
  · rintro (h | h)
    · exact Or.inl h
    · exact Or.inr ⟨p, hp, h⟩

/-- A node without a parent has no ancestor but itself. -/
theorem ancestor_of_no_parent (hp : parent a = none) : Ancestor parent a b ↔ a = b := by
  rw [ancestor_iff, hp]
  simp

/-- Of two ancestors of one node, one is an ancestor of the other. -/
theorem Ancestor.total {x : α} (ha : Ancestor parent x a) (hb : Ancestor parent x b) :
    Ancestor parent a b ∨ Ancestor parent b a := by
  apply Relation.ReflTransGen.total_of_right_unique ?_ ha hb
  intro y p q hp hq
  exact Option.some.inj (hp.symm.trans hq)

/-- No node is its own ancestor by way of its parent. -/
def Acyclic (parent : α → Option α) : Prop :=
  ∀ a p, parent a = some p → ¬ Ancestor parent p a

theorem Acyclic.antisymm (hacyclic : Acyclic parent) (hab : Ancestor parent a b)
    (hba : Ancestor parent b a) : a = b := by
  rcases ancestor_iff.mp hab with h | ⟨p, hp, hpb⟩
  · exact h
  · exact absurd (hpb.trans hba) (hacyclic a p hp)

/-- The subtrees under two children of one node are disjoint. -/
theorem Acyclic.siblings_eq (hacyclic : Acyclic parent) {r x : α} (ha : parent a = some r)
    (hb : parent b = some r) (hxa : Ancestor parent x a) (hxb : Ancestor parent x b) : a = b := by
  -- the lower of the two would reach the other one through their parent
  rcases hxa.total hxb with h | h
  · rcases (ancestor_of_parent ha).mp h with h | h
    · exact h
    · exact absurd h (hacyclic b r hb)
  · rcases (ancestor_of_parent hb).mp h with h | h
    · exact h.symm
    · exact absurd h (hacyclic a r ha)

end Ancestor

/-! ## Greedy descent -/

section Descent

variable {α κ : Type*} [LinearOrder κ] {child : α → α → Prop} {key : α → κ}

/-- The child of `r` with the greatest key. -/
def IsBest (child : α → α → Prop) (key : α → κ) (r c : α) : Prop :=
  child r c ∧ ∀ d, child r d → key d ≤ key c

theorem IsBest.unique (hkey : Function.Injective key) {r c d : α} (hc : IsBest child key r c)
    (hd : IsBest child key r d) : c = d :=
  hkey (le_antisymm (hd.2 c hc.1) (hc.2 d hd.1))

/-- The walk from a node to the best child, as long as there is one. -/
inductive GreedyDescent (child : α → α → Prop) (key : α → κ) : α → α → Prop
  | stop {r : α} (leaf : ∀ c, ¬ child r c) : GreedyDescent child key r r
  | step {r c h : α} (best : IsBest child key r c) (rest : GreedyDescent child key c h) :
      GreedyDescent child key r h

/-- The walk depends only on the children and on the keys of children. -/
theorem GreedyDescent.congr {child' : α → α → Prop} {key' : α → κ}
    (hchild : ∀ r c, child r c ↔ child' r c) (hkey : ∀ r c, child r c → key c = key' c) {r h : α}
    (hr : GreedyDescent child key r h) : GreedyDescent child' key' r h := by
  induction hr with
  | stop leaf => exact .stop fun c hc => leaf c ((hchild _ c).mpr hc)
  | step best _ ih =>
    refine .step ⟨(hchild _ _).mp best.1, fun d hd => ?_⟩ ih
    have hd' := (hchild _ d).mpr hd
    rw [← hkey _ _ best.1, ← hkey _ _ hd']
    exact best.2 d hd'

/-- The walk has one end at most. -/
theorem GreedyDescent.unique (hkey : Function.Injective key) {r h h' : α}
    (hr : GreedyDescent child key r h) (hr' : GreedyDescent child key r h') : h = h' := by
  induction hr with
  | stop leaf =>
    cases hr' with
    | stop _ => rfl
    | step best _ => exact absurd best.1 (leaf _)
  | step best _ ih =>
    cases hr' with
    | stop leaf => exact absurd best.1 (leaf _)
    | step best' rest' =>
      obtain rfl := best.unique hkey best'
      exact ih rest'

/-- With one child at most under every node, the walk does not depend on the keys. -/
theorem GreedyDescent.of_unique_child {κ' : Type*} [LinearOrder κ'] {key' : α → κ'}
    (hunique : ∀ r c d, child r c → child r d → c = d) {r h : α}
    (hr : GreedyDescent child key r h) : GreedyDescent child key' r h := by
  induction hr with
  | stop leaf => exact .stop leaf
  | step best _ ih =>
    refine .step ⟨best.1, fun d hd => ?_⟩ ih
    -- the only child is the best one under every key
    rw [hunique _ _ _ hd best.1]

end Descent

/-! ## Descent along the heavy nodes -/

section Heavy

variable {α κ : Type*} [LinearOrder κ] {parent : α → Option α} {heavy : α → Prop} {key : α → κ}

/-- A walk to heavy children that moves at all ends at a heavy node. -/
theorem GreedyDescent.heavy_end {r h : α}
    (hr : GreedyDescent (fun r c => parent c = some r ∧ heavy c) key r h) : h = r ∨ heavy h := by
  induction hr with
  | stop _ => exact Or.inl rfl
  | step best _ ih =>
    rcases ih with rfl | hheavy
    · exact Or.inr best.1.2
    · exact Or.inr hheavy

theorem GreedyDescent.ancestor_start {r h : α}
    (hr : GreedyDescent (fun r c => parent c = some r ∧ heavy c) key r h) :
    Ancestor parent h r := by
  induction hr with
  | stop _ => exact .refl
  | step best _ ih => exact ih.tail best.1.1

/-- If heaviness passes to ancestors and no two siblings are heavy, the walk passes through
    every heavy node below its start. -/
theorem GreedyDescent.through_heavy
    (hup : ∀ a b, Ancestor parent a b → heavy a → heavy b)
    (hunique : ∀ r c d, parent c = some r ∧ heavy c → parent d = some r ∧ heavy d → c = d)
    {r h b : α} (hr : GreedyDescent (fun r c => parent c = some r ∧ heavy c) key r h)
    (hb : Ancestor parent b r) (hheavy : heavy b) : Ancestor parent h b ∨ b = r := by
  induction hr with
  | stop leaf =>
    rcases Relation.ReflTransGen.cases_tail hb with h | ⟨c, hbc, hc⟩
    · exact Or.inr h.symm
    · -- the child of the end towards `b` would be heavy too
      exact absurd ⟨hc, hup b c hbc hheavy⟩ (leaf c)
  | step best rest ih =>
    rcases Relation.ReflTransGen.cases_tail hb with h | ⟨d, hbd, hd⟩
    · exact Or.inr h.symm
    · -- the child towards `b` is the one the walk takes
      obtain rfl := hunique _ _ _ ⟨hd, hup b d hbd hheavy⟩ best.1
      rcases ih hbd with h | rfl
      · exact Or.inl h
      · exact Or.inl rest.ancestor_start

/-- The heavy nodes strictly below the start are the nodes on the way of the walk. -/
theorem GreedyDescent.heavy_iff (hacyclic : Acyclic parent)
    (hup : ∀ a b, Ancestor parent a b → heavy a → heavy b)
    (hunique : ∀ r c d, parent c = some r ∧ heavy c → parent d = some r ∧ heavy d → c = d)
    {r h b : α} (hr : GreedyDescent (fun r c => parent c = some r ∧ heavy c) key r h)
    (hb : Ancestor parent b r) (hne : b ≠ r) : heavy b ↔ Ancestor parent h b := by
  constructor
  · intro hheavy
    exact (hr.through_heavy hup hunique hb hheavy).resolve_right hne
  · intro hhb
    rcases hr.heavy_end with rfl | hheavy
    · exact absurd (hacyclic.antisymm hb hhb) hne
    · exact hup h b hhb hheavy

/-- The walk passes through a node below its start whose ancestors down to it are each better than
    their siblings. -/
theorem GreedyDescent.through_dominant {dominant : α → Prop}
    (hup : ∀ a b, Ancestor parent a b → dominant a → dominant b)
    (hheavy : ∀ a, dominant a → heavy a)
    (hbest : ∀ r c d, parent c = some r → parent d = some r → dominant c → c ≠ d → key d < key c)
    {r h b : α} (hr : GreedyDescent (fun r c => parent c = some r ∧ heavy c) key r h)
    (hb : Ancestor parent b r) (hdominant : dominant b) : Ancestor parent h b := by
  induction hr with
  | stop leaf =>
    rcases Relation.ReflTransGen.cases_tail hb with rfl | ⟨c, hbc, hc⟩
    · exact .refl
    · exact absurd ⟨hc, hheavy c (hup b c hbc hdominant)⟩ (leaf c)
  | @step r c h best rest ih =>
    rcases Relation.ReflTransGen.cases_tail hb with rfl | ⟨d, hbd, hd⟩
    · exact (GreedyDescent.step best rest).ancestor_start
    · -- the walk takes the child towards `b`, which no other child beats
      have hdom := hup b d hbd hdominant
      by_cases hne : d = c
      · subst hne
        exact ih hbd
      · exact absurd (best.2 d ⟨hd, hheavy d hdom⟩) (not_le.mpr (hbest r d c hd best.1.1 hdom hne))

end Heavy
