import ConsensusClient.ForkChoice.Run

/-!
# Flushing the Queue

`process_pending_blocks` works off a stack of roots: it takes the blocks that wait for a root out
of the queue, processes them, and pushes the root of each that was imported. Every round takes a
root from the stack, and every root it pushes stands for a block that has left the queue, so the
loop ends (`processPending_meets`).

## Main results

* `Store.WaitsFor`: the blocks that a root would set free
* `processPending_meets`: the rule for the loop, with the number of rounds as its measure
* `Store.onBlock_meets`: the rule for `on_block`
-/

namespace ConsensusClient

section Rule

variable {E : Env} {store store' : Store} {sb : SignedBlockWithAttestation}

/-- The blocks that wait for a root are all that leaves the queue with it. -/
theorem Store.length_queued_erase {root : H256} {blocks : List SignedBlockWithAttestation}
    (h : store.blocksQueue.lookup root = some blocks) :
    (Store.queued { store with blocksQueue := store.blocksQueue.erase root }).length +
      blocks.length = store.queued.length := by
  have hmem : root ∈ store.blocksQueue.entries.keys :=
    AList.mem_iff_exists_lookup.mpr ⟨blocks, h⟩
  obtain ⟨found, front, back, hfront, hentries, herase⟩ := List.exists_of_kerase hmem
  have hfound : found = blocks := by
    have hin : (⟨root, found⟩ : Sigma fun _ : H256 => List SignedBlockWithAttestation) ∈
        store.blocksQueue.entries := by
      rw [hentries]
      simp
    exact Option.some.inj ((AList.lookup_eq_some_iff.mpr hin).symm.trans h)
  subst hfound
  unfold Store.queued
  show (((store.blocksQueue.entries.kerase root).flatMap fun e => e.2).length +
    found.length = _)
  rw [herase, hentries]
  simp only [List.flatMap_append, List.flatMap_cons, List.length_append]
  omega

/-- The block waits for this root, directly or over other waiting blocks. -/
inductive Store.WaitsFor (E : Env) (store : Store) (root : H256) :
    SignedBlockWithAttestation → Prop
  | direct {sb : SignedBlockWithAttestation} (h : store.blocksQueue.Lists root sb) :
      Store.WaitsFor E store root sb
  | indirect {parent sb : SignedBlockWithAttestation} (hparent : Store.WaitsFor E store root parent)
      (h : store.blocksQueue.Lists (parent.block.hashTreeRoot E) sb) :
      Store.WaitsFor E store root sb

theorem Store.WaitsFor.mem_queued {root : H256} (h : store.WaitsFor E root sb) :
    sb ∈ store.queued := by
  cases h with
  | direct h => exact Store.mem_queued.mpr ⟨root, h⟩
  | indirect _ h => exact Store.mem_queued.mpr ⟨_, h⟩

theorem Store.WaitsFor.mono {root : H256} (h : store'.WaitsFor E root sb)
    (hqueue : ∀ r b, store'.blocksQueue.Lists r b → store.blocksQueue.Lists r b) :
    store.WaitsFor E root sb := by
  induction h with
  | direct h => exact .direct (hqueue _ _ h)
  | indirect _ h ih => exact .indirect ih (hqueue _ _ h)

/-- What waits for a waiting block waits for the root that this one waits for. -/
theorem Store.WaitsFor.trans {root : H256} {parent : SignedBlockWithAttestation}
    (hparent : store.blocksQueue.Lists root parent)
    (h : store.WaitsFor E (parent.block.hashTreeRoot E) sb) : store.WaitsFor E root sb := by
  induction h with
  | direct h => exact .indirect (.direct hparent) h
  | indirect _ h ih => exact .indirect ih h

/-- Processing a block never touches the queue. -/
theorem Store.processBlockInternal_queue {root : H256} {after : After Store Unit}
    (h : store.processBlockInternal E sb root = .ok after) :
    after.state.blocksQueue = store.blocksQueue := by
  obtain ⟨s₁, r⟩ := after
  cases r with
  | ok u =>
    obtain ⟨parent, post, head, himp⟩ := Store.processBlockInternal_eq_ok h
    exact himp.blocksQueue_eq
  | error msg =>
    obtain ⟨rfl, -⟩ := Store.processBlockInternal_eq_error h
    rfl

/-- The stack of roots after a block was processed. -/
def pushRoot (E : Env) (sb : SignedBlockWithAttestation) (roots : List H256) :
    Except String Unit → List H256
  | .ok _ => sb.block.hashTreeRoot E :: roots
  | .error _ => roots

theorem eq_or_mem_of_mem_pushRoot {roots : List H256} {r : Except String Unit} {root : H256}
    (h : root ∈ pushRoot E sb roots r) : root = sb.block.hashTreeRoot E ∨ root ∈ roots := by
  cases r with
  | ok u => exact List.mem_cons.mp h
  | error msg => exact Or.inr h

variable {lax : Prop} {I : Store → List H256 → List SignedBlockWithAttestation → Prop}
  (hstep : ∀ s roots sb rest, I s roots (sb :: rest) →
    (s.processBlockInternal E sb (sb.block.hashTreeRoot E)).Meets lax fun after =>
      I after.state (pushRoot E sb roots after.result) rest)

include hstep in
/-- One queued block, with the number of rounds still to come. -/
theorem Flush.step_meets {fuel : ℕ} {f : Flush} {rest : List SignedBlockWithAttestation}
    (h : I f.store f.roots (sb :: rest))
    (hfuel : f.roots.length + (sb :: rest).length + f.store.queued.length ≤ fuel) :
    (f.step E sb).Meets lax fun f' => I f'.store f'.roots rest ∧
      f'.roots.length + rest.length + f'.store.queued.length ≤ fuel := by
  unfold Flush.step
  refine meets_bind (hstep _ _ _ _ h).with_eq fun after hafter => ?_
  obtain ⟨hafter, hI⟩ := hafter
  obtain ⟨s₁, r⟩ := after
  have hqueue : s₁.queued = f.store.queued :=
    Store.queued_congr (Store.processBlockInternal_queue hafter)
  rw [List.length_cons] at hfuel
  cases r with
  | ok u =>
    refine meets_ok ⟨hI, ?_⟩
    simp only [hqueue, List.length_cons]
    omega
  | error msg =>
    refine meets_ok ⟨hI, ?_⟩
    simp only [hqueue]
    omega

variable
  (hskip : ∀ s root roots, I s (root :: roots) [] → s.blocksQueue.lookup root = none →
    I s roots [])
  (htake : ∀ s root roots blocks, I s (root :: roots) [] →
    s.blocksQueue.lookup root = some blocks →
    I { s with blocksQueue := s.blocksQueue.erase root } roots blocks)

include hstep hskip htake in
/-- The loop over the pending blocks ends with an empty stack. The invariant speaks of the store,
    the stack, and the blocks taken out of the queue and not yet processed. -/
theorem processPending_meets {fuel : ℕ} {f : Flush} (h : I f.store f.roots [])
    (hfuel : f.roots.length + f.store.queued.length ≤ fuel) :
    (processPending E fuel f).Meets lax fun f' => I f'.store [] [] := by
  induction fuel generalizing f with
  | zero =>
    have hroots : f.roots = [] := List.length_eq_zero_iff.mp (by omega)
    unfold processPending
    rw [if_pos hroots]
    rw [hroots] at h
    exact meets_ok h
  | succ fuel ih =>
    unfold processPending
    cases hroots : f.roots with
    | nil =>
      rw [hroots] at h
      exact meets_ok h
    | cons root roots =>
      rw [hroots] at h hfuel
      rw [List.length_cons] at hfuel
      simp only
      cases hlookup : f.store.blocksQueue.lookup root with
      -- a root for which nothing waits is dropped
      | none => exact ih (f := { f with roots }) (hskip _ _ _ h hlookup) (by simp only; omega)
      | some blocks =>
        have hlen := Store.length_queued_erase hlookup
        -- a round pops a root and pushes at most one for each block taken out
        have hround : (blocks.foldlM (Flush.step E)
            ⟨{ f.store with blocksQueue := f.store.blocksQueue.erase root }, roots,
              f.processed⟩).Meets lax fun f' => I f'.store f'.roots [] ∧
                f'.roots.length + ([] : List SignedBlockWithAttestation).length +
                  f'.store.queued.length ≤ fuel := by
          refine meets_foldlM (I := fun (f' : Flush) rest => I f'.store f'.roots rest ∧
            f'.roots.length + rest.length + f'.store.queued.length ≤ fuel) ?_ ⟨?_, ?_⟩
          · intro f' sb rest hf'
            exact Flush.step_meets hstep hf'.1 hf'.2
          · exact htake _ _ _ _ h hlookup
          · simp only
            omega
        refine meets_bind hround fun f' hf' => ih hf'.1 ?_
        simpa using hf'.2

include hstep hskip htake in
/-- `on_block` leaves an empty stack behind, whichever way it takes. -/
theorem Store.onBlock_meets
    (hknown : sb.block.hashTreeRoot E ∈ store.blocks → I store [] [])
    (hqueue : sb.block.hashTreeRoot E ∉ store.blocks → sb.block.parentRoot ∉ store.states →
      sb.block.parentRoot ≠ 0 → I (store.enqueue sb) [] [])
    (hprocess : sb.block.hashTreeRoot E ∉ store.blocks →
      ¬ (sb.block.parentRoot ∉ store.states ∧ sb.block.parentRoot ≠ 0) → I store [] [sb]) :
    (store.onBlock E sb).Meets lax fun after => I after.state [] [] := by
  unfold Store.onBlock
  simp only
  split_ifs with hmem hmissing
  · exact meets_ok (hknown hmem)
  · exact meets_ok (hqueue hmem hmissing.1 hmissing.2)
  · refine meets_bind (hstep _ _ _ _ (hprocess hmem hmissing)) fun after hI => ?_
    obtain ⟨s₁, r⟩ := after
    cases r with
    | error msg => exact meets_ok hI
    | ok u =>
      have hflush := processPending_meets hstep hskip htake
        (f := ⟨s₁, [sb.block.hashTreeRoot E], []⟩) hI (le_refl _)
      exact meets_bind hflush fun f hf => meets_ok hf

end Rule

end ConsensusClient
