import Mathlib.Data.Set.Lattice
import Mathlib.Logic.Function.Basic

/-!
# Parties That Exchange Messages

A system of parties, each with a state of its own. An event happens at one party; if it delivers a
message, some party has sent the message before. Messages may be delayed, lost, repeated and
reordered. The rules carry a property of the steps of one party over to all runs of the system.

## Main results

* `Parties.Run.invariant`: the rule for a property of one party
* `Parties.Run.simulates`: one system refines another if the steps of each party do
* `Parties.Run.traced`: whatever is held was held at the start or was made by some party
-/

/-- The parties of a system, with the message that an event delivers and the messages that a party
    has sent. -/
structure Parties (ι S Event M : Type*) where
  step : ι → S → Event → S
  delivers : Event → Option M
  sent : S → Set M

namespace Parties

variable {ι S Event M : Type*} [DecidableEq ι] {P : Parties ι S Event M} {init net : ι → S}
  {log : List (ι × Event)}

/-- The event can happen: what it delivers was sent. -/
def Enabled (P : Parties ι S Event M) (net : ι → S) (event : Event) : Prop :=
  ∀ message ∈ P.delivers event, ∃ j, message ∈ P.sent (net j)

/-- The runs of the system, with the events in the order in which they happened. -/
inductive Run (P : Parties ι S Event M) (init : ι → S) : List (ι × Event) → (ι → S) → Prop
  | start : Run P init [] init
  | act {log : List (ι × Event)} {net : ι → S} (h : Run P init log net) (i : ι) (event : Event)
      (henabled : P.Enabled net event) :
      Run P init (log ++ [(i, event)]) (Function.update net i (P.step i (net i) event))

/-- The system after a number of events. -/
def after (P : Parties ι S Event M) (init : ι → S) (log : List (ι × Event)) : ι → S :=
  log.foldl (fun net x => Function.update net x.1 (P.step x.1 (net x.1) x.2)) init

/-- One more event of a run. -/
theorem Run.act_after (h : P.Run init log (P.after init log)) (i : ι) (event : Event)
    (henabled : P.Enabled (P.after init log) event) :
    P.Run init (log ++ [(i, event)]) (P.after init (log ++ [(i, event)])) := by
  have hafter : P.after init (log ++ [(i, event)]) =
      Function.update (P.after init log) i (P.step i (P.after init log i) event) := by
    simp [after]
  rw [hafter]
  exact h.act i event henabled

/-- The events of one party. -/
def eventsAt (log : List (ι × Event)) (i : ι) : List Event :=
  log.filterMap fun x => if x.1 = i then some x.2 else none

theorem eventsAt_append_self (log : List (ι × Event)) (i : ι) (event : Event) :
    eventsAt (log ++ [(i, event)]) i = eventsAt log i ++ [event] := by
  simp [eventsAt, List.filterMap_append]

theorem eventsAt_append_of_ne (log : List (ι × Event)) {i j : ι} (h : j ≠ i) (event : Event) :
    eventsAt (log ++ [(i, event)]) j = eventsAt log j := by
  simp [eventsAt, List.filterMap_append, h.symm]

/-- A property of the parties and their events holds in every run if the party at which something
    happens keeps it, in view of the system before. -/
theorem Run.invariant {I : ι → List Event → S → Prop} (hinit : ∀ i, I i [] (init i))
    (hstep : ∀ log net i event, P.Run init log net → (∀ j, I j (eventsAt log j) (net j)) →
      P.Enabled net event → I i (eventsAt log i ++ [event]) (P.step i (net i) event))
    (h : P.Run init log net) : ∀ i, I i (eventsAt log i) (net i) := by
  induction h with
  | start => exact hinit
  | @act log net hrun i event henabled ih =>
    intro j
    by_cases hj : j = i
    · subst hj
      rw [eventsAt_append_self, Function.update_self]
      exact hstep log net j event hrun ih henabled
    · rw [eventsAt_append_of_ne log hj, Function.update_of_ne hj]
      exact ih j

/-- The state of a party is made by its own events. -/
theorem Run.local_eq (h : P.Run init log net) (i : ι) :
    (eventsAt log i).foldl (P.step i) (init i) = net i := by
  refine h.invariant (I := fun i events s => events.foldl (P.step i) (init i) = s)
    (fun i => rfl) ?_ i
  intro log net i event _ hbefore _
  rw [List.foldl_append, hbefore i]
  rfl

/-- A system refines another one if each step of a party is nothing or a step there, once the
    states are read as states there. -/
theorem Run.simulates {S' Event' M' : Type*} {Q : Parties ι S' Event' M'} {f : S → S'}
    (hstep : ∀ log net i event, P.Run init log net → P.Enabled net event →
      f (P.step i (net i) event) = f (net i) ∨ ∃ event',
        Q.Enabled (fun j => f (net j)) event' ∧
        f (P.step i (net i) event) = Q.step i (f (net i)) event')
    (h : P.Run init log net) :
    ∃ log', Q.Run (fun i => f (init i)) log' fun i => f (net i) := by
  induction h with
  | start => exact ⟨[], .start⟩
  | @act log net hrun i event henabled ih =>
    obtain ⟨log', hrun'⟩ := ih
    have hupdate : (fun j => f (Function.update net i (P.step i (net i) event) j)) =
        Function.update (fun j => f (net j)) i (f (P.step i (net i) event)) :=
      Function.comp_update f net i _
    rw [hupdate]
    rcases hstep log net i event hrun henabled with hsame | ⟨event', henabled', heq⟩
    · -- the party does nothing there
      refine ⟨log', ?_⟩
      rw [hsame, Function.update_eq_self i fun j => f (net j)]
      exact hrun'
    · refine ⟨log' ++ [(i, event')], ?_⟩
      rw [heq]
      exact hrun'.act i event' henabled'

/-- The parties hold what they know, what they are told and what they make themselves, and they
    tell only what they hold. -/
structure Traces {K : Type*} (P : Parties ι S Event M) (held made : S → Set K)
    (content : M → Set K) : Prop where
  made_mono : ∀ i s event, made s ⊆ made (P.step i s event)
  held_step : ∀ i s event (known : Set K), held s ⊆ known →
    (∀ message ∈ P.delivers event, content message ⊆ known) →
    held (P.step i s event) ⊆ known ∪ made (P.step i s event)
  sent_held : ∀ s, ∀ message ∈ P.sent s, content message ⊆ held s

section Traces

variable {K : Type*} {held made : S → Set K} {content : M → Set K} {base : Set K}

omit [DecidableEq ι] in
/-- What an event tells is known, if everything that is held is. -/
theorem Traces.told (htraces : P.Traces held made content) {known : Set K}
    (hheld : ∀ i, held (net i) ⊆ known) {event : Event} (henabled : P.Enabled net event) :
    ∀ message ∈ P.delivers event, content message ⊆ known := by
  intro message hmessage
  obtain ⟨j, hj⟩ := henabled message hmessage
  exact (htraces.sent_held _ message hj).trans (hheld j)

/-- Everything that a party holds was there from the start or was made by some party. -/
theorem Run.traced (htraces : P.Traces held made content) (hinit : ∀ i, held (init i) ⊆ base)
    (h : P.Run init log net) : ∀ i, held (net i) ⊆ base ∪ ⋃ j, made (net j) := by
  induction h with
  | start => exact fun i => (hinit i).trans Set.subset_union_left
  | @act log net hrun i event henabled ih =>
    have hself := htraces.held_step i (net i) event _ (ih i) (htraces.told ih henabled)
    have hmono := htraces.made_mono i (net i) event
    -- what was made stays made
    have hmade : ∀ j, made (net j) ⊆
        ⋃ k, made (Function.update net i (P.step i (net i) event) k) := by
      intro j
      refine subset_trans ?_ (Set.subset_iUnion _ j)
      by_cases hj : j = i
      · subst hj
        rw [Function.update_self]
        exact hmono
      · rw [Function.update_of_ne hj]
    have hnew : made (P.step i (net i) event) ⊆
        ⋃ k, made (Function.update net i (P.step i (net i) event) k) := by
      refine subset_trans ?_ (Set.subset_iUnion _ i)
      rw [Function.update_self]
    have hknown := Set.union_subset_union_right base (Set.iUnion_subset hmade)
    intro j
    by_cases hj : j = i
    · subst hj
      rw [Function.update_self]
      exact hself.trans (Set.union_subset hknown (hnew.trans Set.subset_union_right))
    · rw [Function.update_of_ne hj]
      exact (ih j).trans hknown

end Traces

end Parties
