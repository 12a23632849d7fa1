import Mathlib.Order.Basic
import ConsensusClient.Lib.FiniteMap

/-!
# A Two-Stage Book of Latest Messages

Messages of voters are entered in two stages. A message that was agreed on enters the known
stage at once; any other waits in the new stage until it is accepted. Each stage keeps one
message for a voter and replaces it by a later one only, but accepting overwrites the known
stage by the new one whatever the slots are.

`VoteBook.Covers` is what keeps such a book right: the later of the two messages of a voter is
the latest one entered, and the new stage is not behind the known one. Every event keeps it but
one, a message for the new stage that is older than the known one of its voter while the new
stage is empty (`VoteEvent.IsStale`).

## Main results

* `lookup_foldl_enter`: a stage after a list of messages holds the latest of each voter
* `VoteBook.Covers.step`, `VoteBook.Covers.run`: one event, and a list of events
* `VoteBook.Covers.known_latest`: after accepting, the known message is the latest one entered
-/

/-- A known and a new message for each voter. -/
structure VoteBook (K V : Type) where
  known : AList (fun _ : K => V)
  new : AList (fun _ : K => V)

/-- A message is entered, or the new messages are accepted. -/
inductive VoteEvent (K V : Type) where
  | vote (voter : K) (message : V) (agreed : Bool)
  | accept
  deriving DecidableEq

section

variable {K V : Type} [DecidableEq K] (slot : V → ℕ)

/-- The stage has no message of the voter at this slot or later. -/
def laterThan (stage : AList (fun _ : K => V)) (voter : K) (s : ℕ) : Bool :=
  match stage.lookup voter with
  | some existing => slot existing < s
  | none => true

/-- The stage without a message of the voter that is not after this slot. -/
def dropSuperseded (stage : AList (fun _ : K => V)) (voter : K) (s : ℕ) :
    AList (fun _ : K => V) :=
  match stage.lookup voter with
  | some existing => if slot existing ≤ s then stage.erase voter else stage
  | none => stage

/-- The book after an event. -/
def VoteBook.apply (b : VoteBook K V) : VoteEvent K V → VoteBook K V
  | .vote voter message true =>
    { known :=
        if laterThan slot b.known voter (slot message) then b.known.insert voter message
        else b.known
      new := dropSuperseded slot b.new voter (slot message) }
  | .vote voter message false =>
    { b with
      new :=
        if laterThan slot b.new voter (slot message) then b.new.insert voter message
        else b.new }
  | .accept => { known := b.new ∪ b.known, new := ∅ }

/-- A message for the empty new stage that is older than the known one of its voter. -/
def VoteEvent.IsStale (b : VoteBook K V) : VoteEvent K V → Prop
  | .vote voter message false =>
    b.new.lookup voter = none ∧ ∃ k, b.known.lookup voter = some k ∧ slot message < slot k
  | _ => False

/-- The messages of a voter among the events. -/
def Entered (events : List (VoteEvent K V)) (voter : K) (message : V) : Prop :=
  ∃ agreed, VoteEvent.vote voter message agreed ∈ events

/-- No event of the list is stale when its turn comes. -/
def NeverStale (b : VoteBook K V) (events : List (VoteEvent K V)) : Prop :=
  ∀ pre e post, events = pre ++ e :: post → ¬ e.IsStale slot (pre.foldl (VoteBook.apply slot) b)

end

/-- A list of events is never stale if its first event is not and the rest is not after it. -/
theorem NeverStale.cons {K V : Type} [DecidableEq K] {slot : V → ℕ} {b : VoteBook K V}
    {e : VoteEvent K V} {rest : List (VoteEvent K V)} (he : ¬ e.IsStale slot b)
    (hrest : NeverStale slot (b.apply slot e) rest) : NeverStale slot b (e :: rest) := by
  intro pre e' post heq
  cases pre with
  | nil =>
    obtain ⟨rfl, -⟩ := List.cons.inj heq
    exact he
  | cons x pre =>
    obtain ⟨rfl, htail⟩ := List.cons.inj heq
    exact hrest pre e' post htail

theorem NeverStale.nil {K V : Type} [DecidableEq K] {slot : V → ℕ} {b : VoteBook K V} :
    NeverStale slot b [] := by
  intro pre e post heq
  exact absurd heq (by simp)

theorem NeverStale.of_append {K V : Type} [DecidableEq K] {slot : V → ℕ} {b : VoteBook K V}
    {pre post : List (VoteEvent K V)} (h : NeverStale slot b (pre ++ post)) :
    NeverStale slot b pre := by
  intro pre' e post' heq
  exact h pre' e (post' ++ post) (by rw [heq]; simp)

/-! ## Lookups after an event -/

section Lookup

variable {K V : Type} [DecidableEq K] {slot : V → ℕ}

/-- The message a stage keeps when a message is entered. -/
def keepLater (slot : V → ℕ) (old : Option V) (message : V) : V :=
  match old with
  | some existing => if slot existing < slot message then message else existing
  | none => message

theorem lookup_insert_later (slot : V → ℕ) (stage : AList (fun _ : K => V)) (voter u : K)
    (message : V) :
    (if laterThan slot stage voter (slot message) then stage.insert voter message
      else stage).lookup u =
      if u = voter then some (keepLater slot (stage.lookup voter) message)
      else stage.lookup u := by
  unfold laterThan keepLater
  by_cases hu : u = voter
  · subst hu
    rw [if_pos rfl]
    cases h : stage.lookup u with
    | none => simp
    | some existing =>
      -- the entry is replaced exactly when the message is later
      by_cases hlt : slot existing < slot message
      · simp [hlt]
      · simp [hlt, h]
  · rw [if_neg hu]
    split_ifs
    · rw [AList.lookup_insert_ne hu]
    · rfl

theorem lookup_dropSuperseded (stage : AList (fun _ : K => V)) (voter u : K) (s : ℕ) (m : V) :
    (dropSuperseded slot stage voter s).lookup u = some m ↔
      stage.lookup u = some m ∧ (u = voter → s < slot m) := by
  unfold dropSuperseded
  cases h : stage.lookup voter with
  | none =>
    simp only
    refine ⟨fun hm => ⟨hm, ?_⟩, And.left⟩
    rintro rfl
    rw [h] at hm
    exact absurd hm (by simp)
  | some existing =>
    simp only
    split_ifs with hle
    · -- the entry of the voter is superseded and erased
      rw [AList.lookup_erase_eq]
      by_cases hu : u = voter
      · subst hu
        rw [if_pos rfl, h]
        simp only [reduceCtorEq, Option.some.injEq, forall_const, false_iff, not_and, not_lt]
        rintro rfl
        exact hle
      · simp [hu]
    · refine ⟨fun hm => ⟨hm, ?_⟩, And.left⟩
      rintro rfl
      rw [h] at hm
      obtain rfl := Option.some.inj hm
      omega

theorem slot_le_keepLater (old : Option V) (message : V) :
    slot message ≤ slot (keepLater slot old message) := by
  unfold keepLater
  split
  · split_ifs <;> omega
  · exact le_refl _

theorem old_le_keepLater {old : V} (message : V) :
    slot old ≤ slot (keepLater slot (some old) message) := by
  unfold keepLater
  simp only
  split_ifs <;> omega

theorem keepLater_eq (slot : V → ℕ) (old : Option V) (message : V) :
    keepLater slot old message = message ∨ old = some (keepLater slot old message) := by
  unfold keepLater
  split
  · split_ifs
    · exact Or.inl rfl
    · exact Or.inr rfl
  · exact Or.inl rfl

end Lookup

/-! ## A stage filled from a list -/

section Fill

variable {K V : Type} [DecidableEq K] {slot : V → ℕ} {stage : AList (fun _ : K => V)}
  {messages : List (K × V)} {u : K} {m : V}

/-- The stage after a message for it. -/
def enter (slot : V → ℕ) (stage : AList (fun _ : K => V)) (p : K × V) : AList (fun _ : K => V) :=
  if laterThan slot stage p.1 (slot p.2) then stage.insert p.1 p.2 else stage

/-- A message of the voter that the stage had or that is on the list. -/
def IsCandidate (stage : AList (fun _ : K => V)) (messages : List (K × V)) (u : K) (m : V) : Prop :=
  stage.lookup u = some m ∨ (u, m) ∈ messages

/-- A candidate at the latest slot; at the same slot the message that the stage had is preferred. -/
@[mk_iff] structure IsLatest (slot : V → ℕ) (stage : AList (fun _ : K => V))
    (messages : List (K × V)) (u : K) (m : V) : Prop where
  candidate : IsCandidate stage messages u m
  latest : ∀ m', IsCandidate stage messages u m' → slot m' ≤ slot m
  first : ∀ old, stage.lookup u = some old → slot old = slot m → old = m

theorem lookup_enter (slot : V → ℕ) (stage : AList (fun _ : K => V)) (p : K × V) (u : K) :
    (enter slot stage p).lookup u =
      if u = p.1 then some (keepLater slot (stage.lookup p.1) p.2) else stage.lookup u :=
  lookup_insert_later slot stage p.1 u p.2

/-- A message of another voter does not matter. -/
theorem isLatest_enter_ne {p : K × V} (hu : u ≠ p.1) :
    IsLatest slot (enter slot stage p) messages u m ↔ IsLatest slot stage (p :: messages) u m := by
  have hlookup : (enter slot stage p).lookup u = stage.lookup u := by
    rw [lookup_enter, if_neg hu]
  have hmem : ∀ m', (u, m') ∈ p :: messages ↔ (u, m') ∈ messages := by
    intro m'
    rw [List.mem_cons, or_iff_right]
    rintro rfl
    exact hu rfl
  constructor
  · rintro ⟨hcand, hlatest, hfirst⟩
    simp only [IsCandidate, hlookup] at hcand hlatest hfirst
    exact ⟨by simpa only [IsCandidate, hmem] using hcand,
      by simpa only [IsCandidate, hmem] using hlatest, hfirst⟩
  · rintro ⟨hcand, hlatest, hfirst⟩
    simp only [IsCandidate, hmem] at hcand hlatest
    exact ⟨by simpa only [IsCandidate, hlookup] using hcand,
      by simpa only [IsCandidate, hlookup] using hlatest, by simpa only [hlookup] using hfirst⟩

theorem keepLater_of_le {old x : V} (h : slot x ≤ slot old) :
    keepLater slot (some old) x = old := by
  simp [keepLater, Nat.not_lt.mpr h]

theorem keepLater_of_lt {old x : V} (h : slot old < slot x) :
    keepLater slot (some old) x = x := by
  simp [keepLater, h]

theorem isCandidate_cons_self {x : V} :
    IsCandidate stage ((u, x) :: messages) u m ↔
      stage.lookup u = some m ∨ m = x ∨ (u, m) ∈ messages := by
  simp [IsCandidate]

theorem isCandidate_enter_self {x : V} :
    IsCandidate (enter slot stage (u, x)) messages u m ↔
      keepLater slot (stage.lookup u) x = m ∨ (u, m) ∈ messages := by
  simp [IsCandidate, lookup_enter]

/-- What is the latest after a message has entered was the latest with it on the list. -/
theorem IsLatest.of_enter_self {x : V}
    (h : IsLatest slot (enter slot stage (u, x)) messages u m) :
    IsLatest slot stage ((u, x) :: messages) u m := by
  obtain ⟨hcand, hlatest, hfirst⟩ := h
  have hlookup := lookup_enter slot stage (u, x) u
  rw [if_pos rfl] at hlookup
  have hkept := hlatest _ (isCandidate_enter_self.mpr (Or.inl rfl))
  refine ⟨?_, ?_, ?_⟩
  · rcases isCandidate_enter_self.mp hcand with rfl | h
    · rcases keepLater_eq slot (stage.lookup u) x with h | h
      · exact isCandidate_cons_self.mpr (Or.inr (Or.inl h))
      · exact Or.inl h
    · exact isCandidate_cons_self.mpr (Or.inr (Or.inr h))
  · intro m' hm'
    rcases isCandidate_cons_self.mp hm' with h | rfl | h
    · rw [h] at hkept
      exact (old_le_keepLater x).trans hkept
    · exact (slot_le_keepLater _ _).trans hkept
    · exact hlatest m' (Or.inr h)
  · intro old hold heq
    rw [hold] at hkept hlookup
    -- the message entered is not later than the old one, which is therefore kept
    by_cases hlt : slot old < slot x
    · rw [keepLater_of_lt hlt] at hkept
      omega
    · rw [keepLater_of_le (Nat.not_lt.mp hlt)] at hlookup
      exact hfirst old hlookup heq

/-- Unless it is on the rest of the list, the latest message is the one kept. -/
theorem IsLatest.kept_or_mem {x : V} (h : IsLatest slot stage ((u, x) :: messages) u m) :
    keepLater slot (stage.lookup u) x = m ∨ (u, m) ∈ messages := by
  have hle : slot x ≤ slot m := h.latest x (isCandidate_cons_self.mpr (Or.inr (Or.inl rfl)))
  rcases isCandidate_cons_self.mp h.candidate with hold | rfl | hmem
  · rw [hold]
    exact Or.inl (keepLater_of_le hle)
  · left
    cases hold : stage.lookup u with
    | none => rfl
    | some old =>
      -- an old message of the same slot would be the latest itself
      rcases (h.latest old (Or.inl hold)).lt_or_eq with hlt | heq
      · exact keepLater_of_lt hlt
      · rw [keepLater_of_le heq.ge]
        exact h.first old hold heq
  · exact Or.inr hmem

/-- A message of the voter itself, when no other message of the list has its slot. -/
theorem isLatest_enter_self {x : V} (hx : ∀ m', (u, m') ∈ messages → slot m' ≠ slot x) :
    IsLatest slot (enter slot stage (u, x)) messages u m ↔
      IsLatest slot stage ((u, x) :: messages) u m := by
  refine ⟨IsLatest.of_enter_self, fun h => ⟨isCandidate_enter_self.mpr h.kept_or_mem, ?_, ?_⟩⟩
  · intro m' hm'
    rcases isCandidate_enter_self.mp hm' with rfl | hmem
    · -- what is kept was a candidate before
      rcases keepLater_eq slot (stage.lookup u) x with hk | hk
      · exact h.latest _ (isCandidate_cons_self.mpr (Or.inr (Or.inl hk)))
      · exact h.latest _ (Or.inl hk)
    · exact h.latest m' (isCandidate_cons_self.mpr (Or.inr (Or.inr hmem)))
  · intro old hold heq
    rw [lookup_enter, if_pos rfl] at hold
    obtain rfl := Option.some.inj hold
    rcases h.kept_or_mem with hk | hmem
    · exact hk
    · rcases keepLater_eq slot (stage.lookup u) x with hk | hk
      · exact absurd (hk ▸ heq.symm) (hx m hmem)
      · exact h.first _ hk heq

/-- After a list of messages in which no voter has two at one slot, the stage holds the latest one
    of each voter. -/
theorem lookup_foldl_enter (hdistinct : (messages.map fun p => (p.1, slot p.2)).Nodup) :
    (messages.foldl (enter slot) stage).lookup u = some m ↔ IsLatest slot stage messages u m := by
  induction messages generalizing stage with
  | nil =>
    constructor
    · intro h
      refine ⟨Or.inl h, ?_, ?_⟩
      · intro m' hm'
        have hsame : stage.lookup u = some m' := by simpa [IsCandidate] using hm'
        rw [Option.some.inj (h.symm.trans hsame)]
      · intro old hold _
        exact Option.some.inj (hold.symm.trans h)
    · intro h
      simpa [IsCandidate] using h.candidate
  | cons p messages ih =>
    rw [List.map_cons, List.nodup_cons] at hdistinct
    rw [List.foldl_cons, ih hdistinct.2]
    by_cases hu : u = p.1
    · -- no other message of the voter is at this slot
      obtain ⟨v, x⟩ := p
      obtain rfl : u = v := hu
      apply isLatest_enter_self
      intro m' hm' heq
      exact hdistinct.1 (List.mem_map.mpr ⟨_, hm', by rw [heq]⟩)
    · exact isLatest_enter_ne hu

/-- Only the set of messages matters for what the latest message is. -/
theorem isLatest_congr {messages' : List (K × V)} (h : ∀ p, p ∈ messages ↔ p ∈ messages') :
    IsLatest slot stage messages u m ↔ IsLatest slot stage messages' u m := by
  simp only [isLatest_iff, IsCandidate, h]

end Fill

/-! ## Messages of the book -/

section Holds

variable {K V : Type} [DecidableEq K] {slot : V → ℕ} {b : VoteBook K V} {u : K} {m : V}

/-- The book has this message of the voter in one of its stages. -/
def VoteBook.Holds (b : VoteBook K V) (u : K) (m : V) : Prop :=
  b.known.lookup u = some m ∨ b.new.lookup u = some m

/-- A stage has no other messages than before, but the one entered. -/
theorem lookup_insert_later_cases {stage : AList (fun _ : K => V)} {voter : K} {message : V}
    (h : (if laterThan slot stage voter (slot message) then stage.insert voter message
      else stage).lookup u = some m) :
    stage.lookup u = some m ∨ u = voter ∧ m = message := by
  rw [lookup_insert_later] at h
  split_ifs at h with hu
  · subst hu
    obtain rfl := Option.some.inj h
    rcases keepLater_eq slot (stage.lookup u) message with hkeep | hkeep
    · exact Or.inr ⟨rfl, hkeep⟩
    · exact Or.inl hkeep
  · exact Or.inl h

theorem lookup_accept (b : VoteBook K V) (u : K) (m : V) :
    (b.apply slot .accept).known.lookup u = some m ↔
      b.new.lookup u = some m ∨ (b.new.lookup u = none ∧ b.known.lookup u = some m) := by
  show (b.new ∪ b.known).lookup u = some m ↔ _
  rw [AList.lookup_union_eq]
  cases b.new.lookup u <;> simp

/-- An event adds no message but its own. -/
theorem VoteBook.holds_apply {e : VoteEvent K V} (h : (b.apply slot e).Holds u m) :
    b.Holds u m ∨ ∃ agreed, e = .vote u m agreed := by
  cases e with
  | accept =>
    left
    rcases h with h | h
    · -- an accepted message was in one of the two stages
      rcases (lookup_accept b u m).mp h with h | ⟨-, h⟩
      · exact Or.inr h
      · exact Or.inl h
    · exact absurd h (by simp [VoteBook.apply])
  | vote voter message agreed =>
    -- a message enters one stage, and may drop out of the other one
    cases agreed with
    | true =>
      rcases h with h | h
      · rcases lookup_insert_later_cases h with h | ⟨rfl, rfl⟩
        · exact Or.inl (Or.inl h)
        · exact Or.inr ⟨true, rfl⟩
      · exact Or.inl (Or.inr ((lookup_dropSuperseded b.new voter u (slot message) m).mp h).1)
    | false =>
      rcases h with h | h
      · exact Or.inl (Or.inl h)
      · rcases lookup_insert_later_cases h with h | ⟨rfl, rfl⟩
        · exact Or.inl (Or.inr h)
        · exact Or.inr ⟨false, rfl⟩

/-- What the book holds after a list of events it held before, or it was entered. -/
theorem VoteBook.holds_foldl {events : List (VoteEvent K V)}
    (h : (events.foldl (VoteBook.apply slot) b).Holds u m) :
    b.Holds u m ∨ Entered events u m := by
  induction events generalizing b with
  | nil => exact Or.inl h
  | cons e events ih =>
    rcases ih h with h | ⟨agreed, h⟩
    · rcases VoteBook.holds_apply h with h | ⟨agreed, rfl⟩
      · exact Or.inl h
      · exact Or.inr ⟨agreed, by simp⟩
    · exact Or.inr ⟨agreed, List.mem_cons_of_mem e h⟩

end Holds

/-! ## The invariant -/

section Covers

variable {K V : Type} [DecidableEq K] {slot : V → ℕ}

/-- The book holds the latest of the messages entered. -/
structure VoteBook.Covers (slot : V → ℕ) (b : VoteBook K V) (events : List (VoteEvent K V)) :
    Prop where
  /-- Every message entered is at most as late as a message of the book. -/
  latest : ∀ u m, Entered events u m →
    ∃ m', (b.known.lookup u = some m' ∨ b.new.lookup u = some m') ∧ slot m ≤ slot m'
  /-- The messages of the known stage were entered. -/
  known_entered : ∀ u m, b.known.lookup u = some m → Entered events u m
  /-- The messages of the new stage were entered. -/
  new_entered : ∀ u m, b.new.lookup u = some m → Entered events u m
  /-- The new stage is not behind the known stage. -/
  known_le_new : ∀ u m m', b.known.lookup u = some m → b.new.lookup u = some m' →
    slot m ≤ slot m'

omit [DecidableEq K] in
theorem Entered.mono {events : List (VoteEvent K V)} {u : K} {m : V} (h : Entered events u m)
    (e : VoteEvent K V) : Entered (events ++ [e]) u m := by
  obtain ⟨agreed, h⟩ := h
  exact ⟨agreed, List.mem_append_left _ h⟩

omit [DecidableEq K] in
theorem entered_snoc {events : List (VoteEvent K V)} {e : VoteEvent K V} {u : K} {m : V} :
    Entered (events ++ [e]) u m ↔ Entered events u m ∨ ∃ agreed, e = .vote u m agreed := by
  unfold Entered
  simp only [List.mem_append, List.mem_singleton, exists_or]
  refine or_congr Iff.rfl ⟨?_, ?_⟩
  · rintro ⟨agreed, h⟩
    exact ⟨agreed, h.symm⟩
  · rintro ⟨agreed, h⟩
    exact ⟨agreed, h.symm⟩

/-- What the book holds after an event was entered, if what it held before was. -/
theorem Entered.of_holds {b : VoteBook K V} {events : List (VoteEvent K V)} {e : VoteEvent K V}
    {u : K} {m : V} (hold : b.Holds u m → Entered events u m)
    (h : (b.apply slot e).Holds u m) : Entered (events ++ [e]) u m := by
  rcases VoteBook.holds_apply h with h | he
  · exact (hold h).mono e
  · exact entered_snoc.mpr (Or.inr he)

namespace VoteBook.Covers

variable {b : VoteBook K V} {events : List (VoteEvent K V)}

theorem empty : VoteBook.Covers slot (⟨∅, ∅⟩ : VoteBook K V) [] where
  latest u m h := by
    obtain ⟨agreed, h⟩ := h
    exact absurd h (by simp)
  known_entered u m h := by simp at h
  new_entered u m h := by simp at h
  known_le_new u m m' h := by simp at h

/-- After an event the book holds nothing that was not entered. -/
theorem entered (inv : b.Covers slot events) {e : VoteEvent K V} {u : K} {m : V}
    (h : (b.apply slot e).Holds u m) : Entered (events ++ [e]) u m := by
  apply Entered.of_holds (fun hold => ?_) h
  rcases hold with hold | hold
  · exact inv.known_entered u m hold
  · exact inv.new_entered u m hold

/-- An agreed message keeps the invariant. -/
theorem agreed (inv : b.Covers slot events) (voter : K) (message : V) :
    (b.apply slot (.vote voter message true)).Covers slot
      (events ++ [.vote voter message true]) := by
  have hknown : ∀ u, (b.apply slot (.vote voter message true)).known.lookup u =
      if u = voter then some (keepLater slot (b.known.lookup voter) message)
      else b.known.lookup u := fun u => lookup_insert_later slot b.known voter u message
  have hnew : ∀ u m, (b.apply slot (.vote voter message true)).new.lookup u = some m ↔
      b.new.lookup u = some m ∧ (u = voter → slot message < slot m) := fun u m =>
    lookup_dropSuperseded b.new voter u (slot message) m
  exact {
    latest := by
      intro u m hm
      rcases entered_snoc.mp hm with hm | ⟨agreed, he⟩
      · -- an old message: what covered it is kept, or replaced by something later
        obtain ⟨m', hm', hle⟩ := inv.latest u m hm
        rcases hm' with hm' | hm'
        · by_cases hu : u = voter
          · subst hu
            refine ⟨_, Or.inl ((hknown u).trans (if_pos rfl)), hle.trans ?_⟩
            rw [hm']
            exact old_le_keepLater message
          · exact ⟨m', Or.inl (((hknown u).trans (if_neg hu)).trans hm'), hle⟩
        · by_cases hkeep : u = voter → slot message < slot m'
          · exact ⟨m', Or.inr ((hnew u m').mpr ⟨hm', hkeep⟩), hle⟩
          · -- the new message was superseded by the one entered
            push Not at hkeep
            obtain ⟨rfl, hsup⟩ := hkeep
            refine ⟨_, Or.inl ((hknown u).trans (if_pos rfl)), ?_⟩
            exact (hle.trans hsup).trans (slot_le_keepLater _ message)
      · cases he
        exact ⟨_, Or.inl ((hknown _).trans (if_pos rfl)), slot_le_keepLater _ _⟩
    known_entered := fun u m hm => inv.entered (Or.inl hm)
    new_entered := fun u m hm => inv.entered (Or.inr hm)
    known_le_new := by
      -- what is left in the new stage is later than the message
      intro u m m' hm hm'
      obtain ⟨hold, hlt⟩ := (hnew u m').mp hm'
      rw [hknown] at hm
      split_ifs at hm with hu
      · subst hu
        obtain rfl := Option.some.inj hm
        rcases keepLater_eq slot (b.known.lookup u) message with h | h
        · rw [h]
          exact (hlt rfl).le
        · exact inv.known_le_new u _ m' h hold
      · exact inv.known_le_new u m m' hm hold }

/-- Any other message keeps the invariant, unless it is stale. -/
theorem waiting (inv : b.Covers slot events) (voter : K) (message : V)
    (hstale : ¬ VoteEvent.IsStale slot b (.vote voter message false)) :
    (b.apply slot (.vote voter message false)).Covers slot
      (events ++ [.vote voter message false]) := by
  have hnew : ∀ u, (b.apply slot (.vote voter message false)).new.lookup u =
      if u = voter then some (keepLater slot (b.new.lookup voter) message)
      else b.new.lookup u := fun u => lookup_insert_later slot b.new voter u message
  exact {
    latest := by
      intro u m hm
      -- an old message is covered by what kept its place, the new one by itself
      rcases entered_snoc.mp hm with hm | ⟨agreed, he⟩
      · obtain ⟨m', hm', hle⟩ := inv.latest u m hm
        rcases hm' with hm' | hm'
        · exact ⟨m', Or.inl hm', hle⟩
        · by_cases hu : u = voter
          · subst hu
            refine ⟨_, Or.inr ((hnew u).trans (if_pos rfl)), hle.trans ?_⟩
            rw [hm']
            exact old_le_keepLater message
          · exact ⟨m', Or.inr (((hnew u).trans (if_neg hu)).trans hm'), hle⟩
      · cases he
        exact ⟨_, Or.inr ((hnew _).trans (if_pos rfl)), slot_le_keepLater _ _⟩
    known_entered := fun u m hm => inv.entered (Or.inl hm)
    new_entered := fun u m hm => inv.entered (Or.inr hm)
    known_le_new := by
      intro u m m' hm hm'
      rw [hnew] at hm'
      split_ifs at hm' with hu
      · subst hu
        obtain rfl := Option.some.inj hm'
        cases hold : b.new.lookup u with
        | none =>
          -- the new stage was empty, and the message is not older than the known one
          by_contra hlt
          exact hstale ⟨hold, m, hm, by simpa [keepLater, hold] using hlt⟩
        | some existing =>
          exact (inv.known_le_new u m existing hm hold).trans (old_le_keepLater message)
      · exact inv.known_le_new u m m' hm hm' }

/-- Accepting keeps the invariant. -/
theorem accepted (inv : b.Covers slot events) :
    (b.apply slot .accept).Covers slot (events ++ [.accept]) where
  latest := by
    intro u m hm
    rcases entered_snoc.mp hm with hm | ⟨agreed, he⟩
    · obtain ⟨m', hm', hle⟩ := inv.latest u m hm
      rcases hm' with hm' | hm'
      · cases hold : b.new.lookup u with
        | none => exact ⟨m', Or.inl ((lookup_accept b u m').mpr (Or.inr ⟨hold, hm'⟩)), hle⟩
        | some existing =>
          -- the new message takes the place of a known one that is not later
          exact ⟨existing, Or.inl ((lookup_accept b u existing).mpr (Or.inl hold)),
            hle.trans (inv.known_le_new u m' existing hm' hold)⟩
      · exact ⟨m', Or.inl ((lookup_accept b u m').mpr (Or.inl hm')), hle⟩
    · cases he
  known_entered := fun u m hm => inv.entered (Or.inl hm)
  new_entered := fun u m hm => inv.entered (Or.inr hm)
  known_le_new := by
    intro u m m' _ hm'
    exact absurd hm' (by simp [VoteBook.apply])

/-- An event that is not stale keeps the invariant. -/
theorem step (inv : b.Covers slot events) {e : VoteEvent K V} (hstale : ¬ e.IsStale slot b) :
    (b.apply slot e).Covers slot (events ++ [e]) := by
  cases e with
  | accept => exact inv.accepted
  | vote voter message agreed =>
    cases agreed with
    | true => exact inv.agreed voter message
    | false => exact inv.waiting voter message hstale

/-- The invariant holds along every list of events that is never stale. -/
theorem run (inv : b.Covers slot events) {rest : List (VoteEvent K V)}
    (hstale : NeverStale slot b rest) :
    (rest.foldl (VoteBook.apply slot) b).Covers slot (events ++ rest) := by
  induction rest generalizing b events with
  | nil => simpa using inv
  | cons e rest ih =>
    rw [List.foldl_cons, show events ++ e :: rest = (events ++ [e]) ++ rest by simp]
    apply ih (inv.step (hstale [] e rest rfl))
    intro pre e' post heq
    exact hstale (e :: pre) e' post (by rw [heq]; rfl)

/-- After accepting, the known message of a voter is the latest one entered. -/
theorem known_latest (inv : b.Covers slot events) {u : K} {m : V} (hm : Entered events u m) :
    ∃ k, (b.apply slot .accept).known.lookup u = some k ∧ Entered events u k ∧
      ∀ m', Entered events u m' → slot m' ≤ slot k := by
  have hacc := inv.accepted
  -- the new stage is empty now, so what is latest is known
  have hknown : ∀ m', Entered events u m' →
      ∃ k, (b.apply slot .accept).known.lookup u = some k ∧ slot m' ≤ slot k := by
    intro m' hm'
    obtain ⟨k, hk | hk, hle⟩ := hacc.latest u m' (hm'.mono _)
    · exact ⟨k, hk, hle⟩
    · exact absurd hk (by simp [VoteBook.apply])
  obtain ⟨k, hk, -⟩ := hknown m hm
  refine ⟨k, hk, ?_, fun m' hm' => ?_⟩
  · rcases entered_snoc.mp (hacc.known_entered u k hk) with h | ⟨agreed, he⟩
    · exact h
    · cases he
  · obtain ⟨k', hk', hle⟩ := hknown m' hm'
    obtain rfl := Option.some.inj (hk.symm.trans hk')
    exact hle

/-- No event moves the known message of a voter to an earlier slot. -/
theorem known_mono (inv : b.Covers slot events) (e : VoteEvent K V) {u : K} {k : V}
    (hk : b.known.lookup u = some k) :
    ∃ k', (b.apply slot e).known.lookup u = some k' ∧ slot k ≤ slot k' := by
  cases e with
  | accept =>
    cases hold : b.new.lookup u with
    | none => exact ⟨k, (lookup_accept b u k).mpr (Or.inr ⟨hold, hk⟩), le_refl _⟩
    | some existing =>
      exact ⟨existing, (lookup_accept b u existing).mpr (Or.inl hold),
        inv.known_le_new u k existing hk hold⟩
  | vote voter message agreed =>
    cases agreed with
    | false =>
      -- a message that waits does not touch the known stage
      exact ⟨k, hk, le_refl _⟩
    | true =>
      have hlookup := lookup_insert_later slot b.known voter u message
      by_cases hu : u = voter
      · subst hu
        refine ⟨_, hlookup.trans (if_pos rfl), ?_⟩
        rw [hk]
        exact old_le_keepLater message
      · exact ⟨k, (hlookup.trans (if_neg hu)).trans hk, le_refl _⟩

end VoteBook.Covers

end Covers
