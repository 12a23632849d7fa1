import Mathlib.Data.List.Forall2
import Mathlib.Tactic.Common

/-!
# Outcomes of a Fallible Call

A call of the modelled code ends in one of four ways: it returns a value, it returns an
error value, it panics, or it does not return at all. The last three are the
constructors of `Fault`; `Res α` is `Except Fault α`.

Loops of the source that are not bounded by a counter are translated with a bound that is
reached exactly when the loop runs forever, and end in `Fault.diverge` there.

## Main results

* `bind_eq_ok`, `mapM_eq_ok`, `forM_eq_ok`: what success says about the parts of a call
* `returns_bind_iff`, `returns_foldlM_iff`: when sequences and loops return
* `meets_foldlM`, `foldlM_induction`: the rules for loops, with and without termination
-/

namespace ConsensusClient

/-- The ways in which a call does not return a value. -/
inductive Fault where
  /-- The call returns `Err(msg)`. -/
  | err (msg : String)
  /-- The call panics (a failed assertion, an index out of range, ...). -/
  | panic (msg : String)
  /-- The call does not return. -/
  | diverge
  deriving DecidableEq

/-- Result of a call that may fail. -/
abbrev Res (α : Type) := Except Fault α

/-- `bail!(msg)` -/
def bail {α : Type} (msg : String) : Res α := .error (.err msg)

/-- `panic!(msg)` and failed `assert!`s, index operations and `expect`s. -/
def crash {α : Type} (msg : String) : Res α := .error (.panic msg)

/-- `ensure!(cond, msg)` -/
def ensure (cond : Prop) [Decidable cond] (msg : String) : Res Unit :=
  if cond then .ok () else bail msg

/-- `opt.ok_or(anyhow!(msg))` -/
def okOr {α : Type} (o : Option α) (msg : String) : Res α :=
  match o with
  | some a => .ok a
  | none => bail msg

/-- An index operation or an `expect`: panics where `okOr` returns an error. -/
def expect {α : Type} (o : Option α) (msg : String) : Res α :=
  match o with
  | some a => .ok a
  | none => crash msg

/-- `result.context(msg)`, of which the outermost message is kept. -/
def context {α : Type} (msg : String) (r : Res α) : Res α :=
  match r with
  | .error (.err _) => bail msg
  | r => r

/-- `result.expect(msg)`, of which the message is kept. -/
def expectOk {α : Type} (msg : String) (r : Res α) : Res α :=
  match r with
  | .error (.err _) => crash msg
  | r => r

/-- The call panics. -/
def Res.Panics {α : Type} (r : Res α) : Prop := ∃ msg, r = .error (.panic msg)

/-- The call returns, with a value or with an error value. -/
def Res.Returns {α : Type} (r : Res α) : Prop :=
  (∃ a, r = .ok a) ∨ ∃ msg, r = .error (.err msg)

/-! ## Taking a successful computation apart -/

section Inversion

variable {ε α β : Type}

/-- A successful sequence succeeded in both parts. -/
theorem bind_eq_ok {x : Except ε α} {f : α → Except ε β} {b : β} :
    (x >>= f) = .ok b ↔ ∃ a, x = .ok a ∧ f a = .ok b := by
  cases x with
  | error e => simp [bind, Except.bind]
  | ok a => simp [bind, Except.bind]

/-- A call whose value is known in part has returned. -/
theorem exists_ok_of_map {x : Res α} {f : α → β} {b : β} (h : x.toOption.map f = some b) :
    ∃ a, x = .ok a ∧ f a = b := by
  cases x with
  | error e => simp [Except.toOption] at h
  | ok a => exact ⟨a, rfl, by simpa [Except.toOption] using h⟩

/-- A sequence succeeds exactly when its first part does, if the second always does. -/
theorem exists_bind_iff {x : Res α} {f : α → Res β} (h : ∀ a, x = .ok a → ∃ b, f a = .ok b) :
    (∃ b, (x >>= f) = .ok b) ↔ ∃ a, x = .ok a := by
  constructor
  · rintro ⟨b, hb⟩
    obtain ⟨a, ha, -⟩ := bind_eq_ok.mp hb
    exact ⟨a, ha⟩
  · rintro ⟨a, ha⟩
    obtain ⟨b, hb⟩ := h a ha
    exact ⟨b, bind_eq_ok.mpr ⟨a, ha, hb⟩⟩

/-- A fault of a sequence is a fault of one of its parts. -/
theorem bind_eq_error {x : Res α} {f : α → Res β} {e : Fault} :
    (x >>= f) = .error e ↔ x = .error e ∨ ∃ a, x = .ok a ∧ f a = .error e := by
  cases x with
  | error e' => simp [bind, Except.bind]
  | ok a => simp [bind, Except.bind]

@[simp] theorem ok_bind (a : α) (f : α → Except ε β) :
    ((.ok a : Except ε α) >>= f) = f a := rfl

@[simp] theorem error_bind (e : ε) (f : α → Except ε β) :
    ((.error e : Except ε α) >>= f) = .error e := rfl

@[simp] theorem pure_eq_ok (a : α) : (pure a : Except ε α) = .ok a := rfl

@[simp] theorem mapError_eq_ok {ε' : Type} {x : Except ε α} {f : ε → ε'} {a : α} :
    x.mapError f = .ok a ↔ x = .ok a := by
  cases x <;> simp [Except.mapError]

@[simp] theorem bail_ne_ok {msg : String} {a : α} : bail msg ≠ .ok a := by simp [bail]

@[simp] theorem crash_ne_ok {msg : String} {a : α} : crash msg ≠ .ok a := by simp [crash]

@[simp] theorem ensure_eq_ok {c : Prop} [Decidable c] {msg : String} {u : Unit} :
    ensure c msg = .ok u ↔ c := by
  unfold ensure
  split_ifs with h
  · simp [h]
  · simp [h]

theorem ensure_of {c : Prop} [Decidable c] (h : c) {msg : String} : ensure c msg = .ok () :=
  ensure_eq_ok.mpr h

@[simp] theorem okOr_eq_ok {o : Option α} {msg : String} {a : α} :
    okOr o msg = .ok a ↔ o = some a := by
  cases o <;> simp [okOr]

@[simp] theorem expect_eq_ok {o : Option α} {msg : String} {a : α} :
    expect o msg = .ok a ↔ o = some a := by
  cases o <;> simp [expect]

@[simp] theorem context_eq_ok {msg : String} {r : Res α} {a : α} :
    context msg r = .ok a ↔ r = .ok a := by
  unfold context
  split
  · simp
  · rfl

@[simp] theorem expectOk_eq_ok {msg : String} {r : Res α} {a : α} :
    expectOk msg r = .ok a ↔ r = .ok a := by
  unfold expectOk
  split
  · simp
  · rfl

/-- A loop that collects one value for each element of its list. -/
theorem mapM_eq_ok {f : α → Res β} {xs : List α} {ys : List β} :
    xs.mapM f = .ok ys ↔ List.Forall₂ (fun x y => f x = .ok y) xs ys := by
  induction xs generalizing ys with
  | nil => simp [List.forall₂_nil_left_iff, eq_comm]
  | cons x xs ih =>
    rw [List.mapM_cons, bind_eq_ok, List.forall₂_cons_left_iff]
    simp only [bind_eq_ok, ih]
    constructor
    · rintro ⟨y, hy, rest, hrest, h⟩
      exact ⟨y, rest, hy, hrest, (Except.ok.inj h).symm⟩
    · rintro ⟨y, rest, hy, hrest, rfl⟩
      exact ⟨y, hy, rest, hrest, rfl⟩

/-- Such a loop collects the values of the elements of its list. -/
theorem mem_mapM_iff {f : α → Res β} {xs : List α} {ys : List β} (h : xs.mapM f = .ok ys) {y : β} :
    y ∈ ys ↔ ∃ x ∈ xs, f x = .ok y := by
  induction mapM_eq_ok.mp h with
  | nil => simp
  | cons hx hrest ih =>
    rw [List.mem_cons, ih (mapM_eq_ok.mpr hrest), List.exists_mem_cons_iff, hx, Except.ok.injEq,
      eq_comm]

/-- Such a loop ends exactly when every element has a value. -/
theorem exists_mapM_iff {f : α → Res β} {xs : List α} :
    (∃ ys, xs.mapM f = .ok ys) ↔ ∀ x ∈ xs, ∃ y, f x = .ok y := by
  induction xs with
  | nil => simp
  | cons x xs ih =>
    rw [List.forall_mem_cons, ← ih]
    simp only [List.mapM_cons, bind_eq_ok, pure_eq_ok]
    constructor
    · rintro ⟨_, y, hy, ys, hys, -⟩
      exact ⟨⟨y, hy⟩, ys, hys⟩
    · rintro ⟨⟨y, hy⟩, ys, hys⟩
      exact ⟨y :: ys, y, hy, ys, hys, rfl⟩

/-- A loop of checks passes exactly when each of them does. -/
theorem forM_eq_ok {f : α → Res Unit} {xs : List α} {u : Unit} :
    xs.forM f = .ok u ↔ ∀ x ∈ xs, f x = .ok () := by
  induction xs with
  | nil => simp
  | cons x xs ih =>
    rw [List.forM_eq_forM] at ih ⊢
    rw [List.forM_cons, bind_eq_ok, List.forall_mem_cons, ← ih]
    constructor
    · rintro ⟨_, h⟩
      exact h
    · intro h
      exact ⟨(), h⟩

/-- A check that answers `false` when `c` holds. -/
theorem skip_eq_true {c : Prop} [Decidable c] {x : Res Bool} :
    (if c then pure false else x) = .ok true ↔ ¬ c ∧ x = .ok true := by
  by_cases h : c
  · simp [h]
  · simp [h]

end Inversion

/-! ## Calls that cannot panic -/

section Returns

variable {α β : Type}

theorem returns_ok (a : α) : Res.Returns (.ok a) := Or.inl ⟨a, rfl⟩

theorem returns_bail (msg : String) : Res.Returns (bail msg : Res α) := Or.inr ⟨msg, rfl⟩

theorem returns_ensure (c : Prop) [Decidable c] (msg : String) :
    Res.Returns (ensure c msg) := by
  unfold ensure
  split_ifs
  · exact returns_ok ()
  · exact returns_bail msg

theorem returns_okOr (o : Option α) (msg : String) : Res.Returns (okOr o msg) := by
  cases o with
  | none => exact returns_bail msg
  | some a => exact returns_ok a

theorem returns_ite {c : Prop} [Decidable c] {x y : Res α} (hx : c → x.Returns)
    (hy : ¬ c → y.Returns) : (if c then x else y).Returns := by
  split_ifs with h
  · exact hx h
  · exact hy h

/-- A sequence returns if its first part does and its second does after every value. -/
theorem returns_bind {x : Res α} {f : α → Res β} (hx : x.Returns)
    (hf : ∀ a, x = .ok a → (f a).Returns) : (x >>= f).Returns := by
  rcases hx with ⟨a, rfl⟩ | ⟨msg, rfl⟩
  · exact hf a rfl
  · exact Or.inr ⟨msg, rfl⟩

/-- If the rest of a sequence always returns, the sequence returns exactly when its first part
    does. -/
theorem returns_bind_iff {x : Res α} {f : α → Res β} (hf : ∀ a, (f a).Returns) :
    (x >>= f).Returns ↔ x.Returns := by
  constructor
  · intro h
    cases x with
    | ok a => exact returns_ok a
    | error e =>
      rcases h with ⟨b, hb⟩ | ⟨msg, hmsg⟩
      · simp at hb
      · rw [error_bind, Except.error.injEq] at hmsg
        exact Or.inr ⟨msg, congrArg Except.error hmsg⟩
  · intro h
    exact returns_bind h fun a _ => hf a

/-- A check and what comes after it. -/
theorem returns_seq_iff {x : Res Unit} {y : Res β} :
    (x >>= fun _ => y).Returns ↔ x.Returns ∧ (x = .ok () → y.Returns) := by
  cases x with
  | ok u => simp [returns_ok]
  | error e => simp [Res.Returns]

/-- A loop returns exactly when each of its rounds does, from the value the rounds before it
    left. -/
theorem returns_foldlM_iff {f : β → α → Res β} {xs : List α} {b : β} :
    (xs.foldlM f b).Returns ↔
      ∀ pre x post b', xs = pre ++ x :: post → pre.foldlM f b = .ok b' → (f b' x).Returns := by
  induction xs generalizing b with
  | nil =>
    constructor
    · intro _ pre x post b' h
      exact absurd h (by simp)
    · intro _
      exact returns_ok b
  | cons y ys ih =>
    rw [List.foldlM_cons]
    constructor
    · intro h pre x post b' hsplit hpre
      cases pre with
      | nil =>
        obtain ⟨rfl, rfl⟩ := List.cons.inj hsplit
        obtain rfl := Except.ok.inj hpre
        -- the first round returns, since the loop does
        rcases h with ⟨c, hc⟩ | ⟨msg, hmsg⟩
        · obtain ⟨b₁, h₁, -⟩ := bind_eq_ok.mp hc
          exact Or.inl ⟨b₁, h₁⟩
        · rcases bind_eq_error.mp hmsg with h₁ | ⟨b₁, h₁, -⟩
          · exact Or.inr ⟨msg, h₁⟩
          · exact Or.inl ⟨b₁, h₁⟩
      | cons z pre =>
        obtain ⟨rfl, hrest⟩ := List.cons.inj hsplit
        rw [List.foldlM_cons] at hpre
        -- any other round is one of the rest of the list
        obtain ⟨b₁, h₁, hpre⟩ := bind_eq_ok.mp hpre
        rw [h₁, ok_bind] at h
        exact ih.mp h pre x post b' hrest hpre
    · intro h
      -- the first round returns, and the rest by induction
      apply returns_bind (h [] y ys b rfl rfl)
      intro b₁ h₁
      apply ih.mpr
      intro pre x post b' hsplit hpre
      apply h (y :: pre) x post b' (by rw [hsplit]; rfl)
      rw [List.foldlM_cons, h₁, ok_bind]
      exact hpre

/-- A loop of checks returns exactly when each check does that is reached, after all checks before
    it have passed. -/
theorem returns_forM_iff {f : α → Res Unit} {xs : List α} :
    (xs.forM f).Returns ↔
      ∀ pre x post, xs = pre ++ x :: post → (∀ y ∈ pre, f y = .ok ()) → (f x).Returns := by
  have hfold : ∀ xs : List α, xs.forM f = xs.foldlM (fun _ x => f x) () := by
    intro xs
    induction xs with
    | nil => rfl
    | cons x xs ih =>
      rw [List.forM_eq_forM] at ih ⊢
      rw [List.forM_cons, List.foldlM_cons, ih]
  rw [hfold, returns_foldlM_iff]
  constructor
  · intro h pre x post hsplit hall
    exact h pre x post () hsplit (hfold pre ▸ forM_eq_ok.mpr hall)
  · intro h pre x post _ hsplit hpre
    exact h pre x post hsplit (forM_eq_ok.mp (hfold pre ▸ hpre))

/-- A call that returns does not panic. -/
theorem Res.Returns.not_panics {r : Res α} (h : r.Returns) : ¬ r.Panics := by
  rintro ⟨msg, rfl⟩
  rcases h with ⟨a, ha⟩ | ⟨m, hm⟩
  · simp at ha
  · simp at hm

/-- A sequence panics where its first part does. -/
theorem panics_bind {x : Res α} {f : α → Res β} (h : x.Panics) : (x >>= f).Panics := by
  obtain ⟨msg, rfl⟩ := h
  exact ⟨msg, rfl⟩

@[simp] theorem returns_context_iff {msg : String} {r : Res α} :
    (context msg r).Returns ↔ r.Returns := by
  unfold context
  split
  · exact iff_of_true (returns_bail msg) (returns_bail _)
  · rfl

end Returns

/-! ## Calls that avoid a fault -/

section Avoids

variable {α β : Type} {P : Fault → Prop}

/-- The call does not end in a fault of the kind `P`. -/
def Res.Avoids (P : Fault → Prop) (r : Res α) : Prop := ∀ e, P e → r ≠ .error e

theorem avoids_ok (a : α) : Res.Avoids P (.ok a) := by simp [Res.Avoids]

theorem avoids_error {e : Fault} (he : ¬ P e) : Res.Avoids P (.error e : Res α) := by
  rintro e' he' h
  obtain rfl := Except.error.inj h
  exact he he'

theorem avoids_ensure {c : Prop} [Decidable c] {msg : String} (h : ¬ c → ¬ P (.err msg)) :
    Res.Avoids P (ensure c msg) := by
  unfold ensure
  split_ifs with hc
  · exact avoids_ok ()
  · exact avoids_error (h hc)

theorem avoids_okOr {o : Option α} {msg : String} (h : ¬ P (.err msg)) :
    Res.Avoids P (okOr o msg) := by
  cases o with
  | none => exact avoids_error h
  | some a => exact avoids_ok a

theorem avoids_ite {c : Prop} [Decidable c] {x y : Res α} (hx : c → x.Avoids P)
    (hy : ¬ c → y.Avoids P) : (if c then x else y).Avoids P := by
  split_ifs with h
  · exact hx h
  · exact hy h

theorem avoids_bind {x : Res α} {f : α → Res β} (hx : x.Avoids P)
    (hf : ∀ a, x = .ok a → (f a).Avoids P) : (x >>= f).Avoids P := by
  intro e he h
  rcases bind_eq_error.mp h with h | ⟨a, ha, h⟩
  · exact hx e he h
  · exact hf a ha e he h

/-- A loop avoids a fault if each of its rounds does, from the value the rounds before it
    left. -/
theorem avoids_foldlM {f : β → α → Res β} {xs : List α} {b : β}
    (h : ∀ pre x post b', xs = pre ++ x :: post → pre.foldlM f b = .ok b' → (f b' x).Avoids P) :
    (xs.foldlM f b).Avoids P := by
  induction xs generalizing b with
  | nil => exact avoids_ok b
  | cons y ys ih =>
    rw [List.foldlM_cons]
    refine avoids_bind (h [] y ys b rfl rfl) fun b₁ h₁ => ih fun pre x post b' hsplit hpre => ?_
    apply h (y :: pre) x post b' (by rw [hsplit]; rfl)
    rw [List.foldlM_cons, h₁, ok_bind]
    exact hpre

end Avoids

/-! ## Calls that come to an end -/

section Ends

variable {α β : Type}

/-- The call comes to an end, with a value, an error value or a panic. -/
def Res.Ends (r : Res α) : Prop := r ≠ .error .diverge

@[simp] theorem ends_ok (a : α) : Res.Ends (.ok a) := by simp [Res.Ends]

@[simp] theorem ends_bail (msg : String) : Res.Ends (bail msg : Res α) := by simp [Res.Ends, bail]

@[simp] theorem ends_crash (msg : String) : Res.Ends (crash msg : Res α) := by
  simp [Res.Ends, crash]

theorem Res.Returns.ends {r : Res α} (h : r.Returns) : r.Ends := by
  rcases h with ⟨a, rfl⟩ | ⟨msg, rfl⟩
  · exact ends_ok a
  · exact ends_bail msg

@[simp] theorem ends_ensure (c : Prop) [Decidable c] (msg : String) : (ensure c msg).Ends :=
  (returns_ensure c msg).ends

@[simp] theorem ends_okOr (o : Option α) (msg : String) : (okOr o msg).Ends :=
  (returns_okOr o msg).ends

theorem ends_ite {c : Prop} [Decidable c] {x y : Res α} (hx : x.Ends) (hy : y.Ends) :
    (if c then x else y).Ends := by
  split_ifs
  · exact hx
  · exact hy

theorem ends_bind {x : Res α} {f : α → Res β} (hx : x.Ends) (hf : ∀ a, (f a).Ends) :
    (x >>= f).Ends := by
  intro h
  rcases bind_eq_error.mp h with h | ⟨a, -, h⟩
  · exact hx h
  · exact hf a h

theorem ends_foldlM {f : β → α → Res β} (hf : ∀ b x, (f b x).Ends) (xs : List α) (b : β) :
    (xs.foldlM f b).Ends := by
  induction xs generalizing b with
  | nil => exact ends_ok b
  | cons x xs ih =>
    rw [List.foldlM_cons]
    exact ends_bind (hf b x) ih

theorem ends_mapM {f : α → Res β} (hf : ∀ x, (f x).Ends) (xs : List α) : (xs.mapM f).Ends := by
  induction xs with
  | nil => exact ends_ok []
  | cons x xs ih =>
    rw [List.mapM_cons]
    exact ends_bind (hf x) fun _ => ends_bind ih fun _ => ends_ok _

theorem ends_anyM {f : α → Res Bool} (hf : ∀ x, (f x).Ends) (xs : List α) : (xs.anyM f).Ends := by
  induction xs with
  | nil => exact ends_ok false
  | cons x xs ih =>
    rw [List.anyM_cons]
    refine ends_bind (hf x) fun b => ?_
    cases b with
    | true => exact ends_ok true
    | false => exact ih

end Ends

/-! ## Calls that return a value -/

section Yields

variable {α β : Type} {P : α → Prop} {Q : β → Prop}

/-- The call returns a value, and that value satisfies `P`. -/
def Res.Yields (P : α → Prop) (r : Res α) : Prop := ∃ a, r = .ok a ∧ P a

theorem yields_ok {a : α} (h : P a) : Res.Yields P (.ok a) := ⟨a, rfl, h⟩

/-- What a call is said to yield holds of the value it returns. -/
theorem Res.Yields.of_eq {r : Res α} {a : α} (h : r.Yields P) (ha : r = .ok a) : P a := by
  obtain ⟨a', ha', hP⟩ := h
  obtain rfl := Except.ok.inj (ha.symm.trans ha')
  exact hP

theorem yields_bind {x : Res α} {f : α → Res β} (hx : x.Yields P)
    (hf : ∀ a, P a → (f a).Yields Q) : (x >>= f).Yields Q := by
  obtain ⟨a, rfl, ha⟩ := hx
  exact hf a ha

theorem Res.Yields.imp {P' : α → Prop} {r : Res α} (h : r.Yields P) (himp : ∀ a, P a → P' a) :
    r.Yields P' := by
  obtain ⟨a, ha, hP⟩ := h
  exact ⟨a, ha, himp a hP⟩

/-- Partial and total correctness in one: the call returns a value that satisfies `P`, or it ends
    in a fault if `lax` allows for that. -/
def Res.Meets (lax : Prop) (P : α → Prop) (r : Res α) : Prop :=
  r.Yields P ∨ lax ∧ ∃ e, r = .error e

theorem meets_false {r : Res α} : r.Meets False P ↔ r.Yields P := by simp [Res.Meets]

theorem meets_true {r : Res α} : r.Meets True P ↔ ∀ a, r = .ok a → P a := by
  cases r with
  | ok a => simp [Res.Meets, Res.Yields]
  | error e => simp [Res.Meets, Res.Yields]

theorem meets_ok {lax : Prop} {a : α} (h : P a) : Res.Meets lax P (.ok a) := Or.inl (yields_ok h)

theorem meets_bind {lax : Prop} {x : Res α} {f : α → Res β} (hx : x.Meets lax P)
    (hf : ∀ a, P a → (f a).Meets lax Q) : (x >>= f).Meets lax Q := by
  rcases hx with ⟨a, rfl, ha⟩ | ⟨hlax, e, rfl⟩
  · exact hf a ha
  · exact Or.inr ⟨hlax, e, rfl⟩

/-- The value is the one that the call returns. -/
theorem Res.Meets.with_eq {lax : Prop} {r : Res α} (h : r.Meets lax P) :
    r.Meets lax fun a => r = .ok a ∧ P a := by
  rcases h with ⟨a, rfl, ha⟩ | h
  · exact meets_ok ⟨rfl, ha⟩
  · exact Or.inr h

/-- The rule for a loop; the invariant may speak of the elements still to come. -/
theorem meets_foldlM {lax : Prop} {I : β → List α → Prop} {f : β → α → Res β}
    (hstep : ∀ b x rest, I b (x :: rest) → (f b x).Meets lax fun b' => I b' rest)
    {xs : List α} {b : β} (h : I b xs) : (xs.foldlM f b).Meets lax fun b' => I b' [] := by
  induction xs generalizing b with
  | nil => exact meets_ok h
  | cons x rest ih =>
    rw [List.foldlM_cons]
    exact meets_bind (hstep b x rest h) fun b' hb' => ih hb'

/-- A property that every round keeps, from a value the rounds before it left, holds after the
    loop. -/
theorem foldlM_induction {I : β → Prop} {f : β → α → Res β} {xs : List α} {b b' : β}
    (hstep : ∀ pre x post c c', xs = pre ++ x :: post → pre.foldlM f b = .ok c → I c →
      f c x = .ok c' → I c') (h₀ : I b) (h : xs.foldlM f b = .ok b') : I b' := by
  induction xs generalizing b with
  | nil =>
    obtain rfl := Except.ok.inj h
    exact h₀
  | cons x rest ih =>
    rw [List.foldlM_cons] at h
    obtain ⟨b₁, h₁, h⟩ := bind_eq_ok.mp h
    refine ih ?_ (hstep [] x rest b b₁ rfl rfl h₀ h₁) h
    intro pre y post c c' hsplit hpre
    apply hstep (x :: pre) y post c c' (by rw [hsplit]; rfl)
    rw [List.foldlM_cons, h₁, ok_bind]
    exact hpre

/-- A loop ends exactly when each of its rounds does, from the value the rounds before it left. -/
theorem exists_foldlM_iff {f : β → α → Res β} {xs : List α} {b : β} :
    (∃ b', xs.foldlM f b = .ok b') ↔
      ∀ pre x post c, xs = pre ++ x :: post → pre.foldlM f b = .ok c → ∃ c', f c x = .ok c' := by
  constructor
  · rintro ⟨b', h⟩ pre x post c rfl hpre
    rw [List.foldlM_append, hpre, ok_bind, List.foldlM_cons] at h
    obtain ⟨c', hc', -⟩ := bind_eq_ok.mp h
    exact ⟨c', hc'⟩
  · intro h
    induction xs generalizing b with
    | nil => exact ⟨b, rfl⟩
    | cons y ys ih =>
      obtain ⟨b₁, h₁⟩ := h [] y ys b rfl rfl
      rw [List.foldlM_cons, h₁, ok_bind]
      apply ih
      intro pre x post c hsplit hpre
      apply h (y :: pre) x post c (by rw [hsplit]; rfl)
      rw [List.foldlM_cons, h₁, ok_bind]
      exact hpre

end Yields

/-! ## Calls that change a state in place -/

section InPlace

variable {σ α β : Type}

/-- What a call with a `&mut` argument leaves behind when it returns: the changed state, and its
    `Result`. The call itself has type `Res (After σ α)`, since it may also panic. -/
structure After (σ α : Type) where
  state : σ
  result : Except String α

/-- The call returns `Ok(a)`. -/
def done (s : σ) (a : α) : Res (After σ α) := .ok ⟨s, .ok a⟩

/-- The operator `?` in such a call: an error leaves the state as it is at this point. -/
def attempt (s : σ) (r : Res α) (k : α → Res (After σ β)) : Res (After σ β) :=
  match r with
  | .ok a => k a
  | .error (.err msg) => .ok ⟨s, .error msg⟩
  | .error e => .error e

/-- A call that returns has passed `?`, or returns its error. -/
theorem attempt_eq_ok {s : σ} {r : Res α} {k : α → Res (After σ β)} {x : After σ β} :
    attempt s r k = .ok x ↔
      (∃ a, r = .ok a ∧ k a = .ok x) ∨ ∃ msg, r = .error (.err msg) ∧ x = ⟨s, .error msg⟩ := by
  unfold attempt
  split
  · simp
  · simp [eq_comm]
  · rename_i e hne
    simp only [reduceCtorEq, false_and, exists_false, false_or, false_iff, not_exists, not_and]
    intro msg h
    exact absurd (Except.error.inj h) (hne msg)

/-- A call that returns `Ok` has passed `?`. -/
theorem attempt_eq_done {s s' : σ} {r : Res α} {k : α → Res (After σ β)} {b : β} :
    attempt s r k = done s' b ↔ ∃ a, r = .ok a ∧ k a = done s' b := by
  unfold done
  rw [attempt_eq_ok]
  simp

/-- A call with `?` returns if what it asks for returns. -/
theorem yields_attempt {P : After σ β → Prop} {s : σ} {r : Res α} {k : α → Res (After σ β)}
    (hr : r.Returns) (hk : ∀ a, r = .ok a → (k a).Yields P)
    (herr : ∀ msg, r = .error (.err msg) → P ⟨s, .error msg⟩) : (attempt s r k).Yields P := by
  rcases hr with ⟨a, rfl⟩ | ⟨msg, rfl⟩
  · exact hk a rfl
  · exact yields_ok (herr msg rfl)

@[simp] theorem attempt_ok (s : σ) (a : α) (k : α → Res (After σ β)) :
    attempt s (.ok a) k = k a := rfl

end InPlace

end ConsensusClient
