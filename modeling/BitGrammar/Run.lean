import BitGrammar.Misuse
import BitGrammar.Trace

/-!
# Runs

A `Run` is what comes of a computation on the input: its trace and its outcome. A run succeeds,
fails on the input, meets a misuse of the grammar, or never ends. `Run.bind` goes on only after
success. `Run.attempt` makes a failure a value that the rest of the run can look at; misuse and
endlessness it leaves alone, so nothing in a grammar can absorb them.

The main facts say that runs form a lawful monad, and what `attempt` does to each outcome.
-/

namespace BitGrammar

/-- How a run ends, if it does. -/
inductive Outcome (α : Type) where
  | ok (result : α)
  | failed (failure : Failure)
  | misused (misuse : Misuse)
  | endless
  deriving Inhabited

/-- The trace and the outcome of a computation on the input. -/
structure Run (α : Type) where
  trace : List Record
  outcome : Outcome α
  deriving Inhabited

namespace Outcome

/-- Changes the result of a success. -/
def map {α β : Type} (f : α → β) : Outcome α → Outcome β
  | .ok a => .ok (f a)
  | .failed e => .failed e
  | .misused m => .misused m
  | .endless => .endless

end Outcome

namespace Run

variable {α β γ : Type}

/-- Success at once. -/
def pure (a : α) : Run α := ⟨[], .ok a⟩

/-- Goes on with the result of a success; the traces follow each other. -/
def bind (x : Run α) (f : α → Run β) : Run β :=
  match x.outcome with
  | .ok a => ⟨x.trace ++ (f a).trace, (f a).outcome⟩
  | .failed e => ⟨x.trace, .failed e⟩
  | .misused m => ⟨x.trace, .misused m⟩
  | .endless => ⟨x.trace, .endless⟩

instance : Monad Run where
  pure := Run.pure
  bind := Run.bind

/-- Failure at once. -/
def fail (e : Failure) : Run α := ⟨[], .failed e⟩

/-- The end of a run that meets a misuse. -/
def misuse (m : Misuse) : Run α := ⟨[], .misused m⟩

/-- A run that never ends. -/
def endless : Run α := ⟨[], .endless⟩

/-- Leaves a record. -/
def record (r : Record) : Run Unit := ⟨[r], .ok ()⟩

/-- A result or a failure as a run without a trace. -/
def ofExcept : Except Failure α → Run α
  | .ok a => pure a
  | .error e => fail e

/-- Runs to the end and hands over the failure in place of failing. -/
def attempt (x : Run α) : Run (Except Failure α) :=
  ⟨x.trace, match x.outcome with
    | .ok a => .ok (.ok a)
    | .failed e => .ok (.error e)
    | .misused m => .misused m
    | .endless => .endless⟩

/-- Leaves a record of a failure and fails all the same. -/
def recordFailure (x : Run α) (r : Failure → Record) : Run α :=
  match x.outcome with
  | .failed e => ⟨x.trace ++ [r e], .failed e⟩
  | _ => x

theorem ext {x y : Run α} (trace : x.trace = y.trace) (outcome : x.outcome = y.outcome) :
    x = y := by
  cases x; cases y; simp_all

@[simp] theorem pure_eq (a : α) : (Pure.pure a : Run α) = ⟨[], .ok a⟩ := rfl

theorem bind_eq (x : Run α) (f : α → Run β) : (x >>= f) = Run.bind x f := rfl

@[simp] theorem bind_ok (t : List Record) (a : α) (f : α → Run β) :
    ((⟨t, .ok a⟩ : Run α) >>= f) = ⟨t ++ (f a).trace, (f a).outcome⟩ := rfl

@[simp] theorem bind_failed (t : List Record) (e : Failure) (f : α → Run β) :
    ((⟨t, .failed e⟩ : Run α) >>= f) = ⟨t, .failed e⟩ := rfl

@[simp] theorem bind_misused (t : List Record) (m : Misuse) (f : α → Run β) :
    ((⟨t, .misused m⟩ : Run α) >>= f) = ⟨t, .misused m⟩ := rfl

@[simp] theorem bind_endless (t : List Record) (f : α → Run β) :
    ((⟨t, .endless⟩ : Run α) >>= f) = ⟨t, .endless⟩ := rfl

@[simp] theorem attempt_ok (t : List Record) (a : α) :
    attempt (⟨t, .ok a⟩ : Run α) = ⟨t, .ok (.ok a)⟩ := rfl

@[simp] theorem attempt_failed (t : List Record) (e : Failure) :
    attempt (⟨t, .failed e⟩ : Run α) = ⟨t, .ok (.error e)⟩ := rfl

@[simp] theorem attempt_misused (t : List Record) (m : Misuse) :
    attempt (⟨t, .misused m⟩ : Run α) = ⟨t, .misused m⟩ := rfl

@[simp] theorem attempt_endless (t : List Record) :
    attempt (⟨t, .endless⟩ : Run α) = ⟨t, .endless⟩ := rfl

theorem map_id (x : Run α) : id <$> x = x := by
  obtain ⟨t, o⟩ := x
  cases o <;> simp [Functor.map, Run.bind, Run.pure]

theorem pure_bind (a : α) (f : α → Run β) : (Pure.pure a >>= f) = f a := by
  apply ext <;> simp

theorem bind_assoc (x : Run α) (f : α → Run β) (g : β → Run γ) :
    (x >>= f >>= g) = (x >>= fun a => f a >>= g) := by
  obtain ⟨t, o⟩ := x
  cases o with
  | ok a =>
    generalize h : f a = y
    obtain ⟨s, p⟩ := y
    cases p <;> simp [h]
  | failed e => rfl
  | misused m => rfl
  | endless => rfl

instance : LawfulMonad Run := LawfulMonad.mk' Run map_id pure_bind bind_assoc

/-! ### Changed results -/

theorem map_eq (f : α → β) (x : Run α) : f <$> x = ⟨x.trace, x.outcome.map f⟩ := by
  rw [map_eq_pure_bind]
  obtain ⟨t, o⟩ := x
  cases o <;> simp [Outcome.map]

theorem attempt_map (f : α → β) (x : Run α) : (f <$> x).attempt = Except.map f <$> x.attempt := by
  obtain ⟨t, o⟩ := x
  cases o <;> simp [map_eq, Outcome.map, Except.map]

theorem recordFailure_map (f : α → β) (x : Run α) (r : Failure → Record) :
    (f <$> x).recordFailure r = f <$> x.recordFailure r := by
  obtain ⟨t, o⟩ := x
  cases o <;> simp [map_eq, Outcome.map, recordFailure]

/-! ### Going on, by the outcome -/

variable {x : Run α}

theorem bind_of_ok {f : α → Run β} {a : α} (h : x.outcome = .ok a) :
    x >>= f = ⟨x.trace ++ (f a).trace, (f a).outcome⟩ := by
  obtain ⟨t, o⟩ := x
  cases h
  rfl

theorem bind_of_failed {f : α → Run β} {e : Failure} (h : x.outcome = .failed e) :
    x >>= f = ⟨x.trace, .failed e⟩ := by
  obtain ⟨t, o⟩ := x
  cases h
  rfl

theorem attempt_bind_of_ok {f : Except Failure α → Run β} {a : α} (h : x.outcome = .ok a) :
    x.attempt >>= f = ⟨x.trace ++ (f (.ok a)).trace, (f (.ok a)).outcome⟩ := by
  obtain ⟨t, o⟩ := x
  cases h
  rfl

theorem attempt_bind_of_failed {f : Except Failure α → Run β} {e : Failure}
    (h : x.outcome = .failed e) :
    x.attempt >>= f = ⟨x.trace ++ (f (.error e)).trace, (f (.error e)).outcome⟩ := by
  obtain ⟨t, o⟩ := x
  cases h
  rfl

/-- How a run goes on matters only for the result that it has. -/
theorem bind_congr_of_outcome {f g : α → Run β} (ok : ∀ a, x.outcome = .ok a → f a = g a) :
    (x >>= f) = (x >>= g) := by
  obtain ⟨t, o⟩ := x
  cases o with
  | ok a => rw [bind_ok, bind_ok, ok a rfl]
  | failed e => rfl
  | misused m => rfl
  | endless => rfl

/-- A run that does not fail can be looked at before or behind what follows it. -/
theorem attempt_bind_of_ne_failed {f : α → Run β} (h : ∀ e, x.outcome ≠ .failed e) :
    (x >>= f).attempt = x >>= fun a => (f a).attempt := by
  obtain ⟨t, o⟩ := x
  cases o with
  | ok a => rfl
  | failed e => exact absurd rfl (h e)
  | misused m => rfl
  | endless => rfl

/-! ### Outcomes, whatever the traces are -/

theorem outcome_bind_ok {f : α → Run β} {a : α} (h : x.outcome = .ok a) :
    (x >>= f).outcome = (f a).outcome := by
  rw [bind_of_ok h]

theorem outcome_bind_failed {f : α → Run β} {e : Failure} (h : x.outcome = .failed e) :
    (x >>= f).outcome = .failed e := by
  rw [bind_of_failed h]

theorem outcome_attempt_bind_ok {f : Except Failure α → Run β} {a : α} (h : x.outcome = .ok a) :
    (x.attempt >>= f).outcome = (f (.ok a)).outcome := by
  rw [attempt_bind_of_ok h]

theorem outcome_attempt_bind_failed {f : Except Failure α → Run β} {e : Failure}
    (h : x.outcome = .failed e) : (x.attempt >>= f).outcome = (f (.error e)).outcome := by
  rw [attempt_bind_of_failed h]

theorem ok_of_bind {f : α → Run β} {b : β} (h : (x >>= f).outcome = .ok b) :
    ∃ a, x.outcome = .ok a ∧ (f a).outcome = .ok b := by
  obtain ⟨t, o⟩ := x
  cases o with
  | ok a => exact ⟨a, rfl, h⟩
  | failed e => cases h
  | misused what => cases h
  | endless => cases h

theorem ok_of_attempt_bind {f : Except Failure α → Run β} {b : β}
    (h : (x.attempt >>= f).outcome = .ok b) :
    (∃ a, x.outcome = .ok a ∧ (f (.ok a)).outcome = .ok b) ∨
      ∃ e, x.outcome = .failed e ∧ (f (.error e)).outcome = .ok b := by
  obtain ⟨t, o⟩ := x
  cases o with
  | ok a => exact .inl ⟨a, rfl, h⟩
  | failed e => exact .inr ⟨e, rfl, h⟩
  | misused what => cases h
  | endless => cases h

theorem failed_of_bind {f : α → Run β} {e : Failure} (h : (x >>= f).outcome = .failed e) :
    x.outcome = .failed e ∨ ∃ a, x.outcome = .ok a ∧ (f a).outcome = .failed e := by
  obtain ⟨t, o⟩ := x
  cases o with
  | ok a => exact .inr ⟨a, rfl, h⟩
  | failed e' => exact .inl (congrArg Outcome.failed (Outcome.failed.inj h))
  | misused what => cases h
  | endless => cases h

end Run

end BitGrammar
