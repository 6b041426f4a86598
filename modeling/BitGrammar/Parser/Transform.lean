import BitGrammar.Parser

/-!
# Looking at values

Parsers that run another one and then do something with its value: change it, accept or reject
it, or choose by it how to go on. The functions that do so are the grammar's own; one that has a
name leaves a record of every call. An elided value reaches them as `Value.unit`.

A rejected value is a failure at the position where the match started.
-/

namespace BitGrammar

namespace Parser

/-- Leaves a record of the call of a function, if it has a name. -/
def recordCall (kind : HookKind) (name : Option String) (v : Value) : Run Unit :=
  match name with
  | some name => Run.record (.hookCalled kind name v)
  | none => pure ()

theorem outcome_recordCall_bind {α : Type} (kind : HookKind) (name : Option String) (v : Value)
    (f : Unit → Run α) : (recordCall kind name v >>= f).outcome = (f ()).outcome := by
  cases name <;> rfl

/-- Changes the value of a match. -/
def map (name : Option String) (f : Value → Value) (p : Parser) : Parser := fun c => do
  let m ← p c
  recordCall .map name m.shown
  pure ⟨some (f m.shown), m.next⟩

theorem outcome_map_eq_ok_iff {name : Option String} {f : Value → Value} {p : Parser} {c : Cursor}
    {m : Match} : (map name f p c).outcome = .ok m ↔
      ∃ n, (p c).outcome = .ok n ∧ m = ⟨some (f n.shown), n.next⟩ := by
  constructor
  · intro h
    obtain ⟨n, hn, hafter⟩ := Run.ok_of_bind h
    rw [outcome_recordCall_bind] at hafter
    exact ⟨n, hn, (Outcome.ok.inj hafter).symm⟩
  · rintro ⟨n, hn, rfl⟩
    rw [map, Run.outcome_bind_ok hn, outcome_recordCall_bind]
    rfl

/-- Keeps a match whose value has a property. -/
def filter (name : Option String) (accept : Value → Bool) (p : Parser) : Parser := fun c => do
  let m ← p c
  recordCall .predicate name m.shown
  if accept m.shown then pure m else Run.fail (c.rejection (.predicateFailed m.shown))

theorem outcome_filter_eq_ok_iff {name : Option String} {accept : Value → Bool} {p : Parser}
    {c : Cursor} {m : Match} : (filter name accept p c).outcome = .ok m ↔
      (p c).outcome = .ok m ∧ accept m.shown := by
  constructor
  · intro h
    obtain ⟨n, hn, hafter⟩ := Run.ok_of_bind h
    rw [outcome_recordCall_bind] at hafter
    split at hafter
    · next haccept =>
      obtain rfl := Outcome.ok.inj hafter
      exact ⟨hn, haccept⟩
    · cases hafter
  · rintro ⟨hm, haccept⟩
    rw [filter, Run.outcome_bind_ok hm, outcome_recordCall_bind, if_pos haccept]
    rfl

/-- Goes on behind a match with the parser that is chosen by its value. -/
def andThen (name : Option String) (continuation : Value → Option Parser) (p : Parser) :
    Parser := fun c => do
  let m ← p c
  recordCall .continuation name m.shown
  match continuation m.shown with
  | some q => q m.next
  | none => Run.fail (c.rejection (.noContinuation m.shown))

section Continuation

variable {name : Option String} {continuation : Value → Option Parser} {p q : Parser} {c : Cursor}
  {m : Match}

/-- Where a parser is chosen by a match, the outcome is that of the parser behind the match. -/
theorem outcome_andThen_of_ok (hm : (p c).outcome = .ok m)
    (hq : continuation m.shown = some q) :
    (andThen name continuation p c).outcome = (q m.next).outcome := by
  rw [andThen, Run.outcome_bind_ok hm, outcome_recordCall_bind, hq]

/-- A value without a continuation is a failure where the match started. -/
theorem outcome_andThen_of_none (hm : (p c).outcome = .ok m)
    (hnone : continuation m.shown = none) : (andThen name continuation p c).outcome =
      .failed (c.rejection (.noContinuation m.shown)) := by
  rw [andThen, Run.outcome_bind_ok hm, outcome_recordCall_bind, hnone]
  rfl

end Continuation

/-- Keeps a match whose value is a number between two bounds, which belong to the range. The
parser must yield a number. -/
def inRange (lower upper : Int64) (p : Parser) : Parser := fun c => do
  let m ← p c
  match m.value.bind Value.asInteger with
  | some n =>
    if lower.toInt ≤ n ∧ n ≤ upper.toInt then pure m
    else Run.fail (c.rejection (.outOfRange n lower upper))
  | none => Run.misuse .rangeNotInteger

section Range

variable {lower upper : Int64} {p : Parser} {c : Cursor} {m : Match}

theorem outcome_inRange_of_ok {n : Int} (hm : (p c).outcome = .ok m)
    (hn : m.value.bind Value.asInteger = some n) : (inRange lower upper p c).outcome =
      if lower.toInt ≤ n ∧ n ≤ upper.toInt then .ok m
      else .failed (c.rejection (.outOfRange n lower upper)) := by
  rw [inRange, Run.outcome_bind_ok hm, hn]
  show (if _ then _ else _ : Run Match).outcome = _
  split <;> rfl

theorem outcome_inRange_eq_ok_iff : (inRange lower upper p c).outcome = .ok m ↔
    (p c).outcome = .ok m ∧
      ∃ n, m.value.bind Value.asInteger = some n ∧ lower.toInt ≤ n ∧ n ≤ upper.toInt := by
  constructor
  · intro h
    obtain ⟨m', hm, hafter⟩ := Run.ok_of_bind h
    cases hn : m'.value.bind Value.asInteger with
    | none =>
      rw [hn] at hafter
      cases hafter
    | some n =>
      rw [outcome_inRange_of_ok hm hn] at h
      split at h
      · next hrange =>
        obtain rfl := Outcome.ok.inj h
        exact ⟨hm, n, hn, hrange⟩
      · cases h
  · rintro ⟨hm, n, hn, hrange⟩
    rw [outcome_inRange_of_ok hm hn, if_pos hrange]

end Range

/-- Runs a parser in another order of reading; behind it the order is what it was. -/
def withOrder (order : ReadOrder) (p : Parser) : Parser := fun c => do
  let m ← p (c.withOrder order)
  pure ⟨m.value, m.next.withOrder c.order⟩

end Parser

end BitGrammar
