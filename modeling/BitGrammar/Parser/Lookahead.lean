import BitGrammar.Parser

/-!
# Looking ahead, and exclusion

Parsers that run another one only to see what it would do: tests for what follows, and a match
taken back when another parser matches the same input too far.
-/

namespace BitGrammar

namespace Parser

/-- Succeeds without moving when a parser would match here. -/
def followedBy (p : Parser) : Parser := fun c => do
  let _ ← p c
  pure ⟨some .unit, c⟩

theorem outcome_followedBy_eq_ok_iff {p : Parser} {c : Cursor} {m : Match} :
    (followedBy p c).outcome = .ok m ↔ m = ⟨some .unit, c⟩ ∧ ∃ n, (p c).outcome = .ok n := by
  constructor
  · intro h
    obtain ⟨n, hn, hm⟩ := Run.ok_of_bind h
    exact ⟨(Outcome.ok.inj hm).symm, n, hn⟩
  · rintro ⟨rfl, n, hn⟩
    exact Run.outcome_bind_ok hn

theorem exists_ok_followedBy_iff {p : Parser} {c : Cursor} :
    (∃ m, (followedBy p c).outcome = .ok m) ↔ ∃ n, (p c).outcome = .ok n := by
  constructor
  · rintro ⟨m, hm⟩
    exact (outcome_followedBy_eq_ok_iff.mp hm).2
  · intro h
    exact ⟨_, outcome_followedBy_eq_ok_iff.mpr ⟨rfl, h⟩⟩

/-- Succeeds without moving when a parser would not match here. -/
def notFollowedBy (p : Parser) : Parser := fun c => do
  match ← (p c).attempt with
  | .ok _ => Run.fail (c.rejection .unexpectedMatch)
  | .error _ => pure ⟨some .unit, c⟩

theorem outcome_notFollowedBy_of_ok {p : Parser} {c : Cursor} {m : Match}
    (h : (p c).outcome = .ok m) :
    (notFollowedBy p c).outcome = .failed (c.rejection .unexpectedMatch) :=
  Run.outcome_attempt_bind_ok h

theorem outcome_notFollowedBy_of_failed {p : Parser} {c : Cursor} {e : Failure}
    (h : (p c).outcome = .failed e) : (notFollowedBy p c).outcome = .ok ⟨some .unit, c⟩ :=
  Run.outcome_attempt_bind_failed h

/-- Matches a parser unless another one matches here as well and the two lengths, its own and the
other's, disqualify the match. -/
def excluding (excludes : Nat → Nat → Bool) (p other : Parser) : Parser := fun c => do
  let m ← p c
  match ← (other c).attempt with
  | .ok n =>
    let own := m.next.bitsSince c
    let others := n.next.bitsSince c
    if excludes own others then Run.fail (c.rejection (.excluded others own)) else pure m
  | .error _ => pure m

/-- A match that is not excluded is a match of the first parser. -/
theorem ok_of_excluding {excludes : Nat → Nat → Bool} {p other : Parser} {c : Cursor} {m : Match}
    (h : (excluding excludes p other c).outcome = .ok m) : (p c).outcome = .ok m := by
  obtain ⟨n, hn, hother⟩ := Run.ok_of_bind h
  rcases Run.ok_of_attempt_bind hother with ⟨n', -, hafter⟩ | ⟨e, -, hafter⟩
  · dsimp only at hafter
    split at hafter
    · cases hafter
    · cases hafter
      exact hn
  · cases hafter
    exact hn

/-- Matches a parser unless another one matches at least as much. -/
def butNot : Parser → Parser → Parser :=
  excluding fun own others => own ≤ others

/-- Matches a parser unless another one matches exactly as much. -/
def difference : Parser → Parser → Parser :=
  excluding fun own others => own == others

end Parser

end BitGrammar
