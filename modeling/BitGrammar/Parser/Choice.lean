import BitGrammar.Parser

/-!
# One parser out of several

A choice is ordered: the first alternative that matches wins, whatever the later ones would do.
When all fail, the failure that got furthest into the input is reported.
-/

namespace BitGrammar

namespace Parser

/-- Tries alternatives in order, given how many were tried before and the furthest of their
failures. -/
def tryAll (c : Cursor) : List Parser → Nat → Option Failure → Run Match
  | [], _, furthest => Run.fail (furthest.getD (c.rejection .noAlternatives))
  | p :: ps, index, furthest => do
    match ← (p c).attempt with
    | .ok m => pure m
    | .error e => do
      Run.record (.choiceFailed index c.position e)
      tryAll c ps (index + 1) (some (Failure.keepFurthest furthest e))

/-- A match of alternatives is a match of one of them. -/
theorem exists_ok_of_tryAll {c : Cursor} {ps : List Parser} {index : Nat}
    {furthest : Option Failure} {m : Match} (h : (tryAll c ps index furthest).outcome = .ok m) :
    ∃ p ∈ ps, (p c).outcome = .ok m := by
  induction ps generalizing index furthest with
  | nil => cases h
  | cons p ps ih =>
    rcases Run.ok_of_attempt_bind h with ⟨n, hn, hafter⟩ | ⟨e, -, hafter⟩
    · cases hafter
      exact ⟨p, List.mem_cons_self .., hn⟩
    · obtain ⟨q, hq, hm⟩ := ih hafter
      exact ⟨q, List.mem_cons_of_mem p hq, hm⟩

/-- Matches the first alternative that can be matched. -/
def choice (ps : List Parser) : Parser := fun c =>
  tryAll c ps 0 none

/-- Matches a parser if it can be matched, and yields `Value.absent` otherwise. -/
def optional (p : Parser) : Parser := fun c => do
  match ← (p c).attempt with
  | .ok m => pure m
  | .error _ => pure ⟨some .absent, c⟩

/-- Matches the one of two parsers that can be matched, and fails when both or none can. -/
def exclusiveOr (first second : Parser) : Parser := fun c => do
  match ← (first c).attempt, ← (second c).attempt with
  | .ok m, .error _ => pure m
  | .error _, .ok m => pure m
  | .ok _, .ok _ => Run.fail (c.rejection .bothMatched)
  | .error e, .error e' => Run.fail (e.furthest e')

theorem ok_of_exclusiveOr {first second : Parser} {c : Cursor} {m : Match}
    (h : (exclusiveOr first second c).outcome = .ok m) :
    (first c).outcome = .ok m ∨ (second c).outcome = .ok m := by
  rcases Run.ok_of_attempt_bind h with ⟨n, hn, hsecond⟩ | ⟨e, -, hsecond⟩
  · rcases Run.ok_of_attempt_bind hsecond with ⟨n', -, hboth⟩ | ⟨e', -, hone⟩
    · cases hboth
    · cases hone
      exact .inl hn
  · rcases Run.ok_of_attempt_bind hsecond with ⟨n, hn, hone⟩ | ⟨e', -, hnone⟩
    · cases hone
      exact .inr hn
    · cases hnone

end Parser

end BitGrammar
