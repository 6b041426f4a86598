import BitGrammar.Rule.Cells

/-!
# Running rules

A rule runs over a store of cells: a reference runs the rule that its cell is bound to. As such a
rule may lead back to the cell, the number of nested entries into cells is bounded, and a run
that would enter deeper is `Outcome.endless`.

The bound of `Rule.parse` takes nothing away. What a run does from the entry into a cell on
depends only on the cell and the cursor, so a run that enters the same cell from the same cursor
again inside of it never ends; and there are only so many cells, positions and orders of reading.
-/

namespace BitGrammar

namespace Rule

/-- Runs a rule with at most the given number of nested entries into cells. -/
def parseWithin (cells : Cells) : (depth : Nat) → Rule → Parser
  | 0 => eval fun _ _ => Run.endless
  | depth + 1 => eval fun cell =>
    match cells.target? cell with
    | some target => parseWithin cells depth target
    | none => fun _ => Run.misuse .unbound

theorem parseWithin_ref {cells : Cells} {cell : Cell} {target : Rule}
    (h : cells.target? cell = some target) (depth : Nat) :
    (Rule.ref cell).parseWithin cells (depth + 1) = target.parseWithin cells depth := by
  funext c
  rw [parseWithin, eval, h]

section Lists

variable (cells : Cells) (depth : Nat) (rules : List Rule)

theorem parseWithin_sequence : (Rule.sequence rules).parseWithin cells depth =
    Parser.sequence (rules.map (parseWithin cells depth)) := by
  cases depth <;> simp only [parseWithin, eval, evalList_eq_map]

theorem parseWithin_choice : (Rule.choice rules).parseWithin cells depth =
    Parser.choice (rules.map (parseWithin cells depth)) := by
  cases depth <;> simp only [parseWithin, eval, evalList_eq_map]

theorem parseWithin_permutation : (Rule.permutation rules).parseWithin cells depth =
    Parser.permutation (rules.map (parseWithin cells depth)) := by
  cases depth <;> simp only [parseWithin, eval, evalList_eq_map]

end Lists

theorem parseWithin_andThen (cells : Cells) (depth : Nat) (name : Option String)
    (continuation : Value → Option Rule) (rule : Rule) :
    (Rule.andThen name continuation rule).parseWithin cells depth =
      Parser.andThen name (fun v => (continuation v).map (parseWithin cells depth))
        (rule.parseWithin cells depth) := by
  cases depth <;> simp only [parseWithin, eval, evalOption_eq_map]

/-- The number of nested entries into cells that a run which ends can make. -/
def depthBound (cells : Cells) (c : Cursor) : Nat :=
  4 * cells.bindings.length * c.positions + 1

/-- Runs a rule from a cursor. -/
def parse (cells : Cells) (rule : Rule) : Parser := fun c =>
  rule.parseWithin cells (depthBound cells c) c

/-- Parses from a cursor to a value, which is `Value.unit` when it is elided, and leaves a record
of the result. Input behind the match is left alone. -/
def parseValue (cells : Cells) (rule : Rule) (c : Cursor) : Run Value := do
  match ← (rule.parse cells c).attempt with
  | .ok m => do
    Run.record (.parseSucceeded m.next.position c.size)
    pure m.shown
  | .error e => do
    Run.record (.parseFailed e)
    Run.fail e

/-- Parses an input from its start to a value, or fails and says why. -/
def parseInput (cells : Cells) (rule : Rule) (input : Array UInt8) : Run Value :=
  rule.parseValue cells { input }

/-- Parses an input from its start in some order of reading, and gives a value if it can be
parsed. -/
def parseInput? (cells : Cells) (rule : Rule) (input : Array UInt8) (order : ReadOrder := {}) :
    Run (Option Value) := do
  match ← (rule.parseValue cells { input, order }).attempt with
  | .ok v => pure (some v)
  | .error _ => pure none

end Rule

end BitGrammar
